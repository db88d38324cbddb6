import Dataflow.Closure.Walks
import Dataflow.Proofs.Network.Reach

/-!
# The closure by walks

* **`Network.mem_closure`**: the closure holds the contracted vertices, and those on a walk inside
  the region between the ends of a contracted edge.
* **`Network.Coherent.mem_pruned`**: its pruned edges are those that leak.
* **`Network.Detour.transGen_inside`, `Network.detour_of_transGen_inside`**: pruning leaves the
  detours past entries and exits, and nothing else.
* **`Network.inside_mask`**: what is inside does not depend on whether the sentinels were hidden
  before.
-/

namespace Dataflow.Network

open Relation

variable {full contracted : Network} {excludes : List ElementId}

theorem isEntry_iff {v : ElementId} :
    contracted.isEntry v = true ↔ v ∈ contracted.ids ∧ ∀ u, ¬ contracted.Step u v := by
  rw [← inDegree_eq_zero_iff]
  simp [isEntry]

theorem isExit_iff {v : ElementId} :
    contracted.isExit v = true ↔ v ∈ contracted.ids ∧ ∀ u, ¬ contracted.Step v u := by
  rw [← outDegree_eq_zero_iff]
  simp [isExit]

/-- A vertex that an edge enters is no entry. -/
theorem not_isEntry_of_mem {l : Link} (h : l ∈ contracted.links) :
    contracted.isEntry l.target = false :=
  Bool.eq_false_iff.mpr fun he => (isEntry_iff.mp he).2 l.source ⟨l, h, rfl, rfl⟩

/-- A vertex that an edge leaves is no exit. -/
theorem not_isExit_of_mem {l : Link} (h : l ∈ contracted.links) :
    contracted.isExit l.source = false :=
  Bool.eq_false_iff.mpr fun he => (isExit_iff.mp he).2 l.target ⟨l, h, rfl, rfl⟩

theorem leaks_eq_true_iff {l : Link} : full.leaks contracted excludes l = true ↔
    (∃ v ∈ excludes, v ∈ full.ids ∧ l.touches v = true) ∨
      contracted.isEntry l.target = true ∨ contracted.isExit l.source = true := by
  simp [leaks, or_assoc]

/-- Without excluded elements, an edge leaks only into an entry or out of an exit. -/
theorem leaks_nil {l : Link} : full.leaks contracted [] l =
    (contracted.isEntry l.target || contracted.isExit l.source) := by
  simp [leaks]

theorem leaks_of_leaks_nil {l : Link} (h : full.leaks contracted [] l = true) :
    full.leaks contracted excludes l = true := by
  rw [leaks_nil, Bool.or_eq_true] at h
  exact leaks_eq_true_iff.mpr (.inr h)

/-- What leaks in a part of the network leaks in the network. -/
theorem leaks_mono {part : Network} (hsub : ∀ v ∈ part.ids, v ∈ full.ids) {l : Link}
    (h : part.leaks contracted excludes l = true) : full.leaks contracted excludes l = true := by
  refine leaks_eq_true_iff.mpr ((leaks_eq_true_iff.mp h).imp_left ?_)
  rintro ⟨v, hx, hv, ht⟩
  exact ⟨v, hx, hsub v hv, ht⟩

/-! ### The region -/

theorem mem_ids_inside {v : ElementId} :
    v ∈ (full.inside contracted excludes).ids ↔ v ∈ full.ids ∧ v.isSentinel = false :=
  mem_ids_mask

theorem mem_links_inside {l : Link} : l ∈ (full.inside contracted excludes).links ↔
    l ∈ full.links ∧ l.touchesSentinel = false ∧ full.leaks contracted excludes l = false := by
  unfold inside
  rw [List.mem_filter, mem_links_mask, Bool.not_eq_true', and_assoc]

theorem links_of_inside {l : Link} (h : l ∈ (full.inside contracted excludes).links) :
    l ∈ full.links :=
  (mem_links_inside.mp h).1

theorem Coherent.inside (hn : full.Coherent) : (full.inside contracted excludes).Coherent := by
  refine hn.mask.sub (.refl _) List.filter_sublist fun l h => ?_
  have hl : l ∈ full.mask.links := List.mem_of_mem_filter h
  exact ⟨hn.mask.source_mem l hl, hn.mask.target_mem l hl⟩

/-- Where no end is a sentinel, hiding the sentinels does not change whether an edge leaks. -/
theorem leaks_mask {l : Link} (h : l.touchesSentinel = false) :
    full.mask.leaks contracted excludes l = full.leaks contracted excludes l := by
  obtain ⟨hs, ht⟩ := Bool.or_eq_false_iff.mp h
  have hends : ∀ v, l.touches v = true → v.isSentinel = false := by
    intro v hv
    rcases Bool.or_eq_true_iff.mp hv with h | h
    · exact of_decide_eq_true h ▸ hs
    · exact of_decide_eq_true h ▸ ht
  rw [Bool.eq_iff_iff, leaks_eq_true_iff, leaks_eq_true_iff]
  refine or_congr_left (exists_congr fun v => and_congr_right fun _ => and_congr_left fun hv => ?_)
  rw [mem_ids_mask]
  exact and_iff_left (hends v hv)

theorem not_isEntry_of_not_mem {v : ElementId} (h : v ∉ contracted.ids) :
    contracted.isEntry v = false :=
  Bool.eq_false_iff.mpr fun he => h (isEntry_iff.mp he).1

theorem not_isExit_of_not_mem {v : ElementId} (h : v ∉ contracted.ids) :
    contracted.isExit v = false :=
  Bool.eq_false_iff.mpr fun he => h (isExit_iff.mp he).1

/-- Pruning cuts the vertex off on one side: it is an entry or an exit. -/
def IsRim (contracted : Network) (v : ElementId) : Prop :=
  contracted.isEntry v = true ∨ contracted.isExit v = true

theorem not_isRim_iff {v : ElementId} :
    ¬ contracted.IsRim v ↔ contracted.isEntry v = false ∧ contracted.isExit v = false := by
  rw [IsRim, not_or, Bool.not_eq_true, Bool.not_eq_true]

theorem IsRim.mem {v : ElementId} (h : contracted.IsRim v) : v ∈ contracted.ids :=
  h.elim (fun h => (isEntry_iff.mp h).1) fun h => (isExit_iff.mp h).1

/-- **Pruning cuts no detour past entries and exits**, as far as its start is no exit and its end no
entry. -/
theorem Detour.transGen_inside (hs : ∀ v ∈ full.ids, v.isSentinel = false) (hn : full.Coherent)
    {a b : ElementId} (h : full.Detour contracted.IsRim a b)
    (ha : contracted.isExit a = false) (hb : contracted.isEntry b = false) :
    TransGen (full.inside contracted []).Step a b := by
  have hstep : ∀ {a b}, full.Step a b → contracted.isExit a = false →
      contracted.isEntry b = false → (full.inside contracted []).Step a b := by
    rintro a b ⟨l, hl, rfl, rfl⟩ ha hb
    refine ⟨l, mem_links_inside.mpr ⟨hl, ?_, ?_⟩, rfl, rfl⟩
    · exact Bool.or_eq_false_iff.mpr
        ⟨hs _ (hn.source_mem l hl), hs _ (hn.target_mem l hl)⟩
    · rw [leaks_nil, ha, hb]
      rfl
  induction h with
  | single h => exact .single (hstep h ha hb)
  | head h hk _ ih =>
    obtain ⟨hentry, hexit⟩ := not_isRim_iff.mp hk
    exact .head (hstep h ha hentry) (ih hexit hb)

/-- **What pruning leaves is a detour past entries and exits.** -/
theorem detour_of_transGen_inside {a b : ElementId}
    (h : TransGen (full.inside contracted excludes).Step a b) :
    full.Detour contracted.IsRim a b := by
  have hkept : ∀ {a b}, (full.inside contracted excludes).Step a b →
      contracted.isEntry b = false ∧ contracted.isExit a = false := by
    rintro a b ⟨l, hl, rfl, rfl⟩
    have hleaks := mt leaks_of_leaks_nil (Bool.eq_false_iff.mp (mem_links_inside.mp hl).2.2)
    rw [leaks_nil, Bool.not_eq_true] at hleaks
    exact Bool.or_eq_false_iff.mp hleaks
  induction h using TransGen.head_induction_on with
  | single h => exact .single (h.mono fun _ => links_of_inside)
  | head h hcb ih =>
    obtain ⟨_, hnext, -⟩ := TransGen.head'_iff.mp hcb
    exact .head (h.mono fun _ => links_of_inside) (not_isRim_iff.mpr ⟨(hkept h).1, (hkept hnext).2⟩)
      ih

/-- **What is inside does not depend on whether the sentinels were hidden before.** -/
theorem inside_mask : full.mask.inside contracted excludes = full.inside contracted excludes := by
  have he : full.mask.mask = full.mask := by
    unfold mask
    simp only [List.filter_filter, Bool.and_self]
  have hl : full.mask.links.filter (fun l => !full.mask.leaks contracted excludes l) =
      full.mask.links.filter fun l => !full.leaks contracted excludes l :=
    List.filter_congr fun l hl => by rw [leaks_mask (mem_links_mask.mp hl).2]
  unfold inside
  simp only [he, hl]

/-! ### The closure -/

/-- **The closure holds the contracted vertices, and those on a walk inside the region between the
ends of a contracted edge.** -/
theorem mem_closure (hn : full.Coherent) {v : ElementId} :
    v ∈ (full.closure contracted excludes).vertices ↔ v ∈ contracted.ids ∨
      ∃ l ∈ contracted.links, l.source ∈ (full.inside contracted excludes).ids ∧
        l.target ∈ (full.inside contracted excludes).ids ∧
        ReflTransGen (full.inside contracted excludes).Step l.source v ∧
        ReflTransGen (full.inside contracted excludes).Step v l.target := by
  unfold closure
  simp only [SortedSet.mem_ofList, List.mem_append, List.mem_flatMap, mem_onWalk hn.inside]

/-- A vertex of the closure that is not contracted stands between the ends of a contracted edge. -/
theorem exists_link_of_mem_closure (hn : full.Coherent) (hc : contracted.Coherent) {v : ElementId}
    (h : v ∈ (full.closure contracted excludes).vertices) (hv : v ∉ contracted.ids) :
    ∃ l ∈ contracted.links, TransGen full.Step l.source v ∧ TransGen full.Step v l.target := by
  obtain ⟨l, hl, -, -, hsv, hvt⟩ := ((mem_closure hn).mp h).resolve_left hv
  have hsv := reflTransGen_mono (fun _ => links_of_inside) hsv
  have hvt := reflTransGen_mono (fun _ => links_of_inside) hvt
  have hs : v ≠ l.source := fun h => hv (h ▸ hc.source_mem l hl)
  have ht : l.target ≠ v := fun h => hv (h ▸ hc.target_mem l hl)
  exact ⟨l, hl, (reflTransGen_iff_eq_or_transGen.mp hsv).resolve_left hs,
    (reflTransGen_iff_eq_or_transGen.mp hvt).resolve_left ht⟩

theorem closure_mask_vertices :
    (full.mask.closure contracted excludes).vertices =
      (full.closure contracted excludes).vertices := by
  unfold closure
  simp only [inside_mask]

/-- **The pruned edges are those that leak.** -/
theorem Coherent.mem_pruned (hn : full.Coherent) {l : Link} (hl : l ∈ full.links) :
    l.id ∈ (full.closure contracted excludes).pruned ↔
      full.leaks contracted excludes l = true := by
  unfold closure
  simp only [SortedSet.mem_ofList, List.mem_map, List.mem_filter]
  constructor
  · rintro ⟨k, ⟨hk, hleaks⟩, hid⟩
    exact hn.eq_of_id hk hl hid ▸ hleaks
  · exact fun h => ⟨l, ⟨hl, h⟩, rfl⟩

end Dataflow.Network
