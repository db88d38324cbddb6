import Mathlib.Data.List.Nodup
import Dataflow.Network.Reach
import Dataflow.Network.View
import Dataflow.Proofs.Path.Walk

/-!
# Reachability in a network and its parts

* **`Network.mem_onWalk`**: the vertices between two others are those on a walk from one to the
  other.
* **`Network.Coherent.sub`**: a part of a coherent network that shows the ends of its edges is
  coherent; masks and restrictions are such parts.
-/

namespace Dataflow.Network

open Relation

variable {n : Network}

theorem via_predecessors_iff (hn : ∀ l ∈ n.links, l.source ∈ n.ids) {a b : ElementId} :
    Via n.predecessors n.ids b a ↔ TransGen n.Step a b := by
  constructor
  · intro h
    induction h with
    | single hs _ => exact .single (mem_predecessors.mp hs)
    | head hs _ _ ih => exact ih.tail (mem_predecessors.mp hs)
  · intro h
    have hmem : ∀ {a b}, n.Step a b → a ∈ n.ids := fun ⟨l, hl, hs, _⟩ => hs ▸ hn l hl
    induction h using TransGen.head_induction_on with
    | single hs => exact .single (mem_predecessors.mpr hs) (hmem hs)
    | head hs _ ih => exact ih.trans (.single (mem_predecessors.mpr hs) (hmem hs))

/-- **The ancestors are the starts of the walks.** -/
theorem mem_ancestors (hn : ∀ l ∈ n.links, l.source ∈ n.ids) {a b : ElementId} :
    a ∈ n.ancestors b ↔ TransGen n.Step a b := by
  unfold ancestors
  rw [mem_sweep, ← via_predecessors_iff hn]
  simp

theorem mem_cons_descendants (hn : n.Coherent) {s v : ElementId} :
    v ∈ s :: n.descendants s ↔ ReflTransGen n.Step s v := by
  rw [List.mem_cons, mem_descendants hn.target_mem, reflTransGen_iff_eq_or_transGen]

theorem mem_cons_ancestors (hn : n.Coherent) {v t : ElementId} :
    v ∈ t :: n.ancestors t ↔ ReflTransGen n.Step v t := by
  rw [List.mem_cons, mem_ancestors hn.source_mem, reflTransGen_iff_eq_or_transGen, eq_comm]

theorem Coherent.mem_of_reflTransGen (hn : n.Coherent) {s v : ElementId} (hs : s ∈ n.ids)
    (h : ReflTransGen n.Step s v) : v ∈ n.ids := by
  cases h with
  | refl => exact hs
  | tail _ h => exact hn.target_mem_of_step h

/-- **The vertices between two others are those on a walk from one to the other.** -/
theorem mem_onWalk (hn : n.Coherent) {s t v : ElementId} : v ∈ n.onWalk s t ↔
    s ∈ n.ids ∧ t ∈ n.ids ∧ ReflTransGen n.Step s v ∧ ReflTransGen n.Step v t := by
  unfold onWalk
  simp only [Bool.and_eq_true, contains_iff]
  by_cases hends : s ∈ n.ids ∧ t ∈ n.ids
  · rw [if_pos hends, List.mem_filter, Bool.and_eq_true, List.contains_iff_mem,
      List.contains_iff_mem, mem_cons_descendants hn, mem_cons_ancestors hn]
    constructor
    · rintro ⟨-, hsv, hvt⟩
      exact ⟨hends.1, hends.2, hsv, hvt⟩
    · rintro ⟨-, -, hsv, hvt⟩
      exact ⟨hn.mem_of_reflTransGen hends.1 hsv, hsv, hvt⟩
  · rw [if_neg hends]
    exact iff_of_false List.not_mem_nil fun h => hends ⟨h.1, h.2.1⟩

/-! ### Degrees -/

theorem inDegree_eq_zero_iff {v : ElementId} : n.inDegree v = 0 ↔ ∀ u, ¬ n.Step u v := by
  have hlen : n.inDegree v = (n.predecessors v).length := List.length_map _ |>.symm
  rw [hlen, List.length_eq_zero_iff, List.eq_nil_iff_forall_not_mem]
  exact forall_congr' fun u => not_congr mem_predecessors

theorem outDegree_eq_zero_iff {v : ElementId} : n.outDegree v = 0 ↔ ∀ u, ¬ n.Step v u := by
  have hlen : n.outDegree v = (n.successors v).length := List.length_map _ |>.symm
  rw [hlen, List.length_eq_zero_iff, List.eq_nil_iff_forall_not_mem]
  exact forall_congr' fun u => not_congr mem_successors

/-! ### Parts of a network -/

theorem reflTransGen_mono {m : Network} (h : ∀ l ∈ m.links, l ∈ n.links) {a b : ElementId}
    (hab : ReflTransGen m.Step a b) : ReflTransGen n.Step a b :=
  hab.lift id fun _ _ => Step.mono h

/-- **A part of a coherent network is coherent** if it shows the ends of its edges. -/
theorem Coherent.sub (hn : n.Coherent) {m : Network} (he : m.elements.Sublist n.elements)
    (hl : m.links.Sublist n.links) (hends : ∀ l ∈ m.links, l.source ∈ m.ids ∧ l.target ∈ m.ids) :
    m.Coherent where
  ids_nodup := hn.ids_nodup.sublist (he.map _)
  source_mem l h := (hends l h).1
  target_mem l h := (hends l h).2
  links_ascending := hn.links_ascending.sublist hl

theorem Coherent.mask (hn : n.Coherent) : n.mask.Coherent := by
  refine hn.sub List.filter_sublist List.filter_sublist fun l h => ?_
  obtain ⟨hl, ht⟩ := mem_links_mask.mp h
  obtain ⟨hs, ht⟩ := Bool.or_eq_false_iff.mp ht
  exact ⟨mem_ids_mask.mpr ⟨hn.source_mem l hl, hs⟩, mem_ids_mask.mpr ⟨hn.target_mem l hl, ht⟩⟩

theorem Coherent.restrict (hn : n.Coherent) (vs : List ElementId) (es : Option (List EdgeId)) :
    (n.restrict vs es).Coherent := by
  refine hn.sub List.filter_sublist List.filter_sublist fun l h => ?_
  obtain ⟨_, hs, ht, _⟩ := mem_links_restrict.mp h
  exact ⟨hs, ht⟩

/-- Layers over a coherent network show a coherent one. -/
theorem Coherent.view (hn : n.Coherent) (layer : Layer) : (layer.view n).Coherent := by
  cases layer with
  | mask => exact hn.mask
  | restrict vs es => exact hn.restrict vs es

theorem Coherent.through (hn : n.Coherent) (layers : List Layer) : (n.through layers).Coherent := by
  induction layers generalizing n with
  | nil => exact hn
  | cons layer layers ih => exact ih (hn.view layer)

/-- Layers over a network without cycles show one without. -/
theorem Acyclic.through (hn : n.Acyclic) (layers : List Layer) : (n.through layers).Acyclic := by
  induction layers generalizing n with
  | nil => exact hn
  | cons layer layers ih =>
    refine ih (hn.mono fun _ _ => Step.mono fun l hl => ?_)
    cases layer with
    | mask => exact (mem_links_mask.mp hl).1
    | restrict vs es => exact (mem_links_restrict.mp hl).1

theorem Coherent.links_nodup (hn : n.Coherent) : n.links.Nodup :=
  hn.links_ascending.imp fun hkl heq => Nat.ne_of_lt hkl (congrArg Link.id heq)

/-- A number denotes one edge. -/
theorem Coherent.eq_of_id (hn : n.Coherent) {k l : Link} (hk : k ∈ n.links) (hl : l ∈ n.links)
    (h : k.id = l.id) : k = l := by
  have hnd : (n.links.map (·.id)).Nodup :=
    List.pairwise_map.mpr (hn.links_ascending.imp Nat.ne_of_lt)
  exact List.inj_on_of_nodup_map hnd hk hl h

/-- A number denotes the edge that has it. -/
theorem Coherent.link?_eq (hn : n.Coherent) {l : Link} (hl : l ∈ n.links) :
    n.link? l.id = some l := by
  unfold link?
  obtain ⟨k, hk⟩ : ∃ k, n.links.find? (fun k => k.id = l.id) = some k :=
    Option.ne_none_iff_exists'.mp fun h => List.find?_eq_none.mp h l hl (decide_eq_true rfl)
  rw [hk, hn.eq_of_id (List.mem_of_find?_eq_some hk) hl (by simpa using List.find?_some hk)]

end Dataflow.Network
