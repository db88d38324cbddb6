import Dataflow.Proofs.Closure.Inclusion
import Dataflow.Proofs.Plan.Contract

/-!
# Closures of contractions

A plan from which elements were contracted one after the other has an edge where the full one has a
detour past the elements that are gone, in whatever order they went (`Network.IsContraction`). Then
the closure finds the elements that were contracted between others.

* **`Network.IsContraction.bypassed`**: one more contraction.
* **`Plan.isContraction_contractAll`, `Plan.mem_ids_contractAll`**: any number of contractions, and
  the vertices that they leave.
* **`Plan.closure_contractAll`**: the closures by walks and by paths recover what contraction
  removed from between what it left.
-/

namespace Dataflow

open Relation

namespace Network

/-- Without the two sentinels no vertex is one. -/
theorem isSentinel_eq_false {n : Network} (hhead : .head ∉ n.ids) (htail : .tail ∉ n.ids) :
    ∀ v ∈ n.ids, v.isSentinel = false := by
  intro v hv
  refine Bool.eq_false_iff.mpr fun h => ?_
  rcases Bool.or_eq_true_iff.mp h with h | h
  · exact hhead (of_decide_eq_true h ▸ hv)
  · exact htail (of_decide_eq_true h ▸ hv)

/-- What contraction leaves of a network: some of the vertices, and an edge from one to another
where a walk passes none of the others. -/
structure IsContraction (full contracted : Network) : Prop where
  ids_subset : ∀ v ∈ contracted.ids, v ∈ full.ids
  step_iff : ∀ s t, contracted.Step s t ↔
    s ∈ contracted.ids ∧ t ∈ contracted.ids ∧ full.Detour (· ∈ contracted.ids) s t

namespace IsContraction

variable {full contracted : Network}

theorem refl (hn : full.Coherent) : full.IsContraction full where
  ids_subset _ h := h
  step_iff s t := by
    constructor
    · exact fun h => ⟨hn.source_mem_of_step h, hn.target_mem_of_step h, .single h⟩
    · rintro ⟨-, -, h⟩
      cases h with
      | single h => exact h
      | head h hk _ => exact absurd (hn.target_mem_of_step h) hk

/-- **One more contraction**: a detour past the element as well is one past it or two that meet
there. -/
theorem bypassed {p q : Plan} {v : ElementId} {new : List Link}
    (hp : full.IsContraction p.network) (hv : v ∈ p.network.ids) (h : p.Bypassed v new q) :
    full.IsContraction q.network where
  ids_subset w hw := hp.ids_subset w (h.mem_ids.mp hw).1
  step_iff s t := by
    have hwiden : ∀ {a b}, full.Detour (· ∈ p.network.ids) a b →
        full.Detour (· ∈ q.network.ids) a b := fun hab =>
      hab.mono fun w hw => (h.mem_ids.mp hw).1
    have hgone : ¬ v ∈ q.network.ids := fun hvq => (h.mem_ids.mp hvq).2 rfl
    rw [h.step_iff]
    constructor
    · rintro (⟨hs, ht, hst⟩ | ⟨hsv, hvt⟩)
      · obtain ⟨hsp, htp, hd⟩ := (hp.step_iff s t).mp hst
        exact ⟨h.mem_ids.mpr ⟨hsp, hs⟩, h.mem_ids.mpr ⟨htp, ht⟩, hwiden hd⟩
      · obtain ⟨hsp, -, hd⟩ := (hp.step_iff s v).mp hsv
        obtain ⟨-, htp, hd'⟩ := (hp.step_iff v t).mp hvt
        have hs : s ≠ v := p.acyclic.ne_of_transGen (.single hsv)
        have ht : v ≠ t := p.acyclic.ne_of_transGen (.single hvt)
        exact ⟨h.mem_ids.mpr ⟨hsp, hs⟩, h.mem_ids.mpr ⟨htp, ht.symm⟩,
          (hwiden hd).trans hgone (hwiden hd')⟩
    · rintro ⟨hs, ht, hd⟩
      obtain ⟨hsp, hsv⟩ := h.mem_ids.mp hs
      obtain ⟨htp, htv⟩ := h.mem_ids.mp ht
      have hcut := hd.cut fun w hw hne => h.mem_ids.mpr ⟨hw, hne⟩
      rcases hcut with hd | ⟨hd, hd'⟩
      · exact .inl ⟨hsv, htv, (hp.step_iff s t).mpr ⟨hsp, htp, hd⟩⟩
      · exact .inr ⟨(hp.step_iff s v).mpr ⟨hsp, hv, hd⟩, (hp.step_iff v t).mpr ⟨hv, htp, hd'⟩⟩

/-! ### The closures -/

/-- A vertex that was contracted between two that are left was contracted between the ends of an
edge. -/
theorem exists_link_around (h : full.IsContraction contracted) {a v d : ElementId}
    (ha : a ∈ contracted.ids) (hd : d ∈ contracted.ids) (hv : v ∉ contracted.ids)
    (hav : TransGen full.Step a v) (hvd : TransGen full.Step v d) :
    ∃ l ∈ contracted.links, full.Detour (· ∈ contracted.ids) l.source v ∧
      full.Detour (· ∈ contracted.ids) v l.target := by
  obtain ⟨s, hs, hsv⟩ := exists_detour_to (· ∈ contracted.ids) hav ha
  obtain ⟨t, ht, hvt⟩ := exists_detour_from (· ∈ contracted.ids) hvd hd
  obtain ⟨l, hl, rfl, rfl⟩ := (h.step_iff s t).mpr ⟨hs, ht, hsv.trans hv hvt⟩
  exact ⟨l, hl, hsv, hvt⟩

/-- **The closure by paths holds what was contracted between what is left.** -/
theorem mem_pathClosure_iff (h : full.IsContraction contracted) (hn : full.Coherent)
    (ha : full.Acyclic) (hc : contracted.Coherent) {v : ElementId} :
    v ∈ full.pathClosure contracted ↔
      v ∈ contracted.ids ∨ (v ∈ full.ids ∧ v ∉ contracted.ids ∧ ∃ a ∈ contracted.ids,
        ∃ d ∈ contracted.ids, TransGen full.Step a v ∧ TransGen full.Step v d) := by
  by_cases hv : v ∈ contracted.ids
  · exact iff_of_true (mem_pathClosure.mpr (.inl hv)) (.inl hv)
  · rw [mem_pathClosure_iff_detour ha hc hv, or_iff_right hv]
    constructor
    · rintro ⟨l, hl, -, -, hsv, hvt⟩
      exact ⟨hn.target_mem_of_transGen hsv.transGen, hv, l.source, hc.source_mem l hl, l.target,
        hc.target_mem l hl, hsv.transGen, hvt.transGen⟩
    · rintro ⟨-, -, a, ha, d, hd, hav, hvd⟩
      obtain ⟨l, hl, hsv, hvt⟩ := h.exists_link_around ha hd hv hav hvd
      exact ⟨l, hl, h.ids_subset _ (hc.source_mem l hl), h.ids_subset _ (hc.target_mem l hl), hsv,
        hvt⟩

/-- **Without sentinels the closure by walks finds the same vertices.** -/
theorem closure_eq_pathClosure (h : full.IsContraction contracted) (hn : full.Coherent)
    (ha : full.Acyclic) (hc : contracted.Coherent) (hs : ∀ v ∈ full.ids, v.isSentinel = false) :
    (full.closure contracted []).vertices = full.pathClosure contracted := by
  refine SortedSet.ext fun v => ⟨fun hv => ?_, pathClosure_subset_closure hn ha hc hs⟩
  refine (h.mem_pathClosure_iff hn ha hc).mpr ?_
  by_cases hvc : v ∈ contracted.ids
  · exact .inl hvc
  · obtain ⟨l, hl, hsv, hvt⟩ := exists_link_of_mem_closure hn hc hv hvc
    exact .inr ⟨hn.target_mem_of_transGen hsv, hvc, l.source, hc.source_mem l hl, l.target,
      hc.target_mem l hl, hsv, hvt⟩

end IsContraction

end Network

namespace Plan

/-- Contracts elements one after the other, each with any number of inbound edges. What is no vertex
is passed over. -/
def contractAll (p : Plan) (vs : List ElementId) : Plan :=
  vs.foldl (fun p v => (p.contract v .anyInbound).2) p

theorem contract_of_not_mem {p : Plan} {v : ElementId} (hv : v ∉ p.network.ids)
    (mode : ContractionMode) : p.contract v mode = (.error (.notAVertex v), p) := by
  unfold contract
  rw [Network.element?_eq_none_iff.mpr hv]

/-- A contraction takes the element out, if it is a vertex. -/
theorem mem_ids_contract {p : Plan} {v w : ElementId} :
    w ∈ (p.contract v .anyInbound).2.network.ids ↔ w ∈ p.network.ids ∧ w ≠ v := by
  by_cases hv : v ∈ p.network.ids
  · obtain ⟨q, new, hq, hbypassed⟩ := exists_contract hv (.inl rfl)
    rw [hq]
    exact hbypassed.mem_ids
  · rw [contract_of_not_mem hv]
    exact (and_iff_left_of_imp fun hw => ne_of_mem_of_not_mem hw hv).symm

/-- **A contraction of a contraction is one of the full network.** -/
theorem isContraction_contract {n : Network} {p : Plan} (h : n.IsContraction p.network)
    (v : ElementId) : n.IsContraction (p.contract v .anyInbound).2.network := by
  by_cases hv : v ∈ p.network.ids
  · obtain ⟨q, new, hq, hbypassed⟩ := exists_contract hv (.inl rfl)
    rw [hq]
    exact h.bypassed hv hbypassed
  · rw [contract_of_not_mem hv]
    exact h

/-- **Any number of contractions.** -/
theorem isContraction_contractAll {n : Network} {p : Plan} (h : n.IsContraction p.network)
    (vs : List ElementId) : n.IsContraction (p.contractAll vs).network := by
  induction vs generalizing p with
  | nil => exact h
  | cons v vs ih => exact ih (isContraction_contract h v)

/-- **What was contracted is gone**, and nothing else. -/
theorem mem_ids_contractAll {p : Plan} {vs : List ElementId} {w : ElementId} :
    w ∈ (p.contractAll vs).network.ids ↔ w ∈ p.network.ids ∧ w ∉ vs := by
  induction vs generalizing p with
  | nil => simp [contractAll]
  | cons v vs ih =>
    show w ∈ ((p.contract v .anyInbound).2.contractAll vs).network.ids ↔ _
    rw [ih, mem_ids_contract, List.mem_cons, not_or, and_assoc]

/-- **The closures recover what contraction removed** from between what it left. -/
theorem closure_contractAll (full : Plan) (vs : List ElementId)
    (hhead : .head ∉ full.network.ids) (htail : .tail ∉ full.network.ids) :
    let contracted := full.contractAll vs
    (full.network.closure contracted.network []).vertices =
        full.network.pathClosure contracted.network ∧
      ∀ v, v ∈ full.network.pathClosure contracted.network ↔
        v ∈ contracted.network.ids ∨
          (v ∈ full.network.ids ∧ v ∉ contracted.network.ids ∧
            ∃ a ∈ contracted.network.ids, ∃ d ∈ contracted.network.ids,
              TransGen full.network.Step a v ∧ TransGen full.network.Step v d) := by
  intro contracted
  have hcontraction : full.network.IsContraction contracted.network :=
    isContraction_contractAll (.refl full.coherent) vs
  have hs := Network.isSentinel_eq_false hhead htail
  refine ⟨?_, fun v => ?_⟩
  · exact hcontraction.closure_eq_pathClosure full.coherent full.acyclic contracted.coherent hs
  · exact hcontraction.mem_pathClosure_iff full.coherent full.acyclic contracted.coherent

/-- What was contracted between the ends of the diamond comes back. The vertex after it and the one
that feeds its ways were contracted as well, and do not: one leads nowhere, and nothing leads to the
other. -/
theorem closure_contractAll_fedDiamond :
    let full := fedDiamond.network
    let gone := [⟨3⟩, ⟨4⟩, ⟨6⟩, ⟨7⟩]
    let contracted := (fedDiamond.contractAll gone).network
    .head ∉ full.ids ∧ .tail ∉ full.ids ∧
      (full.closure contracted []).vertices = full.pathClosure contracted ∧
      (∀ v ∈ gone, v ∈ full.ids ∧ v ∉ contracted.ids) ∧
      (∀ v ∈ [⟨3⟩, ⟨4⟩], v ∈ full.pathClosure contracted) ∧
      ⟨6⟩ ∉ full.pathClosure contracted ∧ ⟨7⟩ ∉ full.pathClosure contracted := by
  intro full gone contracted
  obtain ⟨hhead, htail, hgone, hends, hbetween, hlast, hfirst⟩ :
      .head ∉ full.ids ∧ .tail ∉ full.ids ∧ (∀ v ∈ gone, v ∈ full.ids) ∧
      (∀ v ∈ [⟨2⟩, ⟨5⟩], v ∈ full.ids ∧ v ∉ gone) ∧
      (∀ v ∈ [⟨3⟩, ⟨4⟩], v ∈ gone ∧ v ∈ full.descendants ⟨2⟩ ∧ ⟨5⟩ ∈ full.descendants v) ∧
      full.descendants ⟨6⟩ = [] ∧ full.ancestors ⟨7⟩ = [] := by decide +kernel
  have hdown : ∀ {a b}, b ∈ full.descendants a ↔ TransGen full.Step a b :=
    Network.mem_descendants fedDiamond.coherent.target_mem
  have hup : ∀ {a b}, a ∈ full.ancestors b ↔ TransGen full.Step a b :=
    Network.mem_ancestors fedDiamond.coherent.source_mem
  have hleft : ∀ {v}, v ∈ contracted.ids ↔ v ∈ full.ids ∧ v ∉ gone := mem_ids_contractAll
  have hout : ∀ v ∈ gone, v ∉ contracted.ids := fun v hv h => (hleft.mp h).2 hv
  obtain ⟨heq, hmem⟩ := closure_contractAll fedDiamond gone hhead htail
  refine ⟨hhead, htail, heq, fun v hv => ⟨hgone v hv, hout v hv⟩, fun v hv => ?_, fun h => ?_,
    fun h => ?_⟩
  · obtain ⟨hv, hfrom, hto⟩ := hbetween v hv
    exact (hmem v).mpr (.inr ⟨hgone v hv, hout v hv, ⟨2⟩, hleft.mpr (hends ⟨2⟩ (by simp)), ⟨5⟩,
      hleft.mpr (hends ⟨5⟩ (by simp)), hdown.mp hfrom, hdown.mp hto⟩)
  · obtain ⟨-, -, -, -, d, -, -, hto⟩ := ((hmem ⟨6⟩).mp h).resolve_left (hout ⟨6⟩ (by simp [gone]))
    exact absurd (hdown.mpr hto) (hlast ▸ List.not_mem_nil)
  · obtain ⟨-, -, a, -, -, -, hfrom, -⟩ :=
      ((hmem ⟨7⟩).mp h).resolve_left (hout ⟨7⟩ (by simp [gone]))
    exact absurd (hup.mpr hfrom) (hfirst ▸ List.not_mem_nil)

end Plan

end Dataflow
