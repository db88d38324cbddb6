import Dataflow.Plan.Contract
import Dataflow.Proofs.Plan.Edge

/-!
# What contraction does to a plan

* **`Plan.exists_contract`**: a contraction succeeds on every vertex whose mode allows it; the
  edges that stay are kept as they are, and the bypasses are the only new ones.
* **`Plan.Bypassed.step_iff`**: where an edge leads after a contraction.
-/

namespace Dataflow.Plan

open Relation

variable {p q : Plan} {v : ElementId}

/-- A bypass runs along a walk through the element. -/
theorem mem_bypasses {n : Network} {e : Element} {b : ElementId × ElementId × Edge} :
    b ∈ bypasses n v e ↔ ∃ i ∈ n.links, i.target = v ∧ ∃ o ∈ n.links, o.source = v ∧
      (i.source, o.target, bypass e i.edge o.edge) = b := by
  unfold bypasses
  simp only [List.mem_flatMap, List.mem_map, Network.mem_incoming, Network.mem_outgoing, and_assoc]

/-- The plan without a vertex, its edges and its tags, and with new edges that bypass it. -/
structure Bypassed (p : Plan) (v : ElementId) (new : List Link) (q : Plan) : Prop where
  elements : q.network.elements = p.network.elements.filter (·.id ≠ v)
  links : q.network.links.Perm (new ++ p.network.links.filter fun l => !l.touches v)
  tags : q.network.tags = p.network.tags.map (·.remove v)
  new_ends : ∃ e, p.network.element? v = some e ∧ (new.map ends).Perm (bypasses p.network v e)

namespace Bypassed

variable {new : List Link}

theorem mem_ids (h : p.Bypassed v new q) {w : ElementId} :
    w ∈ q.network.ids ↔ w ∈ p.network.ids ∧ w ≠ v := by
  rw [Network.mem_ids_of_filter (· ≠ v) h.elements, decide_eq_true_eq]

/-- The other elements stay. -/
theorem element?_eq (h : p.Bypassed v new q) {w : ElementId} (hw : w ≠ v) :
    q.network.element? w = p.network.element? w := by
  unfold Network.element?
  rw [h.elements, List.find?_filter]
  congr 1
  funext e
  by_cases he : e.id = w
  · simp [he, hw]
  · simp [he]

theorem exists_mem_new_iff (h : p.Bypassed v new q) {a b : ElementId} :
    (∃ l ∈ new, l.source = a ∧ l.target = b) ↔ p.network.Step a v ∧ p.network.Step v b := by
  obtain ⟨e, -, hends⟩ := h.new_ends
  have hnew : (∃ l ∈ new, l.source = a ∧ l.target = b) ↔
      ∃ x ∈ bypasses p.network v e, x.1 = a ∧ x.2.1 = b := by
    simp only [← hends.mem_iff, List.mem_map]
    constructor
    · rintro ⟨l, hl, hs, ht⟩
      exact ⟨ends l, ⟨l, hl, rfl⟩, hs, ht⟩
    · rintro ⟨_, ⟨l, hl, rfl⟩, hs, ht⟩
      exact ⟨l, hl, hs, ht⟩
  rw [hnew]
  constructor
  · rintro ⟨_, hx, rfl, rfl⟩
    obtain ⟨i, hi, hiv, o, ho, hov, rfl⟩ := mem_bypasses.mp hx
    exact ⟨⟨i, hi, rfl, hiv⟩, ⟨o, ho, hov, rfl⟩⟩
  · rintro ⟨⟨i, hi, rfl, hiv⟩, ⟨o, ho, hov, rfl⟩⟩
    exact ⟨_, mem_bypasses.mpr ⟨i, hi, hiv, o, ho, hov, rfl⟩, rfl, rfl⟩

/-- **After a contraction an edge leads where one led before past the element, or where two led
through it.** -/
theorem step_iff (h : p.Bypassed v new q) {a b : ElementId} : q.network.Step a b ↔
    (a ≠ v ∧ b ≠ v ∧ p.network.Step a b) ∨ (p.network.Step a v ∧ p.network.Step v b) := by
  rw [← h.exists_mem_new_iff]
  unfold Network.Step
  simp only [h.links.mem_iff, List.mem_append, List.mem_filter, Link.touches, Bool.not_eq_true',
    Bool.or_eq_false_iff, decide_eq_false_iff_not]
  constructor
  · rintro ⟨l, hl | ⟨hl, hs, ht⟩, rfl, rfl⟩
    · exact .inr ⟨l, hl, rfl, rfl⟩
    · exact .inl ⟨hs, ht, l, hl, rfl, rfl⟩
  · rintro (⟨hs, ht, l, hl, rfl, rfl⟩ | ⟨l, hl, hs, ht⟩)
    · exact ⟨l, .inr ⟨hl, hs, ht⟩, rfl, rfl⟩
    · exact ⟨l, .inl hl, hs, ht⟩

end Bypassed

/-- No bypass ends at the element: an edge between it and itself would be a cycle. -/
theorem not_touches_of_mem_bypasses {e : Element} {l : Link}
    (h : ends l ∈ bypasses p.network v e) : l.touches v = false := by
  obtain ⟨i, hi, hiv, o, ho, hov, heq⟩ := mem_bypasses.mp h
  have hsource : i.source = l.source := congrArg (·.1) heq
  have htarget : o.target = l.target := congrArg (·.2.1) heq
  have hs : l.source ≠ v := p.acyclic.ne_of_transGen (.single ⟨i, hi, hsource, hiv⟩)
  have ht : v ≠ l.target := p.acyclic.ne_of_transGen (.single ⟨o, ho, hov, htarget⟩)
  simp [Link.touches, hs, ht.symm]

/-- The bypasses are added, all of them. -/
theorem editAll_bypasses (p : Plan) (v : ElementId) (e : Element) : ∃ q new,
    editAll (fun p (s, t, edge) => Edit.ignored (p.addEdge s t edge)) p (bypasses p.network v e) =
      (.ok (), q) ∧ p.Grows new q ∧ (new.map ends).Perm (bypasses p.network v e) := by
  refine editAll_addEdge fun b hb => ?_
  obtain ⟨i, hi, hiv, o, ho, hov, rfl⟩ := mem_bypasses.mp hb
  exact .head ⟨i, hi, rfl, hiv⟩ (.single ⟨o, ho, hov, rfl⟩)

/-- **A contraction succeeds on every vertex whose mode allows it.** -/
theorem exists_contract {mode : ContractionMode} (hv : v ∈ p.network.ids)
    (hmode : mode = .anyInbound ∨ p.network.inDegree v = 1) :
    ∃ q new, p.contract v mode = (.ok (), q) ∧ p.Bypassed v new q := by
  obtain ⟨e, he⟩ := Network.exists_element? hv
  obtain ⟨r, new, hadd, hgrows, hnew⟩ := editAll_bypasses p v e
  have hr : v ∈ r.network.ids := by
    rw [hgrows.ids]
    exact hv
  have hgone := network_removeVertex hr
  refine ⟨(r.removeVertex v).2, new, ?_, ?_, ?_, ?_, e, he, hnew⟩
  · have hallowed : ¬ (mode = .singleInbound ∧ p.network.inDegree v ≠ 1) := by
      rintro ⟨rfl, hne⟩
      rcases hmode with hmode | hmode
      · cases hmode
      · exact hne hmode
    unfold contract
    simp only [he]
    rw [if_neg hallowed, hadd]
    rfl
  · rw [hgone, ← hgrows.elements]
  · have hkeep : new.filter (fun l => !l.touches v) = new := by
      refine List.filter_eq_self.mpr fun l hl => ?_
      rw [not_touches_of_mem_bypasses (hnew.mem_iff.mp (List.mem_map_of_mem hl))]
      rfl
    have hperm := hgrows.links.filter fun l => !l.touches v
    rw [List.filter_append, hkeep] at hperm
    rw [hgone]
    exact hperm
  · rw [hgone, ← hgrows.tags]
    rfl

end Dataflow.Plan
