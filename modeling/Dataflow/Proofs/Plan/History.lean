import Dataflow.Proofs.Plan.Change

/-!
# Histories of a plan

A plan comes about by calls, one after the other, from no vertices or from the two sentinels. A call
that fails leaves what it did up to there, and the calls after it go on from that plan.

* **`Plan.Call.stepwise`, `Plan.Call.changes_or_retags`**: what one call does;
  **`Plan.run_keeps`, `Plan.run_acyclic`**: what a history keeps.
* **`Plan.addEdge_eq_closesCycle_iff`**: the check for cycles refuses exactly the edges that would
  close one.
* **`Plan.history_acyclic`**: after any history there is no cycle, and one more edge is refused
  only where it would close one.
-/

namespace Dataflow.Plan

open Relation

/-- A call that edits a plan. -/
inductive Call where
  | addVertex (e : Element)
  | removeVertex (v : ElementId)
  | addEdge (s t : ElementId) (e : Edge)
  | connect (s t : ElementId)
  | removeEdge (i : EdgeId)
  | removeEdgeBetween (s t : ElementId)
  | modifyEdge (i : EdgeId) (f : Edge → Edge)
  | setTags (ts : Option Tags)
  | tag (t : Tag) (v : ElementId)
  | untag (v : ElementId)
  | decorated
  | contract (v : ElementId) (mode : ContractionMode)
  | insertAfter (anchor : ElementId) (e : Element)
  | insertBefore (anchor : ElementId) (e : Element)
  | replace (old : ElementId) (replacement : Element)
  | removeBranchThrough (v : ElementId)
  | removeBranchBetween (s t : ElementId) (inclusive : Bool)

namespace Call

/-- The plan after a call, also where the call fails. -/
def run (p : Plan) : Call → Plan
  | addVertex e => (p.addVertex e).2
  | removeVertex v => (p.removeVertex v).2
  | addEdge s t e => (p.addEdge s t e).2
  | connect s t => (p.connect s t).2
  | removeEdge i => (p.removeEdge i).2
  | removeEdgeBetween s t => (p.removeEdgeBetween s t).2
  | modifyEdge i f => p.modifyEdge i f
  | setTags ts => p.setTags ts
  | tag t v => (p.tag t v).2
  | untag v => p.untag v
  | decorated => p.decorated
  | contract v mode => (p.contract v mode).2
  | insertAfter anchor e => (p.insertAfter anchor e).2
  | insertBefore anchor e => (p.insertBefore anchor e).2
  | replace old replacement => (p.replace old replacement).2
  | removeBranchThrough v => (p.removeBranchThrough v).2
  | removeBranchBetween s t inclusive => (p.removeBranchBetween s t inclusive).2

/-- The call is about the decoration alone. -/
def retags : Call → Bool
  | setTags _ | tag _ _ | untag _ | decorated => true
  | _ => false

/-- **What holds over every step holds over a call**, which adds a vertex first if it adds one. -/
theorem stepwise {R : Plan → Plan → Prop} (h : Stepwise R) (p : Plan) {c : Call}
    (hc : c.retags = false) : ∃ q, p.Seeded q ∧ R q (c.run p) := by
  cases c with
  | addVertex e => exact ⟨_, .inr ⟨e, rfl⟩, h.refl _⟩
  | removeVertex v => exact ⟨p, .inl rfl, h.removeVertex p v⟩
  | addEdge s t e => exact ⟨p, .inl rfl, h.addEdge p s t e⟩
  | connect s t => exact ⟨p, .inl rfl, h.connect p s t⟩
  | removeEdge i => exact ⟨p, .inl rfl, h.removeEdge p i⟩
  | removeEdgeBetween s t => exact ⟨p, .inl rfl, h.removeEdgeBetween p s t⟩
  | modifyEdge i f => exact ⟨p, .inl rfl, h.modifyEdge p i f⟩
  | setTags | tag | untag | decorated => exact nomatch hc
  | contract v mode => exact ⟨p, .inl rfl, h.contract p v mode⟩
  | insertAfter anchor e => exact h.insertAfter p anchor e
  | insertBefore anchor e => exact h.insertBefore p anchor e
  | replace old replacement => exact h.replace p old replacement
  | removeBranchThrough v => exact ⟨p, .inl rfl, h.removeBranchThrough p v⟩
  | removeBranchBetween s t inclusive =>
    exact ⟨p, .inl rfl, h.removeBranchBetween p s t inclusive⟩

/-- A call about the decoration changes nothing else. -/
theorem network_of_retags (p : Plan) {c : Call} (hc : c.retags = true) :
    ∃ ts, (c.run p).network = { p.network with tags := ts } := by
  cases c with
  | setTags ts => exact ⟨ts, rfl⟩
  | tag | untag | decorated => exact ⟨_, rfl⟩
  | _ => exact nomatch hc

/-- **A call changes vertices and edges by changes, or it changes the tags alone.** -/
theorem changes_or_retags (p : Plan) (c : Call) : p.Changes (c.run p) ∨
    ∃ ts, (c.run p).network = { p.network with tags := ts } := by
  cases hc : c.retags with
  | true => exact .inr (network_of_retags p hc)
  | false =>
    obtain ⟨q, hseeded, h⟩ := stepwise stepwise_changes p hc
    exact .inl (hseeded.changes.trans h)

/-- No call closes a cycle. -/
theorem acyclic (p : Plan) (c : Call) (hp : p.network.Acyclic) : (c.run p).network.Acyclic := by
  rcases changes_or_retags p c with h | ⟨ts, h⟩
  · exact h.acyclic hp
  · rw [h]
    exact hp.mono fun _ _ hab => hab

end Call

/-- The plan after calls, one after the other. -/
def run (p : Plan) (calls : List Call) : Plan := calls.foldl Call.run p

/-- **What every call of a history keeps, the history keeps.** -/
theorem run_keeps {P : Plan → Prop} {calls : List Call}
    (hcalls : ∀ c ∈ calls, ∀ p, P p → P (c.run p)) {p : Plan} (hp : P p) : P (run p calls) := by
  induction calls generalizing p with
  | nil => exact hp
  | cons c calls ih =>
    obtain ⟨hc, hrest⟩ := List.forall_mem_cons.mp hcalls
    exact ih hrest (hc p hp)

/-- **No history closes a cycle.** -/
theorem run_acyclic (p : Plan) (calls : List Call) (hp : p.network.Acyclic) :
    (run p calls).network.Acyclic :=
  run_keeps (P := fun p => p.network.Acyclic) (fun c _ p => c.acyclic p) hp

variable {p : Plan} {s t : ElementId} {e : Edge}

/-- **The check for cycles is exact.** -/
theorem addEdge_eq_closesCycle_iff (hs : s ∈ p.network.ids) (ht : t ∈ p.network.ids) :
    (p.addEdge s t e).1 = .error (.closesCycle s t) ↔
      s = t ∨ TransGen p.network.Step t s := by
  constructor
  · intro h
    refine Classical.byContradiction fun hno => ?_
    obtain ⟨hne, hback⟩ := not_or.mp hno
    obtain ⟨i, q, hadd, -⟩ := exists_addEdge (e := e) hs ht hne hback
    rw [hadd] at h
    cases h
  · intro h
    rw [addEdge_of_closes hs ht h]

/-- **After any history there is no cycle, and one more edge is refused only where it would close
one.** A refusal leaves the plan as it is; otherwise the edge is added under a number that was not
in use, and nothing else changes. -/
theorem history_acyclic (bounded : Bool) (calls : List Call) :
    let p := run (if bounded then withExtents else empty) calls
    p.network.Acyclic ∧ (∀ l ∈ p.network.links, l.source ≠ l.target) ∧
      ∀ s ∈ p.network.ids, ∀ t ∈ p.network.ids, ∀ e : Edge,
        ((p.addEdge s t e).1 = .error (.closesCycle s t) ↔
          s = t ∨ TransGen p.network.Step t s) ∧
        ((s = t ∨ TransGen p.network.Step t s) → (p.addEdge s t e).2 = p) ∧
        (¬ (s = t ∨ TransGen p.network.Step t s) → ∃ i q, p.addEdge s t e = (.ok i, q) ∧
          (∀ l ∈ p.network.links, i ≠ l.id) ∧
          q.network.links.Perm (⟨i, s, t, e⟩ :: p.network.links) ∧
          q.network.elements = p.network.elements ∧ q.network.tags = p.network.tags) := by
  intro p
  have hacyclic : p.network.Acyclic := run_acyclic _ calls (Plan.acyclic _)
  refine ⟨hacyclic, ?_, ?_⟩
  · exact fun l hl => hacyclic.ne_of_transGen (.single ⟨l, hl, rfl, rfl⟩)
  · intro s hs t ht e
    refine ⟨addEdge_eq_closesCycle_iff hs ht, ?_, ?_⟩
    · intro h
      rw [addEdge_of_closes hs ht h]
    · intro h
      obtain ⟨hne, hback⟩ := not_or.mp h
      obtain ⟨i, q, hadd, hgrows⟩ := exists_addEdge (e := e) hs ht hne hback
      exact ⟨i, q, hadd, fun l hl => hgrows.fresh List.mem_cons_self hl, hgrows.links,
        hgrows.elements, hgrows.tags⟩

theorem history_acyclic_pair :
    let p := run empty [.addVertex (.transform ⟨⟨2⟩, ""⟩), .addVertex (.transform ⟨⟨3⟩, ""⟩),
      .connect ⟨2⟩ ⟨3⟩, .connect ⟨3⟩ ⟨2⟩]
    (p.addEdge ⟨3⟩ ⟨2⟩ (.named "")).1 = .error (.closesCycle ⟨3⟩ ⟨2⟩) ∧
      (p.addEdge ⟨3⟩ ⟨2⟩ (.named "")).2 = p := by
  intro p
  have hs : ⟨3⟩ ∈ p.network.ids := by decide +kernel
  have ht : ⟨2⟩ ∈ p.network.ids := by decide +kernel
  have hback : TransGen p.network.Step ⟨2⟩ ⟨3⟩ :=
    (Network.mem_descendants p.coherent.target_mem).mp (by decide +kernel)
  obtain ⟨hiff, hkeep, -⟩ := (history_acyclic false _).2.2 _ hs _ ht (.named "")
  exact ⟨hiff.mpr (.inr hback), hkeep (.inr hback)⟩

end Dataflow.Plan
