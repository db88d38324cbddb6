import Dataflow.Plan.Branch
import Dataflow.Plan.Contract
import Dataflow.Plan.Insert
import Dataflow.Plan.Replace

/-!
# Edits step by step

An edit goes through steps of few kinds. Whatever relation between a plan and a later one holds over
each kind of step, and over steps one after the other, holds over every edit, wherever it stops. The
addition of a vertex is left out of the kinds: an edit that adds one does so before anything else.

* **`Plan.Stepwise`**: what has to be shown of the steps.
* **`Plan.Stepwise.contract` … `Plan.Stepwise.removeBranchBetween`**: what follows for the edits.
-/

namespace Dataflow.Plan

/-- A relation that holds over every step of an edit but the addition of a vertex. -/
structure Stepwise (R : Plan → Plan → Prop) : Prop where
  refl (p : Plan) : R p p
  trans {p q r : Plan} : R p q → R q r → R p r
  removeVertex (p : Plan) (v : ElementId) : R p (p.removeVertex v).2
  addEdge (p : Plan) (s t : ElementId) (e : Edge) : R p (p.addEdge s t e).2
  eraseEdge (p : Plan) (i : EdgeId) : R p (p.eraseEdge i)
  modifyEdge (p : Plan) (i : EdgeId) (f : Edge → Edge) : R p (p.modifyEdge i f)

/-- The plan as it is, or with a vertex added to it. -/
def Seeded (p q : Plan) : Prop := q = p ∨ ∃ e, q = (p.addVertex e).2

theorem addNewVertex_snd (p : Plan) (e : Element) :
    (p.addNewVertex e).2 = (p.addVertex e).2 := by
  unfold addNewVertex
  split <;> rename_i h <;> rw [h]

namespace Stepwise

variable {R : Plan → Plan → Prop} {p : Plan}

/-! ### Steps one after the other -/

theorem andThen (h : Stepwise R) {α β : Type} {a : Edit α} {next : α → Plan → Edit β}
    (ha : R p a.2) (hnext : ∀ x q, R q (next x q).2) : R p (a.andThen next).2 := by
  obtain ⟨f | x, q⟩ := a
  · exact ha
  · exact h.trans ha (hnext x q)

theorem ignored (h : Stepwise R) {α : Type} {a : Edit α} (ha : R p a.2) :
    R p (Edit.ignored a).2 :=
  h.andThen ha fun _ q => h.refl q

theorem editAll (h : Stepwise R) {α : Type} {step : Plan → α → Edit Unit}
    (hstep : ∀ q a, R q (step q a).2) (as : List α) : R p (editAll step p as).2 := by
  induction as generalizing p with
  | nil => exact h.refl p
  | cons a as ih => exact h.andThen (hstep p a) fun _ q => ih

theorem removeAll (h : Stepwise R) (p : Plan) (vs : List ElementId) : R p (p.removeAll vs) := by
  induction vs generalizing p with
  | nil => exact h.refl p
  | cons v vs ih => exact h.trans (h.removeVertex p v) (ih _)

/-! ### Edges -/

theorem connect (h : Stepwise R) (p : Plan) (s t : ElementId) : R p (p.connect s t).2 := by
  unfold Plan.connect
  split
  · exact h.refl p
  · exact h.addEdge p s t _

theorem removeEdge (h : Stepwise R) (p : Plan) (i : EdgeId) : R p (p.removeEdge i).2 :=
  h.eraseEdge p i

theorem removeEdgeBetween (h : Stepwise R) (p : Plan) (s t : ElementId) :
    R p (p.removeEdgeBetween s t).2 := by
  unfold Plan.removeEdgeBetween
  split
  · exact h.refl p
  · exact h.eraseEdge p _

theorem detach (h : Stepwise R) (p : Plan) (l : Link) : R p (p.detach l).2 := by
  have hremove := h.removeEdgeBetween p l.source l.target
  unfold Plan.detach
  split <;> rename_i heq <;> rw [heq] at hremove
  · split <;> exact hremove
  · exact hremove

theorem moveEdge (h : Stepwise R) (p : Plan) (l : Link) (s t : ElementId) :
    R p (p.moveEdge l s t).2 :=
  h.andThen (h.detach p l) fun e q => h.ignored (h.addEdge q s t e)

theorem redirectEdge (h : Stepwise R) (p : Plan) (l : Link) (s t : ElementId) :
    R p (p.redirectEdge l s t).2 := by
  have hremove := h.removeEdge p l.id
  unfold Plan.redirectEdge
  split <;> rename_i heq <;> rw [heq] at hremove
  · exact hremove
  · split
    · exact hremove
    · exact h.trans hremove (h.ignored (h.addEdge _ s t _))

/-! ### The edits -/

theorem contract (h : Stepwise R) (p : Plan) (v : ElementId) (mode : ContractionMode) :
    R p (p.contract v mode).2 := by
  unfold Plan.contract
  split
  · exact h.refl p
  · split
    · exact h.refl p
    · refine h.andThen (h.editAll (fun q b => ?_) _) fun _ q => h.removeVertex q v
      exact h.ignored (h.addEdge q b.1 b.2.1 b.2.2)

theorem insertAfter (h : Stepwise R) (p : Plan) (anchor : ElementId) (e : Element) :
    ∃ q, p.Seeded q ∧ R q (p.insertAfter anchor e).2 := by
  unfold Plan.insertAfter
  split
  · exact ⟨p, .inl rfl, h.refl p⟩
  · refine ⟨_, .inr ⟨e, rfl⟩, h.andThen (addNewVertex_snd p e ▸ h.refl _) fun _ q => ?_⟩
    refine h.andThen (h.addEdge q _ _ _) fun _ q => ?_
    exact h.editAll (fun q l => h.moveEdge q l _ _) _

theorem insertBefore (h : Stepwise R) (p : Plan) (anchor : ElementId) (e : Element) :
    ∃ q, p.Seeded q ∧ R q (p.insertBefore anchor e).2 := by
  unfold Plan.insertBefore
  split
  · exact ⟨p, .inl rfl, h.refl p⟩
  · refine ⟨_, .inr ⟨e, rfl⟩, h.andThen (addNewVertex_snd p e ▸ h.refl _) fun _ q => ?_⟩
    refine h.andThen (h.addEdge q _ _ _) fun _ q => ?_
    exact h.editAll (fun q l => h.moveEdge q l _ _) _

theorem replace (h : Stepwise R) (p : Plan) (old : ElementId) (replacement : Element) :
    ∃ q, p.Seeded q ∧ R q (p.replace old replacement).2 := by
  unfold Plan.replace
  split
  · refine ⟨_, .inr ⟨replacement, rfl⟩,
      h.andThen (h.editAll (fun q l => h.redirectEdge q l _ _) _) fun _ q => ?_⟩
    refine h.andThen (h.editAll (fun q l => h.redirectEdge q l _ _) _) ?_
    exact fun _ q => h.removeVertex q old
  · exact ⟨p, .inl rfl, h.refl p⟩

theorem removeBranchThrough (h : Stepwise R) (p : Plan) (v : ElementId) :
    R p (p.removeBranchThrough v).2 := by
  unfold Plan.removeBranchThrough
  split
  · exact h.removeAll p _
  · exact h.refl p

theorem removeBranchBetween (h : Stepwise R) (p : Plan) (s t : ElementId) (inclusive : Bool) :
    R p (p.removeBranchBetween s t inclusive).2 := by
  unfold Plan.removeBranchBetween
  split
  · exact h.refl p
  · split
    · exact h.refl p
    · exact h.removeAll p _

end Stepwise

end Dataflow.Plan
