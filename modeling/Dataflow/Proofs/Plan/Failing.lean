import Dataflow.Plan.Branch
import Dataflow.Proofs.Plan.Contract
import Dataflow.Proofs.Plan.Insert

/-!
# Edits that fail

An edit stops where one of its steps fails, and would leave the steps before it done. Contraction,
insertion and the removal of branches never come to that: what they check before they change
anything is all that can fail, since no edge that they add closes a cycle and no edge that they move
is another than the one they meant.

* **`Plan.edits_fail_cleanly`**: the failures of these edits, each with its cause; an edit that
  fails leaves the plan as it was.
-/

namespace Dataflow.Plan

variable {p q : Plan}

/-- The edit fails with the failures given and no others, and then leaves the plan as it was. None
of them is that of a step on the way. -/
structure FailsCleanly {α : Type} (p : Plan) (r : Edit α) (refused : Failure → Prop) : Prop where
  answer : ∀ f, r.1 = .error f ↔ refused f
  unchanged : ∀ f, r.1 = .error f → r.2 = p
  no_step_fails : ∀ s t, r.1 ≠ .error (.closesCycle s t) ∧ r.1 ≠ .error (.unexpectedEdge s t)

namespace FailsCleanly

variable {α : Type} {r : Edit α} {refused : Failure → Prop}

/-- An edit that is refused before it changes anything. -/
theorem of_error {f : Failure} (h : r = (.error f, p)) (hf : ∀ g, refused g ↔ g = f)
    (hstep : ∀ s t, f ≠ .closesCycle s t ∧ f ≠ .unexpectedEdge s t) : FailsCleanly p r refused := by
  subst h
  refine ⟨fun g => ?_, fun _ _ => rfl, fun s t => ?_⟩
  · rw [hf, Except.error.injEq, eq_comm]
  · exact ⟨fun h => (hstep s t).1 (Except.error.inj h), fun h => (hstep s t).2 (Except.error.inj h)⟩

/-- An edit that succeeds. -/
theorem of_ok {a : α} (h : r = (.ok a, q)) (hf : ∀ g, ¬ refused g) : FailsCleanly p r refused := by
  subst h
  exact ⟨fun g => iff_of_false nofun (hf g), nofun, fun _ _ => ⟨nofun, nofun⟩⟩

end FailsCleanly

/-! ### Contraction -/

/-- Why a contraction is refused: the element is no vertex, or the mode wants one inbound edge and
there is another number of them. -/
def contractRefused (p : Plan) (v : ElementId) (mode : ContractionMode) (f : Failure) : Prop :=
  (v ∉ p.network.ids ∧ f = .notAVertex v) ∨
    (v ∈ p.network.ids ∧ mode = .singleInbound ∧ p.network.inDegree v ≠ 1 ∧
      f = .notOneInbound v (p.network.inDegree v))

theorem failsCleanly_contract (p : Plan) (v : ElementId) (mode : ContractionMode) :
    FailsCleanly p (p.contract v mode) (p.contractRefused v mode) := by
  by_cases hv : v ∈ p.network.ids
  · by_cases hmode : mode = .singleInbound ∧ p.network.inDegree v ≠ 1
    · refine .of_error (f := .notOneInbound v (p.network.inDegree v)) ?_ (fun g => ?_)
        fun _ _ => ⟨nofun, nofun⟩
      · obtain ⟨e, he⟩ := Network.exists_element? hv
        unfold contract
        simp only [he]
        rw [if_pos hmode]
      · simp [contractRefused, hv, hmode]
    · have hallowed : mode = .anyInbound ∨ p.network.inDegree v = 1 := by
        cases mode with
        | anyInbound => exact .inl rfl
        | singleInbound => exact .inr (Classical.not_not.mp fun h => hmode ⟨rfl, h⟩)
      obtain ⟨q, new, hq, -⟩ := exists_contract hv hallowed
      refine .of_ok hq fun g => ?_
      rintro (⟨hno, -⟩ | ⟨-, hsingle, hne, -⟩)
      · exact hno hv
      · exact hmode ⟨hsingle, hne⟩
  · refine .of_error (f := .notAVertex v) ?_ (fun g => ?_) fun _ _ => ⟨nofun, nofun⟩
    · unfold contract
      rw [Network.element?_eq_none_iff.mpr hv]
    · simp [contractRefused, hv]

/-! ### Insertion -/

/-- Why an insertion is refused: the anchor is no vertex, or else the element is one already. -/
def insertRefused (p : Plan) (anchor : ElementId) (e : Element) (f : Failure) : Prop :=
  (anchor ∉ p.network.ids ∧ f = .notAVertex anchor) ∨
    (anchor ∈ p.network.ids ∧ e.id ∈ p.network.ids ∧ f = .alreadyAVertex e.id)

/-- An insertion checks its anchor, then its element, and succeeds on every new element. -/
theorem FailsCleanly.of_insertion {anchor : ElementId} {e : Element} {r : Edit Unit}
    (hanchor : p.network.element? anchor = none → r = (.error (.notAVertex anchor), p))
    (hold : ∀ a, p.network.element? anchor = some a → e.id ∈ p.network.ids →
      r = (.error (.alreadyAVertex e.id), p))
    (hnew : ∀ a, p.network.element? anchor = some a → e.id ∉ p.network.ids →
      ∃ q, r = (.ok (), q)) : FailsCleanly p r (p.insertRefused anchor e) := by
  cases ha : p.network.element? anchor with
  | none =>
    have hno := Network.element?_eq_none_iff.mp ha
    refine .of_error (hanchor ha) (fun g => ?_) fun _ _ => ⟨nofun, nofun⟩
    simp [insertRefused, hno]
  | some a =>
    have hin := Network.mem_ids_of_element? ha
    by_cases he : e.id ∈ p.network.ids
    · refine .of_error (hold a ha he) (fun g => ?_) fun _ _ => ⟨nofun, nofun⟩
      simp [insertRefused, hin, he]
    · obtain ⟨q, hq⟩ := hnew a ha he
      refine .of_ok hq fun g => ?_
      rintro (⟨hno, -⟩ | ⟨-, hmem, -⟩)
      · exact hno hin
      · exact he hmem

theorem addNewVertex_of_mem {e : Element} (h : e.id ∈ p.network.ids) :
    p.addNewVertex e = (.error (.alreadyAVertex e.id), p) := by
  unfold addNewVertex addVertex
  rw [dif_pos h]

theorem failsCleanly_insertAfter (p : Plan) (anchor : ElementId) (e : Element) :
    FailsCleanly p (p.insertAfter anchor e) (p.insertRefused anchor e) := by
  refine .of_insertion (fun ha => ?_) (fun a ha he => ?_) fun a ha he => ?_
  · unfold insertAfter
    rw [ha]
  · unfold insertAfter
    simp only [ha, addNewVertex_of_mem he, Edit.andThen]
  · obtain ⟨q, _, _, hq, -⟩ := exists_insertAfter ha he
    exact ⟨q, hq⟩

theorem failsCleanly_insertBefore (p : Plan) (anchor : ElementId) (e : Element) :
    FailsCleanly p (p.insertBefore anchor e) (p.insertRefused anchor e) := by
  refine .of_insertion (fun ha => ?_) (fun a ha he => ?_) fun a ha he => ?_
  · unfold insertBefore
    rw [ha]
  · unfold insertBefore
    simp only [ha, addNewVertex_of_mem he, Edit.andThen]
  · obtain ⟨q, _, _, hq, -⟩ := exists_insertBefore ha he
    exact ⟨q, hq⟩

/-! ### Branches -/

theorem failsCleanly_removeBranchThrough (p : Plan) (v : ElementId) :
    FailsCleanly p (p.removeBranchThrough v)
      fun f => v ∉ p.network.ids ∧ f = .notAVertex v := by
  by_cases hv : v ∈ p.network.ids
  · have hok : p.removeBranchThrough v = (.ok (p.removeBranch (p.network.branchThrough v)).1,
        (p.removeBranch (p.network.branchThrough v)).2) := by
      unfold removeBranchThrough
      rw [if_pos (Network.contains_iff.mpr hv)]
    exact .of_ok hok fun g h => h.1 hv
  · refine .of_error (f := .notAVertex v) ?_ (fun g => and_iff_right hv) fun _ _ => ⟨nofun, nofun⟩
    unfold removeBranchThrough
    rw [if_neg (mt Network.contains_iff.mp hv)]

/-- Why the removal between two vertices is refused: the first is no vertex, or else the second is
none. -/
def betweenRefused (p : Plan) (s t : ElementId) (f : Failure) : Prop :=
  (s ∉ p.network.ids ∧ f = .notAVertex s) ∨
    (s ∈ p.network.ids ∧ t ∉ p.network.ids ∧ f = .notAVertex t)

theorem failsCleanly_removeBranchBetween (p : Plan) (s t : ElementId) (inclusive : Bool) :
    FailsCleanly p (p.removeBranchBetween s t inclusive) (p.betweenRefused s t) := by
  have hcheck : ∀ v, (!p.network.contains v) = true ↔ v ∉ p.network.ids := by
    intro v
    rw [Bool.not_eq_true', ← Bool.not_eq_true, Network.contains_iff]
  by_cases hs : s ∈ p.network.ids
  · by_cases ht : t ∈ p.network.ids
    · have hok : p.removeBranchBetween s t inclusive =
          (.ok (p.removeBranch (p.network.branchBetween s t inclusive)).1,
            (p.removeBranch (p.network.branchBetween s t inclusive)).2) := by
        unfold removeBranchBetween
        rw [if_neg (mt (hcheck s).mp (not_not_intro hs)),
          if_neg (mt (hcheck t).mp (not_not_intro ht))]
      refine .of_ok hok fun g => ?_
      rintro (⟨h, -⟩ | ⟨-, h, -⟩)
      · exact h hs
      · exact h ht
    · refine .of_error (f := .notAVertex t) ?_ (fun g => ?_) fun _ _ => ⟨nofun, nofun⟩
      · unfold removeBranchBetween
        rw [if_neg (mt (hcheck s).mp (not_not_intro hs)), if_pos ((hcheck t).mpr ht)]
      · simp [betweenRefused, hs, ht]
  · refine .of_error (f := .notAVertex s) ?_ (fun g => ?_) fun _ _ => ⟨nofun, nofun⟩
    · unfold removeBranchBetween
      rw [if_pos ((hcheck s).mpr hs)]
    · simp [betweenRefused, hs]

/-! ### All of them -/

/-- **Every structural edit but replacement fails cleanly.** It is refused for what it can check
before it changes anything, and a refusal leaves the plan as it was; edges that would close a cycle
and edges that are not the expected ones do not come up on the way. -/
theorem edits_fail_cleanly (p : Plan) :
    (∀ v mode, FailsCleanly p (p.contract v mode) (p.contractRefused v mode)) ∧
    (∀ anchor e, FailsCleanly p (p.insertAfter anchor e) (p.insertRefused anchor e)) ∧
    (∀ anchor e, FailsCleanly p (p.insertBefore anchor e) (p.insertRefused anchor e)) ∧
    (∀ v, FailsCleanly p (p.removeBranchThrough v)
      fun f => v ∉ p.network.ids ∧ f = .notAVertex v) ∧
    (∀ s t inclusive, FailsCleanly p (p.removeBranchBetween s t inclusive)
      (p.betweenRefused s t)) :=
  ⟨failsCleanly_contract p, failsCleanly_insertAfter p, failsCleanly_insertBefore p,
    failsCleanly_removeBranchThrough p, failsCleanly_removeBranchBetween p⟩

end Dataflow.Plan
