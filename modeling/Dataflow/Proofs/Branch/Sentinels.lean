import Dataflow.Proofs.Branch.Removal

/-!
# Sentinels and the branch through a vertex

The walks stop before a sentinel, and a sentinel that is no link is not taken by itself. Nothing
looks at the vertex from which the walks set out: if that is a sentinel with one edge in and one
edge out, it is taken like any link.

* **`Network.mem_branchThrough_iff_of_isSentinel`**: the branch through a vertex holds a sentinel
  only where that is the vertex itself, and a link.
* **`Plan.removeBranchThrough_keeps_sentinels`**: what the removal keeps of the sentinels.
-/

namespace Dataflow

namespace Network

variable {n : Network} {v w : ElementId}

/-- Besides the vertex itself a branch holds vertices that are no sentinels. -/
theorem of_mem_branchThrough (h : w ∈ n.branchThrough v) :
    w = v ∨ w ∈ n.ids ∧ w.isSentinel = false := by
  unfold branchThrough at h
  split at h
  · rcases List.mem_append.mp h with hbefore | hafter
    · refine (List.mem_cons.mp hbefore).imp_right fun hbefore => ?_
      obtain ⟨hleft, hfree, -⟩ := of_mem_follow rfl w hbefore
      exact ⟨List.mem_of_mem_filter hleft, hfree⟩
    · obtain ⟨hleft, hfree, -⟩ := of_mem_follow rfl w hafter
      exact .inr ⟨List.mem_of_mem_filter hleft, hfree⟩
  · split at h
    · cases h
    · exact .inl (List.mem_singleton.mp h)

/-- Of the sentinels a branch holds at most the vertex it goes through, which is a link then. -/
theorem mem_branchThrough_iff_of_isSentinel (hw : w.isSentinel = true) :
    w ∈ n.branchThrough v ↔ w = v ∧ n.inDegree w = 1 ∧ n.outDegree w = 1 := by
  rw [← isPassing_iff]
  constructor
  · intro h
    obtain rfl : w = v := (of_mem_branchThrough h).resolve_right fun hfree => by
      rw [hw] at hfree
      exact nomatch hfree.2
    refine ⟨rfl, Classical.byContradiction fun hpassing => ?_⟩
    rw [branchThrough, if_neg hpassing, if_pos hw] at h
    cases h
  · rintro ⟨rfl, hpassing⟩
    rw [branchThrough, if_pos hpassing]
    exact List.mem_cons_self

theorem branchThrough_eq_nil_iff :
    n.branchThrough v = [] ↔ v.isSentinel = true ∧ ¬ (n.inDegree v = 1 ∧ n.outDegree v = 1) := by
  rw [← isPassing_iff, branchThrough]
  split
  · simp [*]
  · split <;> simp [*]

end Network

namespace Plan

variable {p : Plan} {v : ElementId}

/-- The branch through a vertex is gone with its edges, and the rest stays. -/
theorem cleared_removeBranchThrough (hv : v ∈ p.network.ids) :
    p.Cleared (p.network.branchThrough v) (p.removeBranchThrough v).2 := by
  obtain ⟨branch, -, horder⟩ := Network.exists_collectsThrough p.coherent v
  have hids : ∀ w ∈ p.network.branchThrough v, w ∈ p.network.ids := fun w hw =>
    (Network.of_mem_branchThrough hw).elim (fun h => h ▸ hv) And.left
  unfold removeBranchThrough removeBranch
  rw [if_pos (Network.contains_iff.mpr hv)]
  exact cleared_removeAll hids (horder ▸ branch.order_nodup)

/-- **What the removal of a branch keeps of the sentinels.** A sentinel is lost exactly if the
removal is of the branch through it and it has one edge in and one edge out; every other removal of
the branch through a sentinel finds nothing and leaves the plan as it is. -/
theorem removeBranchThrough_keeps_sentinels (p : Plan) (hv : v ∈ p.network.ids) :
    (∀ s ∈ p.network.ids, s.isSentinel = true →
      (s ∈ (p.removeBranchThrough v).2.network.ids ↔
        ¬ (s = v ∧ p.network.inDegree s = 1 ∧ p.network.outDegree s = 1))) ∧
    (v.isSentinel = true → (p.removeBranchThrough v = (.ok false, p) ↔
      ¬ (p.network.inDegree v = 1 ∧ p.network.outDegree v = 1))) := by
  constructor
  · intro s hs hsentinel
    rw [(cleared_removeBranchThrough hv).mem_ids, and_iff_right hs,
      Network.mem_branchThrough_iff_of_isSentinel hsentinel]
  · intro hsentinel
    have hnothing : p.network.branchThrough v = [] ↔
        ¬ (p.network.inDegree v = 1 ∧ p.network.outDegree v = 1) :=
      Network.branchThrough_eq_nil_iff.trans (and_iff_right hsentinel)
    rw [← hnothing]
    unfold removeBranchThrough removeBranch
    rw [if_pos (Network.contains_iff.mpr hv)]
    constructor
    · intro h
      have hanswer : Except.ok (ε := Failure) (!(p.network.branchThrough v).isEmpty) = .ok false :=
        congrArg Prod.fst h
      simpa using hanswer
    · intro h
      rw [h]
      rfl

/-- The entry of the conduit has no edge in. -/
theorem removeBranchThrough_keeps_sentinels_conduit :
    conduit.removeBranchThrough .head = (.ok false, conduit) ∧
      ∀ s ∈ [.head, .tail], s ∈ (conduit.removeBranchThrough ⟨3⟩).2.network.ids := by
  obtain ⟨-, hentry⟩ := conduit.removeBranchThrough_keeps_sentinels (v := .head) (by decide +kernel)
  obtain ⟨hmiddle, -⟩ := conduit.removeBranchThrough_keeps_sentinels (v := ⟨3⟩) (by decide +kernel)
  have hends : ∀ s ∈ [.head, .tail], s ∈ conduit.network.ids ∧ s.isSentinel = true ∧ s ≠ ⟨3⟩ := by
    decide +kernel
  refine ⟨(hentry rfl).mpr (by decide +kernel), fun s hs => ?_⟩
  obtain ⟨hids, hsentinel, hne⟩ := hends s hs
  exact (hmiddle s hids hsentinel).mpr fun h => hne h.1

/-- A row that both sentinels stand in. -/
def thoroughfare : Plan :=
  withExtents.sketch [⟨2⟩, ⟨3⟩, ⟨4⟩] [(⟨2⟩, .head), (.head, ⟨3⟩), (⟨3⟩, .tail), (.tail, ⟨4⟩)]

/-- The branch through the vertex between them ends before either. -/
example : thoroughfare.network.branchThrough ⟨3⟩ = [⟨3⟩] := by decide +kernel

/-- **The branch through a sentinel takes the sentinel** where it has one edge in and one edge out,
and the link beside it. -/
theorem thoroughfare_loses_its_entry :
    .head ∈ thoroughfare.network.ids ∧
      (thoroughfare.removeBranchThrough .head).1 = .ok true ∧
      (thoroughfare.removeBranchThrough .head).2.network.ids = [.tail, ⟨2⟩, ⟨4⟩] := by
  exact ⟨by decide +kernel, by decide +kernel, by decide +kernel⟩

end Plan

end Dataflow
