import Dataflow.Plan

/-!
# Branches

A branch is a run of vertices with one edge in and one edge out each. Removing a branch removes the
whole run through a vertex, or the part of it between two vertices.

Model of `remove_branch_containing`, `remove_branch_between`, `is_chain_link` and `remove_all`
(`editing`). What `Branch` collects turn by turn is a list here.
-/

namespace Dataflow

namespace Network

/-- One edge enters the vertex, and one leaves it. -/
def isPassing (n : Network) (v : ElementId) : Bool := n.inDegree v = 1 && n.outDegree v = 1

/-- The run of chain links that follows `v` by the first step of each, as far as it stays in
`unvisited` and off the sentinels. -/
def follow (link : ElementId → Bool) (step : ElementId → Option ElementId)
    (unvisited : List ElementId) (v : ElementId) : List ElementId :=
  match step v with
  | none => []
  | some w =>
    if _h : w ∈ unvisited then
      if !w.isSentinel && link w then w :: follow link step (unvisited.erase w) w else []
    else []
termination_by unvisited.length
decreasing_by
  rw [List.length_erase_of_mem _h]
  exact Nat.sub_lt (List.length_pos_of_mem _h) Nat.one_pos

/-- The run before `v`, the nearest first, without the vertices in `taken`. -/
def runBefore (n : Network) (taken : List ElementId) (v : ElementId) : List ElementId :=
  follow n.isPassing (fun w => (n.predecessors w).head?) (n.ids.filter (!taken.contains ·)) v

/-- The run after `v`, the nearest first, without the vertices in `taken`. -/
def runAfter (n : Network) (taken : List ElementId) (v : ElementId) : List ElementId :=
  follow n.isPassing (fun w => (n.successors w).head?) (n.ids.filter (!taken.contains ·)) v

/-- The branch through `v`: the run it is a link of, `v` first, then those before it, then those
after it. A vertex that is no link is a branch of its own, unless it is a sentinel. -/
def branchThrough (n : Network) (v : ElementId) : List ElementId :=
  if n.isPassing v then
    let before := v :: n.runBefore [v] v
    before ++ n.runAfter before v
  else if v.isSentinel then [] else [v]

/-- The branch from `s` to `t`: the two, and the run after `s`. Unless `inclusive`, the two are
left out. -/
def branchBetween (n : Network) (s t : ElementId) (inclusive : Bool) : List ElementId :=
  let ends := [s, t].eraseDups
  (if inclusive then ends else []) ++ n.runAfter ends s

end Network

namespace Plan

/-- Removes vertices one after the other. -/
def removeAll (p : Plan) (vs : List ElementId) : Plan :=
  vs.foldl (fun p v => (p.removeVertex v).2) p

/-- Removes a branch, and says whether there was anything to remove. -/
def removeBranch (p : Plan) (branch : List ElementId) : Bool × Plan :=
  (!branch.isEmpty, p.removeAll branch)

/-- Removes the branch through a vertex. -/
def removeBranchThrough (p : Plan) (v : ElementId) : Except Failure Bool × Plan :=
  if p.network.contains v then
    let (removed, p) := p.removeBranch (p.network.branchThrough v)
    (.ok removed, p)
  else (.error (.notAVertex v), p)

/-- Removes the branch from one vertex to another, with or without the two. -/
def removeBranchBetween (p : Plan) (s t : ElementId) (inclusive : Bool) :
    Except Failure Bool × Plan :=
  if !p.network.contains s then (.error (.notAVertex s), p)
  else if !p.network.contains t then (.error (.notAVertex t), p)
  else
    let (removed, p) := p.removeBranch (p.network.branchBetween s t inclusive)
    (.ok removed, p)

end Plan

end Dataflow
