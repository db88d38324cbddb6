import Dataflow.Element

/-!
# Failures

What can go wrong, and the sentence that says so.

Model of `PlannerError` with its messages and `is_internal_inconsistency` (`error`).
-/

namespace Dataflow

/-- Why an operation failed. -/
inductive Failure where
  /-- The element is no vertex of the network. -/
  | notAVertex (element : ElementId)
  /-- The element is a vertex of the network already. -/
  | alreadyAVertex (element : ElementId)
  /-- The edge would close a cycle; an edge from a vertex to itself does. -/
  | closesCycle (source target : ElementId)
  /-- Contraction wanted one inbound edge and found another number of them. -/
  | notOneInbound (element : ElementId) (count : Nat)
  /-- Neither of two networks has a vertex. -/
  | noComponents
  /-- A closure came out without vertices. -/
  | emptyClosure
  /-- An edit took another edge than the one it was about to move. -/
  | unexpectedEdge (source target : ElementId)
  /-- Paths are counted into splices only. -/
  | notASplice (element : ElementId)
  /-- An edge into a join bears the name of none of its branches. -/
  | undeclaredBranch (element : ElementId) (branch : String)
  /-- No topological order exists. -/
  | noOrder (reason : String)
  /-- A setting has no such value. -/
  | unknownSetting (reason : String)
  /-- A document is not of the expected form. -/
  | malformedDocument
deriving DecidableEq, Repr

namespace Failure

/-- The sentence that reports a failure. -/
def message : Failure → String
  | notAVertex v => s!"element {v} is not a vertex of the graph"
  | alreadyAVertex v => s!"element {v} is already a vertex of the graph"
  | closesCycle s t => s!"edge {s} -> {t} would create a cycle"
  | notOneInbound v n => s!"flow element {v} has multiple input paths: {n}"
  | noComponents =>
    "no biconnected components in the union of full and contracted graph"
  | emptyClosure => "closure is empty"
  | unexpectedEdge s t => s!"did not remove the expected edge {s} -> {t}"
  | notASplice v => s!"element {v} is not a splice"
  | undeclaredBranch v b => s!"branch '{b}' is not declared on splice {v}"
  | noOrder reason => s!"traversal failed: {reason}"
  | unknownSetting reason => s!"invalid configuration: {reason}"
  | malformedDocument => "invalid configuration document"

/-- The failure says that a network changed behind an edit's back, and not that the edit was asked
for something it cannot do. -/
def isUnexpected : Failure → Bool
  | unexpectedEdge .. => true
  | _ => false

end Failure

end Dataflow
