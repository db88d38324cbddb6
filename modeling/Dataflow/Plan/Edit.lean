import Dataflow.Plan

/-!
# Edits

An edit is a run of steps on a plan. It gives its answer together with the plan after it; where a
step fails the edit stops, and the plan stays as the steps before left it.

Model of how the functions of `editing` report: by a result, with the graph changed in place.
-/

namespace Dataflow

/-- The answer of an edit, and the plan after it. -/
abbrev Edit (α : Type) := Except Failure α × Plan

namespace Edit

/-- Goes on after an edit, unless it failed. -/
def andThen {α β : Type} (r : Edit α) (next : α → Plan → Edit β) : Edit β :=
  match r with
  | (.error f, p) => (.error f, p)
  | (.ok a, p) => next a p

/-- The edit without its answer. -/
def ignored {α : Type} (r : Edit α) : Edit Unit := r.andThen fun _ p => (.ok (), p)

end Edit

namespace Plan

/-- Runs an edit for each member of a list, until one fails. -/
def editAll {α : Type} (step : Plan → α → Edit Unit) : Plan → List α → Edit Unit
  | p, [] => (.ok (), p)
  | p, a :: as => Edit.andThen (step p a) fun _ p => editAll step p as

end Plan

end Dataflow
