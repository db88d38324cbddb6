import Dataflow.Plan.Edit

/-!
# Replacement

The edges of an element are moved to another one, and the element is removed.

Model of `replace_element_with` (`editing`).
-/

namespace Dataflow.Plan

/-- Takes an edge out and adds it between two vertices, unless these are one and the same. -/
def redirectEdge (p : Plan) (l : Link) (s t : ElementId) : Edit Unit :=
  match p.removeEdge l.id with
  | (none, p) => (.error (.unexpectedEdge l.source l.target), p)
  | (some e, p) =>
    if s = t then (.ok (), p) else Edit.ignored (p.addEdge s t e)

/-- Moves every edge of an element to a replacement and removes the element. The replacement is
added if it is no vertex; edges between the two are dropped. -/
def replace (p : Plan) (old : ElementId) (replacement : Element) : Edit Unit :=
  if p.network.contains old then
    let new := replacement.id
    let incoming := p.network.incoming old
    let outgoing := p.network.outgoing old
    Edit.andThen
      (editAll (fun p l => p.redirectEdge l l.source new) (p.addVertex replacement).2 incoming)
      fun _ p =>
        Edit.andThen (editAll (fun p l => p.redirectEdge l new l.target) p outgoing) fun _ p =>
          (.ok (), (p.removeVertex old).2)
  else (.error (.notAVertex old), p)

end Dataflow.Plan
