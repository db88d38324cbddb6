import Dataflow.Plan.Edit

/-!
# Insertion

A new element is put right after an anchor, or right before it. The edges on that side of the
anchor become the new element's, and one new edge links the two.

Model of `insert_element_after`, `insert_element_before`, `anchor_name`, `add_new_vertex` and
`take_edge` (`editing`).
-/

namespace Dataflow.Plan

/-- Removes the first edge between two vertices, which has to be the expected one. -/
def detach (p : Plan) (l : Link) : Edit Edge :=
  match p.removeEdgeBetween l.source l.target with
  | (some (i, e), p) =>
    if i = l.id then (.ok e, p) else (.error (.unexpectedEdge l.source l.target), p)
  | (none, p) => (.error (.unexpectedEdge l.source l.target), p)

/-- Moves an edge to between two other vertices. -/
def moveEdge (p : Plan) (l : Link) (s t : ElementId) : Edit Unit :=
  Edit.andThen (p.detach l) fun e p => Edit.ignored (p.addEdge s t e)

/-- Adds an element that is no vertex yet. -/
def addNewVertex (p : Plan) (e : Element) : Edit Unit :=
  match p.addVertex e with
  | (true, p) => (.ok (), p)
  | (false, p) => (.error (.alreadyAVertex e.id), p)

/-- Puts an element right after an anchor: the anchor's outgoing edges become the element's, and a
new edge named after the anchor leads from it to the element. -/
def insertAfter (p : Plan) (anchor : ElementId) (e : Element) : Edit Unit :=
  match p.network.element? anchor with
  | none => (.error (.notAVertex anchor), p)
  | some a =>
    let moved := p.network.outgoing anchor
    Edit.andThen (p.addNewVertex e) fun _ p =>
      Edit.andThen (p.addEdge anchor e.id (.named a.name)) fun _ p =>
        editAll (fun p l => p.moveEdge l e.id l.target) p moved

/-- Puts an element right before an anchor: the anchor's incoming edges become the element's, and a
new edge named after the anchor leads from the element to it. -/
def insertBefore (p : Plan) (anchor : ElementId) (e : Element) : Edit Unit :=
  match p.network.element? anchor with
  | none => (.error (.notAVertex anchor), p)
  | some a =>
    let moved := p.network.incoming anchor
    Edit.andThen (p.addNewVertex e) fun _ p =>
      Edit.andThen (p.addEdge e.id anchor (.named a.name)) fun _ p =>
        editAll (fun p l => p.moveEdge l l.source e.id) p moved

end Dataflow.Plan
