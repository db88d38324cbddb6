import Dataflow.Network.Answers
import Dataflow.Plan

/-!
# The answers of a plan

A plan answers from its store: by the slot of a vertex, and by the number of an edge. The edges of a
vertex are found youngest first, and put in the order of their numbers.

Model of `ElementGraph` as `FlowGraph` answers it, with `entry` and `entries_directed`
(`flow_graph`).
-/

namespace Dataflow

namespace Store

/-- The edge of a number. -/
def link? (s : Store) (i : EdgeId) : Option Link := (s.wires.get? i).map (·.link i)

/-- The edges with one end at `v` in the order of their numbers; none where `v` has no slot. -/
def linksAt (s : Store) (atEnd : Wire → ElementId) (v : ElementId) : List Link :=
  match s.slotOf? v with
  | none => []
  | some _ =>
    let found := youngestFirst (s.wires.items.filter fun p => atEnd p.2 = v)
    (found.mergeSort fun i j => i ≤ j).filterMap s.link?

/-- What is answered from the store. -/
def answers (s : Store) : Answers where
  ids := s.vertices.items.map (·.2.id)
  element? v := (s.slotOf? v).bind s.vertices.get?
  contains v := (s.slotOf? v).isSome
  links := s.wires.items.map fun p => p.2.link p.1
  link? := s.link?
  incoming := s.linksAt Wire.target
  outgoing := s.linksAt Wire.source
  tags := s.tags
  vertexCount := s.vertices.items.length
  edgeCount := s.wires.items.length

end Store

/-- What is answered from the plan. -/
abbrev Plan.answers (p : Plan) : Answers := p.toStore.answers

end Dataflow
