import Dataflow.Plan.Edit
import Dataflow.Settings

/-!
# Contraction

An element is removed and bypassed: each of its inbound edges is led on to each of its targets, so
that what could be reached through it is reached past it.

Model of `remove_and_contract_with` (`editing`), which `remove_and_contract` and
`remove_and_contract_configured` call with a mode of their own.
-/

namespace Dataflow.Plan

/-- The edge that takes the place of an inbound and an outbound edge of a contracted element. It
continues the outbound edge; its ordinal is the inbound one's where the element is a splice, and it
blocks where the outbound edge does, or where the element joins and the inbound edge does. -/
def bypass (e : Element) (inbound outbound : Edge) : Edge :=
  { outbound.withoutPriorNames with
    ordinal := if e.isSplice then inbound.ordinal else outbound.ordinal
    nonBlocking := outbound.nonBlocking && (!e.performsJoin || inbound.nonBlocking) }
  |>.addPriorNames [inbound.name, outbound.name]

/-- The edges that take the place of a contracted element: from each source of an inbound edge to
each target of an outbound one. -/
def bypasses (n : Network) (v : ElementId) (e : Element) : List (ElementId × ElementId × Edge) :=
  (n.incoming v).flatMap fun i =>
    (n.outgoing v).map fun o => (i.source, o.target, bypass e i.edge o.edge)

/-- Removes an element and leads each of its inbound edges on to each of its targets. -/
def contract (p : Plan) (v : ElementId) (mode : ContractionMode) : Edit Unit :=
  match p.network.element? v with
  | none => (.error (.notAVertex v), p)
  | some e =>
    if mode = .singleInbound ∧ p.network.inDegree v ≠ 1 then
      (.error (.notOneInbound v (p.network.inDegree v)), p)
    else
      Edit.andThen
        (editAll (fun p (s, t, edge) => Edit.ignored (p.addEdge s t edge)) p
          (bypasses p.network v e))
        fun _ p => (.ok (), (p.removeVertex v).2)

end Dataflow.Plan
