import Dataflow.Data.SortedSet
import Dataflow.Edge.Weight

/-!
# Edges

What an edge carries, apart from its place in a network. The weight and the prior names tell no
edges apart (`Edge.alike`): weights are compared with a tolerance where networks are, and prior
names only record what an edge was made of.

Model of `FlowEdge` with `new`, `derived_from` (`Edge.withoutPriorNames`), `add_prior_names` and its
equality (`flow_edge`).
-/

namespace Dataflow

/-- The value of an edge. -/
structure Edge where
  /-- The branch the edge continues. -/
  name : String
  /-- The input of the target that the edge feeds. -/
  ordinal : UInt64
  /-- Data may stream through before all of it is there. -/
  nonBlocking : Bool
  weight : Weight
  /-- The names of the edges that a contraction made this one of. -/
  priorNames : SortedSet String
deriving DecidableEq

namespace Edge

/-- A non-blocking edge to the first input, of default weight and without prior names. -/
def named (name : String) : Edge where
  name := name
  ordinal := 0
  nonBlocking := true
  weight := .default
  priorNames := ∅

/-- The same edge without its prior names. -/
def withoutPriorNames (e : Edge) : Edge := { e with priorNames := ∅ }

/-- The edge with more prior names. -/
def addPriorNames (e : Edge) (names : List String) : Edge :=
  { e with priorNames := e.priorNames.insertAll names }

/-- The edges agree in name, ordinal and flag. -/
def alike (a b : Edge) : Bool :=
  a.name = b.name && a.ordinal = b.ordinal && a.nonBlocking = b.nonBlocking

theorem alike_iff {a b : Edge} : a.alike b = true ↔
    a.name = b.name ∧ a.ordinal = b.ordinal ∧ a.nonBlocking = b.nonBlocking := by
  simp [alike, and_assoc]

end Edge

end Dataflow
