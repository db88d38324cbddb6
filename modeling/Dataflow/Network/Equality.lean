import Dataflow.Network

/-!
# Equality of networks

Two networks are equal when they have the same vertices and their edges can be paired off: the same
ends, alike, and weights near each other. Edges between the same two vertices are paired one after
the other, each with the first candidate left that fits (`pairOff`); a candidate that is taken
leaves its place to the last one.

Model of `equals_ignoring_annotations`, `equals` and the equality of `GraphShape` (`equivalence`).
-/

namespace Dataflow

/-- The edges are alike and their weights are near. -/
def Edge.fits (a b : Edge) : Bool := b.alike a && b.weight.near a.weight

/-- The list without its member at `i`, the last member in its place. -/
def swapRemove {α : Type} (xs : List α) (i : Nat) : List α :=
  match xs.getLast? with
  | none => []
  | some last => if i + 1 = xs.length then xs.dropLast else xs.dropLast.set i last

/-- Each edge finds a candidate of its own: the first that fits of those left. -/
def pairOff : List Edge → List Edge → Bool
  | [], _ => true
  | e :: es, candidates =>
    match candidates.findIdx? e.fits with
    | none => false
    | some i => pairOff es (swapRemove candidates i)

namespace Network

/-- The values of the edges from one vertex to another. -/
def edgesBetween (n : Network) (s t : ElementId) : List Edge := (n.between s t).map (·.edge)

/-- The networks have the same vertices. -/
def sameVertices (a b : Network) : Bool := a.ids.all b.contains && b.ids.all a.contains

/-- The networks have the same vertices, and their edges can be paired off. -/
def equalsIgnoringTags (a b : Network) : Bool :=
  a.sameVertices b && a.edgeCount = b.edgeCount &&
    (a.links.map fun l => (l.source, l.target)).eraseDups.all fun ends =>
      pairOff (a.edgesBetween ends.1 ends.2) (b.edgesBetween ends.1 ends.2)

/-- The networks are equal, and so are their decorations if vertices carry tags in both; tags in
one alone make them differ. -/
def equals (a b : Network) : Bool :=
  a.equalsIgnoringTags b &&
    match a.hasTags, b.hasTags with
    | false, false => true
    | true, true => a.tags = b.tags
    | _, _ => false

end Network

end Dataflow
