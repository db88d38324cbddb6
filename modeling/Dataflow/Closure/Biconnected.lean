import Dataflow.Data.Sweep
import Dataflow.Failure
import Dataflow.Network.View

/-!
# Closure by biconnected components

The edges of a full and a contracted network together, read without direction, fall into
biconnected components. The component of an edge holds the vertices that no single other vertex
cuts off from the ends of the edge.

Model of `find_closure_via_biconnected` and `undirected_union` (`biconnected`), and of
`as_sub_graph_biconnected` (`closure`). The components are found pair by pair, each on its own;
`lowLinkClosure` finds them all at once, as the function does.
-/

namespace Dataflow

/-- A graph without direction: its nodes, and the pairs it links. -/
structure Bonds where
  nodes : List ElementId
  pairs : List (ElementId × ElementId)

namespace Bonds

/-- The nodes linked to `v`. -/
def neighbors (b : Bonds) (v : ElementId) : List ElementId :=
  b.pairs.flatMap fun p =>
    if p.1 = v then [p.2] else if p.2 = v then [p.1] else []

/-- The nodes that can be reached from one of `starts` without passing `cut`. -/
def reachAvoiding (b : Bonds) (cut : ElementId) (starts : List ElementId) : List ElementId :=
  let starts := starts.filter (· ≠ cut)
  starts ++ sweep b.neighbors (b.nodes.filter (· ≠ cut)) starts

/-- The biconnected component of the pair `s`, `t`: the nodes that no other node cuts off from both
of them. -/
def component (b : Bonds) (s t : ElementId) : List ElementId :=
  b.nodes.foldl
    (fun kept cut =>
      let reached := b.reachAvoiding cut [s, t]
      kept.filter fun v => v = cut || reached.contains v)
    b.nodes

/-- The nodes of the biconnected components that hold both `s` and `t`. Distinct ends are taken to
be linked, and share one component; a node is in the component of each of its pairs, and one
without pairs is a component of its own. -/
def covering (b : Bonds) (s t : ElementId) : List ElementId :=
  if s ≠ t then b.component s t
  else if b.nodes.contains s then s :: (b.neighbors s).flatMap (b.component s)
  else []

end Bonds

namespace Network

/-- The vertices of two networks, and their edges without direction. An edge from a vertex to
itself links nothing. -/
def bonds (full contracted : Network) : Bonds :=
  let pairs := ((full.links ++ contracted.links).map fun l => (l.source, l.target)).filter
    fun p => p.1 ≠ p.2
  { nodes := (full.ids ++ contracted.ids ++ pairs.flatMap fun p => [p.1, p.2]).eraseDups
    pairs := pairs.eraseDups }

/-- The contracted vertices, and the biconnected components that hold both ends of a contracted
edge. -/
def biconnectedClosure (full contracted : Network) : Except Failure (SortedSet ElementId) :=
  let bonds := full.bonds contracted
  if bonds.nodes = [] then .error .noComponents
  else
    let vertices := SortedSet.ofList <|
      contracted.ids ++ contracted.links.flatMap fun l => bonds.covering l.source l.target
    if vertices.isEmpty then .error .emptyClosure else .ok vertices

/-- The full network restricted to its biconnected closure. -/
def biconnectedView (full contracted : Network) : Except Failure Network :=
  (full.biconnectedClosure contracted).map fun vs => full.restrict vs.toList none

end Network

end Dataflow
