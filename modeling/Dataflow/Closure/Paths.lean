import Dataflow.Network.View
import Dataflow.Path

/-!
# Closure by paths

The vertices on the paths of a full network between the ends of the edges of a contracted one that
pass no other contracted vertex.

Model of `find_closure_via_k_shortest` (`k_shortest`) by what it gives, and of
`as_sub_graph_k_shortest` (`closure`).
-/

namespace Dataflow.Network

/-- The contracted vertices, and the vertices on every path between the ends of a contracted edge
with no contracted vertex between. -/
def pathClosure (full contracted : Network) : SortedSet ElementId :=
  .ofList <| contracted.ids ++ contracted.links.flatMap fun l =>
    (full.pathsThrough (fun v => !contracted.contains v) l.source l.target).flatMap Path.vertices

/-- The full network restricted to its closure by paths. -/
def pathView (full contracted : Network) : Network :=
  full.restrict (full.pathClosure contracted).toList none

end Dataflow.Network
