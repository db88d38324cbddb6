import Dataflow.Network.View
import Dataflow.Path.Search

/-!
# Closure by a search for paths

The closure by paths as the search comes upon them, contracted edge by contracted edge. A path that
passes a third contracted vertex is never walked.

Model of `find_closure_via_k_shortest` (`k_shortest`) as it goes about it. It also logs a warning
where the paths along an edge are very many, which is left out.
-/

namespace Dataflow.Network

/-- The vertices on the paths that the search finds between the ends of a contracted edge. -/
def foundAlong (full contracted : Network) (l : Link) : List ElementId :=
  (full.search (fun v => !contracted.contains v) l.source l.target).flatMap (·.vertices)

/-- The contracted vertices, and the vertices on the paths that the search finds between the ends of
each contracted edge. -/
def searchClosure (full contracted : Network) : SortedSet ElementId :=
  contracted.links.foldl (fun vertices l => vertices.insertAll (full.foundAlong contracted l))
    (.ofList contracted.ids)

end Dataflow.Network
