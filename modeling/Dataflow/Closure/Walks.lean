import Dataflow.Network.Reach
import Dataflow.Network.View

/-!
# Closure by walks

The vertices of a full network between the ends of the edges of a contracted one. Edges that would
lead out of the region are pruned before: those that touch an excluded element, those into a
contracted vertex that no contracted edge enters, and those out of one that none leaves.

Model of `Closure` and `as_sub_graph` (`closure`), and of `find_closure_via_floyd_warshall`
(`floyd_warshall`) by what it gives.
-/

namespace Dataflow

/-- The vertices of a closure, and the edges of the full network pruned on the way. -/
structure Closure where
  vertices : SortedSet ElementId
  pruned : SortedSet EdgeId

namespace Network

/-- The vertex is one of the contracted network that none of its edges enters. -/
def isEntry (contracted : Network) (v : ElementId) : Bool :=
  contracted.contains v && contracted.inDegree v = 0

/-- The vertex is one of the contracted network that none of its edges leaves. -/
def isExit (contracted : Network) (v : ElementId) : Bool :=
  contracted.contains v && contracted.outDegree v = 0

/-- The edge would lead out of the region. -/
def leaks (full contracted : Network) (excludes : List ElementId) (l : Link) : Bool :=
  excludes.any (fun v => full.contains v && l.touches v) ||
    contracted.isEntry l.target || contracted.isExit l.source

/-- The full network without sentinels and pruned edges. -/
def inside (full contracted : Network) (excludes : List ElementId) : Network :=
  let masked := full.mask
  { masked with links := masked.links.filter fun l => !full.leaks contracted excludes l }

/-- The contracted vertices, and the vertices of the full network on a walk inside the region
between the ends of a contracted edge. -/
def closure (full contracted : Network) (excludes : List ElementId) : Closure where
  vertices :=
    let inside := full.inside contracted excludes
    .ofList (contracted.ids ++ contracted.links.flatMap fun l => inside.onWalk l.source l.target)
  pruned := .ofList ((full.links.filter (full.leaks contracted excludes)).map (·.id))

/-- The full network restricted to its closure, without the pruned edges. Where it has an entry,
its sentinels are left out before. -/
def closureView (full contracted : Network) (excludes : List ElementId) : Network :=
  let masked := full.contains .head
  let closure := (if masked then full.mask else full).closure contracted excludes
  let shown (l : Link) : Bool := !(masked && l.touchesSentinel) && !decide (l.id ∈ closure.pruned)
  full.restrict (closure.vertices.toList.filter fun v => !(masked && v.isSentinel))
    (some ((full.links.filter shown).map (·.id)))

end Network

end Dataflow
