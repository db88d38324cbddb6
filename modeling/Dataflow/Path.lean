import Dataflow.Data.Sweep
import Dataflow.Network

/-!
# Paths

Every path between two vertices on which no vertex repeats. The search goes depth first along the
edges in storage order and lists the trails it walks (`trails`): those that arrive are the paths,
and the others are the trails that it extends.

Only vertices that can still complete a path are entered (`completing`), so that branches that lead
elsewhere cost nothing beyond one sweep back from the target.

Model of `GraphPath`, of `all_shortest_paths_between` and `paths_through` (`paths`) by what they
give, and of `all_direct_paths_between` (`splice`).
-/

namespace Dataflow

/-- An edge to take, and where it leads. -/
structure Move where
  link : EdgeId
  target : ElementId
deriving DecidableEq, Repr

/-- A path: where it starts, and the moves it makes. -/
structure Path where
  start : ElementId
  moves : List Move
deriving DecidableEq, Repr

namespace Path

/-- The vertices along the path, both ends included. -/
def vertices (p : Path) : List ElementId := p.start :: p.moves.map (·.target)

/-- The edges along the path. -/
def links (p : Path) : List EdgeId := p.moves.map (·.link)

/-- The number of edges. -/
def length (p : Path) : Nat := p.moves.length

/-- The path makes no move. -/
def isEmpty (p : Path) : Bool := p.moves.isEmpty

/-- The edge by which the path arrives. -/
def lastLink? (p : Path) : Option EdgeId := p.links.getLast?

/-- The vertices strictly between the ends. -/
def interior (p : Path) : List ElementId := p.vertices.tail.dropLast

@[simp] theorem length_links (p : Path) : p.links.length = p.length := by
  simp [links, length]

end Path

/-- The trails from `v` depth first, each before those that extend it. A trail ends at the target
`goal`, or enters a vertex of `unvisited`. -/
def trails (moves : ElementId → List Move) (goal : ElementId) (unvisited : List ElementId)
    (v : ElementId) : List (List Move) :=
  (moves v).flatMap fun m =>
    if m.target = goal then [[m]]
    else if _h : m.target ∈ unvisited then
      [m] :: (trails moves goal (unvisited.erase m.target) m.target).map (m :: ·)
    else []
termination_by unvisited.length
decreasing_by
  rw [List.length_erase_of_mem _h]
  exact Nat.sub_lt (List.length_pos_of_mem _h) Nat.one_pos

namespace Network

/-- The vertices with a walk of at least one edge to `goal` whose vertices between are all admitted,
and `goal` itself. -/
def completing (n : Network) (admits : ElementId → Bool) (goal : ElementId) : List ElementId :=
  goal :: sweep (fun v => if v = goal || admits v then n.predecessors v else []) n.nodes [goal]

/-- The moves from `v` on the way to `goal`: to `goal` itself, or to an admitted vertex that can
complete a path. -/
def movesTowards (n : Network) (admits : ElementId → Bool) (goal : ElementId)
    (completing : List ElementId) (v : ElementId) : List Move :=
  (n.outgoing v).filterMap fun l =>
    if l.target = goal || (completing.contains l.target && admits l.target) then
      some ⟨l.id, l.target⟩
    else none

/-- The trails that the search from one vertex to another walks. -/
def trailsThrough (n : Network) (admits : ElementId → Bool) (start goal : ElementId) :
    List (List Move) :=
  let completing := n.completing admits goal
  if start ≠ goal && n.contains start && n.contains goal && completing.contains start then
    trails (n.movesTowards admits goal completing) goal (n.nodes.erase start) start
  else []

/-- The trail arrives at `goal`. -/
def arrives (goal : ElementId) (trail : List Move) : Bool :=
  trail.getLast?.any fun m => m.target = goal

/-- The paths between two vertices whose interiors are admitted, shortest first and those of one
length in the order of the search. -/
def pathsThrough (n : Network) (admits : ElementId → Bool) (start goal : ElementId) : List Path :=
  (((n.trailsThrough admits start goal).filter (arrives goal)).map fun ms => ⟨start, ms⟩).mergeSort
    fun p q => p.length ≤ q.length

/-- The paths between two vertices, shortest first. -/
def paths (n : Network) (start goal : ElementId) : List Path :=
  n.pathsThrough (fun _ => true) start goal

/-- Boundaries and groupings interrupt a direct path. -/
def isPassable (n : Network) (v : ElementId) : Bool :=
  !n.isVertexWith (fun e => e.isBoundary || e.isGrouping) v

/-- The paths between two vertices with no boundary and no grouping between their ends. -/
def directPaths (n : Network) (start goal : ElementId) : List Path :=
  n.pathsThrough n.isPassable start goal

end Network

end Dataflow
