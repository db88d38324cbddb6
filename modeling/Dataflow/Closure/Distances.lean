import Dataflow.Closure.Walks
import Dataflow.Data.Distances
import Dataflow.Failure

/-!
# Closure by distances

The closure by walks as it is computed: the vertices of the full network but its sentinels are
numbered, the edges that are not pruned join the numbers, and a vertex lies between two others where
the distances to and from it are known.

Model of `find_closure_via_floyd_warshall` and `exclusion_edges` (`floyd_warshall`), step by step.
The function of this name that finds the distances comes from a library, and is a parameter here;
what is assumed of it is `ShortestDistances`.
-/

namespace Dataflow.Network

/-- The edges of excluded vertices. -/
def excluded (full : Network) (excludes : List ElementId) : List Link :=
  excludes.flatMap fun v => if full.contains v then full.incoming v ++ full.outgoing v else []

/-- The edges into contracted vertices that no contracted edge enters, and those out of contracted
vertices that none leaves. -/
def leaking (full contracted : Network) : List Link :=
  contracted.ids.flatMap fun v =>
    (if contracted.inDegree v = 0 then full.incoming v else []) ++
      if contracted.outDegree v = 0 then full.outgoing v else []

/-- The numbers of the edges that are pruned. -/
def exclusions (full contracted : Network) (excludes : List ElementId) : SortedSet EdgeId :=
  .ofList ((full.excluded excludes ++ full.leaking contracted).map (·.id))

/-- The vertices that are numbered, in the order of their numbers. -/
def numbered (full : Network) : List ElementId := full.ids.filter fun v => !v.isSentinel

/-- The edges that are not pruned, by the numbers of their ends. Parallel edges are one. -/
def numberedEdges (full : Network) (pruned : SortedSet EdgeId) :
    List (Fin full.numbered.length × Fin full.numbered.length) :=
  (full.links.filterMap fun l =>
    if l.id ∈ pruned then none
    else
      match full.numbered.finIdxOf? l.source, full.numbered.finIdxOf? l.target with
      | some a, some b => some (a, b)
      | _, _ => none).eraseDups

/-- The distance from one vertex to another is known, and they are not far. -/
def near (full : Network) (d : Distances full.numbered.length) (u v : ElementId) : Bool :=
  match full.numbered.finIdxOf? u, full.numbered.finIdxOf? v with
  | some a, some b => (d a b).any (· ≠ far)
  | _, _ => false

/-- The vertices of a set with the candidates that lie between the ends of some edge. A candidate
that an edge takes is none for the edges after it. -/
def gather (near : ElementId → ElementId → Bool) :
    List Link → List ElementId → SortedSet ElementId → SortedSet ElementId
  | [], _, vertices => vertices
  | l :: ls, candidates, vertices =>
    let between (v : ElementId) : Bool := near l.source v && near v l.target
    gather near ls (candidates.filter fun v => !between v)
      (vertices.insertAll (candidates.filter between))

/-- The closure by walks, by a function that finds the distances between all pairs of nodes. -/
def distanceClosure (distances : ∀ size, List (Fin size × Fin size) → Option (Distances size))
    (full contracted : Network) (excludes : List ElementId) : Except Failure Closure :=
  let pruned := full.exclusions contracted excludes
  match distances full.numbered.length (full.numberedEdges pruned) with
  | none => .error (.noOrder "negative cycle in unit-weight graph")
  | some d => .ok {
      vertices := gather (full.near d) contracted.links
        (full.ids.filter fun v => !contracted.contains v) (.ofList contracted.ids)
      pruned }

end Dataflow.Network
