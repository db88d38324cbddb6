import Dataflow.Failure
import Dataflow.Network

/-!
# Topological order

Vertices are taken from a queue that starts with those no edge enters, in storage order. Taking one
counts its outgoing edges off at their targets, and a target joins the queue when its last edge is
counted off. Vertices on a cycle, and those behind one, never join.

The reverse order is the order of the network with its edges turned round, not the order read
backwards.

Model of `TopologicalIter` by all that it yields, and of `topological_order`,
`reverse_topological_order` and `complete` (`traversal`).
-/

namespace Dataflow.Network

/-- For each vertex the number of its incoming edges that are not counted off. -/
abbrev Counts := List (ElementId × Int)

/-- Counts one edge into `v` off, and says whether it was the last. -/
def countOff (v : ElementId) : Counts → Counts × Bool
  | [] => ([], false)
  | (w, k) :: rest =>
    if w = v then ((w, k - 1) :: rest, k - 1 = 0)
    else ((w, k) :: (countOff v rest).1, (countOff v rest).2)

/-- Counts an edge into each vertex of a list off, and gives those whose last edge it was. -/
def countOffAll : List ElementId → Counts → Counts × List ElementId
  | [], cs => (cs, [])
  | v :: vs, cs =>
    let r := countOff v cs
    let rs := countOffAll vs r.1
    (rs.1, if r.2 then v :: rs.2 else rs.2)

/-- The number of vertices that wait for an edge. -/
def waiting (cs : Counts) : Nat := cs.countP fun c => 0 < c.2

theorem waiting_countOff (v : ElementId) : ∀ cs : Counts,
    waiting (countOff v cs).1 + (if (countOff v cs).2 then 1 else 0) ≤ waiting cs
  | [] => by simp [countOff, waiting]
  | (w, k) :: rest => by
    have ih := waiting_countOff v rest
    unfold waiting at *
    unfold countOff
    split
    · simp only [List.countP_cons, decide_eq_true_eq]
      split <;> split <;> split <;> omega
    · simp only [List.countP_cons]
      omega

theorem waiting_countOffAll : ∀ (vs : List ElementId) (cs : Counts),
    waiting (countOffAll vs cs).1 + (countOffAll vs cs).2.length ≤ waiting cs
  | [], cs => by simp [countOffAll]
  | v :: vs, cs => by
    have h := waiting_countOff v cs
    have ih := waiting_countOffAll vs (countOff v cs).1
    simp only [countOffAll]
    split <;> simp_all <;> omega

/-- The order in which the queue is emptied. -/
def drain (next : ElementId → List ElementId) (queue : List ElementId) (cs : Counts) :
    List ElementId :=
  match queue with
  | [] => []
  | v :: queue =>
    v :: drain next (queue ++ (countOffAll (next v) cs).2) (countOffAll (next v) cs).1
termination_by waiting cs + queue.length
decreasing_by
  have := waiting_countOffAll (next v) cs
  simp only [List.length_append, List.length_cons]
  omega

/-- The vertices neither on nor behind a cycle, each after all those with an edge to it. -/
def order (n : Network) : List ElementId :=
  drain n.successors (n.ids.filter fun v => n.inDegree v = 0)
    (n.ids.map fun v => (v, (n.inDegree v : Int)))

/-- The vertices neither on nor before a cycle, each after all those it has an edge to. -/
def reverseOrder (n : Network) : List ElementId := n.reverse.order

/-- An order has to reach every vertex. -/
def complete (n : Network) (order : List ElementId) : Except Failure (List ElementId) :=
  if order.length = n.vertexCount then .ok order
  else .error <| .noOrder <|
    s!"topological order reached {order.length} of {n.vertexCount} vertices, " ++
      "graph contains a cycle"

/-- All vertices, each after those with an edge to it. Fails on a cycle. -/
def topologicalOrder (n : Network) : Except Failure (List ElementId) := n.complete n.order

/-- All vertices, each after those it has an edge to. Fails on a cycle. -/
def reverseTopologicalOrder (n : Network) : Except Failure (List ElementId) :=
  n.complete n.reverseOrder

end Dataflow.Network
