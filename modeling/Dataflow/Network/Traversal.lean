import Dataflow.Network.Order

/-!
# Traversals

The topological order, asked for one vertex after the other. A traversal keeps how many edges are
not counted off at each vertex, and the vertices that are due; to give the next of these it counts
off the edges that lead on from there. Against the edges it starts where no edge leaves.

Model of `TopologicalIter` with `forward`, `reverse` and `next` (`traversal`).
-/

namespace Dataflow

/-- A topological traversal on its way. -/
structure Traversal where
  network : Network
  /-- Edges are followed from their targets to their sources. -/
  reverse : Bool
  /-- For each vertex the number of edges to it that are not counted off. -/
  remaining : Network.Counts
  /-- The vertices that are due. -/
  queue : List ElementId

namespace Traversal

/-- The number of edges by which a traversal comes to `v`. -/
def degree (n : Network) (reverse : Bool) (v : ElementId) : Nat :=
  if reverse then n.outDegree v else n.inDegree v

/-- Nothing is given yet, and the vertices that no edge leads to are due. -/
def start (n : Network) (reverse : Bool) : Traversal where
  network := n
  reverse := reverse
  remaining := n.ids.map fun v => (v, (degree n reverse v : Int))
  queue := n.ids.filter fun v => degree n reverse v = 0

/-- Where the edges lead on from `v`, one for each edge. -/
def onward (t : Traversal) (v : ElementId) : List ElementId :=
  if t.reverse then t.network.predecessors v else t.network.successors v

/-- The next vertex, and the traversal after it. -/
def next? (t : Traversal) : Option (ElementId × Traversal) :=
  match t.queue with
  | [] => none
  | v :: queue =>
    let counted := Network.countOffAll (t.onward v) t.remaining
    some (v, { t with remaining := counted.1, queue := queue ++ counted.2 })

/-- All that a traversal gives. -/
def toList (t : Traversal) : List ElementId := Network.drain t.onward t.queue t.remaining

/-- A traversal gives some vertices one after the other, and comes to another state. -/
inductive Produces : Traversal → List ElementId → Traversal → Prop
  | nil (t : Traversal) : Produces t [] t
  | cons {t t' t'' : Traversal} {v : ElementId} {vs : List ElementId} :
      t.next? = some (v, t') → Produces t' vs t'' → Produces t (v :: vs) t''

/-- What a traversal does to give its next vertex. -/
theorem of_next?_eq_some {t t' : Traversal} {v : ElementId} (h : t.next? = some (v, t')) :
    t'.network = t.network ∧ t'.reverse = t.reverse ∧ ∃ queue, t.queue = v :: queue ∧
      t'.remaining = (Network.countOffAll (t.onward v) t.remaining).1 ∧
      t'.queue = queue ++ (Network.countOffAll (t.onward v) t.remaining).2 := by
  unfold next? at h
  split at h
  · cases h
  · rename_i queue hq
    cases h
    exact ⟨rfl, rfl, queue, hq, rfl, rfl⟩

theorem next?_eq_none_iff {t : Traversal} : t.next? = none ↔ t.queue = [] := by
  unfold next?
  split
  · rename_i hq
    exact iff_of_true rfl hq
  · rename_i hq
    exact iff_of_false (Option.some_ne_none _) (by simp [hq])

/-- **A traversal gives all it has, and then nothing is due.** -/
theorem exists_produces (t : Traversal) : ∃ t', t.Produces t.toList t' ∧ t'.queue = [] := by
  unfold toList
  generalize ho : t.onward = next, hq : t.queue = queue, hcs : t.remaining = cs
  fun_induction Network.drain next queue cs generalizing t with
  | case1 cs => exact ⟨t, .nil t, hq⟩
  | case2 cs v queue ih =>
    subst ho hcs
    obtain ⟨t', hp, ht'⟩ := ih { t with
      remaining := (Network.countOffAll (t.onward v) t.remaining).1
      queue := queue ++ (Network.countOffAll (t.onward v) t.remaining).2 } rfl rfl rfl
    refine ⟨t', .cons ?_ hp, ht'⟩
    unfold next?
    rw [hq]

end Traversal

end Dataflow
