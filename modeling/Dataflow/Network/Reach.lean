import Dataflow.Data.Sweep
import Dataflow.Network

/-!
# Reachability

Model of `has_path_connecting`, which `add_edge` (`flow_graph`) asks and a library answers: a vertex
leads to its `descendants`.

* **`Network.mem_descendants`**: in a network whose edges end at vertices, the descendants of a
  vertex are the ends of the walks of at least one edge from it.
* **`Network.Acyclic.addStep`**: an edge closes no cycle unless its target leads back to its
  source.
-/

namespace Dataflow.Network

/-- The vertices at the end of a walk of at least one edge from `v`, nearest first. -/
def descendants (n : Network) (v : ElementId) : List ElementId := sweep n.successors n.ids [v]

/-- The vertices at the start of a walk of at least one edge to `v`, nearest first. -/
def ancestors (n : Network) (v : ElementId) : List ElementId := sweep n.predecessors n.ids [v]

/-- The vertices on a walk from `s` to `t`, both included, if both are vertices and there is
one. -/
def onWalk (n : Network) (s t : ElementId) : List ElementId :=
  let after := s :: n.descendants s
  let before := t :: n.ancestors t
  if n.contains s && n.contains t then
    n.ids.filter fun v => after.contains v && before.contains v
  else []

theorem via_successors_iff {n : Network} (hn : ∀ l ∈ n.links, l.target ∈ n.ids)
    {a b : ElementId} : Via n.successors n.ids a b ↔ Relation.TransGen n.Step a b := by
  constructor
  · intro h
    induction h with
    | single hs _ => exact .single (mem_successors.mp hs)
    | head hs _ _ ih => exact Relation.TransGen.trans (.single (mem_successors.mp hs)) ih
  · intro h
    have hmem : ∀ {a b}, n.Step a b → b ∈ n.ids := fun ⟨l, hl, _, ht⟩ => ht ▸ hn l hl
    induction h with
    | single hs => exact .single (mem_successors.mpr hs) (hmem hs)
    | tail _ hs ih => exact ih.trans (.single (mem_successors.mpr hs) (hmem hs))

/-- **The descendants are the ends of the walks.** -/
theorem mem_descendants {n : Network} (hn : ∀ l ∈ n.links, l.target ∈ n.ids) {a b : ElementId} :
    b ∈ n.descendants a ↔ Relation.TransGen n.Step a b := by
  unfold descendants
  rw [mem_sweep, ← via_successors_iff hn]
  simp

/-- **An edge closes no cycle unless its target leads back to its source.** -/
theorem Acyclic.addStep {m n : Network} (hn : n.Acyclic) {s t : ElementId}
    (hm : ∀ a b, m.Step a b → n.Step a b ∨ (a = s ∧ b = t)) (hne : s ≠ t)
    (hts : ¬ Relation.TransGen n.Step t s) : m.Acyclic := by
  have key : ∀ {a b}, Relation.TransGen m.Step a b → Relation.TransGen n.Step a b ∨
      ((a = s ∨ Relation.TransGen n.Step a s) ∧ (t = b ∨ Relation.TransGen n.Step t b)) := by
    intro a b h
    induction h with
    | single h =>
      rcases hm _ _ h with h | ⟨rfl, rfl⟩
      · exact .inl (.single h)
      · exact .inr ⟨.inl rfl, .inl rfl⟩
    | tail _ h ih =>
      rcases hm _ _ h with h | ⟨rfl, rfl⟩
      · rcases ih with ih | ⟨hs, rfl | ht⟩
        · exact .inl (.tail ih h)
        · exact .inr ⟨hs, .inr (.single h)⟩
        · exact .inr ⟨hs, .inr (.tail ht h)⟩
      · rcases ih with ih | ⟨hs, -⟩
        · exact .inr ⟨.inr ih, .inl rfl⟩
        · exact .inr ⟨hs, .inl rfl⟩
  intro v hv
  rcases key hv with h | ⟨rfl | hs, rfl | ht⟩
  · exact hn v h
  · exact hne rfl
  · exact hts ht
  · exact hts hs
  · exact hts (ht.trans hs)

end Dataflow.Network
