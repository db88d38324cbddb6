import Dataflow.Network

/-!
# Views

A view shows a part of a network. A mask hides the sentinels; a restriction shows only the vertices
of a set and, if it is given one, only the edges of another. An edge shows where both of its ends
do. Layers are laid over a network one after the other.

Model of `ElementMaskSubGraph` and `ElementSubGraph` (`sub_graph`) by what they show.
-/

namespace Dataflow

namespace Network

/-- The network without its sentinels; the decoration stays. -/
def mask (n : Network) : Network where
  elements := n.elements.filter fun e => !e.id.isSentinel
  links := n.links.filter fun l => !l.touchesSentinel
  tags := n.tags

/-- The vertices of the set and the edges between them, of the edge set if one is given. A
restriction has no decoration. -/
def restrict (n : Network) (vertices : List ElementId) (edges : Option (List EdgeId)) :
    Network where
  elements := n.elements.filter fun e => vertices.contains e.id
  links := n.links.filter fun l =>
    (vertices.contains l.source && n.contains l.source) &&
      (vertices.contains l.target && n.contains l.target) && edges.all (·.contains l.id)
  tags := none

theorem mem_ids_mask {n : Network} {v : ElementId} :
    v ∈ n.mask.ids ↔ v ∈ n.ids ∧ v.isSentinel = false := by
  rw [mem_ids_of_filter (!·.isSentinel) rfl, Bool.not_eq_true']

theorem mem_links_mask {n : Network} {l : Link} :
    l ∈ n.mask.links ↔ l ∈ n.links ∧ l.touchesSentinel = false := by
  simp [mask]

theorem mem_ids_restrict {n : Network} {vs : List ElementId} {es : Option (List EdgeId)}
    {v : ElementId} : v ∈ (n.restrict vs es).ids ↔ v ∈ n.ids ∧ v ∈ vs := by
  rw [mem_ids_of_filter vs.contains rfl, List.contains_iff_mem]

/-- An edge shows where both of its ends do, if the edge set has it. -/
theorem mem_links_restrict {n : Network} {vs : List ElementId} {es : Option (List EdgeId)}
    {l : Link} : l ∈ (n.restrict vs es).links ↔
      l ∈ n.links ∧ l.source ∈ (n.restrict vs es).ids ∧ l.target ∈ (n.restrict vs es).ids ∧
        ∀ is, es = some is → l.id ∈ is := by
  rw [mem_ids_restrict, mem_ids_restrict]
  cases es <;> simp [restrict, and_assoc, and_comm, and_left_comm]

end Network

/-- A layer over a network. -/
inductive Layer where
  /-- Hides the sentinels. -/
  | mask
  /-- Shows a set of vertices, and of their edges all or those of a set. -/
  | restrict (vertices : List ElementId) (edges : Option (List EdgeId))

/-- The network under a layer. -/
def Layer.view : Layer → Network → Network
  | mask, n => n.mask
  | restrict vs es, n => n.restrict vs es

/-- The network under layers, the first one next to it. -/
def Network.through (n : Network) (layers : List Layer) : Network :=
  layers.foldl (fun n layer => layer.view n) n

end Dataflow
