import Dataflow.Edge
import Dataflow.Element
import Dataflow.Tag

/-!
# Networks

What can be read of a graph of elements: its vertices and its edges in storage order, and its
decoration. Stored plans, graphs given as they are, and every view of either are read through a
`Network`; all the questions of the planner are functions on it.

A network need not be a graph: edges may end at ids that are no vertices, and cycles are allowed.
`Network.Coherent` says what stored plans and their views keep to.

Model of `EdgeEntry` and of the queries of `ElementGraph` (`element_graph`).
-/

namespace Dataflow

/-- The number of an edge within one network. -/
abbrev EdgeId := Nat

/-- An edge at its place in a network. -/
structure Link where
  id : EdgeId
  source : ElementId
  target : ElementId
  edge : Edge
deriving DecidableEq

namespace Link

/-- The edge between the same ends, the other way. -/
def reverse (l : Link) : Link := { l with source := l.target, target := l.source }

/-- One of the ends is `v`. -/
def touches (l : Link) (v : ElementId) : Bool := l.source = v || l.target = v

/-- One of the ends is a sentinel. -/
def touchesSentinel (l : Link) : Bool := l.source.isSentinel || l.target.isSentinel

end Link

/-- A graph of elements as it is read. -/
structure Network where
  /-- The vertices in storage order. -/
  elements : List Element
  /-- The edges in storage order. -/
  links : List Link
  /-- The decoration, if there is one. -/
  tags : Option Tags
deriving DecidableEq

namespace Network

/-- A network of the given vertices and edges as they come, the edges numbered from 0. -/
def unchecked (elements : List Element) (edges : List (ElementId × ElementId × Edge)) :
    Network where
  elements := elements
  links := edges.zipIdx.map fun (e, i) => ⟨i, e.1, e.2.1, e.2.2⟩
  tags := none

/-! ### Vertices -/

/-- The ids of the vertices in storage order. -/
def ids (n : Network) : List ElementId := n.elements.map (·.id)

/-- The vertex of an id. -/
def element? (n : Network) (v : ElementId) : Option Element := n.elements.find? (·.id = v)

/-- The id is a vertex. -/
def contains (n : Network) (v : ElementId) : Bool := n.ids.contains v

/-- The number of vertices. -/
def vertexCount (n : Network) : Nat := n.elements.length

/-- The id is a vertex, and its element satisfies `p`. -/
def isVertexWith (n : Network) (p : Element → Bool) (v : ElementId) : Bool := (n.element? v).any p

/-! ### Edges -/

/-- The edge of a number. -/
def link? (n : Network) (e : EdgeId) : Option Link := n.links.find? (·.id = e)

/-- The number of edges. -/
def edgeCount (n : Network) : Nat := n.links.length

/-- The edges that end at `v`. -/
def incoming (n : Network) (v : ElementId) : List Link := n.links.filter (·.target = v)

/-- The edges that start at `v`. -/
def outgoing (n : Network) (v : ElementId) : List Link := n.links.filter (·.source = v)

/-- The edges from one vertex to another. -/
def between (n : Network) (s t : ElementId) : List Link :=
  n.links.filter fun l => l.source = s && l.target = t

/-- Where the edges that end at `v` start, one for each edge. -/
def predecessors (n : Network) (v : ElementId) : List ElementId := (n.incoming v).map (·.source)

/-- Where the edges that start at `v` end, one for each edge. -/
def successors (n : Network) (v : ElementId) : List ElementId := (n.outgoing v).map (·.target)

/-- The number of edges that end at `v`. -/
def inDegree (n : Network) (v : ElementId) : Nat := (n.incoming v).length

/-- The number of edges that start at `v`. -/
def outDegree (n : Network) (v : ElementId) : Nat := (n.outgoing v).length

/-- The network with every edge turned round. -/
def reverse (n : Network) : Network := { n with links := n.links.map Link.reverse }

/-- The ids that occur: the vertices, and the ends of edges. -/
def nodes (n : Network) : List ElementId :=
  (n.ids ++ n.links.flatMap fun l => [l.source, l.target]).eraseDups

/-! ### Decoration -/

/-- Some vertex carries a tag. -/
def hasTags (n : Network) : Bool := n.tags.any (!·.isEmpty)

/-! ### Steps -/

/-- Some edge leads from `a` to `b`. -/
def Step (n : Network) (a b : ElementId) : Prop := ∃ l ∈ n.links, l.source = a ∧ l.target = b

/-- No walk of at least one edge ends where it started. -/
def Acyclic (n : Network) : Prop := ∀ v, ¬ Relation.TransGen n.Step v v

/-- Edges end at vertices, and neither vertices nor edge numbers repeat; edges are listed by
ascending number. -/
structure Coherent (n : Network) : Prop where
  ids_nodup : n.ids.Nodup
  source_mem : ∀ l ∈ n.links, l.source ∈ n.ids
  target_mem : ∀ l ∈ n.links, l.target ∈ n.ids
  links_ascending : n.links.Pairwise (fun a b => a.id < b.id)

@[simp] theorem contains_iff {n : Network} {v : ElementId} : n.contains v = true ↔ v ∈ n.ids := by
  simp [contains]

theorem mem_ids {n : Network} {v : ElementId} : v ∈ n.ids ↔ ∃ e ∈ n.elements, e.id = v := by
  simp [ids]

/-- Where the vertices are selected by their ids, the ids are. -/
theorem mem_ids_of_filter {m n : Network} (keep : ElementId → Bool)
    (h : m.elements = n.elements.filter fun e => keep e.id) {v : ElementId} :
    v ∈ m.ids ↔ v ∈ n.ids ∧ keep v = true := by
  simp only [mem_ids, h, List.mem_filter]
  constructor
  · rintro ⟨e, ⟨he, hkeep⟩, rfl⟩
    exact ⟨⟨e, he, rfl⟩, hkeep⟩
  · rintro ⟨⟨e, he, rfl⟩, hkeep⟩
    exact ⟨e, ⟨he, hkeep⟩, rfl⟩

theorem element?_eq_none_iff {n : Network} {v : ElementId} :
    n.element? v = none ↔ v ∉ n.ids := by
  simp [element?, ids]

theorem mem_ids_of_element? {n : Network} {v : ElementId} {e : Element}
    (h : n.element? v = some e) : v ∈ n.ids := by
  refine Classical.byContradiction fun hv => ?_
  rw [element?_eq_none_iff.mpr hv] at h
  cases h

theorem exists_element? {n : Network} {v : ElementId} (h : v ∈ n.ids) :
    ∃ e, n.element? v = some e :=
  Option.ne_none_iff_exists'.mp (mt element?_eq_none_iff.mp (not_not_intro h))

/-- Where ids do not repeat, the vertex of an id is the one element with it. -/
theorem element?_eq_some_iff {n : Network} (hn : n.ids.Nodup) {v : ElementId} {e : Element} :
    n.element? v = some e ↔ e ∈ n.elements ∧ e.id = v := by
  unfold element? ids at *
  generalize n.elements = es at hn ⊢
  induction es with
  | nil => simp
  | cons d ds ih =>
    have ⟨hd, hds⟩ := List.nodup_cons.mp hn
    rw [List.find?_cons]
    by_cases h : d.id = v
    · have hne : ¬ (e ∈ ds ∧ e.id = v) := fun he =>
        hd (List.mem_map.mpr ⟨e, he.1, he.2.trans h.symm⟩)
      simp only [h, decide_true, List.mem_cons]
      constructor
      · rintro ⟨⟩
        exact ⟨.inl rfl, h⟩
      · rintro ⟨rfl | he, hv⟩
        · rfl
        · exact absurd ⟨he, hv⟩ hne
    · simp only [h, decide_false, ih hds, List.mem_cons]
      constructor
      · exact fun he => ⟨.inr he.1, he.2⟩
      · rintro ⟨rfl | he, hv⟩
        · exact absurd hv h
        · exact ⟨he, hv⟩

@[simp] theorem mem_incoming {n : Network} {v : ElementId} {l : Link} :
    l ∈ n.incoming v ↔ l ∈ n.links ∧ l.target = v := by
  simp [incoming]

@[simp] theorem mem_outgoing {n : Network} {v : ElementId} {l : Link} :
    l ∈ n.outgoing v ↔ l ∈ n.links ∧ l.source = v := by
  simp [outgoing]

@[simp] theorem mem_between {n : Network} {s t : ElementId} {l : Link} :
    l ∈ n.between s t ↔ l ∈ n.links ∧ l.source = s ∧ l.target = t := by
  simp [between]

theorem mem_successors {n : Network} {a b : ElementId} : b ∈ n.successors a ↔ n.Step a b := by
  simp only [successors, List.mem_map, mem_outgoing, Step]
  constructor
  · rintro ⟨l, ⟨h, hs⟩, ht⟩; exact ⟨l, h, hs, ht⟩
  · rintro ⟨l, h, hs, ht⟩; exact ⟨l, ⟨h, hs⟩, ht⟩

theorem mem_predecessors {n : Network} {a b : ElementId} : a ∈ n.predecessors b ↔ n.Step a b := by
  simp only [predecessors, List.mem_map, mem_incoming, Step]
  constructor
  · rintro ⟨l, ⟨h, ht⟩, hs⟩; exact ⟨l, h, hs, ht⟩
  · rintro ⟨l, h, hs, ht⟩; exact ⟨l, ⟨h, ht⟩, hs⟩

theorem mem_nodes_of_mem_ids {n : Network} {v : ElementId} (h : v ∈ n.ids) : v ∈ n.nodes := by
  unfold nodes
  rw [List.mem_eraseDups, List.mem_append]
  exact .inl h

theorem source_mem_nodes {n : Network} {l : Link} (h : l ∈ n.links) : l.source ∈ n.nodes := by
  unfold nodes
  rw [List.mem_eraseDups, List.mem_append, List.mem_flatMap]
  exact .inr ⟨l, h, List.mem_cons_self⟩

theorem target_mem_nodes {n : Network} {l : Link} (h : l ∈ n.links) : l.target ∈ n.nodes := by
  unfold nodes
  rw [List.mem_eraseDups, List.mem_append, List.mem_flatMap]
  exact .inr ⟨l, h, List.mem_cons_of_mem _ List.mem_cons_self⟩

theorem Step.mono {m n : Network} (h : ∀ l ∈ m.links, l ∈ n.links) {a b : ElementId} :
    m.Step a b → n.Step a b := fun ⟨l, hl, hs, ht⟩ => ⟨l, h l hl, hs, ht⟩

/-- A network with fewer edges is acyclic if the larger one is. -/
theorem Acyclic.mono {m n : Network} (hn : n.Acyclic) (h : ∀ a b, m.Step a b → n.Step a b) :
    m.Acyclic := by
  intro v hv
  refine hn v ?_
  have : ∀ {a b}, Relation.TransGen m.Step a b → Relation.TransGen n.Step a b := by
    intro a b hab
    induction hab with
    | single hs => exact .single (h _ _ hs)
    | tail _ hs ih => exact .tail ih (h _ _ hs)
  exact this hv

end Network

end Dataflow
