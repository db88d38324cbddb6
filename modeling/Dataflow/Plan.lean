import Dataflow.Failure
import Dataflow.Network.Reach
import Dataflow.Plan.Store

/-!
# Plans

A plan is an acyclic network that is edited in place: vertices with distinct ids, and edges between
them of which several may run in parallel. Every edit gives its answer together with the plan after
it, also where it fails.

Model of `FlowGraph` (`flow_graph`): `new`, `with_extents`, `add_vertex`, `remove_vertex`,
`add_edge`, `connect`, `remove_edge`, `remove_edge_between`, `edge_mut`, `annotations_mut` and
`set_annotations`. The index from ids to slots is left to `Register`.

* **`Plan.network_insertEdge`, `Plan.network_removeVertex`, `Plan.network_removeEdge`,
  `Plan.network_modifyEdge`**: each edit as it shows in the network that is read from the plan.
* **`Plan.free_removeVertex`**: the slots that the removal of a vertex gives up.
-/

namespace Dataflow

/-- A stored network without cycles. -/
structure Plan extends Store where
  /-- Edges end at vertices, and neither vertices nor edge numbers repeat. -/
  coherent : toStore.network.Coherent
  acyclic : toStore.network.Acyclic

namespace Plan

/-- What is read from the plan. -/
abbrev network (p : Plan) : Network := p.toStore.network

/-- The plan without vertices. -/
def empty : Plan where
  toStore := .empty
  coherent :=
    { ids_nodup := .nil
      source_mem := fun _ h => absurd h List.not_mem_nil
      target_mem := fun _ h => absurd h List.not_mem_nil
      links_ascending := .nil }
  acyclic v hv := by
    have : ∀ {a b}, ¬ Store.empty.network.Step a b := fun ⟨l, hl, _⟩ => absurd hl List.not_mem_nil
    cases hv with
    | single h => exact this h
    | tail _ h => exact this h

/-! ### Vertices -/

/-- The plan with one more vertex, whose id is none of the vertices'. -/
def insertVertex (p : Plan) (e : Element) (h : e.id ∉ p.network.ids) : Plan where
  toStore := p.toStore.insertVertex e
  coherent := by
    have ⟨he, hl, _⟩ := p.toStore.network_insertVertex e
    have hids : (p.toStore.insertVertex e).network.ids.Perm (e.id :: p.network.ids) := he.map _
    have hmem : ∀ v ∈ p.network.ids, v ∈ (p.toStore.insertVertex e).network.ids := fun v hv =>
      hids.mem_iff.mpr (List.mem_cons_of_mem _ hv)
    exact
      { ids_nodup := hids.nodup_iff.mpr (List.nodup_cons.mpr ⟨h, p.coherent.ids_nodup⟩)
        source_mem := fun l hl' => hmem _ (p.coherent.source_mem l (hl ▸ hl'))
        target_mem := fun l hl' => hmem _ (p.coherent.target_mem l (hl ▸ hl'))
        links_ascending := Store.links_ascending _ }
  acyclic := p.acyclic.mono fun _ _ h => h

/-- Adds an element as a vertex unless its id is one already, and says whether it did. -/
def addVertex (p : Plan) (e : Element) : Bool × Plan :=
  if h : e.id ∈ p.network.ids then (false, p) else (true, p.insertVertex e h)

/-- A plan of the two sentinels. -/
def withExtents : Plan := ((empty.addVertex .head).2.addVertex .tail).2

/-- The plan without the vertex in a slot, its edges and its tags. -/
def eraseVertex (p : Plan) (slot : Nat) (v : ElementId) (h : p.slotOf? v = some slot) : Plan where
  toStore := p.toStore.removeVertex slot v
  coherent := by
    have he := Store.elements_removeVertex p.coherent.ids_nodup h
    have hl := p.toStore.links_removeVertex slot v
    have hids : (p.toStore.removeVertex slot v).network.ids = p.network.ids.filter (· ≠ v) := by
      unfold Network.ids
      rw [he, List.filter_map]
      rfl
    have hmem : ∀ l ∈ (p.toStore.removeVertex slot v).network.links,
        l ∈ p.network.links ∧ l.source ≠ v ∧ l.target ≠ v := fun l hl' => by
      rw [hl, List.mem_filter] at hl'
      simpa [Link.touches] using hl'
    exact
      { ids_nodup := hids ▸ p.coherent.ids_nodup.filter _
        source_mem := fun l hl' => by
          obtain ⟨hl', hs, -⟩ := hmem l hl'
          rw [hids]
          exact List.mem_filter.mpr ⟨p.coherent.source_mem l hl', by simpa using hs⟩
        target_mem := fun l hl' => by
          obtain ⟨hl', -, ht⟩ := hmem l hl'
          rw [hids]
          exact List.mem_filter.mpr ⟨p.coherent.target_mem l hl', by simpa using ht⟩
        links_ascending := Store.links_ascending _ }
  acyclic := p.acyclic.mono fun _ _ => Network.Step.mono fun l hl => by
    rw [p.toStore.links_removeVertex slot v] at hl
    exact (List.mem_filter.mp hl).1

/-- Removes a vertex with its edges and its tags, and gives its element. -/
def removeVertex (p : Plan) (v : ElementId) : Option Element × Plan :=
  match h : p.slotOf? v with
  | none => (none, p)
  | some slot => (p.network.element? v, p.eraseVertex slot v h)

/-! ### Edges -/

/-- The plan with one more edge between vertices, which closes no cycle. -/
def insertEdge (p : Plan) (s t : ElementId) (e : Edge) (hs : s ∈ p.network.ids)
    (ht : t ∈ p.network.ids) (hne : s ≠ t) (hts : s ∉ p.network.descendants t) : Plan where
  toStore := p.toStore.insertEdge s t e
  coherent := by
    have ⟨hl, he, _⟩ := p.toStore.network_insertEdge s t e
    have hids : (p.toStore.insertEdge s t e).network.ids = p.network.ids :=
      congrArg (List.map Element.id) he
    exact
      { ids_nodup := hids ▸ p.coherent.ids_nodup
        source_mem := fun l hl' => by
          rw [hids]
          rcases List.mem_cons.mp (hl.mem_iff.mp hl') with rfl | hl'
          · exact hs
          · exact p.coherent.source_mem l hl'
        target_mem := fun l hl' => by
          rw [hids]
          rcases List.mem_cons.mp (hl.mem_iff.mp hl') with rfl | hl'
          · exact ht
          · exact p.coherent.target_mem l hl'
        links_ascending := Store.links_ascending _ }
  acyclic := by
    have ⟨hl, _, _⟩ := p.toStore.network_insertEdge s t e
    refine p.acyclic.addStep ?_ hne fun h =>
      hts ((Network.mem_descendants p.coherent.target_mem).mpr h)
    rintro a b ⟨l, hl', rfl, rfl⟩
    rcases List.mem_cons.mp (hl.mem_iff.mp hl') with rfl | hl'
    · exact .inr ⟨rfl, rfl⟩
    · exact .inl ⟨l, hl', rfl, rfl⟩

/-- Adds an edge between two vertices and gives its number. Fails where an end is no vertex, and
where the edge would close a cycle. -/
def addEdge (p : Plan) (s t : ElementId) (e : Edge) : Except Failure EdgeId × Plan :=
  if hs : s ∈ p.network.ids then
    if ht : t ∈ p.network.ids then
      if hne : s = t then (.error (.closesCycle s t), p)
      else if hts : s ∈ p.network.descendants t then (.error (.closesCycle s t), p)
      else (.ok p.wires.next, p.insertEdge s t e hs ht hne hts)
    else (.error (.notAVertex t), p)
  else (.error (.notAVertex s), p)

/-- Adds an edge named after its source. -/
def connect (p : Plan) (s t : ElementId) : Except Failure EdgeId × Plan :=
  match p.network.element? s with
  | none => (.error (.notAVertex s), p)
  | some e => p.addEdge s t (.named e.name)

/-- The plan without the edge of a number. -/
def eraseEdge (p : Plan) (i : EdgeId) : Plan where
  toStore := p.toStore.removeEdge i
  coherent := by
    rw [Store.network_removeEdge]
    exact
      { ids_nodup := p.coherent.ids_nodup
        source_mem := fun l hl => p.coherent.source_mem l (List.mem_filter.mp hl).1
        target_mem := fun l hl => p.coherent.target_mem l (List.mem_filter.mp hl).1
        links_ascending := p.coherent.links_ascending.filter _ }
  acyclic := by
    rw [Store.network_removeEdge]
    exact p.acyclic.mono fun _ _ => Network.Step.mono fun l hl => (List.mem_filter.mp hl).1

/-- Removes an edge and gives its value. -/
def removeEdge (p : Plan) (i : EdgeId) : Option Edge × Plan :=
  ((p.network.link? i).map (·.edge), p.eraseEdge i)

/-- Removes the edge of the lowest number between two vertices, if there is one. -/
def removeEdgeBetween (p : Plan) (s t : ElementId) : Option (EdgeId × Edge) × Plan :=
  match p.network.between s t with
  | [] => (none, p)
  | l :: _ => (some (l.id, l.edge), p.eraseEdge l.id)

/-- The plan with the value of an edge changed. -/
def modifyEdge (p : Plan) (i : EdgeId) (f : Edge → Edge) : Plan where
  toStore := p.toStore.modifyEdge i f
  coherent := by
    rw [Store.network_modifyEdge]
    have hends : ∀ l ∈ (p.network.links.map fun l =>
        if l.id = i then { l with edge := f l.edge } else l),
        ∃ k ∈ p.network.links, k.source = l.source ∧ k.target = l.target := by
      intro l hl
      obtain ⟨k, hk, rfl⟩ := List.mem_map.mp hl
      refine ⟨k, hk, ?_⟩
      split <;> exact ⟨rfl, rfl⟩
    exact
      { ids_nodup := p.coherent.ids_nodup
        source_mem := fun l hl => by
          obtain ⟨k, hk, hs, -⟩ := hends l hl
          exact hs ▸ p.coherent.source_mem k hk
        target_mem := fun l hl => by
          obtain ⟨k, hk, -, ht⟩ := hends l hl
          exact ht ▸ p.coherent.target_mem k hk
        links_ascending := by
          refine List.pairwise_map.mpr (p.coherent.links_ascending.imp fun {a b} h => ?_)
          split <;> split <;> exact h }
  acyclic := by
    rw [Store.network_modifyEdge]
    refine p.acyclic.mono ?_
    rintro a b ⟨l, hl, rfl, rfl⟩
    obtain ⟨k, hk, rfl⟩ := List.mem_map.mp hl
    refine ⟨k, hk, ?_⟩
    split <;> exact ⟨rfl, rfl⟩

/-! ### Decoration -/

/-- The plan with another decoration. -/
def setTags (p : Plan) (ts : Option Tags) : Plan where
  toStore := { p.toStore with tags := ts }
  coherent :=
    { ids_nodup := p.coherent.ids_nodup
      source_mem := p.coherent.source_mem
      target_mem := p.coherent.target_mem
      links_ascending := p.coherent.links_ascending }
  acyclic := p.acyclic.mono fun _ _ h => h

/-- The decoration, or an empty one if there is none. -/
def tagsOrEmpty (p : Plan) : Tags := p.tags.getD ∅

/-- Tags an id, which need not be a vertex, and says whether it was without the tag. -/
def tag (p : Plan) (t : Tag) (v : ElementId) : Bool × Plan :=
  (!p.tagsOrEmpty.carries v t, p.setTags (some (p.tagsOrEmpty.add t v)))

/-- Takes every tag off an id. -/
def untag (p : Plan) (v : ElementId) : Plan := p.setTags (some (p.tagsOrEmpty.remove v))

/-- The plan with an empty decoration if it had none. -/
def decorated (p : Plan) : Plan := p.setTags (some p.tagsOrEmpty)

/-! ### What is read afterwards -/

theorem network_removeVertex {p : Plan} {v : ElementId} (h : v ∈ p.network.ids) :
    (p.removeVertex v).2.network =
      { elements := p.network.elements.filter (·.id ≠ v)
        links := p.network.links.filter fun l => !l.touches v
        tags := p.tags.map (·.remove v) } := by
  unfold removeVertex
  split
  · rename_i hn
    exact absurd h (Store.slotOf?_eq_none hn)
  · rename_i slot hs
    have he := Store.elements_removeVertex p.coherent.ids_nodup hs
    have hl := p.toStore.links_removeVertex slot v
    show Store.network _ = _
    cases hn : (p.toStore.removeVertex slot v).network with
    | mk es ls ts =>
      rw [hn] at he hl
      have ht : ts = p.tags.map (·.remove v) := by
        have : (p.toStore.removeVertex slot v).network.tags = ts := by rw [hn]
        exact this.symm
      subst he hl ht
      exact hn

theorem mem_ids_removeVertex {p : Plan} {v w : ElementId} (h : v ∈ p.network.ids) :
    w ∈ (p.removeVertex v).2.network.ids ↔ w ∈ p.network.ids ∧ w ≠ v := by
  rw [network_removeVertex h, Network.mem_ids_of_filter (· ≠ v) rfl, decide_eq_true_eq]

theorem removeVertex_of_not_mem {p : Plan} {v : ElementId} (h : v ∉ p.network.ids) :
    p.removeVertex v = (none, p) := by
  unfold removeVertex
  split
  · rfl
  · rename_i slot hs
    obtain ⟨e, he, rfl⟩ := Store.slotOf?_eq_some hs
    exact absurd (Network.mem_ids.mpr ⟨e, List.mem_map.mpr ⟨_, he, rfl⟩, rfl⟩) h

/-- **What a removal gives up**: the slot of the vertex is the next one used for a vertex, and the
slots of its edges are the next ones used for edges, the last given up first. -/
theorem free_removeVertex {p : Plan} {v : ElementId} {slot : Nat} (h : p.slotOf? v = some slot) :
    (p.removeVertex v).2.vertices.next = slot ∧
      (p.removeVertex v).2.wires.free = (p.edgesOf v).reverse ++ p.wires.free := by
  have hloop : ∀ x ∈ p.wires.items, x.2.source = v → x.2.target ≠ v := fun x hx hs ht =>
    p.acyclic v (.single ⟨x.2.link x.1, Store.mem_links.mpr ⟨x, hx, rfl⟩, hs, ht⟩)
  have hholds : p.vertices.holds slot = true := by
    obtain ⟨e, he, -⟩ := Store.slotOf?_eq_some h
    exact Slots.holds_iff.mpr ⟨_, he, rfl⟩
  unfold removeVertex
  split
  · rename_i hnone
    rw [h] at hnone
    cases hnone
  · rename_i i hi
    obtain rfl := Option.some.inj (hi.symm.trans h)
    exact ⟨Slots.next_erase hholds, Store.free_wires_removeVertex hloop i⟩

theorem network_removeEdge (p : Plan) (i : EdgeId) :
    (p.removeEdge i).2.network =
      { p.network with links := p.network.links.filter (·.id ≠ i) } :=
  Store.network_removeEdge p.toStore i

theorem network_modifyEdge (p : Plan) (i : EdgeId) (f : Edge → Edge) :
    (p.modifyEdge i f).network =
      { p.network with
        links := p.network.links.map fun l =>
          if l.id = i then { l with edge := f l.edge } else l } :=
  Store.network_modifyEdge p.toStore i f

theorem network_insertEdge (p : Plan) (s t : ElementId) (e : Edge) (hs ht hne hts) :
    (p.insertEdge s t e hs ht hne hts).network.links.Perm
        (⟨p.wires.next, s, t, e⟩ :: p.network.links) ∧
      (p.insertEdge s t e hs ht hne hts).network.elements = p.network.elements ∧
      (p.insertEdge s t e hs ht hne hts).network.tags = p.network.tags :=
  p.toStore.network_insertEdge s t e

end Plan

end Dataflow
