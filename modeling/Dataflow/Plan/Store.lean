import Dataflow.Data.Slots
import Dataflow.Network

/-!
# The store of a plan

Vertices and edges in slots, each group with its own numbers. A slot given up is the next one used,
so the order of storage and the numbers of edges depend on what was removed, and in which order.

Model of the `StableDiGraph` in `FlowGraph`, and of its `add_node`, `add_edge`, `remove_node`,
`remove_edge` and `edge_weight_mut`. Beyond what is assumed of its slots, this is assumed of
`remove_node`, which the library keeps to but does not promise: it gives up the edges that leave the
vertex and then those that enter it, one slot after the other, and of either group the youngest goes
first. The graph finds the youngest at the head of a linked list; here every edge keeps a serial
number.

* **`Store.network_insertVertex` … `Store.network_modifyEdge`**: what each operation does to the
  network that is read from the store.
* **`Store.exists_youngestFirst`, `Store.free_wires_removeVertex`**: the order in which a removed
  vertex gives its edges up, which is the order in which their slots are used again, turned round.
-/

namespace Dataflow

/-- An edge in the store. -/
structure Wire where
  source : ElementId
  target : ElementId
  edge : Edge
  /-- Later edges have larger serials. -/
  serial : Nat

namespace Wire

/-- The edge as it is read under a number. -/
def link (i : EdgeId) (w : Wire) : Link := ⟨i, w.source, w.target, w.edge⟩

end Wire

/-- The slots of a plan, and its decoration. -/
structure Store where
  vertices : Slots Element
  wires : Slots Wire
  /-- The serial of the next edge. -/
  clock : Nat
  tags : Option Tags

namespace Store

/-- Nothing. -/
def empty : Store := ⟨.empty, .empty, 0, none⟩

/-- What is read from the store. -/
def network (s : Store) : Network where
  elements := s.vertices.items.map (·.2)
  links := s.wires.items.map fun p => p.2.link p.1
  tags := s.tags

/-- The slot of a vertex. -/
def slotOf? (s : Store) (v : ElementId) : Option Nat :=
  (s.vertices.items.find? fun p => p.2.id = v).map (·.1)

/-- Stores a vertex. -/
def insertVertex (s : Store) (e : Element) : Store :=
  { s with vertices := s.vertices.insert e }

/-- Stores an edge. -/
def insertEdge (s : Store) (source target : ElementId) (edge : Edge) : Store :=
  { s with wires := s.wires.insert ⟨source, target, edge, s.clock⟩, clock := s.clock + 1 }

/-- The numbers of edges, the youngest first. -/
def youngestFirst (ws : List (Nat × Wire)) : List EdgeId :=
  (ws.mergeSort fun a b => b.2.serial ≤ a.2.serial).map (·.1)

/-- The numbers of the edges of a vertex in the order in which they are given up: those that leave
it, then those that enter it. -/
def edgesOf (s : Store) (v : ElementId) : List EdgeId :=
  youngestFirst (s.wires.items.filter (·.2.source = v)) ++
    youngestFirst (s.wires.items.filter (·.2.target = v))

/-- Removes the vertex in a slot with its edges and its tags. -/
def removeVertex (s : Store) (slot : Nat) (v : ElementId) : Store :=
  { s with
    vertices := s.vertices.erase slot
    wires := s.wires.eraseAll (s.edgesOf v)
    tags := s.tags.map (·.remove v) }

/-- Removes an edge. -/
def removeEdge (s : Store) (i : EdgeId) : Store := { s with wires := s.wires.erase i }

/-- Changes the value of an edge. -/
def modifyEdge (s : Store) (i : EdgeId) (f : Edge → Edge) : Store :=
  { s with wires := s.wires.modify i fun w => { w with edge := f w.edge } }

/-! ### What is read afterwards -/

theorem mem_links {s : Store} {l : Link} :
    l ∈ s.network.links ↔ ∃ p ∈ s.wires.items, p.2.link p.1 = l := by
  simp [network]

theorem links_ascending (s : Store) :
    s.network.links.Pairwise (fun a b => a.id < b.id) :=
  List.pairwise_map.mpr (s.wires.ascending.imp fun h => h)

theorem network_insertVertex (s : Store) (e : Element) :
    (s.insertVertex e).network.elements.Perm (e :: s.network.elements) ∧
      (s.insertVertex e).network.links = s.network.links ∧
      (s.insertVertex e).network.tags = s.network.tags :=
  ⟨(s.vertices.insert_perm e).map Prod.snd, rfl, rfl⟩

theorem network_insertEdge (s : Store) (a b : ElementId) (e : Edge) :
    (s.insertEdge a b e).network.links.Perm (⟨s.wires.next, a, b, e⟩ :: s.network.links) ∧
      (s.insertEdge a b e).network.elements = s.network.elements ∧
      (s.insertEdge a b e).network.tags = s.network.tags :=
  ⟨(s.wires.insert_perm ⟨a, b, e, s.clock⟩).map (fun p : Nat × Wire => p.2.link p.1), rfl, rfl⟩

theorem mem_youngestFirst {ws : List (Nat × Wire)} {i : EdgeId} :
    i ∈ youngestFirst ws ↔ ∃ p ∈ ws, p.1 = i := by
  simp [youngestFirst]

theorem mem_edgesOf {s : Store} {v : ElementId} {p : Nat × Wire} (hp : p ∈ s.wires.items) :
    p.1 ∈ s.edgesOf v ↔ p.2.source = v ∨ p.2.target = v := by
  unfold edgesOf
  rw [List.mem_append, mem_youngestFirst, mem_youngestFirst]
  simp only [List.mem_filter, decide_eq_true_eq]
  constructor
  · rintro (⟨q, ⟨hq, hv⟩, h⟩ | ⟨q, ⟨hq, hv⟩, h⟩)
    · exact .inl (Slots.eq_of_number hq hp h ▸ hv)
    · exact .inr (Slots.eq_of_number hq hp h ▸ hv)
  · rintro (hv | hv)
    · exact .inl ⟨p, ⟨hp, hv⟩, rfl⟩
    · exact .inr ⟨p, ⟨hp, hv⟩, rfl⟩

/-- **The youngest edges come first.** -/
theorem exists_youngestFirst (ws : List (Nat × Wire)) : ∃ xs : List (Nat × Wire), xs.Perm ws ∧
    xs.Pairwise (fun a b => b.2.serial ≤ a.2.serial) ∧ youngestFirst ws = xs.map (·.1) := by
  have hsorted : (ws.mergeSort fun a b => b.2.serial ≤ a.2.serial).Pairwise fun a b =>
      decide (b.2.serial ≤ a.2.serial) = true := by
    refine List.pairwise_mergeSort (fun a b c hab hbc => ?_) (fun a b => ?_) ws
    · exact decide_eq_true (Nat.le_trans (of_decide_eq_true hbc) (of_decide_eq_true hab))
    · simpa using Nat.le_total b.2.serial a.2.serial
  exact ⟨_, List.mergeSort_perm ws _, hsorted.imp of_decide_eq_true, rfl⟩

theorem youngestFirst_nodup (s : Store) (p : Nat × Wire → Bool) :
    (youngestFirst (s.wires.items.filter p)).Nodup := by
  obtain ⟨xs, hperm, -, heq⟩ := exists_youngestFirst (s.wires.items.filter p)
  have hnumbers : ((s.wires.items.filter p).map (·.1)).Nodup :=
    List.pairwise_map.mpr ((s.wires.ascending.filter p).imp fun h => Nat.ne_of_lt h)
  rw [heq]
  exact (hperm.map (·.1)).nodup_iff.mpr hnumbers

/-- No edge is given up twice, unless it leads from the vertex to itself. -/
theorem edgesOf_nodup {s : Store} {v : ElementId}
    (hloop : ∀ p ∈ s.wires.items, p.2.source = v → p.2.target ≠ v) : (s.edgesOf v).Nodup := by
  refine List.nodup_append.mpr ⟨s.youngestFirst_nodup _, s.youngestFirst_nodup _, ?_⟩
  rintro i hi _ hj rfl
  obtain ⟨p, hp, rfl⟩ := mem_youngestFirst.mp hi
  obtain ⟨q, hq, hpq⟩ := mem_youngestFirst.mp hj
  obtain ⟨hp, hsource⟩ := List.mem_filter.mp hp
  obtain ⟨hq, htarget⟩ := List.mem_filter.mp hq
  cases Slots.eq_of_number hq hp hpq
  exact hloop p hp (of_decide_eq_true hsource) (of_decide_eq_true htarget)

/-- **The slots of the edges of a removed vertex are used again in the order in which they were
given up, turned round.** -/
theorem free_wires_removeVertex {s : Store} {v : ElementId}
    (hloop : ∀ p ∈ s.wires.items, p.2.source = v → p.2.target ≠ v) (slot : Nat) :
    (s.removeVertex slot v).wires.free = (s.edgesOf v).reverse ++ s.wires.free := by
  refine Slots.free_eraseAll (edgesOf_nodup hloop) fun i hi => Slots.holds_iff.mpr ?_
  rcases List.mem_append.mp hi with hi | hi
  all_goals
    obtain ⟨p, hp, rfl⟩ := mem_youngestFirst.mp hi
    exact ⟨p, (List.mem_filter.mp hp).1, rfl⟩

theorem links_removeVertex (s : Store) (slot : Nat) (v : ElementId) :
    (s.removeVertex slot v).network.links = s.network.links.filter fun l => !l.touches v := by
  unfold removeVertex network
  simp only [Slots.items_eraseAll, List.filter_map]
  refine congrArg _ (List.filter_congr fun p hp => ?_)
  have h : (s.edgesOf v).contains p.1 = (p.2.link p.1).touches v := by
    rw [Bool.eq_iff_iff, List.contains_iff_mem, mem_edgesOf hp]
    change _ ↔ (decide (p.2.source = v) || decide (p.2.target = v)) = true
    simp
  rw [h]
  rfl

theorem network_removeEdge (s : Store) (i : EdgeId) :
    (s.removeEdge i).network =
      { s.network with links := s.network.links.filter (·.id ≠ i) } := by
  unfold removeEdge network
  simp only [Slots.items_erase, List.filter_map]
  rfl

theorem network_modifyEdge (s : Store) (i : EdgeId) (f : Edge → Edge) :
    (s.modifyEdge i f).network =
      { s.network with
        links := s.network.links.map fun l =>
          if l.id = i then { l with edge := f l.edge } else l } := by
  unfold modifyEdge network Slots.modify
  simp only [List.map_map]
  congr 1
  refine List.map_congr_left fun p _ => ?_
  by_cases h : p.1 = i <;> simp [Wire.link, h]

theorem slotOf?_eq_some {s : Store} {v : ElementId} {i : Nat} (h : s.slotOf? v = some i) :
    ∃ e, (i, e) ∈ s.vertices.items ∧ e.id = v := by
  unfold slotOf? at h
  obtain ⟨p, hp, rfl⟩ := Option.map_eq_some_iff.mp h
  exact ⟨p.2, List.mem_of_find?_eq_some hp, by simpa using List.find?_some hp⟩

theorem slotOf?_eq_none {s : Store} {v : ElementId} (h : s.slotOf? v = none) :
    v ∉ s.network.ids := by
  unfold slotOf? at h
  rw [Option.map_eq_none_iff, List.find?_eq_none] at h
  rw [Network.mem_ids]
  rintro ⟨e, he, hv⟩
  obtain ⟨p, hp, rfl⟩ := List.mem_map.mp he
  exact h p hp (decide_eq_true hv)

/-- Where no two vertices have the same id, the vertex in the slot of `v` is the one of that
id. -/
theorem elements_removeVertex {s : Store} (hs : s.network.ids.Nodup) {v : ElementId} {i : Nat}
    (h : s.slotOf? v = some i) :
    (s.removeVertex i v).network.elements = s.network.elements.filter (·.id ≠ v) := by
  obtain ⟨e, he, rfl⟩ := slotOf?_eq_some h
  unfold removeVertex network
  simp only [Slots.items_erase, List.filter_map]
  refine congrArg _ (List.filter_congr fun p hp => ?_)
  simp only [Function.comp, decide_eq_decide]
  refine not_congr ⟨fun hpi => ?_, fun hid => ?_⟩
  · have : p = (i, e) := Slots.eq_of_number hp he hpi
    rw [this]
  · have key : ∀ {ps : List (Nat × Element)}, (ps.map (·.2.id)).Nodup → p ∈ ps → (i, e) ∈ ps →
        p = (i, e) := by
      intro ps hps hp he
      induction ps with
      | nil => exact absurd hp List.not_mem_nil
      | cons r rs ih =>
        have ⟨hr, hrs⟩ := List.nodup_cons.mp hps
        rcases List.mem_cons.mp hp with rfl | hp' <;> rcases List.mem_cons.mp he with he' | he'
        · exact he'.symm
        · exact absurd (List.mem_map.mpr ⟨_, he', hid.symm⟩) hr
        · subst he'
          exact absurd (List.mem_map.mpr ⟨_, hp', hid⟩) hr
        · exact ih hrs hp' he'
    have hnd : (s.vertices.items.map (·.2.id)).Nodup := by
      simpa [Network.ids, network, List.map_map, Function.comp_def] using hs
    rw [key hnd hp he]

end Store

end Dataflow
