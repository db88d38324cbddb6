import Mathlib.Data.List.ProdSigma
import Dataflow.Proofs.Equality.Pairing
import Dataflow.Proofs.Plan.Contract

/-!
# The edges after a contraction

A contracted element loses its edges, and every pair of an inbound and an outbound one of them gets
an edge of its own. What that edge carries is put together from the two.

* **`Plan.touching_perm`**: the edges of a vertex are its inbound and its outbound ones, and none is
  both.
* **`Plan.Bypassed.paired`**: the pairs and the new edges, one to one.
* **`Plan.contract_exact`**: what a contraction leaves, takes and adds.
-/

namespace Dataflow.Plan

variable {p q : Plan} {v : ElementId} {e : Element} {new : List Link}

/-- The edge `l` stands for the edges `i` and `o` into and out of an element that was contracted. It
goes on as `o` did. Its ordinal is that of `i` past a splice; it lets data stream through where `o`
does and, past an element that joins its inputs, `i` does as well. -/
structure StandsFor (e : Element) (i o l : Link) : Prop where
  source : l.source = i.source
  target : l.target = o.target
  name : l.edge.name = o.edge.name
  weight : l.edge.weight = o.edge.weight
  ordinal : l.edge.ordinal = if e.isSplice then i.edge.ordinal else o.edge.ordinal
  nonBlocking : l.edge.nonBlocking = true ↔
    o.edge.nonBlocking = true ∧ (e.performsJoin = false ∨ i.edge.nonBlocking = true)
  priorNames : ∀ name, name ∈ l.edge.priorNames ↔ name = i.edge.name ∨ name = o.edge.name

theorem standsFor_of_ends {i o l : Link}
    (h : (i.source, o.target, bypass e i.edge o.edge) = ends l) : StandsFor e i o l := by
  obtain ⟨_, _, _, edge⟩ := l
  obtain ⟨rfl, rfl, rfl⟩ : _ ∧ _ ∧ bypass e i.edge o.edge = edge := by simpa [ends] using h
  constructor <;> simp [bypass, Edge.withoutPriorNames, Edge.addPriorNames]

/-! ### Pairs of edges -/

theorem bypasses_eq (n : Network) (v : ElementId) (e : Element) : bypasses n v e =
    (n.incoming v ×ˢ n.outgoing v).map fun io =>
      (io.1.source, io.2.target, bypass e io.1.edge io.2.edge) := by
  simp [bypasses, SProd.sprod, List.product, List.map_flatMap, Function.comp_def]

/-- **Every pair of an inbound and an outbound edge has a new edge of its own**, and there are no
others. -/
theorem Bypassed.paired (h : p.Bypassed v new q) (he : p.network.element? v = some e) :
    Paired (fun io l => StandsFor e io.1 io.2 l)
      (p.network.incoming v ×ˢ p.network.outgoing v) new := by
  obtain ⟨_, he', hends⟩ := h.new_ends
  cases he.symm.trans he'
  rw [bypasses_eq] at hends
  exact (Paired.of_map_perm hends.symm).imp fun _ _ => standsFor_of_ends

/-! ### How many edges there are -/

/-- **The edges of a vertex are its inbound and its outbound ones**, and none is both. -/
theorem touching_perm (p : Plan) (v : ElementId) :
    (p.network.links.filter (·.touches v)).Perm (p.network.incoming v ++ p.network.outgoing v) := by
  have hsplit := List.filter_append_perm (fun l : Link => l.target = v)
    (p.network.links.filter (·.touches v))
  have hin : (p.network.links.filter (·.touches v)).filter (fun l => l.target = v) =
      p.network.incoming v := by
    rw [List.filter_filter]
    refine List.filter_congr fun l _ => ?_
    by_cases ht : l.target = v <;> simp [Link.touches, ht]
  have hout : (p.network.links.filter (·.touches v)).filter (fun l => !decide (l.target = v)) =
      p.network.outgoing v := by
    rw [List.filter_filter]
    refine List.filter_congr fun l hl => ?_
    have hloop := p.acyclic.source_ne_target hl
    by_cases hs : l.source = v
    · simp [Link.touches, hs, (hs ▸ hloop).symm]
    · simp [Link.touches, hs]
  rw [hin, hout] at hsplit
  exact hsplit.symm

theorem mem_touching {l : Link} : l ∈ p.network.incoming v ++ p.network.outgoing v ↔
    l ∈ p.network.links ∧ l.touches v := by
  rw [← (p.touching_perm v).mem_iff, List.mem_filter]

theorem nodup_touching (p : Plan) (v : ElementId) :
    (p.network.incoming v ++ p.network.outgoing v).Nodup :=
  (p.touching_perm v).nodup_iff.mp (p.coherent.links_nodup.filter _)

/-- A contraction takes the edges of the element, and adds one for each pair of them. -/
theorem Bypassed.edgeCount_add (h : p.Bypassed v new q) (he : p.network.element? v = some e) :
    q.network.edgeCount + p.network.inDegree v + p.network.outDegree v =
      p.network.edgeCount + p.network.inDegree v * p.network.outDegree v := by
  have hnew : new.length = p.network.inDegree v * p.network.outDegree v := by
    rw [← (h.paired he).length_eq, List.length_product]
    rfl
  have htouching : (p.network.links.filter (·.touches v)).length =
      p.network.inDegree v + p.network.outDegree v := by
    rw [(p.touching_perm v).length_eq, List.length_append]
    rfl
  have hall := (List.filter_append_perm (·.touches v) p.network.links).length_eq
  have hafter := h.links.length_eq
  rw [List.length_append] at hall hafter
  unfold Network.edgeCount
  omega

/-! ### The contraction -/

/-- **A contraction does exactly this**, where its mode allows it. The vertices are those from before
without the element; the edges that do not touch it stay, numbers and values included; every pair of
an inbound and an outbound edge of the element has one new edge in its place, and there are no other
edges. -/
theorem contract_exact (p : Plan) {v : ElementId} {e : Element}
    (he : p.network.element? v = some e) {mode : ContractionMode}
    (hmode : mode = .anyInbound ∨ p.network.inDegree v = 1) :
    ∃ q new, p.contract v mode = (.ok (), q) ∧
      q.network.elements = p.network.elements.filter (·.id ≠ v) ∧
      q.network.tags = p.network.tags.map (·.remove v) ∧
      q.network.links.Perm (p.network.links.filter (fun l => !l.touches v) ++ new) ∧
      Paired (fun io l => StandsFor e io.1 io.2 l)
        (p.network.incoming v ×ˢ p.network.outgoing v) new ∧
      q.network.edgeCount + p.network.inDegree v + p.network.outDegree v =
        p.network.edgeCount + p.network.inDegree v * p.network.outDegree v := by
  obtain ⟨q, new, hq, h⟩ := exists_contract (Network.mem_ids_of_element? he) hmode
  exact ⟨q, new, hq, h.elements, h.tags, h.links.trans List.perm_append_comm, h.paired he,
    h.edgeCount_add he⟩

/-- A step that is fed by a join, the second of whose inputs blocks. -/
def narrows : Plan :=
  let placed := ((empty.sketch [⟨2⟩, ⟨3⟩, ⟨5⟩] []).addVertex (.join ⟨⟨4⟩, "", ["a", "b"], true⟩)).2
  let streamed := (placed.addEdge ⟨2⟩ ⟨4⟩ (.named "a")).2
  let blocked :=
    (streamed.addEdge ⟨3⟩ ⟨4⟩ { Edge.named "b" with ordinal := 1, nonBlocking := false }).2
  (blocked.addEdge ⟨4⟩ ⟨5⟩ (.named "c")).2

theorem contract_exact_narrows :
    narrows.network.element? ⟨4⟩ = some (.join ⟨⟨4⟩, "", ["a", "b"], true⟩) ∧
      ∃ q, narrows.contract ⟨4⟩ .anyInbound = (.ok (), q) ∧ q.network.edgeCount = 2 ∧
        ∃ l ∈ q.network.links, l.source = ⟨3⟩ ∧ l.target = ⟨5⟩ ∧ l.edge.name = "c" ∧
          l.edge.ordinal = 1 ∧ l.edge.nonBlocking = false := by
  let i : Link := ⟨1, ⟨3⟩, ⟨4⟩, { Edge.named "b" with ordinal := 1, nonBlocking := false }⟩
  let o : Link := ⟨2, ⟨4⟩, ⟨5⟩, .named "c"⟩
  have he : narrows.network.element? ⟨4⟩ = some (.join ⟨⟨4⟩, "", ["a", "b"], true⟩) := by
    decide +kernel
  have hin : narrows.network.inDegree ⟨4⟩ = 2 := by decide +kernel
  have hout : narrows.network.outDegree ⟨4⟩ = 1 := by decide +kernel
  have hall : narrows.network.edgeCount = 3 := by decide +kernel
  have hio : (i, o) ∈ narrows.network.incoming ⟨4⟩ ×ˢ narrows.network.outgoing ⟨4⟩ := by
    decide +kernel
  obtain ⟨q, new, hq, -, -, hlinks, hpaired, hcount⟩ := contract_exact narrows he (.inl rfl)
  obtain ⟨l, hl, h⟩ := hpaired.exists_of_mem hio
  rw [hin, hout, hall] at hcount
  refine ⟨he, q, hq, by omega, l, hlinks.mem_iff.mpr (List.mem_append_right _ hl), h.source,
    h.target, h.name, h.ordinal, Bool.eq_false_iff.mpr fun hstreams => ?_⟩
  rcases (h.nonBlocking.mp hstreams).2 with hjoin | hinbound
  · cases hjoin
  · cases hinbound

end Dataflow.Plan
