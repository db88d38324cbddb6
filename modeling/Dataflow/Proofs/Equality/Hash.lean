import Dataflow.Network.Hash
import Dataflow.Network.View
import Dataflow.Proofs.Equality.Equivalence
import Dataflow.Proofs.Network.Reach

/-!
# Hash and equality

The structural hash adds up a part for each vertex and each edge, so it depends on no order; and the
part of an edge depends on what equality compares, but for the digits of its weight that truncation
drops.

* **`Network.structuralHashWith_congr`**: what the hash depends on.
* **`Plan.structuralHash_agrees`**: the same of all views of plans, and networks found equal hash
  alike if near weights are truncated alike.
-/

namespace Dataflow

/-- A sum of 64-bit integers that wraps does not depend on the order. -/
theorem sum_eq_of_perm {xs ys : List Int64} (h : xs.Perm ys) : xs.sum = ys.sum := by
  unfold List.sum
  refine h.foldr_eq' (fun x _ y _ z => ?_) 0
  rw [← Int64.add_assoc, ← Int64.add_assoc, Int64.add_comm x y]

/-- What the hash reads of an edge: its ends, its name, ordinal and flag, and its weight truncated. -/
def Link.hashed (l : Link) : ElementId × ElementId × String × UInt64 × Bool × Int64 :=
  (l.source, l.target, l.edge.name, l.edge.ordinal, l.edge.nonBlocking, l.edge.weight.truncated)

namespace Network

variable {a b : Network} (hasher : Hasher)

/-- The part of an end is that of its id, if it is a vertex. -/
theorem endPart_eq (n : Network) (v : ElementId) : n.endPart hasher v =
    if v ∈ n.ids then (hasher (SipHash.bytes v.value)).toInt64 else 0 := by
  unfold endPart
  cases he : n.element? v with
  | none => rw [if_neg (element?_eq_none_iff.mp he)]
  | some e =>
    have hv : e.id = v := by simpa using List.find?_some he
    have hmem : v ∈ n.ids := mem_ids.mpr ⟨e, List.mem_of_find?_eq_some he, hv⟩
    rw [if_pos hmem, ← hv]
    rfl

/-- The part of an edge depends on what the hash reads of it, and on which ids are vertices. -/
theorem linkPart_congr (hids : ∀ v, v ∈ a.ids ↔ v ∈ b.ids) {k l : Link}
    (h : k.hashed = l.hashed) : a.linkPart hasher k = b.linkPart hasher l := by
  unfold Link.hashed at h
  simp only [Prod.mk.injEq] at h
  obtain ⟨hs, ht, hn, ho, hb, hw⟩ := h
  unfold linkPart Edge.message Weight.folded
  rw [hs, ht, hn, ho, hb, hw, endPart_eq, endPart_eq, endPart_eq, endPart_eq]
  simp only [hids]

/-- **The hash depends only on the vertices and on what it reads of the edges**, each as often as it
occurs. -/
theorem structuralHashWith_congr (ha : a.ids.Nodup) (hb : b.ids.Nodup)
    (hids : ∀ v, v ∈ a.ids ↔ v ∈ b.ids)
    (hlinks : (a.links.map Link.hashed).Perm (b.links.map Link.hashed)) :
    a.structuralHashWith hasher = b.structuralHashWith hasher := by
  have hparts : ∀ n : Network, n.elements.map (elementPart hasher) =
      n.ids.map fun v => (hasher (SipHash.bytes v.value)).toInt64 := fun n => by
    unfold ids
    rw [List.map_map]
    rfl
  unfold structuralHashWith
  rw [hparts, hparts]
  congr 1
  · exact sum_eq_of_perm (((List.perm_ext_iff_of_nodup ha hb).mpr hids).map _)
  · refine sum_eq_of_perm ((Paired.of_map_perm hlinks).map_perm fun k _ l _ h => ?_)
    exact linkPart_congr hasher hids h

/-- Networks that match hash alike if partners' weights are truncated alike. -/
theorem Matches.structuralHashWith_eq (ha : a.ids.Nodup) (hb : b.ids.Nodup) (h : a.Matches b)
    (hweights : ∀ k ∈ a.links, ∀ l ∈ b.links, k.fits l = true →
      k.edge.weight.truncated = l.edge.weight.truncated) :
    a.structuralHashWith hasher = b.structuralHashWith hasher := by
  refine structuralHashWith_congr hasher ha hb h.mem_ids_iff ?_
  have hbare : ∀ n : Network, n.links.map Link.hashed = n.bareLinks.map Link.hashed := fun n => by
    unfold bareLinks
    rw [List.map_map]
    rfl
  rw [hbare, hbare]
  refine h.paired.map_perm fun _ hmem _ hmem' hkl => ?_
  obtain ⟨k, hk, rfl⟩ := List.mem_map.mp hmem
  obtain ⟨l, hl, rfl⟩ := List.mem_map.mp hmem'
  have hw : k.bare.edge.weight.truncated = l.bare.edge.weight.truncated := hweights k hk l hl hkl
  obtain ⟨hs, ht, hfits⟩ := Link.fits_iff.mp hkl
  obtain ⟨hn, ho, hnb⟩ := Edge.alike_iff.mp (Bool.and_eq_true_iff.mp hfits).1
  unfold Link.hashed
  rw [hs, ht, hn, ho, hnb, hw]

end Network

namespace Plan

/-- **The hash of what is seen of a plan depends only on the vertices and on what it reads of the
edges, and networks found equal hash alike** if the weights of edges that fit are truncated
alike. -/
theorem structuralHash_agrees (hasher : Hasher) (p q : Plan) (layers layers' : List Layer) :
    let a := p.network.through layers
    let b := q.network.through layers'
    ((∀ v, v ∈ a.ids ↔ v ∈ b.ids) →
        (a.links.map Link.hashed).Perm (b.links.map Link.hashed) →
          a.structuralHashWith hasher = b.structuralHashWith hasher) ∧
      (a.equalsIgnoringTags b = true →
        (∀ k ∈ a.links, ∀ l ∈ b.links, k.fits l = true →
          k.edge.weight.truncated = l.edge.weight.truncated) →
            a.structuralHashWith hasher = b.structuralHashWith hasher) := by
  intro a b
  have ha : a.ids.Nodup := (p.coherent.through layers).ids_nodup
  have hb : b.ids.Nodup := (q.coherent.through layers').ids_nodup
  refine ⟨Network.structuralHashWith_congr hasher ha hb, fun hequal hweights => ?_⟩
  exact (Network.matches_of_equalsIgnoringTags hequal).structuralHashWith_eq hasher ha hb hweights

theorem structuralHash_agrees_parallel :
    let a := (parallel [chain.1, .default]).network.through [.mask]
    let b := (parallel [.default, chain.1]).network.through [.restrict [⟨2⟩, ⟨3⟩] none]
    let c := (parallel [.default, chain.2.1]).network.through []
    a.structuralHashWith defaultHasher = b.structuralHashWith defaultHasher ∧
      a.structuralHashWith defaultHasher = c.structuralHashWith defaultHasher := by
  intro a b c
  have hids : ∀ v, v ∈ a.ids ↔ v ∈ b.ids := fun v => by
    have hids : a.ids = b.ids := by decide +kernel
    rw [hids]
  have hlinks : (a.links.map Link.hashed).Perm (b.links.map Link.hashed) := by decide +kernel
  have hequal : a.equalsIgnoringTags c = true := by decide +kernel
  have hweights : ∀ k ∈ a.links, ∀ l ∈ c.links, k.fits l = true →
      k.edge.weight.truncated = l.edge.weight.truncated := by decide +kernel
  exact ⟨(structuralHash_agrees defaultHasher _ _ _ _).1 hids hlinks,
    (structuralHash_agrees defaultHasher _ _ _ _).2 hequal hweights⟩

end Plan

end Dataflow
