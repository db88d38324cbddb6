import Dataflow.Network.Lookup
import Dataflow.Proofs.Network.Order

/-!
# Transforms found by name

A lookup gives the first transform of a name in one of two orders, neither of which is the other one
read backwards. Which transform that is may hang on the order in which the network is stored. That
no other one of the name comes before it on a walk does not, and where all of them are on one path,
it is the first one there.

* **`Network.Sorts.foremost`**: what is found in a sorted list has no other one before it.
* **`Network.Foremost.eq_of_pairwise`**: on a path it is the first one.
* **`Network.transformNamed_extremal`**: both lookups, in every view of a plan.
-/

namespace Dataflow

open Relation

namespace Network

variable {n : Network} {vs : List ElementId} {name : String} {e : Element}

/-! ### Elements in an order -/

theorem mem_filterMap_element? (hn : n.Coherent) :
    e ∈ vs.filterMap n.element? ↔ e ∈ n.elements ∧ e.id ∈ vs := by
  rw [List.mem_filterMap]
  constructor
  · rintro ⟨v, hv, he⟩
    obtain ⟨hmem, rfl⟩ := (element?_eq_some_iff hn.ids_nodup).mp he
    exact ⟨hmem, hv⟩
  · rintro ⟨he, hv⟩
    exact ⟨e.id, hv, (element?_eq_some_iff hn.ids_nodup).mpr ⟨he, rfl⟩⟩

theorem pairwise_filterMap_element? (hn : n.Coherent) {R : ElementId → ElementId → Prop}
    (h : vs.Pairwise R) : (vs.filterMap n.element?).Pairwise fun d e => R d.id e.id := by
  refine h.filterMap _ fun u v huv d hd e he => ?_
  obtain ⟨-, rfl⟩ := (element?_eq_some_iff hn.ids_nodup).mp hd
  obtain ⟨-, rfl⟩ := (element?_eq_some_iff hn.ids_nodup).mp he
  exact huv

/-- A sorted list goes over all elements. -/
theorem Sorts.mem_filterMap_element? (h : n.Sorts vs) (hn : n.Coherent) (ha : n.Acyclic) :
    e ∈ vs.filterMap n.element? ↔ e ∈ n.elements := by
  rw [Network.mem_filterMap_element? hn, and_iff_left_iff_imp]
  exact fun he => (h.perm hn ha).mem_iff.mpr (mem_ids.mpr ⟨e, he, rfl⟩)

/-- What is found first is related to whatever else could have been found. -/
theorem rel_of_find?_eq_some {α : Type} {R : α → α → Prop} {xs : List α} {p : α → Bool} {a b : α}
    (hxs : xs.Pairwise R) (ha : xs.find? p = some a) (hb : b ∈ xs) (hpb : p b = true) :
    b = a ∨ R a b := by
  obtain ⟨-, ys, zs, rfl, hys⟩ := List.find?_eq_some_iff_append.mp ha
  have hafter := (List.pairwise_append.mp hxs).2.1
  rcases List.mem_append.mp hb with hb | hb
  · have hnone := hys b hb
    rw [hpb] at hnone
    cases hnone
  · exact (List.mem_cons.mp hb).imp_right (List.rel_of_pairwise_cons hafter)

/-! ### What a lookup gives -/

/-- A transform of a name, if there is one, that no other one of the name comes before. -/
structure Foremost (n : Network) (before : ElementId → ElementId → Prop) (name : String)
    (found : Option Element) : Prop where
  isSome_iff : found.isSome = true ↔ ∃ e ∈ n.elements, isTransformNamed name e = true
  of_eq_some : ∀ e, found = some e → e ∈ n.elements ∧ isTransformNamed name e = true ∧
    ∀ d ∈ n.elements, isTransformNamed name d = true → ¬ before d.id e.id

/-- **What is found in a sorted list has no other one before it**: whatever leads to it stands
before it in the list, where the search went by. -/
theorem Sorts.foremost (h : n.Sorts vs) (hn : n.Coherent) (ha : n.Acyclic) (name : String) :
    n.Foremost (TransGen n.Step) name
      ((vs.filterMap n.element?).find? (isTransformNamed name)) where
  isSome_iff := by
    rw [List.find?_isSome]
    exact exists_congr fun e => and_congr_left fun _ => h.mem_filterMap_element? hn ha
  of_eq_some e he := by
    have hmem := (h.mem_filterMap_element? hn ha).mp (List.mem_of_find?_eq_some he)
    refine ⟨hmem, List.find?_some he, fun d hd hnamed hde => ?_⟩
    have hdvs := (h.mem_filterMap_element? hn ha).mpr hd
    have horder := pairwise_filterMap_element? hn h.pairwise_not_transGen
    rcases rel_of_find?_eq_some horder he hdvs hnamed with rfl | hback
    · exact ha _ hde
    · exact hback hde

theorem foremost_firstTransformNamed (hn : n.Coherent) (ha : n.Acyclic) (name : String) :
    n.Foremost (TransGen n.Step) name (n.firstTransformNamed name) :=
  (sorts_order hn).foremost hn ha name

/-- The lookup from the sinks is the lookup from the sources with the edges turned round. -/
theorem foremost_lastTransformNamed (hn : n.Coherent) (ha : n.Acyclic) (name : String) :
    n.Foremost (fun v w => TransGen n.Step w v) name (n.lastTransformNamed name) := by
  have h := foremost_firstTransformNamed hn.reverse (acyclic_reverse.mpr ha) name
  refine ⟨h.isSome_iff, fun e he => ?_⟩
  obtain ⟨hmem, hnamed, hnone⟩ := h.of_eq_some e he
  exact ⟨hmem, hnamed, fun d hd hd' hed => hnone d hd hd' (transGen_reverse.mpr hed)⟩

/-- **Where each of them comes before the next, the first one is found.** -/
theorem Foremost.eq_of_pairwise {before : ElementId → ElementId → Prop} {found : Option Element}
    (h : n.Foremost before name found) (hn : n.Coherent) (hvs : vs.Pairwise before)
    (hall : ∀ e ∈ n.elements, isTransformNamed name e = true → e.id ∈ vs) :
    found = (vs.filterMap n.element?).find? (isTransformNamed name) := by
  cases hfirst : (vs.filterMap n.element?).find? (isTransformNamed name) with
  | none =>
    have hnone := List.find?_eq_none.mp hfirst
    rw [← Option.not_isSome_iff_eq_none, h.isSome_iff]
    rintro ⟨e, he, hnamed⟩
    exact hnone e ((mem_filterMap_element? hn).mpr ⟨he, hall e he hnamed⟩) hnamed
  | some d =>
    have hd := (mem_filterMap_element? hn).mp (List.mem_of_find?_eq_some hfirst)
    have hdnamed := List.find?_some hfirst
    obtain ⟨e, rfl⟩ := Option.isSome_iff_exists.mp (h.isSome_iff.mpr ⟨d, hd.1, hdnamed⟩)
    obtain ⟨he, hnamed, hnone⟩ := h.of_eq_some e rfl
    have hevs := (mem_filterMap_element? hn).mpr ⟨he, hall e he hnamed⟩
    rcases rel_of_find?_eq_some (pairwise_filterMap_element? hn hvs) hfirst hevs hnamed with
      rfl | hbefore
    · rfl
    · exact absurd hbefore (hnone d hd.1 hdnamed)

/-- **Both lookups find a transform of the name if there is one**, in every view of a plan. From the
one found first no other is upstream, and from the one found last none is downstream. Where all of
them are on one path, these are the first and the last of the path. -/
theorem transformNamed_extremal (p : Plan) (layers : List Layer) (name : String) :
    let n := p.network.through layers
    n.Foremost (TransGen n.Step) name (n.firstTransformNamed name) ∧
    n.Foremost (fun v w => TransGen n.Step w v) name (n.lastTransformNamed name) ∧
    ∀ path : List ElementId, path.IsChain n.Step →
      (∀ e ∈ n.elements, isTransformNamed name e = true → e.id ∈ path) →
        n.firstTransformNamed name =
          (path.filterMap n.element?).find? (isTransformNamed name) ∧
        n.lastTransformNamed name =
          (path.reverse.filterMap n.element?).find? (isTransformNamed name) := by
  intro n
  have hn : n.Coherent := p.coherent.through layers
  have ha : n.Acyclic := p.acyclic.through layers
  have hfirst := foremost_firstTransformNamed hn ha name
  have hlast := foremost_lastTransformNamed hn ha name
  refine ⟨hfirst, hlast, fun path hpath hall => ?_⟩
  have hordered : path.Pairwise (TransGen n.Step) := (hpath.imp fun _ _ => TransGen.single).pairwise
  constructor
  · exact hfirst.eq_of_pairwise hn hordered hall
  · refine hlast.eq_of_pairwise hn (List.pairwise_reverse.mpr hordered) fun e he hnamed => ?_
    exact List.mem_reverse.mpr (hall e he hnamed)

/-- Without edges both lookups find the vertex that is stored first. -/
example :
    let pair := (((Plan.empty.addVertex (.transform ⟨⟨2⟩, "a"⟩)).2).addVertex
      (.transform ⟨⟨3⟩, "a"⟩)).2.network
    (pair.firstTransformNamed "a").map (·.id) = some ⟨2⟩ ∧
      (pair.lastTransformNamed "a").map (·.id) = some ⟨2⟩ := by decide +kernel

end Network

end Dataflow
