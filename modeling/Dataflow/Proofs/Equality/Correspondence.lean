import Mathlib.Data.List.FinRange
import Dataflow.Proofs.Equality.Equivalence

/-!
# Equal networks correspond edge by edge

What the verdict of equality means is said without the algorithm: the networks have the same
vertices, and there is a bijection between the places of their edges under which edges agree. Equal
networks correspond in this way; where the tolerance does not chain, networks that correspond are
equal, and equality is an equivalence.

* **`Paired.exists_bijective`, `paired_of_bijective`**: a pairing of two lists is a bijection
  between their places.
* **`Network.corresponds_iff_matches`**: networks correspond exactly if they match.
* **`Network.equalsIgnoringTags_exact`**: what the verdict says, and when it is that of an
  equivalence.
-/

namespace Dataflow

/-! ### Pairings as bijections -/

section Paired

variable {α β γ : Type} {r : α → β → Prop}

/-- **A pairing of two lists is a bijection between their places.** -/
theorem Paired.exists_bijective {xs : List α} {ys : List β}
    (h : Paired r xs ys) :
    ∃ f : Fin xs.length → Fin ys.length, f.Bijective ∧ ∀ i, r xs[i] ys[f i] := by
  classical
  obtain ⟨ps, hx, hy, hr⟩ := h
  have hlen : (ps.map Prod.fst).length = (ps.map Prod.snd).length := by
    rw [List.length_map, List.length_map]
  have hfirst : hx.symm.idxBij.Bijective := ⟨hx.symm.idxBij_injective, hx.symm.idxBij_surjective⟩
  have hsecond : hy.idxBij.Bijective := ⟨hy.idxBij_injective, hy.idxBij_surjective⟩
  refine ⟨hy.idxBij ∘ finCongr hlen ∘ hx.symm.idxBij,
    hsecond.comp ((finCongr hlen).bijective.comp hfirst), fun i => ?_⟩
  have hk : (hx.symm.idxBij i : Nat) < ps.length := by
    simpa using (hx.symm.idxBij i).isLt
  have hxs : xs[i] = ps[(hx.symm.idxBij i : Nat)].1 :=
    (hx.symm.getElem_idxBij_eq_getElem i).symm.trans (List.getElem_map _)
  have hys : ys[(hy.idxBij (finCongr hlen (hx.symm.idxBij i)) : Nat)] =
      ps[(hx.symm.idxBij i : Nat)].2 :=
    (hy.getElem_idxBij_eq_getElem _).trans (List.getElem_map _)
  have hpair := hr _ (List.getElem_mem hk)
  rw [← hxs, ← hys] at hpair
  exact hpair

/-- **A bijection between the places of two lists pairs them off.** -/
theorem paired_of_bijective {xs : List α} {ys : List β} {f : Fin xs.length → Fin ys.length}
    (hf : f.Bijective) (hr : ∀ i, r xs[i] ys[f i]) : Paired r xs ys := by
  have hplaces : ((List.finRange xs.length).map f).Perm (List.finRange ys.length) :=
    (List.perm_ext_iff_of_nodup ((List.nodup_finRange _).map hf.injective)
      (List.nodup_finRange _)).mpr fun j => by simpa using hf.surjective j
  refine ⟨(List.finRange xs.length).map fun i => (xs[i], ys[f i]), ?_, ?_, ?_⟩
  · rw [List.map_map]
    exact .of_eq (List.map_getElem_finRange xs)
  · have hsnd := hplaces.map fun j => ys[j]
    rw [List.map_map] at hsnd ⊢
    exact hsnd.trans (.of_eq (List.map_getElem_finRange ys))
  · intro p hp
    obtain ⟨i, -, rfl⟩ := List.mem_map.mp hp
    exact hr i

/-- Pairings are put together. -/
theorem Paired.trans {s : β → γ → Prop} {t : α → γ → Prop} {xs : List α} {ys : List β}
    {zs : List γ} (h : Paired r xs ys) (h' : Paired s ys zs)
    (ht : ∀ x, ∀ y ∈ ys, ∀ z, r x y → s y z → t x z) : Paired t xs zs := by
  obtain ⟨f, hf, hr⟩ := h.exists_bijective
  obtain ⟨g, hg, hs⟩ := h'.exists_bijective
  exact paired_of_bijective (hg.comp hf) fun i =>
    ht _ _ (List.getElem_mem _) _ (hr i) (hs (f i))

/-- What is paired off by values is paired off. -/
theorem Paired.of_map {α' β' : Type} {f : α' → α} {g : β' → β} {xs : List α'} {ys : List β'}
    (h : Paired r (xs.map f) (ys.map g)) : Paired (fun x y => r (f x) (g y)) xs ys := by
  obtain ⟨ps, hx, hy, hr⟩ := h
  have hfirst : Paired (fun x p => f x = p.1) xs ps := .of_map_perm hx.symm
  have hsecond : Paired (fun p y => p.2 = g y) ps ys := .of_map_perm hy
  refine hfirst.trans hsecond fun x p hp y hxp hpy => ?_
  rw [hxp, ← hpy]
  exact hr p hp

end Paired

/-! ### Networks edge by edge -/

/-- Edges that have the same ends and the same values, and weights near each other. -/
structure Link.Agree (k l : Link) : Prop where
  source : k.source = l.source
  target : k.target = l.target
  name : k.edge.name = l.edge.name
  ordinal : k.edge.ordinal = l.edge.ordinal
  nonBlocking : k.edge.nonBlocking = l.edge.nonBlocking
  weight : k.edge.weight.near l.edge.weight = true

theorem Link.agree_iff_fits {k l : Link} : k.Agree l ↔ k.fits l = true := by
  rw [fits_iff, Edge.fits_comm, Edge.fits, Bool.and_eq_true, Edge.alike_iff]
  constructor
  · exact fun h => ⟨h.source, h.target, ⟨h.name, h.ordinal, h.nonBlocking⟩, h.weight⟩
  · exact fun ⟨hs, ht, ⟨hn, ho, hb⟩, hw⟩ => ⟨hs, ht, hn, ho, hb, hw⟩

namespace Network

variable {a b c : Network}

/-- The networks have the same vertices, and a bijection between the places of their edges takes
each edge to one that agrees with it. -/
structure Corresponds (a b : Network) : Prop where
  mem_ids_iff : ∀ v, v ∈ a.ids ↔ v ∈ b.ids
  links : ∃ f : Fin a.links.length → Fin b.links.length, f.Bijective ∧
    ∀ i : Fin a.links.length, Link.Agree a.links[i] b.links[f i]

/-- **Networks correspond exactly if they match.** -/
theorem corresponds_iff_matches : a.Corresponds b ↔ a.Matches b := by
  constructor
  · rintro ⟨hids, f, hf, hagree⟩
    have hpaired : Paired Link.Agree a.links b.links := paired_of_bijective hf hagree
    exact ⟨hids, hpaired.map fun k l hkl =>
      (Link.fits_bare k l).trans (Link.agree_iff_fits.mp hkl)⟩
  · rintro ⟨hids, hpaired⟩
    have hagree : Paired Link.Agree a.links b.links :=
      hpaired.of_map.imp fun k l hkl =>
        Link.agree_iff_fits.mpr ((Link.fits_bare k l).symm.trans hkl)
    exact ⟨hids, hagree.exists_bijective⟩

/-- Correspondences are put together where the tolerance does not chain. -/
theorem Corresponds.trans {S : Link → Prop} (hfree : Unchained Link.fits S)
    (ha : ∀ l ∈ a.links, S l) (hb : ∀ l ∈ b.links, S l) (hc : ∀ l ∈ c.links, S l)
    (h : a.Corresponds b) (h' : b.Corresponds c) : a.Corresponds c := by
  obtain ⟨hids, f, hf, hagree⟩ := h
  obtain ⟨hids', g, hg, hagree'⟩ := h'
  refine ⟨fun v => (hids v).trans (hids' v), g ∘ f, hg.comp hf, fun i => ?_⟩
  have hab := Link.agree_iff_fits.mp (hagree i)
  have hbc := Link.agree_iff_fits.mp (hagree' (f i))
  exact Link.agree_iff_fits.mpr (hfree _ (ha _ (List.getElem_mem _)) _ (hb _ (List.getElem_mem _))
    _ (hc _ (List.getElem_mem _)) hab hbc)

/-- Where the tolerance does not chain, equality is correspondence. -/
theorem equalsIgnoringTags_iff_corresponds
    (hfree : Unchained Link.fits (· ∈ a.links ++ b.links)) :
    a.equalsIgnoringTags b = true ↔ a.Corresponds b :=
  (equalsIgnoringTags_iff_matches hfree).trans corresponds_iff_matches.symm

section Family

variable {S : Network → Prop} (hfree : Unchained Link.fits fun l => ∃ n, S n ∧ l ∈ n.links)

include hfree

/-- Any two networks of a family without chains are free of chains. -/
theorem unchained_of_family (ha : S a) (hb : S b) :
    Unchained Link.fits (· ∈ a.links ++ b.links) :=
  hfree.mono fun _ hl =>
    (List.mem_append.mp hl).elim (fun hl => ⟨a, ha, hl⟩) fun hl => ⟨b, hb, hl⟩

/-- **Equality is an equivalence** of networks of finite weights among whose edges the tolerance
does not chain. -/
theorem equivalence_of_unchained
    (hfinite : ∀ n, S n → ∀ l ∈ n.links, l.edge.weight.isFinite = true) :
    Equivalence fun a b : {n // S n} => a.1.equalsIgnoringTags b.1 = true where
  refl a := (equalsIgnoringTags_iff_matches (unchained_of_family hfree a.2 a.2)).mpr
    (matches_self (hfinite a.1 a.2))
  symm {a b} hab := (equalsIgnoringTags_iff_matches (unchained_of_family hfree b.2 a.2)).mpr
    (matches_of_equalsIgnoringTags hab).symm
  trans {a b c} hab hbc := by
    rw [equalsIgnoringTags_iff_corresponds (unchained_of_family hfree a.2 c.2)]
    exact Corresponds.trans hfree (fun l hl => ⟨a.1, a.2, hl⟩) (fun l hl => ⟨b.1, b.2, hl⟩)
      (fun l hl => ⟨c.1, c.2, hl⟩)
      (corresponds_iff_matches.mpr (matches_of_equalsIgnoringTags hab))
      (corresponds_iff_matches.mpr (matches_of_equalsIgnoringTags hbc))

end Family

/-- **What the verdict of equality says.** Equal networks correspond edge by edge. Where the
tolerance does not chain among their edges, networks that correspond are equal. So among networks of
finite weights, where the tolerance does not chain among the edges of all of them, equality is an
equivalence, and it does not depend on the order of storage. -/
theorem equalsIgnoringTags_exact :
    (∀ a b : Network, a.equalsIgnoringTags b = true → a.Corresponds b) ∧
    (∀ a b : Network, Unchained Link.fits (· ∈ a.links ++ b.links) → a.Corresponds b →
      a.equalsIgnoringTags b = true) ∧
    ∀ S : Network → Prop, (∀ n, S n → ∀ l ∈ n.links, l.edge.weight.isFinite = true) →
      Unchained Link.fits (fun l => ∃ n, S n ∧ l ∈ n.links) →
      Equivalence (fun a b : {n // S n} => a.1.equalsIgnoringTags b.1 = true) ∧
      ∀ a b, S a → S b → ∀ a' b' : Network, a.SameContent a' → b.SameContent b' →
        a'.equalsIgnoringTags b' = a.equalsIgnoringTags b := by
  refine ⟨fun a b h => corresponds_iff_matches.mpr (matches_of_equalsIgnoringTags h),
    fun a b hfree => (equalsIgnoringTags_iff_corresponds hfree).mpr,
    fun S hfinite hfree => ⟨equivalence_of_unchained hfree hfinite, ?_⟩⟩
  intro a b hSa hSb a' b' ha hb
  have hab := unchained_of_family hfree hSa hSb
  rw [Bool.eq_iff_iff, equalsIgnoringTags_iff_matches hab,
    equalsIgnoringTags_iff_matches (ha.unchained hb hab)]
  exact ⟨ha.symm.matches_of hb.symm, ha.matches_of hb⟩

theorem equalsIgnoringTags_exact_parallel :
    let a := (Plan.parallel [Plan.chain.1, Plan.chain.2.1, .default]).network
    let b := (Plan.parallel [.default, Plan.chain.2.1, Plan.chain.1]).network
    a.Corresponds b ∧ b.equalsIgnoringTags a = true := by
  intro a b
  have hab : a.equalsIgnoringTags b = true := by decide +kernel
  have hfinite : ∀ n ∈ [a, b], ∀ l ∈ n.links, l.edge.weight.isFinite = true := by decide +kernel
  have hfree : Unchained Link.fits (· ∈ a.links ++ b.links) := by decide +kernel
  obtain ⟨hsound, -, hfamily⟩ := equalsIgnoringTags_exact
  obtain ⟨hequiv, -⟩ := hfamily (· ∈ [a, b]) hfinite
    (hfree.mono fun l hl => by simpa using hl)
  exact ⟨hsound a b hab, hequiv.symm (x := ⟨a, by simp⟩) (y := ⟨b, by simp⟩) hab⟩

/-- It takes the edges of all the networks: here the tolerance chains among three edges, one in each
network, and among no two of them. -/
example :
    let a := (Plan.parallel [Plan.chain.1]).network
    let b := (Plan.parallel [Plan.chain.2.1]).network
    let c := (Plan.parallel [Plan.chain.2.2]).network
    Unchained Link.fits (· ∈ a.links ++ b.links) ∧ Unchained Link.fits (· ∈ b.links ++ c.links) ∧
      a.equalsIgnoringTags b = true ∧ b.equalsIgnoringTags c = true ∧
      a.equalsIgnoringTags c = false := by
  decide +kernel

end Network

end Dataflow
