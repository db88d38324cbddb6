import Dataflow.Proofs.Equality.Pairing

/-!
# Networks that match

Two networks match when they have the same vertices and their edges can be paired off, whatever the
order in which they are stored (`Network.Matches`). Networks that are found equal match. The other
way round it takes that fitting does not chain.

* **`Network.matches_of_equalsIgnoringTags`, `Network.equalsIgnoringTags_of_matches`**: equality and
  matching.
* **`Network.SameContent.matches_of`**: matching does not depend on the order of storage.
-/

namespace Dataflow

namespace Link

/-- The edge without what equality does not read: its number and its prior names. -/
def bare (l : Link) : Link := { l with id := 0, edge := l.edge.withoutPriorNames }

/-- The edges have the same ends, and their values fit. -/
def fits (k l : Link) : Bool := k.source = l.source && k.target = l.target && k.edge.fits l.edge

theorem fits_iff {k l : Link} : k.fits l = true ↔
    k.source = l.source ∧ k.target = l.target ∧ k.edge.fits l.edge = true := by
  simp [fits, and_assoc]

theorem fits_comm (k l : Link) : k.fits l = l.fits k := by
  unfold fits
  rw [Edge.fits_comm]
  simp only [eq_comm]

theorem fits_bare (k l : Link) : k.bare.fits l.bare = k.fits l := rfl

/-- The values of the edges between two vertices do not chain where the edges do not. -/
theorem unchained_edges {ls : List Link} (h : Unchained fits (· ∈ ls)) (s t : ElementId) :
    Unchained Edge.fits fun e => ∃ l ∈ ls, l.source = s ∧ l.target = t ∧ l.edge = e := by
  rintro _ ⟨k, hk, hks, hkt, rfl⟩ _ ⟨l, hl, hls, hlt, rfl⟩ _ ⟨m, hm, hms, hmt, rfl⟩ hkl hlm
  have hkl' : k.fits l = true := fits_iff.mpr ⟨hks.trans hls.symm, hkt.trans hlt.symm, hkl⟩
  have hlm' : l.fits m = true := fits_iff.mpr ⟨hls.trans hms.symm, hlt.trans hmt.symm, hlm⟩
  exact (fits_iff.mp (h k hk l hl m hm hkl' hlm')).2.2

/-- Whether fitting chains is told by what equality reads. -/
theorem unchained_of_bare {ks ls : List Link} (h : ∀ l ∈ ls, ∃ k ∈ ks, k.bare = l.bare)
    (hks : Unchained fits (· ∈ ks)) : Unchained fits (· ∈ ls) := by
  intro k hk l hl m hm hkl hlm
  obtain ⟨k', hk', hke⟩ := h k hk
  obtain ⟨l', hl', hle⟩ := h l hl
  obtain ⟨m', hm', hme⟩ := h m hm
  rw [← fits_bare, ← hke, ← hle, fits_bare] at hkl
  rw [← fits_bare, ← hle, ← hme, fits_bare] at hlm
  rw [← fits_bare, ← hke, ← hme, fits_bare]
  exact hks k' hk' l' hl' m' hm' hkl hlm

end Link

namespace Network

variable {a b : Network}

theorem sameVertices_iff : a.sameVertices b = true ↔ ∀ v, v ∈ a.ids ↔ v ∈ b.ids := by
  unfold sameVertices
  rw [Bool.and_eq_true, List.all_eq_true, List.all_eq_true]
  simp only [contains_iff]
  constructor
  · exact fun h v => ⟨h.1 v, h.2 v⟩
  · exact fun h => ⟨fun v => (h v).mp, fun v => (h v).mpr⟩

theorem mem_edgesBetween {s t : ElementId} {e : Edge} : e ∈ a.edgesBetween s t ↔
    ∃ l ∈ a.links, l.source = s ∧ l.target = t ∧ l.edge = e := by
  unfold edgesBetween
  simp only [List.mem_map, mem_between, and_assoc]

/-- What equality reads of the edges, in the order of storage. -/
def bareLinks (n : Network) : List Link := n.links.map Link.bare

theorem mem_bareLinks_append {l : Link} : l ∈ a.bareLinks ++ b.bareLinks ↔
    ∃ k ∈ a.links ++ b.links, k.bare = l := by
  unfold bareLinks
  rw [← List.map_append, List.mem_map]

/-- The networks have the same vertices, and their edges can be paired off. -/
structure Matches (a b : Network) : Prop where
  mem_ids_iff : ∀ v, v ∈ a.ids ↔ v ∈ b.ids
  paired : Paired (fun k l => k.fits l = true) a.bareLinks b.bareLinks

theorem Matches.symm (h : a.Matches b) : b.Matches a where
  mem_ids_iff v := (h.mem_ids_iff v).symm
  paired := h.paired.symm fun k l hkl => (Link.fits_comm l k).trans hkl

/-- A network of finite weights matches itself. -/
theorem matches_self (h : ∀ l ∈ a.links, l.edge.weight.isFinite = true) : a.Matches a where
  mem_ids_iff _ := Iff.rfl
  paired := by
    refine .refl fun k hk => ?_
    obtain ⟨l, hl, rfl⟩ := List.mem_map.mp hk
    rw [Link.fits_bare]
    exact Link.fits_iff.mpr ⟨rfl, rfl, Edge.fits_self_iff.mpr (h l hl)⟩

/-! ### From equality to matching -/

/-- The edges whose ends are among those given. -/
def linksAmong (n : Network) (ends : List (ElementId × ElementId)) : List Link :=
  n.links.filter fun l => ends.contains (l.source, l.target)

theorem linksAmong_nil (n : Network) : n.linksAmong [] = [] :=
  List.filter_eq_nil_iff.mpr fun _ _ => Bool.false_ne_true

theorem linksAmong_cons_of_mem (n : Network) {x : ElementId × ElementId}
    {ends : List (ElementId × ElementId)} (hx : x ∈ ends) :
    n.linksAmong (x :: ends) = n.linksAmong ends := by
  refine List.filter_congr fun l _ => ?_
  rw [Bool.eq_iff_iff, List.contains_iff_mem, List.contains_iff_mem, List.mem_cons]
  exact or_iff_right_of_imp fun h => h ▸ hx

/-- The edges between one more pair of vertices. -/
theorem linksAmong_cons_perm (n : Network) {x : ElementId × ElementId}
    {ends : List (ElementId × ElementId)} (hx : x ∉ ends) :
    (n.linksAmong (x :: ends)).Perm (n.between x.1 x.2 ++ n.linksAmong ends) := by
  have hbetween : n.between x.1 x.2 = n.links.filter fun l => (l.source, l.target) = x := by
    refine List.filter_congr fun l _ => ?_
    rw [Bool.eq_iff_iff, Bool.and_eq_true, decide_eq_true_eq, decide_eq_true_eq, decide_eq_true_eq,
      Prod.ext_iff]
  rw [hbetween]
  unfold linksAmong
  refine (List.filter_append_perm (fun l => (l.source, l.target) = x) _).symm.trans (.of_eq ?_)
  rw [List.filter_filter, List.filter_filter]
  congr 1
  · refine List.filter_congr fun l _ => ?_
    by_cases hl : (l.source, l.target) = x <;> simp [hl]
  · refine List.filter_congr fun l _ => ?_
    by_cases hl : (l.source, l.target) = x <;> simp [hl, hx]

theorem map_bare_between (n : Network) (s t : ElementId) : (n.between s t).map Link.bare =
    (n.edgesBetween s t).map fun e => ⟨0, s, t, e.withoutPriorNames⟩ := by
  unfold edgesBetween
  rw [List.map_map]
  refine List.map_congr_left fun l hl => ?_
  obtain ⟨-, rfl, rfl⟩ := mem_between.mp hl
  rfl

/-- Where the edges between each of some pairs of vertices are paired off, all of them are paired
off together. -/
theorem pairedInto_among {ends : List (ElementId × ElementId)}
    (h : ∀ x ∈ ends, pairOff (a.edgesBetween x.1 x.2) (b.edgesBetween x.1 x.2) = true) :
    PairedInto (fun k l => k.fits l = true) ((a.linksAmong ends).map Link.bare)
      ((b.linksAmong ends).map Link.bare) := by
  induction ends with
  | nil =>
    rw [linksAmong_nil]
    exact .nil _ _
  | cons x ends ih =>
    obtain ⟨hx, hends⟩ := List.forall_mem_cons.mp h
    by_cases hmem : x ∈ ends
    · rw [linksAmong_cons_of_mem a hmem, linksAmong_cons_of_mem b hmem]
      exact ih hends
    · have hbetween : PairedInto (fun k l => k.fits l = true) ((a.between x.1 x.2).map Link.bare)
          ((b.between x.1 x.2).map Link.bare) := by
        rw [map_bare_between, map_bare_between]
        refine (pairedInto_of_pairOff hx).map fun c d hcd => ?_
        exact Link.fits_iff.mpr ⟨rfl, rfl, hcd⟩
      have happend := hbetween.append (ih hends)
      rw [← List.map_append, ← List.map_append] at happend
      exact happend.perm ((a.linksAmong_cons_perm hmem).symm.map _)
        ((b.linksAmong_cons_perm hmem).symm.map _)

/-- **Networks that are found equal match.** -/
theorem matches_of_equalsIgnoringTags (h : a.equalsIgnoringTags b = true) : a.Matches b := by
  unfold equalsIgnoringTags at h
  rw [Bool.and_eq_true, Bool.and_eq_true, List.all_eq_true] at h
  obtain ⟨⟨hvertices, hcount⟩, hpairs⟩ := h
  let ends := (a.links.map fun l => (l.source, l.target)).eraseDups
  have hall : a.linksAmong ends = a.links := by
    refine List.filter_eq_self.mpr fun l hl => ?_
    rw [List.contains_iff_mem, List.mem_eraseDups]
    exact List.mem_map_of_mem hl
  have hamong := pairedInto_among hpairs
  rw [hall] at hamong
  -- all edges of the one network have partners among the edges of the other
  have hinto : PairedInto (fun k l => k.fits l = true) a.bareLinks b.bareLinks := by
    have hothers := hamong.append (.nil _ ((b.links.filter fun l =>
      !ends.contains (l.source, l.target)).map Link.bare))
    rw [List.append_nil, ← List.map_append] at hothers
    exact hothers.perm (.refl _) ((List.filter_append_perm _ b.links).map _)
  have hlen : a.links.length = b.links.length := of_decide_eq_true hcount
  have hbare : b.bareLinks.length ≤ a.bareLinks.length := by
    unfold bareLinks
    rw [List.length_map, List.length_map]
    exact Nat.le_of_eq hlen.symm
  exact ⟨sameVertices_iff.mp hvertices, hinto.paired hbare⟩

/-! ### From matching to equality -/

/-- The candidates for an edge are counted alike with their ends and between these ends. -/
theorem countP_edgesBetween (n : Network) (l : Link) :
    (n.edgesBetween l.source l.target).countP l.edge.fits = n.bareLinks.countP l.fits := by
  unfold edgesBetween between bareLinks
  rw [List.countP_map, List.countP_filter, List.countP_map]
  refine List.countP_congr fun k _ => ?_
  simp only [Function.comp_apply, Bool.and_eq_true, decide_eq_true_eq]
  exact ⟨fun h => Link.fits_iff.mpr ⟨h.2.1.symm, h.2.2.symm, h.1⟩, fun h => by
    obtain ⟨hs, ht, he⟩ := Link.fits_iff.mp h
    exact ⟨he, hs.symm, ht.symm⟩⟩

section Unchained

variable (hfree : Unchained Link.fits (· ∈ a.links ++ b.links)) (h : a.Matches b)

include hfree

theorem unchained_bareLinks : Unchained Link.fits (· ∈ a.bareLinks ++ b.bareLinks) := by
  refine Link.unchained_of_bare (fun l hl => ?_) hfree
  obtain ⟨k, hk, rfl⟩ := mem_bareLinks_append.mp hl
  exact ⟨k, hk, rfl⟩

include h

/-- An edge that has a partner fits itself. -/
theorem Matches.fits_self {l : Link} (hl : l ∈ a.links) : l.fits l = true := by
  have hmem : l.bare ∈ a.bareLinks := List.mem_map_of_mem hl
  obtain ⟨k, hk, hfits⟩ := h.paired.exists_of_mem hmem
  rw [← Link.fits_bare]
  exact (unchained_bareLinks hfree).fits_self Link.fits_comm (List.mem_append_left _ hmem)
    (List.mem_append_right _ hk) hfits

/-- Networks that match have as many candidates for an edge. -/
theorem Matches.countP_eq {l : Link} (hl : l ∈ a.links) :
    a.bareLinks.countP l.fits = b.bareLinks.countP l.fits := by
  have hmem : l.bare ∈ a.bareLinks ++ b.bareLinks :=
    List.mem_append_left _ (List.mem_map_of_mem hl)
  refine h.paired.countP_eq fun k hk m hm hkm => ?_
  show l.bare.fits k = l.bare.fits m
  exact (unchained_bareLinks hfree).fits_eq Link.fits_comm hmem (List.mem_append_left _ hk)
    (List.mem_append_right _ hm) hkm

theorem Matches.pairOff_edgesBetween (s t : ElementId) :
    pairOff (a.edgesBetween s t) (b.edgesBetween s t) = true := by
  refine pairOff_of_countP_le (Link.unchained_edges hfree s t) (fun e he => ?_) (fun e he => ?_)
    (fun e he => ?_) (fun e he => ?_) <;> obtain ⟨l, hl, rfl, rfl, rfl⟩ := mem_edgesBetween.mp he
  · exact ⟨l, List.mem_append_left _ hl, rfl, rfl, rfl⟩
  · exact ⟨l, List.mem_append_right _ hl, rfl, rfl, rfl⟩
  · exact (Link.fits_iff.mp (h.fits_self hfree hl)).2.2
  · rw [countP_edgesBetween, countP_edgesBetween]
    exact Nat.le_of_eq (h.countP_eq hfree hl)

/-- **Networks that match are found equal** where fitting does not chain. -/
theorem equalsIgnoringTags_of_matches : a.equalsIgnoringTags b = true := by
  have hlen : a.links.length = b.links.length := by
    simpa [bareLinks] using h.paired.length_eq
  unfold equalsIgnoringTags
  rw [Bool.and_eq_true, Bool.and_eq_true, List.all_eq_true]
  exact ⟨⟨sameVertices_iff.mpr h.mem_ids_iff, decide_eq_true hlen⟩,
    fun ends _ => h.pairOff_edgesBetween hfree ends.1 ends.2⟩

end Unchained

/-! ### Other orders of storage -/

/-- The networks have the same vertices and the same edges, whatever the order in which they are
stored, and whatever their numbers and prior names. -/
structure SameContent (a b : Network) : Prop where
  mem_ids_iff : ∀ v, v ∈ a.ids ↔ v ∈ b.ids
  links : a.bareLinks.Perm b.bareLinks

theorem sameContent_iff :
    a.SameContent b ↔ a.sameVertices b = true ∧ a.bareLinks.Perm b.bareLinks := by
  rw [sameVertices_iff]
  exact ⟨fun h => ⟨h.mem_ids_iff, h.links⟩, fun h => ⟨h.1, h.2⟩⟩

instance : Decidable (a.SameContent b) := decidable_of_iff _ sameContent_iff.symm

namespace SameContent

variable {a' b' : Network}

theorem symm (h : a.SameContent a') : a'.SameContent a :=
  ⟨fun v => (h.mem_ids_iff v).symm, h.links.symm⟩

/-- **Matching does not depend on the order of storage.** -/
theorem matches_of (ha : a.SameContent a') (hb : b.SameContent b') (h : a.Matches b) :
    a'.Matches b' where
  mem_ids_iff v := (ha.mem_ids_iff v).symm.trans ((h.mem_ids_iff v).trans (hb.mem_ids_iff v))
  paired := h.paired.perm ha.links hb.links

theorem unchained (ha : a.SameContent a') (hb : b.SameContent b')
    (hfree : Unchained Link.fits (· ∈ a.links ++ b.links)) :
    Unchained Link.fits (· ∈ a'.links ++ b'.links) := by
  refine Link.unchained_of_bare (fun l hl => ?_) hfree
  have hbare : l.bare ∈ a.bareLinks ++ b.bareLinks :=
    (ha.links.append hb.links).mem_iff.mpr (mem_bareLinks_append.mpr ⟨l, hl, rfl⟩)
  exact mem_bareLinks_append.mp hbare

end SameContent

/-- Where fitting does not chain, equality is matching. -/
theorem equalsIgnoringTags_iff_matches
    (hfree : Unchained Link.fits (· ∈ a.links ++ b.links)) :
    a.equalsIgnoringTags b = true ↔ a.Matches b :=
  ⟨matches_of_equalsIgnoringTags, equalsIgnoringTags_of_matches hfree⟩

end Network

end Dataflow
