import Dataflow.Proofs.Plan.RoundTrip
import Dataflow.Proofs.Splice.Arrivals
import Dataflow.Proofs.Splice.Contract

/-!
# Splices and insertion

An inserted element is contracted again to the plan from before, but for bookkeeping and, past an
insertion before the anchor, the names of the edges that end at the anchor. The names of arrival at
another vertex read neither, and the contraction leaves them.

* **`Network.arrivalNames_congr`**: what the names of arrival at a vertex depend on.
* **`Plan.countPaths_insert`**: how a vertex feeds a splice stays when an element that direct paths
  may pass is inserted.
-/

namespace Dataflow

open Relation

namespace Network

variable {m n : Network} {s t : ElementId}

/-! ### What the names of arrival depend on -/

/-- What the names of arrival at `t` depend on in an edge: its ends and, where it leads to `t`, its
name. -/
def approach (t : ElementId) (l : Link) : ElementId × ElementId × Option String :=
  (l.source, l.target, if l.target = t then some l.edge.name else none)

/-- The names of arrival of the paths that start with an edge of that kind. -/
def namesAlong (n : Network) (t : ElementId) (x : ElementId × ElementId × Option String) :
    List String :=
  match x.2.2 with
  | some name => [name]
  | none => if n.isPassable x.2.1 then n.arrivalNames x.2.1 t else []

theorem namesAlong_approach (n : Network) (t : ElementId) (l : Link) :
    n.namesAlong t (approach t l) = n.namesVia t l.target l.edge.name := by
  unfold namesAlong approach namesVia
  split_ifs <;> rfl

/-- **The names of arrival, by what they depend on in the first edges.** -/
theorem arrivalNames_perm_along (hn : n.Coherent) (ha : n.Acyclic) (hne : s ≠ t) :
    (n.arrivalNames s t).Perm
      (((n.links.map (approach t)).filter (·.1 = s)).flatMap (n.namesAlong t)) := by
  refine (arrivalNames_perm hn ha hne).trans (.of_eq ?_)
  rw [List.filter_map, List.flatMap_map]
  exact List.flatMap_congr fun l _ => (n.namesAlong_approach t l).symm

/-- **Networks with the same ways to a vertex have the same names of arrival at it**, each as
often. -/
theorem arrivalNames_congr (hm : m.Coherent) (hma : m.Acyclic) (hn : n.Coherent) (hna : n.Acyclic)
    (hpass : ∀ v, m.isPassable v = n.isPassable v)
    (hlinks : (m.links.map (approach t)).Perm (n.links.map (approach t))) (s : ElementId) :
    (m.arrivalNames s t).Perm (n.arrivalNames s t) := by
  induction s using hna.induction with
  | step s ih =>
    by_cases hst : s = t
    · rw [hst, arrivalNames_self, arrivalNames_self]
    · refine (arrivalNames_perm_along hm hma hst).trans
        (.trans ?_ (arrivalNames_perm_along hn hna hst).symm)
      refine ((hlinks.filter _).flatMap_right _).trans (.flatMap_left _ fun x hx => ?_)
      obtain ⟨hx, hsource⟩ := List.mem_filter.mp hx
      obtain ⟨l, hl, rfl⟩ := List.mem_map.mp hx
      rw [namesAlong_approach, namesAlong_approach]
      unfold namesVia
      rw [hpass]
      split_ifs
      · exact .refl _
      · exact ih l.target (.single ⟨l, hl, of_decide_eq_true hsource, rfl⟩)
      · exact .refl _

end Network

namespace Plan

variable {p q r : Plan} {anchor s t : ElementId} {a e : Element}

/-! ### Insertion on either side -/

/-- An edge reads the same on the way to `t` without its number and its prior names, and with
another ordinal. -/
theorem approach_returned (t anchor : ElementId) (e : Element) (l : Link) :
    Network.approach t (returned anchor e l).bare = Network.approach t l := by
  unfold returned
  split <;> rfl

namespace TakesOver

/-- After the contraction of an element that was inserted after its anchor, the ways to a vertex are
those from before the insertion. -/
theorem approach_perm_after (h : TakesOver Link.source Link.target p anchor a e q)
    (hnew : e.id ∉ p.network.ids) {new : List Link} (hr : q.Bypassed e.id new r) (t : ElementId) :
    (r.network.links.map (Network.approach t)).Perm
      (p.network.links.map (Network.approach t)) := by
  have hbare := (h.bareLinks_perm hnew hr).map (Network.approach t)
  unfold Network.bareLinks at hbare
  rw [List.map_map, List.map_map] at hbare
  refine hbare.trans (.of_eq (List.map_congr_left fun l _ => ?_))
  exact approach_returned t anchor e l

/-- So they are where it was inserted before its anchor, and the anchor is not that vertex. -/
theorem approach_perm_before (h : TakesOver Link.target Link.source p anchor a e q)
    (hnew : e.id ∉ p.network.ids) {new : List Link} (hr : q.Bypassed e.id new r)
    (ht : t ≠ anchor) : (r.network.links.map (Network.approach t)).Perm
      (p.network.links.map (Network.approach t)) := by
  obtain ⟨hlinks, hends⟩ := h.links_perm_before hnew hr
  have hled : (new.map (Network.approach t)).Perm
      ((p.network.incoming anchor).map (Network.approach t)) := by
    have hways := hends.map fun x => Network.approach t ⟨0, x.1, x.2.1, x.2.2⟩
    rw [List.map_map, List.map_map] at hways
    refine hways.trans (.of_eq (List.map_congr_left fun l hl => ?_))
    obtain ⟨-, htarget⟩ := Network.mem_incoming.mp hl
    simp [Network.approach, htarget, ht.symm]
  have hparts := List.filter_append_perm (fun l : Link => l.target = anchor) p.network.links
  calc (r.network.links.map (Network.approach t)).Perm _ := hlinks.map _
    _ = new.map _ ++ (p.network.links.filter (·.target ≠ anchor)).map _ := List.map_append
    List.Perm _ _ := hled.append_right _
    _ = _ := List.map_append.symm
    List.Perm _ _ := List.Perm.map _ (by simpa [Network.incoming] using hparts)

variable {near far : Link → ElementId}

/-- The other elements stay. -/
theorem element?_eq (h : TakesOver near far p anchor a e q) {v : ElementId} (hv : v ≠ e.id) :
    q.network.element? v = p.network.element? v := by
  refine Option.ext fun d => ?_
  rw [Network.element?_eq_some_iff q.coherent.ids_nodup,
    Network.element?_eq_some_iff p.coherent.ids_nodup, h.elements.mem_iff, List.mem_cons]
  refine and_congr_left fun hd => or_iff_right ?_
  rintro rfl
  exact hv hd.symm

/-- **The names of arrival stay** if the ways to `t` do once the element is contracted again, and
direct paths may pass the element. -/
theorem arrivalNames_perm (h : TakesOver near far p anchor a e q) (hnew : e.id ∉ p.network.ids)
    (hpass : q.network.isPassable e.id = true)
    (hways : ∀ r new, q.Bypassed e.id new r →
      (r.network.links.map (Network.approach t)).Perm (p.network.links.map (Network.approach t)))
    (hs : s ≠ e.id) (ht : t ≠ e.id) :
    (q.network.arrivalNames s t).Perm (p.network.arrivalNames s t) := by
  have hcontract : ∃ r new, q.contract e.id .anyInbound = (.ok (), r) ∧ q.Bypassed e.id new r :=
    exists_contract (Network.mem_ids_of_element? h.element?_self) (.inl rfl)
  obtain ⟨r, new, -, hr⟩ := hcontract
  have helements : ∀ v, r.network.element? v = p.network.element? v := by
    refine fun v => Option.ext fun d => ?_
    rw [Network.element?_eq_some_iff r.coherent.ids_nodup,
      Network.element?_eq_some_iff p.coherent.ids_nodup, (h.elements_perm hnew hr).mem_iff]
  have hsame : ∀ v, r.network.isPassable v = p.network.isPassable v := by
    intro v
    unfold Network.isPassable Network.isVertexWith
    rw [helements]
  exact (hr.arrivalNames_perm hpass hs ht).symm.trans
    (Network.arrivalNames_congr r.coherent r.acyclic p.coherent p.acyclic hsame (hways r new hr) s)

/-- Direct paths may pass the element if it is neither a boundary nor a grouping. -/
theorem isPassable_self (h : TakesOver near far p anchor a e q) (hboundary : e.isBoundary = false)
    (hgrouping : e.isGrouping = false) : q.network.isPassable e.id = true := by
  refine Network.isPassable_iff.mpr fun d hd => ?_
  cases h.element?_self.symm.trans hd
  exact ⟨hboundary, hgrouping⟩

end TakesOver

/-- **How a vertex feeds a splice stays** when an element that is neither boundary nor grouping, so
a transform, a join or a merge, is inserted after any vertex, or before any but the splice. -/
theorem countPaths_insert (p : Plan) {anchor s t : ElementId} {e : Element}
    (hanchor : anchor ∈ p.network.ids) (hnew : e.id ∉ p.network.ids)
    (hboundary : e.isBoundary = false) (hgrouping : e.isGrouping = false) (hs : s ≠ e.id)
    (ht : t ≠ e.id) :
    (∃ q, p.insertAfter anchor e = (.ok (), q) ∧ ∀ skip,
      SameOutcome (q.network.countPaths s t skip) (p.network.countPaths s t skip)) ∧
    (t ≠ anchor → ∃ q, p.insertBefore anchor e = (.ok (), q) ∧ ∀ skip,
      SameOutcome (q.network.countPaths s t skip) (p.network.countPaths s t skip)) := by
  obtain ⟨a, ha⟩ := Network.exists_element? hanchor
  constructor
  · obtain ⟨q, hq, h⟩ := insertAfter_takesOver ha hnew
    have hnames := h.arrivalNames_perm hnew (h.isPassable_self hboundary hgrouping)
      (fun r new hr => h.approach_perm_after hnew hr t) hs ht
    exact ⟨q, hq, Network.sameOutcome_countPaths (h.element?_eq ht) hnames⟩
  · intro hne
    obtain ⟨q, hq, h⟩ := insertBefore_takesOver ha hnew
    have hnames := h.arrivalNames_perm hnew (h.isPassable_self hboundary hgrouping)
      (fun r new hr => h.approach_perm_before hnew hr hne) hs ht
    exact ⟨q, hq, Network.sameOutcome_countPaths (h.element?_eq ht) hnames⟩

theorem countPaths_insert_forkedFeed :
    let e : Element := .join ⟨⟨5⟩, "", [], false⟩
    ⟨3⟩ ∈ forkedFeed.network.ids ∧ e.id ∉ forkedFeed.network.ids ∧
      forkedFeed.network.countPaths ⟨2⟩ ⟨4⟩ true = .ok [(0, 1), (1, 2)] ∧
      (∃ q, forkedFeed.insertAfter ⟨3⟩ e = (.ok (), q) ∧
        q.network.countPaths ⟨2⟩ ⟨4⟩ true = .ok [(0, 1), (1, 2)]) ∧
      ∃ q, forkedFeed.insertBefore ⟨3⟩ e = (.ok (), q) ∧
        q.network.countPaths ⟨2⟩ ⟨4⟩ true = .ok [(0, 1), (1, 2)] := by
  intro e
  have hanchor : ⟨3⟩ ∈ forkedFeed.network.ids := by decide +kernel
  have hnew : e.id ∉ forkedFeed.network.ids := by decide +kernel
  have hcounts := countPaths_forkedFeed true
  obtain ⟨⟨q, hq, hafter⟩, hbefore⟩ := countPaths_insert forkedFeed (s := ⟨2⟩) (t := ⟨4⟩) hanchor
    hnew rfl rfl (by decide) (by decide)
  obtain ⟨r, hr, hbefore⟩ := hbefore (by decide)
  exact ⟨hanchor, hnew, hcounts, ⟨q, hq, (hcounts ▸ hafter true).eq_ok⟩, r, hr,
    (hcounts ▸ hbefore true).eq_ok⟩

end Plan

end Dataflow
