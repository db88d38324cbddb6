import Dataflow.Proofs.Equality.Matching
import Dataflow.Proofs.Plan.Contract
import Dataflow.Proofs.Plan.InsertEdges

/-!
# Insertion undone by contraction

An element that was inserted after an anchor has one inbound edge, the new one. So its contraction
leads that edge on by each edge that the element took over, and each is the anchor's again. What
tells the result from the plan before is the bookkeeping: numbers, prior names and, where the element
was a splice, the ordinals, which are then that of the new edge.

* **`Plan.TakesOver.far_eq_iff`**: the new edge is the only one on its side of the element.
* **`Plan.TakesOver.links_perm`, `Plan.TakesOver.links_perm_before`**: the edges after the
  contraction, for an element after the anchor and for one before it.
* **`Plan.contract_insertAfter`**: insertion after an anchor and contraction restore a plan.
-/

namespace Dataflow.Plan

variable {p q r : Plan} {anchor : ElementId} {a e : Element}

/-- The edge as an input of the first ordinal. -/
def atFirstInput (l : Link) : Link := { l with edge := { l.edge with ordinal := 0 } }

/-- What an insertion after an anchor and the contraction of the element make of an edge: past a
splice, one out of the anchor feeds the first input. -/
def returned (anchor : ElementId) (e : Element) (l : Link) : Link :=
  if l.source = anchor ∧ e.isSplice then atFirstInput l else l

/-- Past an edge that is named after its source an edge keeps its value, prior names apart; past a
splice it takes over the ordinal. -/
theorem bare_bypass_named (name : String) {l : Link} (hl : l.source = anchor) (i : EdgeId) :
    Link.bare ⟨i, anchor, l.target, bypass e (.named name) l.edge⟩ = (returned anchor e l).bare := by
  unfold returned bypass
  cases e.isSplice <;>
    simp [hl, Link.bare, atFirstInput, Edge.named, Edge.withoutPriorNames, Edge.addPriorNames]

namespace TakesOver

/-! ### Either side -/

section Sides

variable {near far : Link → ElementId}

/-- The far end of an edge is the new element only where it links the anchor to it. -/
theorem far_eq_iff (h : TakesOver near far p anchor a e q)
    (hfree : ∀ l ∈ p.network.links, far l ≠ e.id) {k : Link} (hk : k ∈ q.network.links) :
    far k = e.id ↔ near k = anchor := by
  obtain ⟨l, hlink, hfar, -⟩ := h.linked
  constructor
  · intro hown
    refine Classical.byContradiction fun hanchor => ?_
    by_cases hnear : near k = e.id
    · have hmem : (far k, k.edge) ∈
          (q.network.links.filter (near · = e.id)).map fun l => (far l, l.edge) :=
        List.mem_map.mpr ⟨k, by simp [hk, hnear], rfl⟩
      obtain ⟨j, hj, heq⟩ := List.mem_map.mp (h.taken.mem_iff.mp hmem)
      exact hfree j (List.mem_of_mem_filter hj) ((congrArg (·.1) heq).trans hown)
    · have hmem : k ∈ p.network.links.filter (near · ≠ anchor) := by
        rw [← h.others]
        simp [hk, hanchor, hnear]
      exact hfree k (List.mem_of_mem_filter hmem) hown
  · intro hanchor
    have hmem : k ∈ q.network.links.filter (near · = anchor) := by simp [hk, hanchor]
    rw [hlink, List.mem_singleton] at hmem
    rw [hmem, hfar]

/-- The new edge is the only one whose far end is the element. -/
theorem exists_filter_far (h : TakesOver near far p anchor a e q)
    (hfree : ∀ l ∈ p.network.links, far l ≠ e.id) :
    ∃ l, q.network.links.filter (far · = e.id) = [l] ∧ near l = anchor ∧
      l.edge = .named a.name := by
  obtain ⟨l, hlink, -, hedge⟩ := h.linked
  have hin : q.network.links.filter (far · = e.id) = [l] := by
    rw [← hlink]
    exact List.filter_congr fun k hk => decide_eq_decide.mpr (h.far_eq_iff hfree hk)
  have hl : l ∈ q.network.links.filter (near · = anchor) := hlink ▸ List.mem_singleton_self l
  exact ⟨l, hin, of_decide_eq_true (List.mem_filter.mp hl).2, hedge⟩

/-- The edges that do not touch the element are those whose near end was not the anchor. -/
theorem filter_not_touches (h : TakesOver near far p anchor a e q)
    (hfree : ∀ l ∈ p.network.links, far l ≠ e.id)
    (hsides : ∀ l : Link, l.touches e.id = (near l = e.id || far l = e.id)) :
    (q.network.links.filter fun l => !l.touches e.id) =
      p.network.links.filter (near · ≠ anchor) := by
  rw [← h.others]
  refine List.filter_congr fun k hk => ?_
  have hfar := h.far_eq_iff hfree hk
  rw [hsides]
  by_cases hs : near k = e.id <;> by_cases ha : near k = anchor <;> simp_all

/-- The new element is a vertex. -/
theorem element?_self (h : TakesOver near far p anchor a e q) :
    q.network.element? e.id = some e :=
  (Network.element?_eq_some_iff q.coherent.ids_nodup).mpr
    ⟨h.elements.mem_iff.mpr List.mem_cons_self, rfl⟩

/-- After the contraction the element is gone again, and the others are there. -/
theorem elements_perm (h : TakesOver near far p anchor a e q) (hnew : e.id ∉ p.network.ids)
    {new : List Link} (hr : q.Bypassed e.id new r) :
    r.network.elements.Perm p.network.elements := by
  have hothers : p.network.elements.filter (·.id ≠ e.id) = p.network.elements := by
    refine List.filter_eq_self.mpr fun d hd => decide_eq_true fun hde => hnew ?_
    exact Network.mem_ids.mpr ⟨d, hd, hde⟩
  have hgone := h.elements.filter (·.id ≠ e.id)
  rw [List.filter_cons_of_neg (by simp), hothers] at hgone
  rw [hr.elements]
  exact hgone

end Sides

/-! ### Past an insertion after the anchor -/

section After

variable (h : TakesOver Link.source Link.target p anchor a e q) (hnew : e.id ∉ p.network.ids)
include h hnew

/-- The new edge is the only one into the element. -/
theorem exists_incoming : ∃ l, q.network.incoming e.id = [l] ∧ l.source = anchor ∧
    l.edge = .named a.name :=
  h.exists_filter_far fun l hl ht => hnew (ht ▸ p.coherent.target_mem l hl)

/-- A contraction of the element leads the edges that it took over back to the anchor. -/
theorem bypasses_perm : (bypasses q.network e.id e).Perm
    ((p.network.outgoing anchor).map fun o =>
      (anchor, o.target, bypass e (.named a.name) o.edge)) := by
  obtain ⟨l, hin, hsource, hedge⟩ := h.exists_incoming hnew
  unfold bypasses
  rw [hin, List.flatMap_singleton, hsource, hedge]
  simpa [Function.comp_def, Network.outgoing] using
    h.taken.map fun x => (anchor, x.1, bypass e (.named a.name) x.2)

/-- **The edges after the contraction**: those that did not leave the anchor, and new ones from it
in place of the others. -/
theorem links_perm {new : List Link} (hr : q.Bypassed e.id new r) :
    r.network.links.Perm (new ++ p.network.links.filter (·.source ≠ anchor)) ∧
      (new.map ends).Perm ((p.network.outgoing anchor).map fun o =>
        (anchor, o.target, bypass e (.named a.name) o.edge)) := by
  have hlinks := hr.links
  rw [h.filter_not_touches (fun l hl ht => hnew (ht ▸ p.coherent.target_mem l hl))
    fun _ => rfl] at hlinks
  obtain ⟨d, hd, hends⟩ := hr.new_ends
  cases h.element?_self.symm.trans hd
  exact ⟨hlinks, hends.trans (h.bypasses_perm hnew)⟩

/-- **What equality reads of the edges after the contraction** is what it read of those before, but
for the ordinals past a splice. -/
theorem bareLinks_perm {new : List Link} (hr : q.Bypassed e.id new r) : r.network.bareLinks.Perm
    (p.network.links.map fun l => (returned anchor e l).bare) := by
  obtain ⟨hlinks, hends⟩ := h.links_perm hnew hr
  have hled : (new.map Link.bare).Perm
      ((p.network.outgoing anchor).map fun l => (returned anchor e l).bare) := by
    have hbare := hends.map fun x => Link.bare ⟨0, x.1, x.2.1, x.2.2⟩
    rw [List.map_map, List.map_map] at hbare
    refine hbare.trans (.of_eq (List.map_congr_left fun l hl => ?_))
    exact bare_bypass_named a.name (Network.mem_outgoing.mp hl).2 0
  have hkept : (p.network.links.filter (·.source ≠ anchor)).map Link.bare =
      (p.network.links.filter (·.source ≠ anchor)).map fun l => (returned anchor e l).bare := by
    refine List.map_congr_left fun l hl => ?_
    have hs : l.source ≠ anchor := by simpa using (List.mem_filter.mp hl).2
    simp [returned, hs]
  have hparts := List.filter_append_perm (fun l : Link => l.source = anchor) p.network.links
  calc r.network.bareLinks.Perm _ := hlinks.map Link.bare
    _ = new.map Link.bare ++ (p.network.links.filter (·.source ≠ anchor)).map Link.bare :=
      List.map_append
    List.Perm _ _ := hled.append (.of_eq hkept)
    _ = _ := List.map_append.symm
    List.Perm _ _ := List.Perm.map _ (by simpa [Network.outgoing] using hparts)

/-- Edges that do not leave the anchor are the same links after the contraction, in the same
order. -/
theorem filter_source_ne {new : List Link} (hr : q.Bypassed e.id new r) :
    r.network.links.filter (·.source ≠ anchor) = p.network.links.filter (·.source ≠ anchor) := by
  obtain ⟨hlinks, hends⟩ := h.links_perm hnew hr
  have hled : new.filter (·.source ≠ anchor) = [] := by
    refine List.filter_eq_nil_iff.mpr fun l hl => ?_
    obtain ⟨o, -, ho⟩ := List.mem_map.mp (hends.mem_iff.mp (List.mem_map_of_mem hl))
    have hs : anchor = l.source := congrArg (·.1) ho
    simp [hs]
  have hkept := hlinks.filter (·.source ≠ anchor)
  rw [List.filter_append, hled, List.filter_filter] at hkept
  refine Link.eq_of_perm ?_ (r.coherent.links_ascending.filter _)
    (p.coherent.links_ascending.filter _)
  simpa using hkept

end After

/-! ### Past an insertion before the anchor -/

/-- **The edges after the contraction**: those that did not end at the anchor, and new ones to it in
place of the others, named after it. -/
theorem links_perm_before (h : TakesOver Link.target Link.source p anchor a e q)
    (hnew : e.id ∉ p.network.ids) {new : List Link} (hr : q.Bypassed e.id new r) :
    r.network.links.Perm (new ++ p.network.links.filter (·.target ≠ anchor)) ∧
      (new.map ends).Perm ((p.network.incoming anchor).map fun i =>
        (i.source, anchor, bypass e i.edge (.named a.name))) := by
  have hfree : ∀ l ∈ p.network.links, l.source ≠ e.id := fun l hl hs =>
    hnew (hs ▸ p.coherent.source_mem l hl)
  have hlinks := hr.links
  rw [h.filter_not_touches hfree fun _ => Bool.or_comm _ _] at hlinks
  refine ⟨hlinks, ?_⟩
  obtain ⟨d, hd, hends⟩ := hr.new_ends
  cases h.element?_self.symm.trans hd
  obtain ⟨l, hout, htarget, hedge⟩ := h.exists_filter_far hfree
  have hout : q.network.outgoing e.id = [l] := hout
  have hmap : bypasses q.network e.id e = (q.network.incoming e.id).map fun i =>
      (i.source, anchor, bypass e i.edge (.named a.name)) := by
    unfold bypasses
    rw [hout, List.map_eq_flatMap]
    simp [htarget, hedge]
  rw [hmap] at hends
  refine hends.trans ?_
  simpa [Function.comp_def, Network.incoming] using
    h.taken.map fun x => (x.1, anchor, bypass e x.2 (.named a.name))

end TakesOver

/-- **Insertion after an anchor and contraction of the element restore a plan**, up to bookkeeping.
The vertices are those from before, and so are the edges that do not leave the anchor, numbers
included; the others are up to their numbers and prior names, if the element is no splice. Past a
splice, be it a grouping, a join or a merge, their ordinals are 0 and nothing else has changed. Of
the tags those on the id of the element are gone. -/
theorem contract_insertAfter (p : Plan) {anchor : ElementId} {e : Element}
    (hanchor : anchor ∈ p.network.ids) (hnew : e.id ∉ p.network.ids) (mode : ContractionMode) :
    ∃ q r, p.insertAfter anchor e = (.ok (), q) ∧ q.contract e.id mode = (.ok (), r) ∧
      r.network.elements.Perm p.network.elements ∧
      r.network.tags = p.network.tags.map (·.remove e.id) ∧
      r.network.links.filter (·.source ≠ anchor) = p.network.links.filter (·.source ≠ anchor) ∧
      (e.isSplice = false → r.network.bareLinks.Perm p.network.bareLinks) ∧
      (e.isSplice = true → r.network.bareLinks.Perm
        (p.network.links.map fun l => (if l.source = anchor then atFirstInput l else l).bare)) := by
  obtain ⟨a, ha⟩ := Network.exists_element? hanchor
  obtain ⟨q, hq, h⟩ := insertAfter_takesOver ha hnew
  obtain ⟨l, hin, -⟩ := h.exists_incoming hnew
  have hdegree : q.network.inDegree e.id = 1 := congrArg List.length hin
  have hmem : e.id ∈ q.network.ids :=
    Network.mem_ids.mpr ⟨e, h.elements.mem_iff.mpr List.mem_cons_self, rfl⟩
  obtain ⟨r, new, hr, hbypassed⟩ := exists_contract hmem (.inr hdegree)
  have hbare := h.bareLinks_perm hnew hbypassed
  refine ⟨q, r, hq, hr, h.elements_perm hnew hbypassed, h.tags ▸ hbypassed.tags,
    h.filter_source_ne hnew hbypassed, fun hsplice => ?_, fun hsplice => ?_⟩
  · simpa [returned, hsplice, Network.bareLinks] using hbare
  · simpa [returned, hsplice] using hbare

theorem contract_insertAfter_fanned :
    let g : Element := .grouping ⟨⟨6⟩, ""⟩
    let t : Element := .transform ⟨⟨6⟩, ""⟩
    ⟨2⟩ ∈ fanned.network.ids ∧ ⟨6⟩ ∉ fanned.network.ids ∧
      (∃ q r, fanned.insertAfter ⟨2⟩ g = (.ok (), q) ∧
        q.contract ⟨6⟩ .singleInbound = (.ok (), r) ∧
        r.network.bareLinks.Perm (fanned.network.links.map fun l =>
          (if l.source = ⟨2⟩ then atFirstInput l else l).bare)) ∧
      ∃ q r, fanned.insertAfter ⟨2⟩ t = (.ok (), q) ∧
        q.contract ⟨6⟩ .anyInbound = (.ok (), r) ∧
        r.network.bareLinks.Perm fanned.network.bareLinks := by
  intro g t
  have hanchor : ⟨2⟩ ∈ fanned.network.ids := by decide +kernel
  have hnew : ⟨6⟩ ∉ fanned.network.ids := by decide +kernel
  obtain ⟨q, r, hq, hr, -, -, -, -, hsplice⟩ :=
    contract_insertAfter (e := g) fanned hanchor hnew .singleInbound
  obtain ⟨q', r', hq', hr', -, -, -, hplain, -⟩ :=
    contract_insertAfter (e := t) fanned hanchor hnew .anyInbound
  exact ⟨hanchor, hnew, ⟨q, r, hq, hr, hsplice rfl⟩, q', r', hq', hr', hplain rfl⟩

end Dataflow.Plan
