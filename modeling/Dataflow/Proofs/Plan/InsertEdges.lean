import Dataflow.Proofs.Plan.Insert

/-!
# The edges after an insertion

An inserted element takes over the edges of its anchor on one side, and what is left to the anchor
there is the one edge between the two. Insertion after an anchor and before it differ in the side
only: an edge is on that of its `near` end, and its `far` end is the other one.

* **`Plan.Inserted.filter_near_perm`**: the edges by their near ends, on either side.
* **`Plan.insert_exact`**: insertion after and before any vertex.
-/

namespace Dataflow

/-- Edges listed by ascending number are listed in one order only. -/
theorem Link.eq_of_perm {ks ls : List Link} (h : ks.Perm ls)
    (hks : ks.Pairwise fun a b => a.id < b.id) (hls : ls.Pairwise fun a b => a.id < b.id) :
    ks = ls :=
  h.eq_of_pairwise (fun _ _ _ _ hlt hgt => absurd hgt (Nat.lt_asymm hlt)) hks hls

namespace Plan

variable {p q : Plan} {anchor : ElementId} {a e : Element} {near far : Link → ElementId}

/-- The element `e` stands next to the element `a` of an anchor. The edges whose near end was the
anchor are its own, numbers apart; in their place the anchor has one new edge, which is named after
it and whose far end is `e`. All other edges are as they were. -/
structure TakesOver (near far : Link → ElementId) (p : Plan) (anchor : ElementId) (a e : Element)
    (q : Plan) : Prop where
  elements : q.network.elements.Perm (e :: p.network.elements)
  taken : ((q.network.links.filter (near · = e.id)).map fun l => (far l, l.edge)).Perm
    ((p.network.links.filter (near · = anchor)).map fun l => (far l, l.edge))
  linked : ∃ l, q.network.links.filter (near · = anchor) = [l] ∧ far l = e.id ∧
    l.edge = { name := a.name, ordinal := 0, nonBlocking := true, weight := .default,
               priorNames := ∅ }
  others : q.network.links.filter (fun l => near l ≠ anchor ∧ near l ≠ e.id) =
    p.network.links.filter (near · ≠ anchor)
  tags : q.network.tags = p.network.tags

namespace Inserted

variable {link : Link} {new : List Link}

/-- **The edges by their near ends**: the new element's are those that were moved, the anchor's is
the new one, and those of other vertices were neither. -/
theorem filter_near_perm
    (h : p.Inserted e link (p.network.links.filter (near · = anchor)) new q)
    (hnew : ∀ l ∈ new, near l = e.id) (hlink : near link = anchor) (f : ElementId → Bool) :
    (q.network.links.filter fun l => f (near l)).Perm
      ((if f e.id then new else []) ++ ((if f anchor then [link] else []) ++
        p.network.links.filter fun l => f (near l) ∧ near l ≠ anchor)) := by
  have hsplit := h.links.filter fun l => f (near l)
  have hmoved : new.filter (fun l => f (near l)) = if f e.id then new else [] := by
    rw [List.filter_congr fun l hl => congrArg f (hnew l hl)]
    cases f e.id <;> simp
  have hrest : (p.network.links.filter (· ∉ p.network.links.filter (near · = anchor))).filter
      (fun l => f (near l)) = p.network.links.filter fun l => f (near l) ∧ near l ≠ anchor := by
    rw [List.filter_filter]
    refine List.filter_congr fun l hl => ?_
    simp [List.mem_filter, hl]
  rw [List.filter_append, List.filter_cons, hmoved, hrest, hlink] at hsplit
  refine hsplit.trans (.of_eq (congrArg _ ?_))
  cases f anchor <;> rfl

/-- **What an insertion does to the edges**, on either side of the anchor. -/
theorem takesOver (h : p.Inserted e link (p.network.links.filter (near · = anchor)) new q)
    (ha : p.network.element? anchor = some a) (hfresh : e.id ∉ p.network.ids)
    (hmem : ∀ l ∈ p.network.links, near l ∈ p.network.ids)
    (hlink : near link = anchor ∧ far link = e.id ∧ link.edge = .named a.name)
    (hends : (new.map fun l => (near l, far l, l.edge)).Perm
      ((p.network.links.filter (near · = anchor)).map fun l => (e.id, far l, l.edge))) :
    TakesOver near far p anchor a e q := by
  have hne : e.id ≠ anchor := fun h => hfresh (h ▸ Network.mem_ids_of_element? ha)
  have hfree : ∀ l ∈ p.network.links, near l ≠ e.id := fun l hl h => hfresh (h ▸ hmem l hl)
  obtain ⟨hnear, hfar, hedge⟩ := hlink
  have hnew : ∀ l ∈ new, near l = e.id := by
    intro l hl
    obtain ⟨k, -, hk⟩ := List.mem_map.mp (hends.mem_iff.mp (List.mem_map_of_mem hl))
    exact (congrArg (·.1) hk).symm
  have hgroups := h.filter_near_perm hnew hnear
  refine ⟨h.elements, ?taken, ⟨link, ?linked, hfar, hedge⟩, ?others, h.tags⟩
  case taken =>
    have hnone : p.network.links.filter (fun l => near l = e.id ∧ near l ≠ anchor) = [] :=
      List.filter_eq_nil_iff.mpr fun l hl => by simp [hfree l hl]
    have hown := hgroups (· = e.id)
    simp only [decide_true, hne.symm, decide_false, decide_eq_true_eq, hnone, if_true,
      Bool.false_eq_true, if_false, List.append_nil] at hown
    refine (hown.map _).trans ?_
    simpa [Function.comp_def] using hends.map Prod.snd
  case linked =>
    simpa [hne] using hgroups (· = anchor)
  case others =>
    have hkept : p.network.links.filter
        (fun l => decide (near l ≠ anchor ∧ near l ≠ e.id) ∧ near l ≠ anchor) =
          p.network.links.filter (near · ≠ anchor) :=
      List.filter_congr fun l hl => by simp [hfree l hl]
    have hown := hgroups fun v => v ≠ anchor ∧ v ≠ e.id
    rw [hkept] at hown
    refine Link.eq_of_perm ?_ (q.coherent.links_ascending.filter _)
      (p.coherent.links_ascending.filter _)
    simpa using hown

end Inserted

theorem insertAfter_takesOver (ha : p.network.element? anchor = some a)
    (hnew : e.id ∉ p.network.ids) : ∃ q, p.insertAfter anchor e = (.ok (), q) ∧
      TakesOver Link.source Link.target p anchor a e q := by
  obtain ⟨q, i, new, hq, h, hends⟩ := exists_insertAfter ha hnew
  exact ⟨q, hq, h.takesOver ha hnew p.coherent.source_mem ⟨rfl, rfl, rfl⟩ hends⟩

theorem insertBefore_takesOver (ha : p.network.element? anchor = some a)
    (hnew : e.id ∉ p.network.ids) : ∃ q, p.insertBefore anchor e = (.ok (), q) ∧
      TakesOver Link.target Link.source p anchor a e q := by
  obtain ⟨q, i, new, hq, h, hends⟩ := exists_insertBefore ha hnew
  refine ⟨q, hq, h.takesOver ha hnew p.coherent.target_mem ⟨rfl, rfl, rfl⟩ ?_⟩
  simpa [ends, Function.comp_def, Network.incoming] using
    hends.map fun x => (x.2.1, x.1, x.2.2)

/-- **Insertion moves every edge once and loses nothing.** Next to every vertex, after it and before
it, an element that is no vertex yet is inserted and takes over the edges on its side. -/
theorem insert_exact (p : Plan) {anchor : ElementId} {a e : Element}
    (ha : p.network.element? anchor = some a) (hnew : e.id ∉ p.network.ids) :
    (∃ q, p.insertAfter anchor e = (.ok (), q) ∧
      TakesOver Link.source Link.target p anchor a e q) ∧
    (∃ q, p.insertBefore anchor e = (.ok (), q) ∧
      TakesOver Link.target Link.source p anchor a e q) :=
  ⟨insertAfter_takesOver ha hnew, insertBefore_takesOver ha hnew⟩

/-- A vertex between one edge and three, two of which are parallel and of different ordinals. -/
def fanned : Plan :=
  let p := empty.sketch [⟨2⟩, ⟨3⟩, ⟨4⟩, ⟨5⟩] [(⟨5⟩, ⟨2⟩), (⟨2⟩, ⟨3⟩), (⟨2⟩, ⟨4⟩)]
  (p.addEdge ⟨2⟩ ⟨3⟩ { Edge.named "a" with ordinal := 1 }).2

theorem insert_exact_fanned :
    let e : Element := .transform ⟨⟨6⟩, ""⟩
    fanned.network.element? ⟨2⟩ = some (.transform ⟨⟨2⟩, ""⟩) ∧ e.id ∉ fanned.network.ids ∧
      (∃ q, fanned.insertAfter ⟨2⟩ e = (.ok (), q) ∧
        (q.network.successors ⟨6⟩).Perm [⟨3⟩, ⟨4⟩, ⟨3⟩] ∧ q.network.successors ⟨2⟩ = [⟨6⟩]) ∧
      ∃ q, fanned.insertBefore ⟨2⟩ e = (.ok (), q) ∧
        (q.network.predecessors ⟨6⟩).Perm [⟨5⟩] ∧ q.network.predecessors ⟨2⟩ = [⟨6⟩] := by
  intro e
  have ha : fanned.network.element? ⟨2⟩ = some (.transform ⟨⟨2⟩, ""⟩) := by decide +kernel
  have hnew : e.id ∉ fanned.network.ids := by decide +kernel
  have hsuccessors : fanned.network.successors ⟨2⟩ = [⟨3⟩, ⟨4⟩, ⟨3⟩] := by decide +kernel
  have hpredecessors : fanned.network.predecessors ⟨2⟩ = [⟨5⟩] := by decide +kernel
  obtain ⟨⟨q, hq, hafter⟩, r, hr, hbefore⟩ := insert_exact fanned ha hnew
  obtain ⟨k, hk, hkfar, -⟩ := hafter.linked
  obtain ⟨l, hl, hlfar, -⟩ := hbefore.linked
  refine ⟨ha, hnew, ⟨q, hq, ?_, ?_⟩, r, hr, ?_, ?_⟩
  · have hmoved := hafter.taken.map Prod.fst
    rw [List.map_map, List.map_map] at hmoved
    rw [← hsuccessors]
    exact hmoved
  · exact (congrArg _ hk).trans (congrArg (fun v => [v]) hkfar)
  · have hmoved := hbefore.taken.map Prod.fst
    rw [List.map_map, List.map_map] at hmoved
    rw [← hpredecessors]
    exact hmoved
  · exact (congrArg _ hl).trans (congrArg (fun v => [v]) hlfar)

/-- Each edge that is moved takes the number that was freed last, its own. -/
example : ((fanned.insertAfter ⟨2⟩ (.transform ⟨⟨6⟩, ""⟩)).2.network.outgoing ⟨6⟩).map (·.id) =
    [1, 2, 3] := by decide +kernel

end Plan

end Dataflow
