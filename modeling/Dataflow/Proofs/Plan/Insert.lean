import Dataflow.Plan.Insert
import Dataflow.Proofs.Plan.Edge

/-!
# What insertion does to a plan

The edges on one side of the anchor are moved one by one, each taken out as the first one between
its ends. That none of the moves can fail rests on their order, and on a walk after any of them
being a walk of the plan before: the new element stands where the anchor does.

* **`Plan.exists_moveEdge`**: an edge moves if it is the first between its ends and closes no cycle
  at its new place.
* **`Plan.Movable.next`, `Plan.editAll_moveEdge`**: one move leaves the other edges movable, and so
  a run of moves succeeds.
* **`Plan.exists_insertAfter`, `Plan.exists_insertBefore`**: a new element is inserted next to every
  vertex; the edges on its side become the element's, and all else stays.
-/

namespace Dataflow.Plan

open Relation

variable {p q r : Plan}

/-! ### One edge -/

/-- The plan with some edges taken out and others added, and nothing else changed. -/
structure Rewired (p : Plan) (moved new : List Link) (q : Plan) : Prop where
  links : q.network.links.Perm (new ++ p.network.links.filter (· ∉ moved))
  elements : q.network.elements = p.network.elements
  tags : q.network.tags = p.network.tags

namespace Rewired

theorem refl (p : Plan) : p.Rewired [] [] p where
  links := by simp
  elements := rfl
  tags := rfl

theorem ids {moved new : List Link} (h : p.Rewired moved new q) :
    q.network.ids = p.network.ids :=
  congrArg (List.map Element.id) h.elements

theorem mem_links {moved new : List Link} (h : p.Rewired moved new q) {k : Link} :
    k ∈ q.network.links ↔ k ∈ new ∨ (k ∈ p.network.links ∧ k ∉ moved) := by
  rw [h.links.mem_iff, List.mem_append, List.mem_filter, decide_eq_true_eq]

/-- Edges moved later are none of those added before. -/
theorem trans {ks ls new new' : List Link} (h : p.Rewired ks new q) (h' : q.Rewired ls new' r)
    (hnew : ∀ k ∈ new, k ∉ ls) : p.Rewired (ks ++ ls) (new' ++ new) r where
  links := by
    have hkeep : new.filter (· ∉ ls) = new :=
      List.filter_eq_self.mpr fun k hk => decide_eq_true (hnew k hk)
    have hrest : (p.network.links.filter (· ∉ ks)).filter (· ∉ ls) =
        p.network.links.filter (· ∉ ks ++ ls) := by
      rw [List.filter_filter]
      refine List.filter_congr fun k _ => ?_
      simp only [List.mem_append, not_or, Bool.decide_and, Bool.and_comm]
    have hq := h.links.filter (· ∉ ls)
    rw [List.filter_append, hkeep, hrest] at hq
    rw [List.append_assoc]
    exact h'.links.trans (hq.append_left new')
  elements := h'.elements.trans h.elements
  tags := h'.tags.trans h.tags

end Rewired

/-- **The first edge between two vertices is the one taken out.** -/
theorem detach_eq {l : Link} (hl : l ∈ p.network.links)
    (hfirst : ∀ k ∈ p.network.links, k.source = l.source → k.target = l.target → l.id ≤ k.id) :
    p.detach l = (.ok l.edge, p.eraseEdge l.id) := by
  have hmem : l ∈ p.network.between l.source l.target :=
    Network.mem_between.mpr ⟨hl, rfl, rfl⟩
  have hasc : (p.network.between l.source l.target).Pairwise (fun a b => a.id < b.id) :=
    p.coherent.links_ascending.filter _
  unfold detach removeEdgeBetween
  cases hb : p.network.between l.source l.target with
  | nil => exact absurd (hb ▸ hmem) List.not_mem_nil
  | cons k rest =>
    rw [hb] at hmem hasc
    have hk : k ∈ p.network.between l.source l.target := hb ▸ List.mem_cons_self
    obtain ⟨hkp, hks, hkt⟩ := Network.mem_between.mp hk
    have hkl : l = k := by
      rcases List.mem_cons.mp hmem with h | h
      · exact h
      · have hlater : k.id < l.id := (List.pairwise_cons.mp hasc).1 l h
        exact absurd (hfirst k hkp hks hkt) (Nat.not_le_of_lt hlater)
    subst hkl
    simp

theorem network_eraseEdge (p : Plan) (i : EdgeId) : (p.eraseEdge i).network =
    { p.network with links := p.network.links.filter (·.id ≠ i) } :=
  network_removeEdge p i

theorem ids_eraseEdge (p : Plan) (i : EdgeId) : (p.eraseEdge i).network.ids = p.network.ids := by
  rw [network_eraseEdge]
  rfl

/-- Where an edge leads after another was taken out, one led before. -/
theorem transGen_of_eraseEdge {i : EdgeId} {u v : ElementId}
    (h : TransGen (p.eraseEdge i).network.Step u v) : TransGen p.network.Step u v := by
  refine h.lift id fun a b hab => ?_
  rw [network_eraseEdge] at hab
  exact Network.Step.mono (fun k hk => (List.mem_filter.mp hk).1) hab

/-- An edge is taken out and others are added. -/
theorem Grows.rewired {l : Link} {new : List Link} (hl : l ∈ p.network.links)
    (h : (p.eraseEdge l.id).Grows new q) : p.Rewired [l] new q where
  links := by
    have hsame : p.network.links.filter (·.id ≠ l.id) = p.network.links.filter (· ∉ [l]) := by
      refine List.filter_congr fun k hk => ?_
      rw [decide_eq_decide, List.mem_singleton]
      exact not_congr ⟨p.coherent.eq_of_id hk hl, fun h => h ▸ rfl⟩
    have hlinks := h.links
    rw [network_eraseEdge, hsame] at hlinks
    exact hlinks
  elements := by rw [h.elements, network_eraseEdge]
  tags := by rw [h.tags, network_eraseEdge]

/-- **An edge moves** if it is the first between its ends and closes no cycle at its new place. -/
theorem exists_moveEdge {l : Link} (hl : l ∈ p.network.links)
    (hfirst : ∀ k ∈ p.network.links, k.source = l.source → k.target = l.target → l.id ≤ k.id)
    {s t : ElementId} (hs : s ∈ p.network.ids) (ht : t ∈ p.network.ids) (hne : s ≠ t)
    (hback : ¬ TransGen p.network.Step t s) :
    ∃ i q, p.moveEdge l s t = (.ok (), q) ∧ p.Rewired [l] [⟨i, s, t, l.edge⟩] q := by
  have hids := p.ids_eraseEdge l.id
  obtain ⟨i, q, hadd, hgrows⟩ := exists_addEdge (e := l.edge) (hids ▸ hs) (hids ▸ ht) hne
    (mt transGen_of_eraseEdge hback)
  refine ⟨i, q, ?_, hgrows.rewired hl⟩
  unfold moveEdge
  rw [detach_eq hl hfirst]
  simp only [Edit.andThen, Edit.ignored, hadd]

/-! ### A run of moves -/

/-- Edges that can be moved one after the other, seen from the network of before: `onto` says where
the vertices of the plan stand in it. -/
structure Movable (n : Network) (onto : ElementId → ElementId)
    (place : Link → ElementId × ElementId) (moved : List Link) (p : Plan) : Prop where
  ascending : moved.Pairwise fun a b => a.id < b.id
  mem : ∀ l ∈ moved, l ∈ p.network.links
  /-- They are all the edges between their ends. -/
  complete : ∀ l ∈ moved, ∀ k ∈ p.network.links, k.source = l.source → k.target = l.target →
    k ∈ moved
  /-- The steps of the plan follow walks of the network, or stay. -/
  follows : ∀ k ∈ p.network.links, ReflTransGen n.Step (onto k.source) (onto k.target)
  /-- So do the edges at their new places, and they do not stay. -/
  placed : ∀ l ∈ moved, (place l).1 ∈ p.network.ids ∧ (place l).2 ∈ p.network.ids ∧
    TransGen n.Step (onto (place l).1) (onto (place l).2)
  /-- No new place is between the ends of an edge that is moved. -/
  apart : ∀ k ∈ moved, ∀ l ∈ moved, place k ≠ (l.source, l.target)

namespace Movable

variable {n : Network} {onto : ElementId → ElementId} {place : Link → ElementId × ElementId}
  {l : Link} {moved : List Link}

/-- The first of the edges is the first between its ends. -/
theorem first (h : Movable n onto place (l :: moved) p) : ∀ k ∈ p.network.links,
    k.source = l.source → k.target = l.target → l.id ≤ k.id := by
  intro k hk hs ht
  rcases List.mem_cons.mp (h.complete l List.mem_cons_self k hk hs ht) with rfl | hkm
  · exact Nat.le_refl _
  · exact Nat.le_of_lt ((List.pairwise_cons.mp h.ascending).1 k hkm)

/-- No walk of the plan leads back from the new place, as the network is acyclic. -/
theorem not_back (hn : n.Acyclic) (h : Movable n onto place (l :: moved) p) :
    ¬ TransGen p.network.Step (place l).2 (place l).1 := by
  intro hback
  have hfollow : ReflTransGen n.Step (onto (place l).2) (onto (place l).1) := by
    refine hback.to_reflTransGen.lift' onto ?_
    rintro _ _ ⟨k, hk, rfl, rfl⟩
    exact h.follows k hk
  exact hn _ ((h.placed l List.mem_cons_self).2.2.trans_left hfollow)

/-- **One move leaves the other edges movable.** -/
theorem next (h : Movable n onto place (l :: moved) p) {i : EdgeId}
    (hq : p.Rewired [l] [⟨i, (place l).1, (place l).2, l.edge⟩] q) :
    Movable n onto place moved q := by
  obtain ⟨hlater, hascending⟩ := List.pairwise_cons.mp h.ascending
  have hmem : ∀ {k}, k ∈ moved → k ∈ l :: moved := List.mem_cons_of_mem l
  have hl : l ∉ moved := fun hl => Nat.lt_irrefl _ (hlater l hl)
  have hlinks : ∀ {k}, k ∈ q.network.links ↔
      k = ⟨i, (place l).1, (place l).2, l.edge⟩ ∨ (k ∈ p.network.links ∧ k ≠ l) := by
    intro k
    rw [hq.mem_links, List.mem_singleton, List.mem_singleton]
  refine ⟨hascending, fun k hk => ?mem, fun k hk j hj hs ht => ?complete, fun k hk => ?follows,
    fun k hk => hq.ids ▸ h.placed k (hmem hk), fun j hj k hk => h.apart j (hmem hj) k (hmem hk)⟩
  case mem => exact hlinks.mpr (.inr ⟨h.mem k (hmem hk), fun e => hl (e ▸ hk)⟩)
  case complete =>
    rcases hlinks.mp hj with rfl | ⟨hjp, hjl⟩
    · exact absurd (Prod.ext hs ht) (h.apart l List.mem_cons_self k (hmem hk))
    · exact (List.mem_cons.mp (h.complete k (hmem hk) j hjp hs ht)).resolve_left hjl
  case follows =>
    rcases hlinks.mp hk with rfl | ⟨hkp, -⟩
    · exact (h.placed l List.mem_cons_self).2.2.to_reflTransGen
    · exact h.follows k hkp

end Movable

/-- **A run of moves succeeds**, in the order of the numbers of the edges. -/
theorem editAll_moveEdge {n : Network} (hn : n.Acyclic) {onto : ElementId → ElementId}
    {place : Link → ElementId × ElementId} {moved : List Link}
    (h : Movable n onto place moved p) :
    ∃ q new, editAll (fun p l => p.moveEdge l (place l).1 (place l).2) p moved = (.ok (), q) ∧
      p.Rewired moved new q ∧
      (new.map ends).Perm (moved.map fun l => ((place l).1, (place l).2, l.edge)) := by
  induction moved generalizing p with
  | nil => exact ⟨p, [], rfl, .refl p, .refl _⟩
  | cons l moved ih =>
    obtain ⟨hs, ht, hwalk⟩ := h.placed l List.mem_cons_self
    have hne : (place l).1 ≠ (place l).2 := fun e => hn.ne_of_transGen hwalk (congrArg onto e)
    obtain ⟨i, q, hmove, hq⟩ :=
      exists_moveEdge (h.mem l List.mem_cons_self) h.first hs ht hne (h.not_back hn)
    obtain ⟨r, new, hrest, hr, hnew⟩ := ih (h.next hq)
    refine ⟨r, new ++ [⟨i, (place l).1, (place l).2, l.edge⟩], ?_, ?_, ?_⟩
    · unfold editAll
      simp only [hmove, Edit.andThen]
      exact hrest
    · refine hq.trans hr fun k hk hkm => ?_
      rw [List.mem_singleton] at hk
      subst hk
      exact h.apart l List.mem_cons_self _ (List.mem_cons_of_mem _ hkm) rfl
    · rw [List.map_append, List.map_cons]
      exact List.perm_append_comm.trans (hnew.cons _)

/-! ### The new element -/

/-- The plan with an element among its vertices, and nothing else changed. -/
structure Hosts (p : Plan) (e : Element) (q : Plan) : Prop where
  /-- An element that is there already stays as it is. -/
  kept : e.id ∈ p.network.ids → q.network.elements = p.network.elements
  added : e.id ∉ p.network.ids → q.network.elements.Perm (e :: p.network.elements)
  links : q.network.links = p.network.links
  tags : q.network.tags = p.network.tags

theorem hosts_addVertex (p : Plan) (e : Element) : p.Hosts e (p.addVertex e).2 := by
  unfold addVertex
  split
  case isTrue h => exact ⟨fun _ => rfl, fun hnew => absurd h hnew, rfl, rfl⟩
  case isFalse h =>
    obtain ⟨helements, hlinks, htags⟩ := p.toStore.network_insertVertex e
    exact ⟨fun hmem => absurd hmem h, fun _ => helements, hlinks, htags⟩

theorem Hosts.mem_ids {e : Element} (h : p.Hosts e q) {v : ElementId} :
    v ∈ q.network.ids ↔ v = e.id ∨ v ∈ p.network.ids := by
  by_cases hmem : e.id ∈ p.network.ids
  · unfold Network.ids
    rw [h.kept hmem]
    constructor
    · exact .inr
    · rintro (rfl | hv)
      · exact hmem
      · exact hv
  · have hperm : q.network.ids.Perm (e.id :: p.network.ids) := (h.added hmem).map _
    rw [hperm.mem_iff, List.mem_cons]

/-- The plan with one more vertex and one more edge, and nothing else changed. -/
structure Placed (p : Plan) (e : Element) (link : Link) (q : Plan) : Prop where
  elements : q.network.elements.Perm (e :: p.network.elements)
  links : q.network.links.Perm (link :: p.network.links)
  tags : q.network.tags = p.network.tags

namespace Placed

variable {e : Element} {link : Link}

theorem mem_ids (h : p.Placed e link q) {v : ElementId} :
    v ∈ q.network.ids ↔ v = e.id ∨ v ∈ p.network.ids := by
  have hperm : q.network.ids.Perm (e.id :: p.network.ids) := h.elements.map _
  rw [hperm.mem_iff, List.mem_cons]

theorem mem_links (h : p.Placed e link q) {k : Link} :
    k ∈ q.network.links ↔ k = link ∨ k ∈ p.network.links := by
  rw [h.links.mem_iff, List.mem_cons]

end Placed

/-- **A new element is added with an edge** from or to any vertex. -/
theorem exists_placed {e : Element} (hnew : e.id ∉ p.network.ids) {s t : ElementId}
    (hends : (s = e.id ∧ t ∈ p.network.ids) ∨ (s ∈ p.network.ids ∧ t = e.id)) (edge : Edge) :
    ∃ q i r, p.addNewVertex e = (.ok (), q) ∧ q.addEdge s t edge = (.ok i, r) ∧
      p.Placed e ⟨i, s, t, edge⟩ r := by
  have hq := p.hosts_addVertex e
  have hadd : p.addNewVertex e = (.ok (), (p.addVertex e).2) := by
    unfold addNewVertex addVertex
    rw [dif_neg hnew]
  -- the new vertex has no edge yet, so no walk goes to it or from it
  have hloose : ∀ a b, (p.addVertex e).2.network.Step a b → a ≠ e.id ∧ b ≠ e.id := by
    rintro _ _ ⟨k, hk, rfl, rfl⟩
    have hk : k ∈ p.network.links := hq.links ▸ hk
    constructor
    · exact fun h => hnew (h ▸ p.coherent.source_mem k hk)
    · exact fun h => hnew (h ▸ p.coherent.target_mem k hk)
  have hsides : s ∈ (p.addVertex e).2.network.ids ∧ t ∈ (p.addVertex e).2.network.ids ∧ s ≠ t ∧
      ¬ TransGen (p.addVertex e).2.network.Step t s := by
    rcases hends with ⟨rfl, ht⟩ | ⟨hs, rfl⟩
    · refine ⟨hq.mem_ids.mpr (.inl rfl), hq.mem_ids.mpr (.inr ht), fun h => hnew (h ▸ ht), ?_⟩
      intro h
      obtain ⟨_, -, hlast⟩ := TransGen.tail'_iff.mp h
      exact (hloose _ _ hlast).2 rfl
    · refine ⟨hq.mem_ids.mpr (.inr hs), hq.mem_ids.mpr (.inl rfl), fun h => hnew (h ▸ hs), ?_⟩
      intro h
      obtain ⟨_, hfirst, -⟩ := TransGen.head'_iff.mp h
      exact (hloose _ _ hfirst).1 rfl
  obtain ⟨hs, ht, hne, hback⟩ := hsides
  obtain ⟨i, r, hedge, hgrows⟩ := exists_addEdge (e := edge) hs ht hne hback
  refine ⟨_, i, r, hadd, hedge, hgrows.elements ▸ hq.added hnew, ?_, hgrows.tags.trans hq.tags⟩
  have hlinks := hgrows.links
  rw [hq.links] at hlinks
  exact hlinks

/-- The vertex that a new element stands next to, in its place. -/
def standIn (e : Element) (anchor v : ElementId) : ElementId := if v = e.id then anchor else v

theorem standIn_id {e : Element} {anchor : ElementId} : standIn e anchor e.id = anchor :=
  if_pos rfl

theorem standIn_of_mem {e : Element} (hnew : e.id ∉ p.network.ids) {anchor v : ElementId}
    (hv : v ∈ p.network.ids) : standIn e anchor v = v := by
  unfold standIn
  rw [if_neg]
  rintro rfl
  exact hnew hv

/-- With the new element in the anchor's place every step is one of the plan before, or none. -/
theorem Placed.standIn {e : Element} {link : Link} (h : p.Placed e link q)
    (hnew : e.id ∉ p.network.ids) {anchor : ElementId} (hanchor : anchor ∈ p.network.ids)
    (hlink : (link.source = e.id ∧ link.target = anchor) ∨
      (link.source = anchor ∧ link.target = e.id)) :
    ∀ k ∈ q.network.links, ReflTransGen p.network.Step (Plan.standIn e anchor k.source)
      (Plan.standIn e anchor k.target) := by
  intro k hk
  rcases h.mem_links.mp hk with rfl | hk
  · have hself : Plan.standIn e anchor anchor = anchor := standIn_of_mem hnew hanchor
    rcases hlink with ⟨hs, ht⟩ | ⟨hs, ht⟩ <;> rw [hs, ht, standIn_id, hself]
  · rw [standIn_of_mem hnew (p.coherent.source_mem k hk),
      standIn_of_mem hnew (p.coherent.target_mem k hk)]
    exact .single ⟨k, hk, rfl, rfl⟩

/-! ### Insertion -/

/-- The plan with an element inserted: one more vertex and its edge to or from the anchor, and some
edges of the anchor taken over. -/
structure Inserted (p : Plan) (e : Element) (link : Link) (moved new : List Link) (q : Plan) :
    Prop where
  elements : q.network.elements.Perm (e :: p.network.elements)
  links : q.network.links.Perm (new ++ link :: p.network.links.filter (· ∉ moved))
  tags : q.network.tags = p.network.tags

theorem Placed.inserted {e : Element} {link : Link} {moved new : List Link}
    (h : p.Placed e link q) (h' : q.Rewired moved new r) (hlink : link ∉ moved) :
    p.Inserted e link moved new r where
  elements := h'.elements ▸ h.elements
  links := by
    have hq := h.links.filter (· ∉ moved)
    rw [List.filter_cons_of_pos (by simpa using hlink)] at hq
    exact h'.links.trans (hq.append_left new)
  tags := h'.tags.trans h.tags

/-- **A new element takes over the edges on one side of its anchor.** Which side an edge is on shows
in its ends, and the edge keeps the end that is not the anchor. -/
theorem exists_inserted {anchor : ElementId} {e : Element} (hanchor : anchor ∈ p.network.ids)
    (hnew : e.id ∉ p.network.ids) {s t : ElementId}
    (hends : (s = e.id ∧ t = anchor) ∨ (s = anchor ∧ t = e.id)) (edge : Edge)
    (side : Link → Bool) (place : Link → ElementId × ElementId)
    (hside : ∀ k l : Link, k.source = l.source → k.target = l.target → side k = side l)
    (hplace : ∀ l ∈ p.network.links.filter side,
      (l.source = anchor ∧ place l = (e.id, l.target)) ∨
        (l.target = anchor ∧ place l = (l.source, e.id))) :
    ∃ q i r z new, p.addNewVertex e = (.ok (), q) ∧ q.addEdge s t edge = (.ok i, r) ∧
      editAll (fun p l => p.moveEdge l (place l).1 (place l).2) r (p.network.links.filter side) =
        (.ok (), z) ∧
      p.Inserted e ⟨i, s, t, edge⟩ (p.network.links.filter side) new z ∧
      (new.map ends).Perm
        ((p.network.links.filter side).map fun l => ((place l).1, (place l).2, l.edge)) := by
  obtain ⟨q, i, r, hadd, hlink, hplaced⟩ := exists_placed hnew
    (hends.imp (And.imp_right fun h => h ▸ hanchor) (And.imp_left fun h => h ▸ hanchor)) edge
  have hmoved : ∀ l ∈ p.network.links.filter side, l ∈ p.network.links := fun l hl =>
    (List.mem_filter.mp hl).1
  -- the edges of the plan do not touch the new element, and those that are added do
  have hsource : ∀ l ∈ p.network.links, e.id ≠ l.source := fun l hl h =>
    hnew (h ▸ p.coherent.source_mem l hl)
  have htarget : ∀ l ∈ p.network.links, e.id ≠ l.target := fun l hl h =>
    hnew (h ▸ p.coherent.target_mem l hl)
  have hapart : ∀ l ∈ p.network.links, ¬ (s = l.source ∧ t = l.target) := by
    rintro l hl ⟨hs, ht⟩
    rcases hends with ⟨h, -⟩ | ⟨-, h⟩
    · exact hsource l hl (h.symm.trans hs)
    · exact htarget l hl (h.symm.trans ht)
  have hmovable : Movable p.network (standIn e anchor) place (p.network.links.filter side) r := by
    refine ⟨p.coherent.links_ascending.filter _, fun l hl => ?mem, fun l hl k hk hs ht => ?complete,
      hplaced.standIn hnew hanchor hends, fun l hl => ?placed, fun k hk l hl h => ?apart⟩
    case mem => exact hplaced.mem_links.mpr (.inr (hmoved l hl))
    case complete =>
      rcases hplaced.mem_links.mp hk with rfl | hkp
      · exact absurd ⟨hs, ht⟩ (hapart l (hmoved l hl))
      · exact List.mem_filter.mpr ⟨hkp, hside k l hs ht ▸ (List.mem_filter.mp hl).2⟩
    case placed =>
      have hs := p.coherent.source_mem l (hmoved l hl)
      have ht := p.coherent.target_mem l (hmoved l hl)
      have hwalk : TransGen p.network.Step l.source l.target :=
        .single ⟨l, hmoved l hl, rfl, rfl⟩
      rcases hplace l hl with ⟨h, hl'⟩ | ⟨h, hl'⟩ <;>
        rw [hl', hplaced.mem_ids, hplaced.mem_ids, standIn_id]
      · rw [standIn_of_mem hnew ht, ← h]
        exact ⟨.inl rfl, .inr ht, hwalk⟩
      · rw [standIn_of_mem hnew hs, ← h]
        exact ⟨.inr hs, .inl rfl, hwalk⟩
    case apart =>
      rcases hplace k hk with ⟨-, hk'⟩ | ⟨-, hk'⟩ <;> rw [hk', Prod.mk.injEq] at h
      · exact hsource l (hmoved l hl) h.1
      · exact htarget l (hmoved l hl) h.2
  obtain ⟨z, new, hrun, hz, hnewEnds⟩ := editAll_moveEdge p.acyclic hmovable
  exact ⟨q, i, r, z, new, hadd, hlink, hrun,
    hplaced.inserted hz fun h => hapart _ (hmoved _ h) ⟨rfl, rfl⟩, hnewEnds⟩

/-- **A new element is inserted after every vertex**: the outgoing edges of the vertex become the
element's, and all else stays. -/
theorem exists_insertAfter {anchor : ElementId} {a e : Element}
    (ha : p.network.element? anchor = some a) (hnew : e.id ∉ p.network.ids) :
    ∃ z i new, p.insertAfter anchor e = (.ok (), z) ∧
      p.Inserted e ⟨i, anchor, e.id, .named a.name⟩ (p.network.outgoing anchor) new z ∧
      (new.map ends).Perm
        ((p.network.outgoing anchor).map fun l => (e.id, l.target, l.edge)) := by
  obtain ⟨q, i, r, z, new, hadd, hlink, hrun, hinserted, hnewEnds⟩ := exists_inserted
    (Network.mem_ids_of_element? ha) hnew (.inr ⟨rfl, rfl⟩) (.named a.name)
    (fun l => l.source = anchor) (fun l => (e.id, l.target))
    (fun k l hs _ => by rw [hs])
    (fun l hl => .inl ⟨of_decide_eq_true (List.mem_filter.mp hl).2, rfl⟩)
  refine ⟨z, i, new, ?_, hinserted, hnewEnds⟩
  unfold insertAfter
  simp only [ha, hadd, hlink, Edit.andThen]
  exact hrun

/-- **A new element is inserted before every vertex**: the incoming edges of the vertex become the
element's, and all else stays. -/
theorem exists_insertBefore {anchor : ElementId} {a e : Element}
    (ha : p.network.element? anchor = some a) (hnew : e.id ∉ p.network.ids) :
    ∃ z i new, p.insertBefore anchor e = (.ok (), z) ∧
      p.Inserted e ⟨i, e.id, anchor, .named a.name⟩ (p.network.incoming anchor) new z ∧
      (new.map ends).Perm
        ((p.network.incoming anchor).map fun l => (l.source, e.id, l.edge)) := by
  obtain ⟨q, i, r, z, new, hadd, hlink, hrun, hinserted, hnewEnds⟩ := exists_inserted
    (Network.mem_ids_of_element? ha) hnew (.inl ⟨rfl, rfl⟩) (.named a.name)
    (fun l => l.target = anchor) (fun l => (l.source, e.id))
    (fun k l _ ht => by rw [ht])
    (fun l hl => .inr ⟨of_decide_eq_true (List.mem_filter.mp hl).2, rfl⟩)
  refine ⟨z, i, new, ?_, hinserted, hnewEnds⟩
  unfold insertBefore
  simp only [ha, hadd, hlink, Edit.andThen]
  exact hrun

end Dataflow.Plan
