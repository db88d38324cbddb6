import Dataflow.Plan.Replace
import Dataflow.Proofs.Network.Merge
import Dataflow.Proofs.Plan.ContractEdges
import Dataflow.Proofs.Plan.Insert

/-!
# What replacement does to a plan

The edges of the old element are moved one by one, each checked for a cycle against a plan where
some of them have moved and some have not. Whichever have, a step of that plan is one of the plan
before with the two elements in one place. So a move is refused only if the two in one place are on
a cycle; and if they are, the last plan, which has no cycles, cannot come about.

* **`Plan.redirectEdge_cases`, `Plan.redirectAll_cases`**: one edge, and any number of them, go to
  their new places or are refused for a cycle of places.
* **`Plan.Redirected.follows`, `Plan.Redirected.not_longWay`**: where all edges have moved, walks go
  from place to place; so none led from one of the two elements to the other by way of a third.
* **`Plan.replace_exact`**: when a replacement succeeds, and what it leaves.
-/

namespace Dataflow.Plan

open Relation

variable {p q r : Plan} {old new : ElementId}

/-! ### One edge -/

/-- **An edge goes to a new place**, where it is dropped if its ends are one there; or it is refused
as it closes a cycle. -/
theorem redirectEdge_cases {l : Link} (hl : l ∈ p.network.links) {s t : ElementId}
    (hs : s ∈ p.network.ids) (ht : t ∈ p.network.ids) :
    (∃ q ks, p.redirectEdge l s t = (.ok (), q) ∧ p.Rewired [l] ks q ∧
      ks.map ends = if s = t then [] else [(s, t, l.edge)]) ∨
    (s ≠ t ∧ TransGen p.network.Step t s ∧
      ∃ q, p.redirectEdge l s t = (.error (.closesCycle s t), q)) := by
  have hremove : p.removeEdge l.id = (some l.edge, p.eraseEdge l.id) := by
    unfold removeEdge
    rw [p.coherent.link?_eq hl]
    rfl
  unfold redirectEdge
  simp only [hremove]
  by_cases hst : s = t
  · refine .inl ⟨_, [], if_pos hst, Grows.rewired hl (.refl _), ?_⟩
    rw [if_pos hst]
    rfl
  · simp only [if_neg hst]
    have hids := p.ids_eraseEdge l.id
    by_cases hback : TransGen (p.eraseEdge l.id).network.Step t s
    · refine .inr ⟨hst, transGen_of_eraseEdge hback, p.eraseEdge l.id, ?_⟩
      rw [addEdge_of_closes (hids ▸ hs) (hids ▸ ht) (.inr hback)]
      rfl
    · obtain ⟨i, q, hadd, hgrows⟩ :=
        exists_addEdge (e := l.edge) (hids ▸ hs) (hids ▸ ht) hst hback
      refine .inl ⟨q, [⟨i, s, t, l.edge⟩], ?_, hgrows.rewired hl, rfl⟩
      rw [hadd]
      rfl

/-! ### A run of redirections -/

/-- Where an edge goes when one vertex takes the place of another, and what it carries. -/
def relocate (old new : ElementId) (l : Link) : ElementId × ElementId × Edge :=
  (placeOf old new l.source, placeOf old new l.target, l.edge)

/-- Redirects edges, the one element's place taken by the other. -/
def redirectAll (p : Plan) (old new : ElementId) (ls : List Link) : Edit Unit :=
  editAll (fun p l => p.redirectEdge l (placeOf old new l.source) (placeOf old new l.target)) p ls

theorem redirectAll_cons (p : Plan) (old new : ElementId) (l : Link) (ls : List Link) :
    redirectAll p old new (l :: ls) = Edit.andThen
      (p.redirectEdge l (placeOf old new l.source) (placeOf old new l.target))
      fun _ q => redirectAll q old new ls :=
  rfl

/-- The edges at their new places; those between the two elements have none. -/
def relocated (old new : ElementId) (ls : List Link) : List (ElementId × ElementId × Edge) :=
  (ls.filter fun l => placeOf old new l.source ≠ placeOf old new l.target).map (relocate old new)

theorem relocated_cons (old new : ElementId) (l : Link) (ls : List Link) :
    relocated old new (l :: ls) =
      (if placeOf old new l.source = placeOf old new l.target then []
        else [relocate old new l]) ++ relocated old new ls := by
  unfold relocated
  by_cases hloop : placeOf old new l.source = placeOf old new l.target <;> simp [hloop]

/-- Edges that can be redirected, in a plan whose steps are those of a network with the two elements
in one place. -/
structure Redirectable (n : Network) (old new : ElementId) (ls : List Link) (p : Plan) :
    Prop where
  nodup : ls.Nodup
  mem : ∀ l ∈ ls, l ∈ p.network.links
  origin : ∀ l ∈ ls, l ∈ n.links
  touches : ∀ l ∈ ls, l.touches old
  new_mem : new ∈ p.network.ids
  follows : ∀ k ∈ p.network.links,
    ReflTransGen (n.MergedStep old new) (placeOf old new k.source) (placeOf old new k.target)

theorem placeOf_mem (hnew : new ∈ p.network.ids) {v : ElementId} (hv : v ∈ p.network.ids) :
    placeOf old new v ∈ p.network.ids := by
  unfold placeOf
  split
  · exact hnew
  · exact hv

/-- No edge of the old element is at a new place. -/
theorem not_touches_of_placeOf (hne : new ≠ old) {k l : Link}
    (hs : k.source = placeOf old new l.source) (ht : k.target = placeOf old new l.target) :
    k.touches old = false := by
  simp [Link.touches, hs, ht, placeOf_ne_old hne]

namespace Redirectable

variable {n : Network} {l : Link} {ls : List Link}

/-- An edge at its new place is a step from place to place. -/
theorem mergedStep (h : Redirectable n old new (l :: ls) p)
    (hl : placeOf old new l.source ≠ placeOf old new l.target) :
    n.MergedStep old new (placeOf old new l.source) (placeOf old new l.target) :=
  ⟨hl, l.source, l.target, ⟨l, h.origin l List.mem_cons_self, rfl, rfl⟩, rfl, rfl⟩

/-- **If an edge is refused, the places are on a cycle.** -/
theorem exists_cycle (hne : new ≠ old) (h : Redirectable n old new (l :: ls) p)
    (hl : placeOf old new l.source ≠ placeOf old new l.target)
    (hback : TransGen p.network.Step (placeOf old new l.target) (placeOf old new l.source)) :
    ∃ v, TransGen (n.MergedStep old new) v v := by
  have hreturn : ReflTransGen (n.MergedStep old new) (placeOf old new (placeOf old new l.target))
      (placeOf old new (placeOf old new l.source)) := by
    refine hback.to_reflTransGen.lift' (placeOf old new) ?_
    rintro _ _ ⟨k, hk, rfl, rfl⟩
    exact h.follows k hk
  rw [placeOf_of_ne (placeOf_ne_old hne), placeOf_of_ne (placeOf_ne_old hne)] at hreturn
  exact ⟨_, (TransGen.single (h.mergedStep hl)).trans_left hreturn⟩

/-- **One redirection leaves the other edges redirectable.** -/
theorem next (hne : new ≠ old) (h : Redirectable n old new (l :: ls) p) {ks : List Link}
    (hq : p.Rewired [l] ks q)
    (hks : ∀ k ∈ ks, k.source = placeOf old new l.source ∧ k.target = placeOf old new l.target) :
    Redirectable n old new ls q := by
  obtain ⟨hl, hnodup⟩ := List.nodup_cons.mp h.nodup
  have hmem : ∀ {k}, k ∈ ls → k ∈ l :: ls := List.mem_cons_of_mem l
  refine ⟨hnodup, fun k hk => ?mem, fun k hk => h.origin k (hmem hk),
    fun k hk => h.touches k (hmem hk), hq.ids ▸ h.new_mem, fun k hk => ?follows⟩
  case mem =>
    refine hq.mem_links.mpr (.inr ⟨h.mem k (hmem hk), ?_⟩)
    rw [List.mem_singleton]
    rintro rfl
    exact hl hk
  case follows =>
    rcases hq.mem_links.mp hk with hk | ⟨hk, -⟩
    · obtain ⟨hs, ht⟩ := hks k hk
      rw [hs, ht, placeOf_of_ne (placeOf_ne_old hne), placeOf_of_ne (placeOf_ne_old hne)]
      by_cases hloop : placeOf old new l.source = placeOf old new l.target
      · rw [hloop]
      · exact .single (h.mergedStep hloop)
    · exact h.follows k hk

end Redirectable

/-- The plan with edges of one element redirected to another. -/
def Redirected (p : Plan) (old new : ElementId) (ls : List Link) (q : Plan) : Prop :=
  ∃ ks, p.Rewired ls ks q ∧ (ks.map ends).Perm (relocated old new ls)

/-- **Edges all go to their new places, or one is refused** as it closes a cycle; then the two
elements in one place are on a cycle. -/
theorem redirectAll_cases {n : Network} (hne : new ≠ old) {ls : List Link}
    (h : Redirectable n old new ls p) :
    (∃ q, redirectAll p old new ls = (.ok (), q) ∧ p.Redirected old new ls q) ∨
    ((∃ v, TransGen (n.MergedStep old new) v v) ∧
      ∃ s t q, redirectAll p old new ls = (.error (.closesCycle s t), q)) := by
  induction ls generalizing p with
  | nil => exact .inl ⟨p, rfl, [], .refl p, .refl _⟩
  | cons l ls ih =>
    have hl := h.mem l List.mem_cons_self
    rcases redirectEdge_cases hl (placeOf_mem h.new_mem (p.coherent.source_mem l hl))
      (placeOf_mem h.new_mem (p.coherent.target_mem l hl)) with
      ⟨q, ks, hedge, hq, hends⟩ | ⟨hloop, hback, q, hedge⟩
    · rw [redirectAll_cons, hedge]
      have hks : ∀ k ∈ ks, ends k = relocate old new l := by
        intro k hk
        have hk := List.mem_map_of_mem (f := ends) hk
        rw [hends] at hk
        split at hk
        · exact absurd hk List.not_mem_nil
        · exact List.mem_singleton.mp hk
      have hplaces : ∀ k ∈ ks, k.source = placeOf old new l.source ∧
          k.target = placeOf old new l.target := fun k hk =>
        ⟨congrArg (·.1) (hks k hk), congrArg (·.2.1) (hks k hk)⟩
      rcases ih (h.next hne hq hplaces) with ⟨r, hrest, ks', hr, hends'⟩ | hfails
      · refine .inl ⟨r, hrest, ks' ++ ks, hq.trans hr fun k hk hkl => ?_, ?_⟩
        · have htouches := h.touches k (List.mem_cons_of_mem l hkl)
          rw [not_touches_of_placeOf hne (hplaces k hk).1 (hplaces k hk).2] at htouches
          exact Bool.false_ne_true htouches
        · rw [List.map_append, hends, relocated_cons]
          exact List.perm_append_comm.trans (hends'.append_left _)
      · exact .inr hfails
    · exact .inr ⟨h.exists_cycle hne hloop hback, _, _, q, by rw [redirectAll_cons, hedge]; rfl⟩

/-- Once all edges of the old element have moved, what led from one vertex to another leads from its
place to the other's, or they are in one place. -/
theorem Redirected.follows {ls : List Link} (h : p.Redirected old new ls q)
    (hls : ∀ l ∈ p.network.links, l.touches old → l ∈ ls) {a b : ElementId}
    (hab : TransGen p.network.Step a b) :
    ReflTransGen q.network.Step (placeOf old new a) (placeOf old new b) := by
  obtain ⟨ks, hq, hends⟩ := h
  refine hab.to_reflTransGen.lift' (placeOf old new) ?_
  rintro _ _ ⟨l, hl, rfl, rfl⟩
  show ReflTransGen q.network.Step (placeOf old new l.source) (placeOf old new l.target)
  by_cases hmoved : l ∈ ls
  · by_cases hloop : placeOf old new l.source = placeOf old new l.target
    · rw [hloop]
    · have hplace : relocate old new l ∈ ks.map ends :=
        hends.mem_iff.mpr (List.mem_map_of_mem (List.mem_filter.mpr ⟨hmoved, decide_eq_true hloop⟩))
      obtain ⟨k, hk, hkl⟩ := List.mem_map.mp hplace
      exact .single ⟨k, hq.mem_links.mpr (.inl hk), congrArg (·.1) hkl, congrArg (·.2.1) hkl⟩
  · have hfree : ¬ l.touches old := mt (hls l hl) hmoved
    simp only [Link.touches, Bool.or_eq_true, decide_eq_true_eq, not_or] at hfree
    refine .single ⟨l, hq.mem_links.mpr (.inr ⟨hl, hmoved⟩), ?_, ?_⟩
    · exact (placeOf_of_ne hfree.1).symm
    · exact (placeOf_of_ne hfree.2).symm

/-- **Edges that have all moved are on no path from one of the two elements to the other** by way of
a third one: it would lead from the new one back to itself. -/
theorem Redirected.not_longWay (hne : new ≠ old) {ls : List Link} (h : p.Redirected old new ls q)
    (hls : ∀ l ∈ p.network.links, l.touches old → l ∈ ls) :
    ¬ (p.network.LongWay old new ∨ p.network.LongWay new old) := by
  -- a third vertex keeps its place, so the walks there and back are a cycle
  have hcycle : ∀ {a b w}, placeOf old new a = new → placeOf old new b = new → w ≠ old → w ≠ new →
      TransGen p.network.Step a w → TransGen p.network.Step w b → False := by
    intro a b w ha hb hold hnew haw hwb
    have hout := h.follows hls haw
    have hback := h.follows hls hwb
    rw [ha, placeOf_of_ne hold] at hout
    rw [hb, placeOf_of_ne hold] at hback
    have hout := (reflTransGen_iff_eq_or_transGen.mp hout).resolve_left hnew
    exact q.acyclic new (hout.trans_left hback)
  rw [Network.longWay_iff p.acyclic, Network.longWay_iff p.acyclic]
  rintro (⟨w, hout, hback⟩ | ⟨w, hout, hback⟩)
  · exact hcycle placeOf_old (placeOf_of_ne hne) (p.acyclic.ne_of_transGen hout).symm
      (p.acyclic.ne_of_transGen hback) hout hback
  · exact hcycle (placeOf_of_ne hne) placeOf_old (p.acyclic.ne_of_transGen hback)
      (p.acyclic.ne_of_transGen hout).symm hout hback

/-! ### The replacement -/

theorem editAll_append {α : Type} (step : Plan → α → Edit Unit) (p : Plan) (as bs : List α) :
    editAll step p (as ++ bs) =
      Edit.andThen (editAll step p as) fun _ q => editAll step q bs := by
  induction as generalizing p with
  | nil => rfl
  | cons a as ih =>
    simp only [List.cons_append, editAll]
    rcases step p a with ⟨_ | _, q⟩
    · rfl
    · exact ih q

theorem editAll_congr {α : Type} {step step' : Plan → α → Edit Unit} {as : List α}
    (h : ∀ a ∈ as, ∀ p, step p a = step' p a) (p : Plan) :
    editAll step p as = editAll step' p as := by
  induction as generalizing p with
  | nil => rfl
  | cons a as ih =>
    obtain ⟨ha, has⟩ := List.forall_mem_cons.mp h
    simp only [editAll, ha p, ih has]

/-- **A replacement is one run of redirections**, over the inbound edges and then the outbound
ones. -/
theorem replace_eq (p : Plan) {e : Element} (hold : old ∈ p.network.ids) : p.replace old e =
    Edit.andThen (redirectAll (p.addVertex e).2 old e.id
      (p.network.incoming old ++ p.network.outgoing old)) fun _ q =>
        (.ok (), (q.removeVertex old).2) := by
  have hin : ∀ l ∈ p.network.incoming old, ∀ q : Plan, q.redirectEdge l l.source e.id =
      q.redirectEdge l (placeOf old e.id l.source) (placeOf old e.id l.target) := by
    intro l hl q
    obtain ⟨hlp, rfl⟩ := Network.mem_incoming.mp hl
    rw [placeOf_old, placeOf_of_ne (p.acyclic.source_ne_target hlp)]
  have hout : ∀ l ∈ p.network.outgoing old, ∀ q : Plan, q.redirectEdge l e.id l.target =
      q.redirectEdge l (placeOf old e.id l.source) (placeOf old e.id l.target) := by
    intro l hl q
    obtain ⟨hlp, rfl⟩ := Network.mem_outgoing.mp hl
    rw [placeOf_old, placeOf_of_ne (p.acyclic.source_ne_target hlp).symm]
  unfold replace
  rw [if_pos (Network.contains_iff.mpr hold)]
  simp only [editAll_congr hin, editAll_congr hout]
  unfold redirectAll
  rw [editAll_append]
  rcases editAll _ _ (p.network.incoming old) with ⟨_ | _, q⟩ <;> rfl

theorem Hosts.longWay_iff {e : Element} (h : p.Hosts e q) {s t : ElementId} :
    q.network.LongWay s t ↔ p.network.LongWay s t := by
  have hstep : q.network.Step = p.network.Step := by
    unfold Network.Step
    rw [h.links]
  rw [Network.longWay_iff q.acyclic, Network.longWay_iff p.acyclic, hstep]

/-- The edges of an element can all be redirected to one that is a vertex. -/
theorem Hosts.redirectable {e : Element} (h : p.Hosts e q) :
    Redirectable p.network old e.id (p.network.incoming old ++ p.network.outgoing old) q := by
  refine ⟨p.nodup_touching old, fun l hl => h.links ▸ (mem_touching.mp hl).1,
    fun l hl => (mem_touching.mp hl).1, fun l hl => (mem_touching.mp hl).2,
    h.mem_ids.mpr (.inl rfl), fun k hk => ?_⟩
  by_cases hloop : placeOf old e.id k.source = placeOf old e.id k.target
  · rw [hloop]
  · exact .single ⟨hloop, k.source, k.target, ⟨k, h.links ▸ hk, rfl, rfl⟩, rfl, rfl⟩

/-- The edges of an element that have a new place are those not between it and the replacement. -/
theorem relocated_perm (p : Plan) (hne : new ≠ old) :
    (relocated old new (p.network.incoming old ++ p.network.outgoing old)).Perm
      ((p.network.links.filter fun l => l.touches old && !l.touches new).map
        (relocate old new)) := by
  have hperm := (p.touching_perm old).filter fun l =>
    decide (placeOf old new l.source ≠ placeOf old new l.target)
  have hbetween : (p.network.links.filter (·.touches old)).filter
        (fun l => placeOf old new l.source ≠ placeOf old new l.target) =
      p.network.links.filter fun l => l.touches old && !l.touches new := by
    rw [List.filter_filter]
    refine List.filter_congr fun l hl => ?_
    have hloop := p.acyclic.source_ne_target hl
    by_cases hs : l.source = old
    · have ht : l.target ≠ old := hs ▸ hloop.symm
      simp [Link.touches, hs, placeOf_old, placeOf_of_ne ht, hne.symm, eq_comm]
    · by_cases ht : l.target = old
      · simp [Link.touches, ht, placeOf_old, placeOf_of_ne hs, hne.symm]
      · simp [Link.touches, hs, ht]
  rw [hbetween] at hperm
  exact hperm.symm.map _

/-- The plan with one element in the place of another. -/
structure Replaced (p : Plan) (old : ElementId) (e : Element) (q : Plan) : Prop where
  /-- A replacement that is a vertex already stays as it is. -/
  kept : e.id ∈ p.network.ids → q.network.elements = p.network.elements.filter (·.id ≠ old)
  added : e.id ∉ p.network.ids →
    q.network.elements.Perm (e :: p.network.elements.filter (·.id ≠ old))
  /-- The edges of the old element have moved but for those between the two, and the rest stay. -/
  links : ∃ new, q.network.links.Perm (new ++ p.network.links.filter fun l => !l.touches old) ∧
    (new.map ends).Perm
      ((p.network.links.filter fun l => l.touches old && !l.touches e.id).map
        (relocate old e.id))
  tags : q.network.tags = p.network.tags.map (·.remove old)

/-- Where all edges of a vertex have moved, the edges of the others are those that were there and
those of the new ones that are none of its own. -/
theorem Rewired.filter_not_touches {v : ElementId} {ls ks : List Link} (h : p.Rewired ls ks q)
    (hls : ∀ l ∈ p.network.links, l ∈ ls ↔ l.touches v) :
    (q.network.links.filter fun l => !l.touches v).Perm
      ((ks.filter fun l => !l.touches v) ++ p.network.links.filter fun l => !l.touches v) := by
  have hrest : (p.network.links.filter (· ∉ ls)).filter (fun l => !l.touches v) =
      p.network.links.filter fun l => !l.touches v := by
    rw [List.filter_filter]
    refine List.filter_congr fun l hl => ?_
    simp only [hls l hl]
    cases l.touches v <;> rfl
  have hlinks := h.links.filter fun l => !l.touches v
  rwa [List.filter_append, hrest] at hlinks

theorem Redirected.replaced {e : Element} (hold : old ∈ p.network.ids) (hne : e.id ≠ old)
    (hq : p.Hosts e q)
    (hr : q.Redirected old e.id (p.network.incoming old ++ p.network.outgoing old) r) :
    p.Replaced old e (r.removeVertex old).2 := by
  obtain ⟨ks, hr, hends⟩ := hr
  have hgone := network_removeVertex (hr.ids ▸ hq.mem_ids.mpr (.inr hold))
  refine ⟨fun hmem => ?kept, fun hnew => ?added, ⟨ks, ?links, hends.trans (p.relocated_perm hne)⟩,
    ?tags⟩
  case kept => rw [hgone, hr.elements, hq.kept hmem]
  case added =>
    have hfilter := (hq.added hnew).filter (·.id ≠ old)
    rw [List.filter_cons_of_pos (by simpa using hne)] at hfilter
    rw [hgone, hr.elements]
    exact hfilter
  case links =>
    have hkeep : ks.filter (fun l => !l.touches old) = ks := by
      refine List.filter_eq_self.mpr fun k hk => ?_
      obtain ⟨l, -, hl⟩ := List.mem_map.mp (hends.mem_iff.mp (List.mem_map_of_mem hk))
      rw [not_touches_of_placeOf hne (congrArg (·.1) hl).symm (congrArg (·.2.1) hl).symm]
      rfl
    have hlinks := hr.filter_not_touches fun l hl =>
      mem_touching.trans (and_iff_right (hq.links ▸ hl))
    rw [hkeep, hq.links] at hlinks
    rw [hgone]
    exact hlinks
  case tags =>
    rw [hgone, ← hq.tags, ← hr.tags]
    rfl

/-- **When a replacement succeeds, and what it leaves.** It succeeds if the replacement is no vertex
yet, or no path of at least two edges leads from one of the two elements to the other; else it is
refused for a cycle. -/
theorem replace_exact (p : Plan) (old : ElementId) (e : Element) (hold : old ∈ p.network.ids)
    (hne : e.id ≠ old) :
    ((p.replace old e).1 = .ok () ↔ e.id ∉ p.network.ids ∨
      ¬ (p.network.LongWay old e.id ∨ p.network.LongWay e.id old)) ∧
    ((p.replace old e).1 ≠ .ok () → ∃ s t, (p.replace old e).1 = .error (.closesCycle s t)) ∧
    ((p.replace old e).1 = .ok () → p.Replaced old e (p.replace old e).2) := by
  have hq := p.hosts_addVertex e
  rw [p.replace_eq hold]
  rcases redirectAll_cases hne hq.redirectable with ⟨r, hrun, hr⟩ | ⟨⟨v, hcycle⟩, s, t, r, hrun⟩ <;>
    rw [hrun]
  · have hway : ¬ (p.network.LongWay old e.id ∨ p.network.LongWay e.id old) := by
      rw [← hq.longWay_iff, ← hq.longWay_iff]
      refine hr.not_longWay hne fun l hl htouches => ?_
      exact (p.touching_perm old).mem_iff.mp (List.mem_filter.mpr ⟨hq.links ▸ hl, htouches⟩)
    exact ⟨iff_of_true rfl (.inr hway), fun hfail => absurd rfl hfail,
      fun _ => hr.replaced hold hne hq⟩
  · have hway : p.network.LongWay old e.id ∨ p.network.LongWay e.id old := by
      by_contra hway
      exact p.acyclic.not_transGen_mergedStep hway v hcycle
    have hmem : e.id ∈ p.network.ids := by
      rcases hway with ⟨ls, hpath, -⟩ | ⟨ls, hpath, -⟩
      · exact (hpath.ends p.coherent).2.2
      · exact (hpath.ends p.coherent).2.1
    refine ⟨iff_of_false nofun ?_, fun _ => ⟨s, t, rfl⟩, nofun⟩
    rintro (hnew | hfree)
    · exact hnew hmem
    · exact hfree hway

/-- Where two ways meet takes the place of a step on one of them, but not of where they begin. -/
theorem replace_exact_diamond :
    diamond.Replaced ⟨3⟩ (.transform ⟨⟨5⟩, ""⟩)
        (diamond.replace ⟨3⟩ (.transform ⟨⟨5⟩, ""⟩)).2 ∧
      ∃ s t, (diamond.replace ⟨2⟩ (.transform ⟨⟨5⟩, ""⟩)).1 = .error (.closesCycle s t) := by
  have hway : diamond.network.LongWay ⟨2⟩ ⟨5⟩ :=
    ⟨[⟨0, ⟨2⟩, ⟨3⟩, .named ""⟩, ⟨1, ⟨3⟩, ⟨5⟩, .named ""⟩], by decide +kernel, by decide⟩
  have hmem : (⟨5⟩ : ElementId) ∈ diamond.network.ids := by decide +kernel
  constructor
  · obtain ⟨-, -, hreplaced⟩ := diamond.replace_exact ⟨3⟩ (.transform ⟨⟨5⟩, ""⟩) (by decide +kernel)
      (by decide)
    exact hreplaced (by decide +kernel)
  · obtain ⟨hiff, hfails, -⟩ := diamond.replace_exact ⟨2⟩ (.transform ⟨⟨5⟩, ""⟩) (by decide +kernel)
      (by decide)
    refine hfails fun hok => ?_
    rcases hiff.mp hok with hnew | hfree
    · exact hnew hmem
    · exact hfree (.inl hway)

end Dataflow.Plan
