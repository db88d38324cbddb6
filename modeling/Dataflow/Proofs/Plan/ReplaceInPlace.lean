import Dataflow.Proofs.Plan.InsertEdges
import Dataflow.Proofs.Plan.Replace

/-!
# Replacement by an element of the same id

A replacement moves the edges of an element and then removes it. An element put in its own place has
its edges moved to where they are, and is removed with them.

* **`Plan.redirectAll_self`**: edges redirected to where they are lead there again.
* **`Plan.network_replace_self`**: a replacement of the same id removes the element.
* **`Plan.replace_keeps_iff`**: a replacement that succeeds keeps the replacement and the edges to
  third vertices if its id is not that of the old element, and only then.
-/

namespace Dataflow.Plan

variable {p q : Plan} {old : ElementId} {e : Element}

/-! ### Edges redirected to where they are -/

/-- An edge that was added is none of those that stay. -/
theorem Rewired.ne_of_mem {moved new : List Link} (h : p.Rewired moved new q) {k l : Link}
    (hk : k ∈ new) (hl : l ∈ p.network.links) (hstays : l ∉ moved) : k ≠ l := by
  have hnodup := q.coherent.links_nodup
  rw [h.links.nodup_iff, List.nodup_append] at hnodup
  exact hnodup.2.2 k hk l (List.mem_filter.mpr ⟨hl, decide_eq_true hstays⟩)

/-- **Edges redirected to where they are lead there again**, under other numbers. None of them is
refused, as the plan has no cycles. -/
theorem redirectAll_self (old : ElementId) {ls : List Link} (hnodup : ls.Nodup)
    (hls : ∀ l ∈ ls, l ∈ p.network.links) :
    ∃ q ks, redirectAll p old old ls = (.ok (), q) ∧ p.Rewired ls ks q ∧
      (ks.map ends).Perm (ls.map ends) := by
  induction ls generalizing p with
  | nil => exact ⟨p, [], rfl, .refl p, .refl _⟩
  | cons l ls ih =>
    obtain ⟨hl, hls⟩ := List.forall_mem_cons.mp hls
    obtain ⟨hnew, hnodup⟩ := List.nodup_cons.mp hnodup
    have hloop := p.acyclic.source_ne_target hl
    rcases redirectEdge_cases hl (p.coherent.source_mem l hl) (p.coherent.target_mem l hl) with
      ⟨q, ks, hedge, hq, hends⟩ | ⟨-, hback, -⟩
    · rw [if_neg hloop] at hends
      have hother : ∀ {k}, k ∈ ls → k ∉ [l] := fun hk hkl =>
        hnew (List.mem_singleton.mp hkl ▸ hk)
      obtain ⟨r, ks', hrest, hr, hends'⟩ :=
        ih hnodup fun k hk => hq.mem_links.mpr (.inr ⟨hls k hk, hother hk⟩)
      refine ⟨r, ks' ++ ks, ?_, hq.trans hr fun k hk hkl => ?_, ?_⟩
      · rw [redirectAll_cons, placeOf_self, placeOf_self, hedge]
        exact hrest
      · exact hq.ne_of_mem hk (hls k hkl) (hother hkl) rfl
      · rw [List.map_append, hends]
        exact List.perm_append_comm.trans (hends'.cons _)
    · exact absurd (hback.tail ⟨l, hl, rfl, rfl⟩) (p.acyclic l.target)

/-- **A replacement of the same id removes the element**, as if nothing took its place. -/
theorem network_replace_self (hold : old ∈ p.network.ids) (he : e.id = old) :
    (p.replace old e).1 = .ok () ∧
      (p.replace old e).2.network = (p.removeVertex old).2.network := by
  have hsame : (p.addVertex e).2 = p := by
    unfold addVertex
    rw [dif_pos (he ▸ hold)]
  obtain ⟨q, ks, hrun, hq, hends⟩ :=
    redirectAll_self old (p.nodup_touching old) fun l hl => (mem_touching.mp hl).1
  rw [p.replace_eq hold, he, hsame, hrun]
  refine ⟨rfl, ?_⟩
  -- the edges that were added are the element's own, and go with it
  have hnone : (ks.filter fun k => !k.touches old) = [] := by
    refine List.filter_eq_nil_iff.mpr fun k hk => ?_
    obtain ⟨l, hl, hkl⟩ := List.mem_map.mp (hends.mem_iff.mp (List.mem_map_of_mem hk))
    have htouches : k.touches old = l.touches old := by
      have hsource : l.source = k.source := congrArg (·.1) hkl
      have htarget : l.target = k.target := congrArg (·.2.1) hkl
      rw [Link.touches, Link.touches, hsource, htarget]
    rw [htouches, (mem_touching.mp hl).2]
    exact Bool.false_ne_true
  have hlinks := hq.filter_not_touches fun l hl => mem_touching.trans (and_iff_right hl)
  rw [hnone, List.nil_append] at hlinks
  show (q.removeVertex old).2.network = _
  rw [network_removeVertex (hq.ids ▸ hold), network_removeVertex hold, hq.elements,
    Link.eq_of_perm hlinks (q.coherent.links_ascending.filter _)
      (p.coherent.links_ascending.filter _)]
  exact congrArg (Network.mk _ _) (congrArg (Option.map _) hq.tags)

/-! ### What is kept -/

/-- The replacement is a vertex, and the edges between the old element and third vertices lead between
the replacement and those, with their direction and what they carry. -/
structure Keeps (p : Plan) (old : ElementId) (e : Element) (q : Plan) : Prop where
  mem : e.id ∈ q.network.ids
  edges : ((p.network.links.filter fun l =>
      (l.source = old && l.target ≠ e.id) || (l.target = old && l.source ≠ e.id)).map
    (relocate old e.id)).Subperm (q.network.links.map ends)

theorem Replaced.mem (h : p.Replaced old e q) (hne : e.id ≠ old) : e.id ∈ q.network.ids := by
  by_cases hmem : e.id ∈ p.network.ids
  · rw [Network.mem_ids_of_filter (· ≠ old) (h.kept hmem)]
    exact ⟨hmem, decide_eq_true hne⟩
  · exact Network.mem_ids.mpr ⟨e, (h.added hmem).mem_iff.mpr List.mem_cons_self, rfl⟩

theorem Replaced.keeps (h : p.Replaced old e q) (hne : e.id ≠ old) : p.Keeps old e q := by
  refine ⟨h.mem hne, ?_⟩
  obtain ⟨new, hlinks, hends⟩ := h.links
  have hapart : ∀ l ∈ p.network.links,
      ((l.source = old && l.target ≠ e.id) || (l.target = old && l.source ≠ e.id) : Bool) =
        (l.touches old && !l.touches e.id) := by
    intro l _
    by_cases hs : l.source = old <;> by_cases ht : l.target = old <;>
      simp [Link.touches, hs, ht, hne.symm]
  rw [List.filter_congr hapart]
  have hnew : (new.map ends).Subperm (q.network.links.map ends) :=
    ((List.sublist_append_left new _).map ends).subperm.trans (hlinks.map ends).symm.subperm
  exact hends.symm.subperm.trans hnew

/-- A replacement by an element of another id that succeeds leaves it in the place of the old one. -/
theorem replaced_of_ok (hok : (p.replace old e).1 = .ok ()) (hold : old ∈ p.network.ids)
    (hne : e.id ≠ old) : p.Replaced old e (p.replace old e).2 := by
  have hhosts := p.hosts_addVertex e
  rw [p.replace_eq hold] at hok ⊢
  rcases redirectAll_cases hne hhosts.redirectable with ⟨r, hrun, hr⟩ | ⟨-, s, t, r, hrun⟩ <;>
    rw [hrun] at hok ⊢
  · exact hr.replaced hold hne hhosts
  · cases hok

/-- **A replacement that succeeds keeps the replacement and the edges to third vertices exactly if
its id is not that of the old element.** -/
theorem replace_keeps_iff (p : Plan) (old : ElementId) (e : Element)
    (hok : (p.replace old e).1 = .ok ()) : p.Keeps old e (p.replace old e).2 ↔ e.id ≠ old := by
  have hold : old ∈ p.network.ids := by
    by_contra hold
    unfold replace at hok
    rw [if_neg (mt Network.contains_iff.mp hold)] at hok
    cases hok
  constructor
  · rintro hkeeps rfl
    have hmem := hkeeps.mem
    rw [(network_replace_self hold rfl).2, mem_ids_removeVertex hold] at hmem
    exact hmem.2 rfl
  · exact fun hne => (replaced_of_ok hok hold hne).keeps hne

/-- A step of the diamond is replaced by where its way ends. -/
theorem replace_keeps_iff_diamond :
    diamond.Keeps ⟨3⟩ (.transform ⟨⟨5⟩, ""⟩) (diamond.replace ⟨3⟩ (.transform ⟨⟨5⟩, ""⟩)).2 :=
  (diamond.replace_keeps_iff ⟨3⟩ (.transform ⟨⟨5⟩, ""⟩) (by decide +kernel)).mpr (by decide)

example : (diamond.replace ⟨3⟩ (.transform ⟨⟨6⟩, ""⟩)).2.network.successors ⟨2⟩ = [⟨6⟩, ⟨4⟩] := by
  decide +kernel

/-- **A step that is replaced by a new value of itself is lost**, with the edges that led through
it, and no failure is reported. -/
theorem diamond_loses_what_replaces_itself :
    (diamond.replace ⟨3⟩ (.transform ⟨⟨3⟩, "new"⟩)).1 = .ok () ∧
      (diamond.replace ⟨3⟩ (.transform ⟨⟨3⟩, "new"⟩)).2.network.ids = [⟨2⟩, ⟨4⟩, ⟨5⟩] ∧
      ¬ diamond.Keeps ⟨3⟩ (.transform ⟨⟨3⟩, "new"⟩)
        (diamond.replace ⟨3⟩ (.transform ⟨⟨3⟩, "new"⟩)).2 := by
  have hids : (diamond.replace ⟨3⟩ (.transform ⟨⟨3⟩, "new"⟩)).2.network.ids = [⟨2⟩, ⟨4⟩, ⟨5⟩] := by
    decide +kernel
  refine ⟨by decide +kernel, hids, fun hkeeps => ?_⟩
  have hmem := hkeeps.mem
  rw [hids] at hmem
  exact absurd hmem (by decide)

end Dataflow.Plan
