import Dataflow.Proofs.Network.Reach
import Dataflow.Proofs.Path.Exact

/-!
# Two vertices as one

A vertex takes the place of another, and the edges of both are its own. An edge between the two is
none then. A cycle comes about exactly if some path leads from one of the two to the other by way of
a third vertex: what is passed in between is then before and after the one vertex that they are.

* **`Network.longWay_iff`**: the paths of at least two edges, in terms of walks.
* **`Network.Acyclic.not_transGen_mergedStep`**: without such a path between the two, there is no
  cycle.
-/

namespace Dataflow

open Relation

/-- Where a vertex stands when `new` is in the place of `old`. -/
def placeOf (old new v : ElementId) : ElementId := if v = old then new else v

section PlaceOf

variable {old new v : ElementId}

theorem placeOf_old : placeOf old new old = new := if_pos rfl

theorem placeOf_of_ne (h : v ≠ old) : placeOf old new v = v := if_neg h

theorem placeOf_self (old v : ElementId) : placeOf old old v = v := by
  by_cases h : v = old
  · rw [h, placeOf_old]
  · exact placeOf_of_ne h

theorem placeOf_eq_new (h : placeOf old new v = new) : v = old ∨ v = new := by
  by_cases hv : v = old
  · exact .inl hv
  · rw [placeOf_of_ne hv] at h
    exact .inr h

/-- Who stands elsewhere stands in a place of its own. -/
theorem eq_of_placeOf {u : ElementId} (h : placeOf old new v = u) (hu : u ≠ new) : v = u := by
  by_cases hv : v = old
  · rw [hv, placeOf_old] at h
    exact absurd h.symm hu
  · rw [placeOf_of_ne hv] at h
    exact h

/-- Nothing stands in the place that was given up. -/
theorem placeOf_ne_old (hne : new ≠ old) : placeOf old new v ≠ old := by
  by_cases hv : v = old
  · rw [hv, placeOf_old]
    exact hne
  · rw [placeOf_of_ne hv]
    exact hv

end PlaceOf

namespace Network

variable {n : Network} {old new u v s t : ElementId}

/-- A path of at least two edges leads from one vertex to the other. -/
def LongWay (n : Network) (s t : ElementId) : Prop := ∃ ls, n.IsPath s t ls ∧ 2 ≤ ls.length

theorem Follows.transGen {ls : List Link} (h : n.Follows s ls t) (hne : ls ≠ []) :
    TransGen n.Step s t :=
  h.leads.transGen (by simpa using hne)

/-- **The paths of at least two edges are the walks by way of a third vertex**, without cycles. -/
theorem longWay_iff (ha : n.Acyclic) :
    n.LongWay s t ↔ ∃ w, TransGen n.Step s w ∧ TransGen n.Step w t := by
  constructor
  · rintro ⟨ls, hpath, hlen⟩
    match ls, hpath.follows, hlen with
    | k :: l :: ls, hfollows, _ =>
      obtain ⟨⟨hk, rfl⟩, hrest⟩ := follows_cons_iff.mp hfollows
      exact ⟨k.target, .single ⟨k, hk, rfl, rfl⟩, hrest.transGen (List.cons_ne_nil _ _)⟩
  · rintro ⟨w, hs, ht⟩
    obtain ⟨xs, hxs, hsx⟩ := exists_leads_of_transGen hs
    obtain ⟨ys, hys, hyt⟩ := exists_leads_of_transGen ht
    have hlead := hsx.append hyt
    obtain ⟨ls, hls, hmoves⟩ := exists_follows_of_leads hlead
    have hlen : ls.length = xs.length + ys.length := by
      rw [← List.length_append, ← hmoves, List.length_map]
    have hx := List.length_pos_iff.mpr hxs
    have hy := List.length_pos_iff.mpr hys
    have hnodup := ha.nodup_of_leads hlead
    rw [← hmoves, targets_moveAlong] at hnodup
    exact ⟨ls, ⟨List.ne_nil_of_length_pos (by omega), hls, hnodup⟩, by omega⟩

/-! ### Steps with one vertex in the place of another -/

/-- Some edge leads from one place to another. -/
def MergedStep (n : Network) (old new u v : ElementId) : Prop :=
  u ≠ v ∧ ∃ a b, n.Step a b ∧ placeOf old new a = u ∧ placeOf old new b = v

/-- A walk from the shared place to another one is one from either of the two vertices. -/
theorem exists_transGen_of_merged (h : TransGen (n.MergedStep old new) new v) (hv : v ≠ new) :
    ∃ a, (a = old ∨ a = new) ∧ TransGen n.Step a v := by
  induction h with
  | single h =>
    obtain ⟨-, a, b, hab, ha, hb⟩ := h
    obtain rfl := eq_of_placeOf hb hv
    exact ⟨a, placeOf_eq_new ha, .single hab⟩
  | @tail u v _ h ih =>
    obtain ⟨-, a, b, hab, ha, hb⟩ := h
    obtain rfl := eq_of_placeOf hb hv
    by_cases hu : u = new
    · exact ⟨a, placeOf_eq_new (ha.trans hu), .single hab⟩
    · obtain rfl := eq_of_placeOf ha hu
      obtain ⟨c, hc, hca⟩ := ih hu
      exact ⟨c, hc, hca.tail hab⟩

/-- A walk from place to place passes the shared one, or it is a walk of the network. -/
theorem transGen_or_passes_of_merged (h : TransGen (n.MergedStep old new) u v) :
    TransGen n.Step u v ∨
      (ReflTransGen (n.MergedStep old new) u new ∧ ReflTransGen (n.MergedStep old new) new v) := by
  have hstep : ∀ {u v}, n.MergedStep old new u v → u ≠ new → v ≠ new → n.Step u v := by
    rintro u v ⟨-, a, b, hab, ha, hb⟩ hu hv
    obtain rfl := eq_of_placeOf ha hu
    obtain rfl := eq_of_placeOf hb hv
    exact hab
  induction h with
  | @single v h =>
    by_cases hu : u = new
    · subst hu
      exact .inr ⟨.refl, .single h⟩
    · by_cases hv : v = new
      · subst hv
        exact .inr ⟨.single h, .refl⟩
      · exact .inl (.single (hstep h hu hv))
  | @tail w v hw h ih =>
    rcases ih with ih | ⟨hin, hout⟩
    · by_cases hwn : w = new
      · subst hwn
        exact .inr ⟨hw.to_reflTransGen, .single h⟩
      · by_cases hv : v = new
        · subst hv
          exact .inr ⟨(hw.tail h).to_reflTransGen, .refl⟩
        · exact .inl (ih.tail (hstep h hwn hv))
    · exact .inr ⟨hin, hout.tail h⟩

/-- The shared place is on no cycle if no path leads from one of the two vertices to the other by
way of a third one. -/
theorem Acyclic.not_transGen_mergedStep_new (ha : n.Acyclic)
    (hway : ¬ (n.LongWay old new ∨ n.LongWay new old)) :
    ¬ TransGen (n.MergedStep old new) new new := by
  intro h
  obtain ⟨w, hw, hne, a, b, hab, haw, hb⟩ := TransGen.tail'_iff.mp h
  obtain rfl := eq_of_placeOf haw hne
  have hwalk : TransGen (n.MergedStep old new) new a :=
    (reflTransGen_iff_eq_or_transGen.mp hw).resolve_left hne
  obtain ⟨c, hc, hca⟩ := exists_transGen_of_merged hwalk hne
  rw [longWay_iff ha, longWay_iff ha, not_or] at hway
  rcases hc with rfl | rfl <;> rcases placeOf_eq_new hb with rfl | rfl
  · exact ha _ (hca.tail hab)
  · exact hway.1 ⟨a, hca, .single hab⟩
  · exact hway.2 ⟨a, hca, .single hab⟩
  · exact ha _ (hca.tail hab)

/-- **A vertex in the place of another closes no cycle** if no path leads from one of the two to the
other by way of a third one. -/
theorem Acyclic.not_transGen_mergedStep (ha : n.Acyclic)
    (hway : ¬ (n.LongWay old new ∨ n.LongWay new old)) (v : ElementId) :
    ¬ TransGen (n.MergedStep old new) v v := by
  intro h
  have hnew := ha.not_transGen_mergedStep_new hway
  rcases transGen_or_passes_of_merged h with hwalk | ⟨hin, hout⟩
  · exact ha v hwalk
  · rcases reflTransGen_iff_eq_or_transGen.mp hin with rfl | hin
    · exact hnew h
    · exact hnew (TransGen.trans_right hout hin)

end Network

end Dataflow
