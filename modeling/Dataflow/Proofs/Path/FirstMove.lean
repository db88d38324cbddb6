import Mathlib.Data.Fintype.EquivFin
import Dataflow.Proofs.Path.Enumeration

/-!
# Paths by their first move

Without cycles nothing that was passed can be met again. So what the search finds from a vertex is
what it finds from the vertices one move on, with that move in front.

* **`Network.Acyclic.induction`**: what holds of a vertex if it holds of all that it leads to,
  holds of every vertex.
* **`Network.passages_eq`**: the paths from a vertex, by the first move that they make.
-/

namespace Dataflow

open Relation
open Network (arrives)

/-- There are finitely many ids. -/
instance : Finite ElementId := by
  refine Finite.of_injective (fun v => v.value.toFin) fun a b h => ?_
  cases a
  cases b
  exact congrArg _ (UInt64.toFin_inj.mp h)

namespace Network

variable {n : Network} {admits : ElementId → Bool} {s t : ElementId}

/-- **Without cycles, what holds of a vertex if it holds of all that it leads to, holds of every
vertex.** -/
@[elab_as_elim]
theorem Acyclic.induction (hn : n.Acyclic) {motive : ElementId → Prop}
    (step : ∀ v, (∀ w, TransGen n.Step v w → motive w) → motive v) (v : ElementId) : motive v := by
  let After : ElementId → ElementId → Prop := fun w v => TransGen n.Step v w
  have : IsTrans ElementId After := ⟨fun _ _ _ h h' => h'.trans h⟩
  have : Std.Irrefl After := ⟨hn⟩
  exact (Finite.wellFounded_of_trans_of_irrefl After).induction v step

/-- What a search finds does not depend on vertices out of its reach. -/
theorem arrivals_congr {pool pool' : List ElementId} (hnd : pool.Nodup) (hnd' : pool'.Nodup)
    (hpool : ∀ v, ReflTransGen n.Step s v → (v ∈ pool' ↔ v ∈ pool)) :
    arrivals n.moves t pool' s = arrivals n.moves t pool s := by
  classical
  -- the search makes only moves that stay in reach, so to keep these keeps all
  let keep : Move → Bool := fun m => decide (ReflTransGen n.Step s m.target)
  have hmoves : ∀ v, ReflTransGen n.Step s v → n.moves v = (n.moves v).filter keep :=
    fun v hv => (List.filter_eq_self.mpr fun m hm =>
      decide_eq_true (hv.tail (step_of_mem_moves hm))).symm
  rw [arrivals_filter (ReflTransGen n.Step s) hmoves (fun m hm => of_decide_eq_true hm) hnd hnd'
    hpool .refl]
  refine List.filter_eq_self.mpr fun ms hms => List.all_eq_true.mpr fun m hm => ?_
  obtain ⟨-, hlead, -, -⟩ := (mem_arrivals hnd).mp hms
  obtain ⟨xs, _, -, -, hxs, -⟩ := hlead.split (List.mem_map_of_mem hm)
  exact decide_eq_true hxs.reflTransGen

/-- The moves of the paths from one vertex to another whose interiors are admitted, in the order of
the search. -/
def passages (n : Network) (admits : ElementId → Bool) (s t : ElementId) : List (List Move) :=
  (n.trailsThrough admits s t).filter (arrives t)

theorem pathsThrough_perm_passages (n : Network) (admits : ElementId → Bool) (s t : ElementId) :
    (n.pathsThrough admits s t).Perm ((n.passages admits s t).map fun ms => ⟨s, ms⟩) :=
  List.mergeSort_perm _ _

theorem passages_self (n : Network) (admits : ElementId → Bool) (s : ElementId) :
    n.passages admits s s = [] := by
  unfold passages
  rw [filter_trailsThrough, if_neg fun h => h.1 rfl]

theorem passages_eq_nil (h : ¬ (s ∈ n.ids ∧ t ∈ n.ids)) : n.passages admits s t = [] := by
  unfold passages
  rw [filter_trailsThrough, if_neg fun h' => h h'.2]

/-- Between two vertices the passages are what an unrestricted search finds with an admitted
interior. -/
theorem passages_eq_filter (hne : s ≠ t) (hs : s ∈ n.ids) (ht : t ∈ n.ids) :
    n.passages admits s t = (arrivals n.moves t (n.nodes.erase s) s).filter fun ms =>
      (targets ms).dropLast.all admits := by
  unfold passages
  rw [filter_trailsThrough, if_pos ⟨hne, hs, ht⟩]

theorem ne_nil_of_mem_passages {ms : List Move} (h : ms ∈ n.passages admits s t) : ms ≠ [] := by
  unfold passages at h
  rw [filter_trailsThrough] at h
  split at h
  · exact ((mem_arrivals ((nodup_eraseDups _).erase s)).mp (List.mem_of_mem_filter h)).1
  · exact absurd h List.not_mem_nil

/-- A search that has made a move finds what one that starts there finds. -/
theorem arrivals_next (ha : n.Acyclic) {w : ElementId} (hstep : n.Step s w) :
    arrivals n.moves t ((n.nodes.erase s).erase w) w = arrivals n.moves t (n.nodes.erase w) w := by
  have hnodes : n.nodes.Nodup := nodup_eraseDups _
  refine arrivals_congr (hnodes.erase _) ((hnodes.erase _).erase _) fun v hv => ?_
  have hvs : v ≠ s := by
    rintro rfl
    exact ha v (.head' hstep hv)
  rw [(hnodes.erase s).mem_erase_iff, hnodes.mem_erase_iff, hnodes.mem_erase_iff]
  exact and_congr_right fun _ => and_iff_right hvs

/-- The interior of a path that goes on after its first move holds where that move arrives. -/
theorem filter_map_cons (admits : ElementId → Bool) (m : Move) {mss : List (List Move)}
    (hne : ∀ ms ∈ mss, ms ≠ []) :
    ((mss.map (m :: ·)).filter fun ms => (targets ms).dropLast.all admits) =
      if admits m.target then (mss.filter fun ms => (targets ms).dropLast.all admits).map (m :: ·)
      else [] := by
  have hfirst : ∀ ms ∈ mss, (targets (m :: ms)).dropLast.all admits =
      (admits m.target && (targets ms).dropLast.all admits) := by
    intro ms hms
    show (m.target :: targets ms).dropLast.all admits = _
    rw [List.dropLast_cons_of_ne_nil (targets_ne_nil (hne ms hms)), List.all_cons]
  rw [List.filter_map]
  split
  · rename_i hok
    exact congrArg _ (List.filter_congr fun ms hms =>
      (hfirst ms hms).trans (by rw [hok, Bool.true_and]))
  · rename_i hok
    rw [List.map_eq_nil_iff, List.filter_eq_nil_iff]
    intro ms hms h
    rw [Function.comp_apply, hfirst ms hms, Bool.and_eq_true] at h
    exact hok h.1

/-- **The paths from a vertex, by the first move that they make**: it arrives, or it enters an
admitted vertex, and a path from there goes on. -/
theorem passages_eq (hn : n.Coherent) (ha : n.Acyclic) (hne : s ≠ t) :
    n.passages admits s t = (n.moves s).flatMap fun m =>
      if m.target = t then [[m]]
      else if admits m.target then (n.passages admits m.target t).map (m :: ·)
      else [] := by
  by_cases ht : t ∈ n.ids
  · by_cases hs : s ∈ n.ids
    · rw [passages_eq_filter hne hs ht, arrivals_eq, List.filter_flatMap]
      refine List.flatMap_congr fun m hm => ?_
      have hstep := step_of_mem_moves hm
      have hmem : m.target ∈ n.ids := hn.target_mem_of_step hstep
      have hnext : m.target ∈ n.nodes.erase s :=
        (nodup_eraseDups _).mem_erase_iff.mpr
          ⟨(ha.ne_of_transGen (.single hstep)).symm, mem_nodes_of_mem_ids hmem⟩
      by_cases hg : m.target = t
      · rw [if_pos hg, if_pos hg]
        rfl
      · rw [if_neg hg, if_neg hg, if_pos hnext, arrivals_next ha hstep, filter_map_cons,
          ← passages_eq_filter hg hmem ht]
        exact fun ms hms => ((mem_arrivals ((nodup_eraseDups _).erase _)).mp hms).1
    · have hnone : n.moves s = [] := List.eq_nil_iff_forall_not_mem.mpr fun m hm =>
        hs (hn.source_mem_of_step (step_of_mem_moves hm))
      rw [passages_eq_nil fun h => hs h.1, hnone]
      rfl
  · rw [passages_eq_nil fun h => ht h.2]
    refine (List.flatMap_eq_nil_iff.mpr fun m hm => ?_).symm
    have hg : m.target ≠ t := fun h => ht (h ▸ hn.target_mem_of_step (step_of_mem_moves hm))
    rw [if_neg hg, passages_eq_nil fun h => ht h.2]
    split <;> rfl

end Network

end Dataflow
