import Mathlib.Data.List.Basic
import Mathlib.Data.List.Nodup
import Dataflow.Proofs.Path.Walk

/-!
# The paths that the search finds

The search lists trails and keeps those that arrive (`arrivals`). What it leaves out to save work,
the vertices that cannot complete a path, is what would not arrive: the paths with an admitted
interior are those of the unrestricted search, in the same order.

* **`Network.mem_paths`**: the search finds the walks on which no vertex repeats, and no others.
* **`Network.pathsThrough_eq_filter`**: a restriction on the interior only leaves paths out.
* **`Network.paths_eq_filter`**: so does hiding vertices and edges of the network.
-/

namespace Dataflow

open Relation
open Network (arrives)

/-! ### Lists -/

/-- A predicate that fails before a place and holds after it finds the place. -/
theorem filter_append_of_cut {α : Type} {p : α → Bool} {xs ys : List α}
    (hx : ∀ b ∈ xs, p b = false) (hy : ∀ b ∈ ys, p b = true) :
    (xs ++ ys).filter (fun b => !p b) = xs ∧ (xs ++ ys).filter p = ys := by
  rw [List.filter_append, List.filter_append]
  constructor
  · rw [List.filter_eq_self.mpr (by simpa using hx), List.filter_eq_nil_iff.mpr (by simpa using hy),
      List.append_nil]
  · rw [List.filter_eq_self.mpr hy, List.filter_eq_nil_iff.mpr (by simpa using hx),
      List.nil_append]

/-- A stable sort puts a member before all that are not smaller. -/
theorem mergeSort_cons_cut {α : Type} (f : α → Nat) (a : α) (l : List α) : ∃ l₁ l₂ : List α,
    (a :: l).mergeSort (fun a b => f a ≤ f b) = l₁ ++ a :: l₂ ∧
      l.mergeSort (fun a b => f a ≤ f b) = l₁ ++ l₂ ∧
      (∀ b ∈ l₁, decide (f a ≤ f b) = false) ∧ ∀ b ∈ l₂, decide (f a ≤ f b) = true := by
  have trans : ∀ a b c : α, decide (f a ≤ f b) = true → decide (f b ≤ f c) = true →
      decide (f a ≤ f c) = true := by
    intro a b c hab hbc
    exact decide_eq_true (Nat.le_trans (of_decide_eq_true hab) (of_decide_eq_true hbc))
  have total : ∀ a b : α, (decide (f a ≤ f b) || decide (f b ≤ f a)) = true := by
    intro a b
    rcases Nat.le_total (f a) (f b) with h | h <;> simp [h]
  obtain ⟨l₁, l₂, h, hl, hlt⟩ := List.mergeSort_cons trans total a l
  have hsorted := List.pairwise_mergeSort trans total (a :: l)
  rw [h] at hsorted
  have hafter := (List.pairwise_cons.mp (List.pairwise_append.mp hsorted).2.1).1
  exact ⟨l₁, l₂, h, hl, fun b hb => by simpa using hlt b hb, hafter⟩

/-- A stable sort by a number may come before or after leaving members out. -/
theorem filter_mergeSort {α : Type} (f : α → Nat) (p : α → Bool) (l : List α) :
    (l.mergeSort fun a b => f a ≤ f b).filter p =
      (l.filter p).mergeSort fun a b => f a ≤ f b := by
  induction l with
  | nil => simp
  | cons a l ih =>
    obtain ⟨l₁, l₂, h, hl, hbefore, hafter⟩ := mergeSort_cons_cut f a l
    by_cases ha : p a = true
    · obtain ⟨r₁, r₂, h', hr, hbefore', hafter'⟩ := mergeSort_cons_cut f a (l.filter p)
      -- both sorts cut the rest at the same place, before what is not smaller than the member
      have hsplit : l₁.filter p ++ l₂.filter p = r₁ ++ r₂ := by
        rw [← List.filter_append, ← hl, ih, hr]
      have hkeep : ∀ b ∈ l₁.filter p, decide (f a ≤ f b) = false := fun b hb =>
        hbefore b (List.mem_filter.mp hb).1
      have hkeep' : ∀ b ∈ l₂.filter p, decide (f a ≤ f b) = true := fun b hb =>
        hafter b (List.mem_filter.mp hb).1
      have hcut := filter_append_of_cut hkeep hkeep'
      have hcut' := filter_append_of_cut hbefore' hafter'
      rw [hsplit, hcut'.1, hcut'.2] at hcut
      rw [List.filter_cons_of_pos ha, h, h', List.filter_append, List.filter_cons_of_pos ha,
        ← hcut.1, ← hcut.2]
    · rw [List.filter_cons_of_neg ha, h, List.filter_append, List.filter_cons_of_neg ha,
        ← List.filter_append, ← hl, ih]

theorem nodup_eraseDups {α : Type} [DecidableEq α] : ∀ l : List α, l.eraseDups.Nodup
  | [] => .nil
  | a :: l => by
    have : (l.filter fun b => !b == a).length < l.length + 1 :=
      Nat.lt_succ_of_le (List.length_filter_le _ _)
    rw [List.eraseDups_cons]
    exact List.nodup_cons.mpr ⟨by simp, nodup_eraseDups _⟩
termination_by l => l.length

theorem length_erase_lt {α : Type} [DecidableEq α] {l : List α} {a : α} (h : a ∈ l) :
    (l.erase a).length < l.length := by
  rw [List.length_erase_of_mem h]
  exact Nat.sub_lt (List.length_pos_of_mem h) Nat.one_pos

theorem flatMap_filter {α β : Type} (p : α → Bool) (f : α → List β) (l : List α) :
    (l.filter p).flatMap f = l.flatMap fun a => if p a = true then f a else [] := by
  induction l with
  | nil => rfl
  | cons a l ih =>
    by_cases h : p a = true
    · rw [List.filter_cons_of_pos h, List.flatMap_cons, List.flatMap_cons, if_pos h, ih]
    · rw [List.filter_cons_of_neg h, List.flatMap_cons, if_neg h, ih, List.nil_append]

/-! ### Trails that arrive -/

/-- The trails of the search that arrive, in its order. -/
def arrivals (moves : ElementId → List Move) (goal : ElementId) (unvisited : List ElementId)
    (v : ElementId) : List (List Move) :=
  (trails moves goal unvisited v).filter (arrives goal)

section Arrivals

variable {moves : ElementId → List Move} {goal : ElementId}

theorem ne_nil_of_mem_trails {unvisited : List ElementId} {v : ElementId} {ms : List Move}
    (h : ms ∈ trails moves goal unvisited v) : ms ≠ [] := by
  rw [trails] at h
  obtain ⟨m, -, h⟩ := List.mem_flatMap.mp h
  split at h
  · rw [List.mem_singleton.mp h]
    exact List.cons_ne_nil _ _
  · split at h
    · rcases List.mem_cons.mp h with rfl | h
      · exact List.cons_ne_nil _ _
      · obtain ⟨_, -, rfl⟩ := List.mem_map.mp h
        exact List.cons_ne_nil _ _
    · exact absurd h List.not_mem_nil

theorem arrives_cons {m : Move} {ms : List Move} (h : ms ≠ []) :
    arrives goal (m :: ms) = arrives goal ms := by
  unfold arrives
  rw [List.getLast?_cons_of_ne_nil h]

/-- The trails that arrive, or those that do not, by the first move they make. -/
theorem filter_trails (p : Bool → Bool) (unvisited : List ElementId) (v : ElementId) :
    (trails moves goal unvisited v).filter (fun ms => p (arrives goal ms)) =
      (moves v).flatMap fun m =>
        if m.target = goal then [[m]].filter fun _ => p true
        else if m.target ∈ unvisited then
          ([[m]].filter fun _ => p false) ++
            ((trails moves goal (unvisited.erase m.target) m.target).filter
              fun ms => p (arrives goal ms)).map (m :: ·)
        else [] := by
  rw [trails, List.filter_flatMap]
  refine List.flatMap_congr fun m _ => ?_
  have hfirst : [[m]].filter (fun ms => p (arrives goal ms)) =
      [[m]].filter fun _ => p (decide (m.target = goal)) := rfl
  by_cases hg : m.target = goal
  · rw [if_pos hg, if_pos hg, hfirst, decide_eq_true hg]
  · by_cases hu : m.target ∈ unvisited
    · rw [if_neg hg, if_neg hg, dif_pos hu, if_pos hu, ← List.singleton_append, List.filter_append,
        hfirst, decide_eq_false hg, List.filter_map]
      refine congrArg _ (congrArg _ (List.filter_congr fun ms hms => ?_))
      exact congrArg p (arrives_cons (ne_nil_of_mem_trails hms))
    · rw [if_neg hg, if_neg hg, dif_neg hu, if_neg hu, List.filter_nil]

/-- The arrivals by the first move they make. -/
theorem arrivals_eq (unvisited : List ElementId) (v : ElementId) :
    arrivals moves goal unvisited v = (moves v).flatMap fun m =>
      if m.target = goal then [[m]]
      else if m.target ∈ unvisited then
        (arrivals moves goal (unvisited.erase m.target) m.target).map (m :: ·)
      else [] :=
  filter_trails id unvisited v

/-- What arrives by a move begins with it. -/
theorem begins_of_mem {unvisited : List ElementId} {m : Move} {ms : List Move}
    (h : ms ∈ if m.target = goal then [[m]]
      else if m.target ∈ unvisited then
        (arrivals moves goal (unvisited.erase m.target) m.target).map (m :: ·)
      else []) : ∃ ms', ms = m :: ms' := by
  split at h
  · exact ⟨[], List.mem_singleton.mp h⟩
  · split at h
    · obtain ⟨ms', -, rfl⟩ := List.mem_map.mp h
      exact ⟨ms', rfl⟩
    · exact absurd h List.not_mem_nil

/-- What arrives by a move, and how it goes on. -/
theorem cons_mem_arrivals {unvisited : List ElementId} {v : ElementId} {m : Move}
    {ms : List Move} : m :: ms ∈ arrivals moves goal unvisited v ↔
    m ∈ moves v ∧ (m.target = goal ∧ ms = [] ∨
      m.target ≠ goal ∧ m.target ∈ unvisited ∧
        ms ∈ arrivals moves goal (unvisited.erase m.target) m.target) := by
  rw [arrivals_eq, List.mem_flatMap]
  constructor
  · rintro ⟨m', hm', h⟩
    obtain ⟨_, he⟩ := begins_of_mem h
    cases he
    refine ⟨hm', ?_⟩
    split at h
    · rename_i hg
      exact .inl ⟨hg, by simpa using h⟩
    · rename_i hg
      split at h
      · rename_i hu
        exact .inr ⟨hg, hu, by simpa using h⟩
      · exact absurd h List.not_mem_nil
  · rintro ⟨hm, ⟨hg, rfl⟩ | ⟨hg, hu, hms⟩⟩
    · refine ⟨m, hm, ?_⟩
      rw [if_pos hg]
      exact List.mem_singleton.mpr rfl
    · refine ⟨m, hm, ?_⟩
      rw [if_neg hg, if_pos hu]
      exact List.mem_map_of_mem hms

/-- What arrives is a walk to the goal on which no vertex repeats. -/
theorem leads_of_mem_arrivals {unvisited : List ElementId} (hu : unvisited.Nodup) {v : ElementId}
    {ms : List Move} (h : ms ∈ arrivals moves goal unvisited v) :
    Leads moves v ms goal ∧ (targets ms).Nodup ∧ ∀ x ∈ targets ms, x ≠ goal → x ∈ unvisited := by
  induction ms generalizing unvisited v with
  | nil => exact absurd rfl (ne_nil_of_mem_trails (List.mem_filter.mp h).1)
  | cons m ms ih =>
    rcases cons_mem_arrivals.mp h with ⟨hm, ⟨hg, rfl⟩ | ⟨hg, hmem, hms⟩⟩
    · refine ⟨.cons hm (hg ▸ .nil _), List.nodup_singleton _, ?_⟩
      intro x hx hne
      exact absurd ((List.mem_singleton.mp hx).trans hg) hne
    · obtain ⟨hlead, hnd, hin⟩ := ih (hu.erase _) hms
      refine ⟨.cons hm hlead, List.nodup_cons.mpr ⟨fun hx => ?_, hnd⟩, ?_⟩
      · exact ((hu.mem_erase_iff).mp (hin _ hx hg)).1 rfl
      · intro x hx hne
        rcases List.mem_cons.mp hx with rfl | hx
        · exact hmem
        · exact List.mem_of_mem_erase (hin x hx hne)

/-- Every walk to the goal on which no vertex repeats arrives, as far as its vertices may be
entered. -/
theorem mem_arrivals_of_leads {unvisited : List ElementId} (hu : unvisited.Nodup) {v : ElementId}
    {ms : List Move} (hne : ms ≠ []) (h : Leads moves v ms goal) (hnd : (targets ms).Nodup)
    (hin : ∀ x ∈ targets ms, x ≠ goal → x ∈ unvisited) :
    ms ∈ arrivals moves goal unvisited v := by
  induction h generalizing unvisited with
  | nil _ => exact absurd rfl hne
  | @cons v w m ms hm hms ih =>
    obtain ⟨hfresh, hnd⟩ := List.nodup_cons.mp hnd
    refine cons_mem_arrivals.mpr ⟨hm, ?_⟩
    by_cases hg : m.target = w
    · -- the goal stands last on a walk to it, and so nowhere before
      have hnil : ms = [] := by
        refine Classical.byContradiction fun hne => hfresh ?_
        show m.target ∈ targets ms
        rw [hg]
        exact hms.end_mem_targets hne
      exact .inl ⟨hg, hnil⟩
    · have hnext : ms ≠ [] := by
        rintro rfl
        cases hms
        exact hg rfl
      have hmem := hin m.target List.mem_cons_self hg
      refine .inr ⟨hg, hmem, ih (hu.erase _) hnext hnd fun x hx hne => ?_⟩
      refine hu.mem_erase_iff.mpr ⟨?_, hin x (List.mem_cons_of_mem _ hx) hne⟩
      rintro rfl
      exact hfresh hx

/-- **The arrivals are the walks to the goal on which no vertex repeats**, as far as vertices
between may be entered. -/
theorem mem_arrivals {unvisited : List ElementId} (hu : unvisited.Nodup) {v : ElementId}
    {ms : List Move} : ms ∈ arrivals moves goal unvisited v ↔
      ms ≠ [] ∧ Leads moves v ms goal ∧ (targets ms).Nodup ∧
        ∀ x ∈ targets ms, x ≠ goal → x ∈ unvisited := by
  constructor
  · intro h
    exact ⟨ne_nil_of_mem_trails (List.mem_filter.mp h).1, leads_of_mem_arrivals hu h⟩
  · rintro ⟨hne, hlead, hnd, hin⟩
    exact mem_arrivals_of_leads hu hne hlead hnd hin

/-- Among vertices that the moves kept do not leave, a search that makes only these moves arrives by
the trails that make no other. -/
theorem arrivals_filter {moves' : ElementId → List Move} {keep : Move → Bool}
    (inside : ElementId → Prop) (hmoves : ∀ v, inside v → moves' v = (moves v).filter keep)
    (hkeep : ∀ m, keep m = true → inside m.target) {pool pool' : List ElementId}
    (hnd : pool.Nodup) (hnd' : pool'.Nodup) (hpool : ∀ v, inside v → (v ∈ pool' ↔ v ∈ pool))
    {v : ElementId} (hv : inside v) :
    arrivals moves' goal pool' v = (arrivals moves goal pool v).filter fun ms => ms.all keep := by
  rw [arrivals_eq, arrivals_eq, hmoves v hv, flatMap_filter, List.filter_flatMap]
  refine List.flatMap_congr fun m _ => ?_
  by_cases hk : keep m = true
  · have hin := hkeep m hk
    rw [if_pos hk]
    by_cases hg : m.target = goal
    · simp [hg, hk]
    · by_cases hmem : m.target ∈ pool
      · have hshorter := length_erase_lt hmem
        have hpool' : ∀ x, inside x → (x ∈ pool'.erase m.target ↔ x ∈ pool.erase m.target) := by
          intro x hx
          rw [hnd'.mem_erase_iff, hnd.mem_erase_iff, hpool x hx]
        have ih := arrivals_filter inside hmoves hkeep (hnd.erase m.target)
          (hnd'.erase m.target) hpool' hin
        rw [if_neg hg, if_neg hg, if_pos hmem, if_pos ((hpool _ hin).mpr hmem), ih,
          List.filter_map]
        refine congrArg _ (List.filter_congr fun ms _ => ?_)
        show ms.all keep = (keep m && ms.all keep)
        rw [hk, Bool.true_and]
      · rw [if_neg hg, if_neg hg, if_neg hmem, if_neg (mt (hpool _ hin).mp hmem), List.filter_nil]
  · rw [if_neg hk]
    refine (List.filter_eq_nil_iff.mpr fun ms hms => ?_).symm
    obtain ⟨ms', rfl⟩ := begins_of_mem hms
    rw [List.all_cons, Bool.and_eq_true]
    exact fun h => hk h.1
termination_by pool.length

end Arrivals

namespace Network

variable {n : Network}

/-! ### Searches that look ahead -/

theorem targets_subset_nodes {s t : ElementId} {ms : List Move} (h : Leads n.moves s ms t) :
    ∀ x ∈ targets ms, x ∈ n.nodes := by
  intro x hx
  obtain ⟨xs, _, _, hne, hxs, -⟩ := h.split hx
  obtain ⟨b, -, l, hl, -, rfl⟩ := TransGen.tail'_iff.mp (hxs.transGen hne)
  exact target_mem_nodes hl

/-- Edges into a vertex are followed back from the goal, and from admitted vertices. -/
def Opens (admits : ElementId → Bool) (goal v : ElementId) : Prop := v = goal ∨ admits v = true

theorem mem_completing_of_step {admits : ElementId → Bool} {goal u v : ElementId}
    (hv : v ∈ n.completing admits goal) (hopen : Opens admits goal v) (h : n.Step u v) :
    u ∈ n.completing admits goal := by
  obtain ⟨l, hl, rfl, rfl⟩ := h
  have hback : l.source ∈
      (if (l.target = goal || admits l.target) = true then n.predecessors l.target else []) := by
    rw [if_pos (by simpa [Opens] using hopen)]
    exact mem_predecessors.mpr ⟨l, hl, rfl, rfl⟩
  refine List.mem_cons_of_mem _ (mem_sweep.mpr ⟨goal, List.mem_cons_self, ?_⟩)
  rcases List.mem_cons.mp hv with hg | hv
  · exact .single (hg ▸ hback) (source_mem_nodes hl)
  · obtain ⟨g, hg, hvia⟩ := mem_sweep.mp hv
    cases List.mem_singleton.mp hg
    exact hvia.trans (.single hback (source_mem_nodes hl))

/-- Where a walk with admitted vertices between its ends starts, a path can be completed. -/
theorem mem_completing_of_leads {admits : ElementId → Bool} {v goal : ElementId} {ms : List Move}
    (h : Leads n.moves v ms goal) (hfree : ∀ x ∈ (targets ms).dropLast, admits x = true) :
    v ∈ n.completing admits goal := by
  induction h with
  | nil _ => exact List.mem_cons_self
  | @cons v goal m ms hm hms ih =>
    have hstep := step_of_mem_moves hm
    by_cases hnil : ms = []
    · subst hnil
      cases hms
      exact mem_completing_of_step List.mem_cons_self (.inl rfl) hstep
    · have hfree' : ∀ x ∈ m.target :: (targets ms).dropLast, admits x = true := by
        rw [← List.dropLast_cons_of_ne_nil (targets_ne_nil hnil)]
        exact hfree
      obtain ⟨hk, hrest⟩ := List.forall_mem_cons.mp hfree'
      exact mem_completing_of_step (ih hrest) (.inr hk) hstep

theorem movesTowards_eq_filter (admits : ElementId → Bool) (goal : ElementId)
    (completing : List ElementId) (v : ElementId) :
    n.movesTowards admits goal completing v = (n.moves v).filter fun m =>
      m.target = goal || (completing.contains m.target && admits m.target) := by
  unfold movesTowards moves
  induction n.outgoing v with
  | nil => rfl
  | cons l ls ih =>
    rw [List.map_cons, List.filterMap_cons, List.filter_cons, ih]
    split <;> rename_i h
    · split at h
      · exact absurd h (by simp)
      · rename_i hk
        rw [if_neg hk]
    · split at h
      · rename_i hk
        cases h
        rw [if_pos hk]
      · exact absurd h (by simp)

/-- A path makes only moves that the search admits exactly if its interior is admitted: from each
vertex on it the rest of the path completes one. -/
theorem all_towards_eq {admits : ElementId → Bool} {s t : ElementId} {ms : List Move}
    (h : Leads n.moves s ms t) (hne : ms ≠ []) (hnd : (targets ms).Nodup) :
    (ms.all fun m => m.target = t ||
        ((n.completing admits t).contains m.target && admits m.target)) =
      (targets ms).dropLast.all admits := by
  have htargets := h.targets_eq hne
  rw [Bool.eq_iff_iff, List.all_eq_true, List.all_eq_true]
  constructor
  · intro hall x hx
    have hxne : x ≠ t := by
      rintro rfl
      rw [htargets] at hnd
      exact (List.nodup_append.mp hnd).2.2 x hx x List.mem_cons_self rfl
    obtain ⟨m, hm, rfl⟩ := List.mem_map.mp (List.dropLast_subset _ hx)
    have hm := hall m hm
    simp only [hxne, decide_false, Bool.false_or, Bool.and_eq_true] at hm
    exact hm.2
  · intro hfree m hm
    have hx : m.target ∈ targets ms := List.mem_map.mpr ⟨m, hm, rfl⟩
    by_cases hg : m.target = t
    · simp [hg]
    · have hint : m.target ∈ (targets ms).dropLast := by
        rw [htargets] at hx
        exact (List.mem_append.mp hx).resolve_right fun h => hg (List.mem_singleton.mp h)
      obtain ⟨xs, ys, rfl, -, -, hys⟩ := h.split hx
      have hyfree : ∀ x ∈ (targets ys).dropLast, admits x = true := by
        intro x hxy
        refine hfree x ?_
        rw [targets_append, List.dropLast_append_of_ne_nil]
        · exact List.mem_append_right _ hxy
        · exact fun h => by rw [h] at hxy; exact List.not_mem_nil hxy
      simp [hfree _ hint, mem_completing_of_leads hys hyfree]

/-- The trails that arrive by a search with a restricted interior are those of a search without. -/
theorem filter_trailsThrough (admits : ElementId → Bool) (s t : ElementId) :
    (n.trailsThrough admits s t).filter (arrives t) =
      if s ≠ t ∧ s ∈ n.ids ∧ t ∈ n.ids then
        (arrivals n.moves t (n.nodes.erase s) s).filter fun ms => (targets ms).dropLast.all admits
      else [] := by
  have hnd : (n.nodes.erase s).Nodup := (nodup_eraseDups _).erase s
  unfold trailsThrough
  simp only [ne_eq, Bool.and_eq_true, decide_eq_true_eq, contains_iff, List.contains_iff_mem]
  by_cases hends : s ≠ t ∧ s ∈ n.ids ∧ t ∈ n.ids
  · rw [if_pos hends]
    have hkept : ∀ ms ∈ arrivals n.moves t (n.nodes.erase s) s,
        (ms.all fun m => m.target = t ||
            ((n.completing admits t).contains m.target && admits m.target)) =
          (targets ms).dropLast.all admits := by
      intro ms hms
      obtain ⟨hne, hlead, hdup, -⟩ := (mem_arrivals hnd).mp hms
      exact all_towards_eq hlead hne hdup
    by_cases hstart : s ∈ n.completing admits t
    · rw [if_pos ⟨⟨⟨hends.1, hends.2.1⟩, hends.2.2⟩, hstart⟩]
      exact (arrivals_filter (fun _ => True)
        (fun v _ => movesTowards_eq_filter admits t (n.completing admits t) v)
        (fun _ _ => trivial) hnd hnd (fun _ _ => Iff.rfl) trivial).trans (List.filter_congr hkept)
    · rw [if_neg fun h => hstart h.2, List.filter_nil]
      refine (List.filter_eq_nil_iff.mpr fun ms hms hfree => ?_).symm
      obtain ⟨-, hlead, -, -⟩ := (mem_arrivals hnd).mp hms
      exact hstart (mem_completing_of_leads hlead (List.all_eq_true.mp hfree))
  · rw [if_neg hends, if_neg fun h => hends ⟨h.1.1.1, h.1.1.2, h.1.2⟩, List.filter_nil]

/-! ### Paths -/

/-- The paths, as the sorted arrivals of the unrestricted search. -/
theorem paths_eq (s t : ElementId) : n.paths s t =
    (if s ≠ t ∧ s ∈ n.ids ∧ t ∈ n.ids then
      (arrivals n.moves t (n.nodes.erase s) s).map fun ms => ⟨s, ms⟩
    else []).mergeSort fun p q => p.length ≤ q.length := by
  unfold paths pathsThrough
  rw [filter_trailsThrough]
  congr 1
  split
  · rw [List.filter_eq_self.mpr]
    exact fun ms _ => by simp
  · rfl

/-- Where the search comes upon no longer path before a shorter one, the paths are in the order of
the search. -/
theorem paths_eq_of_pairwise {s t : ElementId} {found : List (List Move)}
    (h : (n.trailsThrough (fun _ => true) s t).filter (arrives t) = found)
    (hsorted : found.Pairwise fun a b => a.length ≤ b.length) :
    n.paths s t = found.map fun ms => ⟨s, ms⟩ := by
  unfold paths pathsThrough
  rw [h]
  refine List.mergeSort_of_pairwise (List.pairwise_map.mpr (hsorted.imp ?_))
  exact fun hle => decide_eq_true hle

/-- **A restriction on the interior only leaves paths out.** -/
theorem pathsThrough_eq_filter (admits : ElementId → Bool) (s t : ElementId) :
    n.pathsThrough admits s t = (n.paths s t).filter fun p => p.interior.all admits := by
  unfold pathsThrough
  rw [paths_eq, filter_mergeSort, filter_trailsThrough]
  congr 1
  split
  · rw [List.filter_map]
    rfl
  · rfl

/-- **The paths are the walks between two vertices on which no vertex repeats.** -/
theorem mem_paths {s t : ElementId} {p : Path} : p ∈ n.paths s t ↔
    s ≠ t ∧ s ∈ n.ids ∧ t ∈ n.ids ∧ p.start = s ∧ Leads n.moves s p.moves t ∧
      p.vertices.Nodup := by
  have hnodes : n.nodes.Nodup := nodup_eraseDups _
  rw [paths_eq, List.mem_mergeSort]
  by_cases hends : s ≠ t ∧ s ∈ n.ids ∧ t ∈ n.ids
  · rw [if_pos hends, List.mem_map]
    simp only [hends, ne_eq, not_false_eq_true, true_and]
    constructor
    · rintro ⟨ms, hms, rfl⟩
      obtain ⟨-, hlead, hnd, hin⟩ := (mem_arrivals (hnodes.erase s)).mp hms
      refine ⟨rfl, hlead, List.nodup_cons.mpr ⟨fun hs => ?_, hnd⟩⟩
      exact (hnodes.mem_erase_iff.mp (hin s hs hends.1)).1 rfl
    · rintro ⟨rfl, hlead, hnd⟩
      rw [Path.vertices_eq] at hnd
      obtain ⟨hs, hnd⟩ := List.nodup_cons.mp hnd
      refine ⟨p.moves, (mem_arrivals (hnodes.erase _)).mpr ⟨?_, hlead, hnd, fun x hx _ => ?_⟩, rfl⟩
      · intro hnil
        rw [hnil] at hlead
        cases hlead
        exact hends.1 rfl
      · refine hnodes.mem_erase_iff.mpr ⟨?_, targets_subset_nodes hlead x hx⟩
        rintro rfl
        exact hs hx
  · rw [if_neg hends]
    refine ⟨fun h => absurd h List.not_mem_nil, fun h => absurd ⟨h.1, h.2.1, h.2.2.1⟩ hends⟩

theorem moves_ne_nil_of_mem_paths {s t : ElementId} {p : Path} (h : p ∈ n.paths s t) :
    p.moves ≠ [] := by
  obtain ⟨hne, -, -, -, hlead, -⟩ := mem_paths.mp h
  intro hnil
  rw [hnil] at hlead
  generalize s = a, t = b at hne hlead
  cases hlead
  exact hne rfl

/-- Without cycles every walk of at least one edge between two vertices is a path. -/
theorem Acyclic.mem_paths_of_leads (hn : n.Acyclic) {s t : ElementId} (hs : s ∈ n.ids)
    (ht : t ∈ n.ids) {ms : List Move} (hne : ms ≠ []) (h : Leads n.moves s ms t) :
    ⟨s, ms⟩ ∈ n.paths s t :=
  mem_paths.mpr ⟨hn.ne_of_transGen (h.transGen hne), hs, ht, rfl, h, hn.nodup_of_leads h⟩

/-- Without cycles there is a path wherever a walk of at least one edge leads. -/
theorem Acyclic.transGen_iff_paths_ne_nil (ha : n.Acyclic) (hn : n.Coherent) {s t : ElementId} :
    TransGen n.Step s t ↔ n.paths s t ≠ [] := by
  constructor
  · intro h
    obtain ⟨ms, hne, hlead⟩ := exists_leads_of_transGen h
    exact List.ne_nil_of_mem (ha.mem_paths_of_leads (hn.source_mem_of_transGen h)
      (hn.target_mem_of_transGen h) hne hlead)
  · intro h
    obtain ⟨p, hp⟩ := List.exists_mem_of_ne_nil _ h
    obtain ⟨-, -, -, -, hlead, -⟩ := mem_paths.mp hp
    exact hlead.transGen (moves_ne_nil_of_mem_paths hp)

/-- **Hiding vertices and edges only leaves paths out**, those that enter a hidden vertex or take a
hidden edge. -/
theorem paths_eq_filter {m : Network} {keep : Move → Bool} (hids : ∀ v ∈ m.ids, v ∈ n.ids)
    (hmoves : ∀ v ∈ m.ids, m.moves v = (n.moves v).filter keep)
    (hkeep : ∀ mv, keep mv = true → mv.target ∈ m.ids) {s t : ElementId} (hs : s ∈ m.ids)
    (ht : t ∈ m.ids) : m.paths s t = (n.paths s t).filter fun p => p.moves.all keep := by
  rw [paths_eq, paths_eq, filter_mergeSort]
  congr 1
  by_cases hne : s ≠ t
  · rw [if_pos ⟨hne, hs, ht⟩, if_pos ⟨hne, hids s hs, hids t ht⟩, List.filter_map]
    refine congrArg _ (arrivals_filter (· ∈ m.ids) hmoves hkeep ((nodup_eraseDups _).erase s)
      ((nodup_eraseDups _).erase s) (fun v hv => ?_) hs)
    rw [(nodup_eraseDups _).mem_erase_iff, (nodup_eraseDups _).mem_erase_iff]
    exact and_congr_right fun _ =>
      iff_of_true (mem_nodes_of_mem_ids hv) (mem_nodes_of_mem_ids (hids v hv))
  · rw [if_neg fun h => hne h.1, if_neg fun h => hne h.1, List.filter_nil]

end Network

end Dataflow
