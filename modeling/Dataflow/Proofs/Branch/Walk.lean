import Dataflow.Plan.Branch.Walk
import Dataflow.Proofs.Branch.Run

/-!
# Walks that collect a branch

A walk that has collected some vertices goes on through those that are left. So it collects the run
that follows its first vertex among them, and then it is over: what is left shrinks with every turn.

* **`Branch.exists_walks`**: a walk ends, and has collected a run.
* **`Network.exists_collectsThrough`, `Network.exists_collectsBetween`**: the branches that the walks
  collect are `branchThrough` and `branchBetween`.
* **`Branch.Walks.unique`**: a walk collects one branch only.
-/

namespace Dataflow

namespace Branch

/-- A walk collects one branch only. -/
theorem Walks.unique {turn : Branch → ElementId → Turn} {b c c' : Branch} {v : ElementId}
    (h : Walks turn b v c) (h' : Walks turn b v c') : c = c' := by
  induction h with
  | ends hturn =>
    cases h' with
    | ends hturn' => exact Turn.ends.inj (hturn.symm.trans hturn')
    | goesOn hturn' _ => cases hturn.symm.trans hturn'
  | goesOn hturn _ ih =>
    cases h' with
    | ends hturn' => cases hturn.symm.trans hturn'
    | goesOn hturn' hwalk =>
      obtain ⟨rfl, rfl⟩ := Turn.goesOn.inj (hturn.symm.trans hturn')
      exact ih hwalk

section Turns

variable {takes : Branch → ElementId → Bool} {next : ElementId → Option ElementId}
  {b : Branch} {v w : ElementId}

theorem turn_of_none (hv : takes b v = true) (hnext : next v = none) :
    turn takes next b v = .ends (b.insert v) := by
  unfold turn
  rw [if_pos hv, hnext]

theorem turn_of_stop (hv : takes b v = true) (hnext : next v = some w)
    (hstop : w.isSentinel = true ∨ w ∈ (b.insert v).order) :
    turn takes next b v = .ends (b.insert v) := by
  unfold turn
  rw [if_pos hv, hnext]
  exact if_pos (Bool.or_eq_true_iff.mpr (hstop.imp_right contains_iff.mpr))

theorem turn_of_next (hv : takes b v = true) (hnext : next v = some w)
    (hfree : w.isSentinel = false) (hnew : w ∉ (b.insert v).order) :
    turn takes next b v = .goesOn (b.insert v) w := by
  unfold turn
  rw [if_pos hv, hnext]
  refine if_neg fun h => ?_
  rcases Bool.or_eq_true_iff.mp h with h | h
  · exact Bool.false_ne_true (hfree.symm.trans h)
  · exact hnew (contains_iff.mp h)

theorem turn_of_not_takes (hv : takes b v = false) : turn takes next b v = .ends b :=
  if_neg (Bool.eq_false_iff.mp hv)

end Turns

/-- **A walk ends, and has collected the run after its first vertex.** It takes that one, and of the
vertices that are left the links. -/
theorem exists_walks {takes : Branch → ElementId → Bool} (link : ElementId → Bool)
    (next : ElementId → Option ElementId) {ids left : List ElementId}
    (hlinks : ∀ b w, w ∉ b.order → takes b w = link w)
    (hids : ∀ v w, next v = some w → w ∈ ids) (v : ElementId) (b : Branch) (hnodup : left.Nodup)
    (hleft : ∀ w, w ∈ left ↔ w ∈ ids ∧ w ∉ (b.insert v).order) (hv : takes b v = true) :
    ∃ c, Walks (turn takes next) b v c ∧
      c.order = (b.insert v).order ++ Network.follow link next left v := by
  generalize hrun : Network.follow link next left v = vs
  induction vs generalizing left v b with
  | nil =>
    rw [List.append_nil]
    have hstop := Network.follow_eq_nil_iff.mp hrun
    cases hnext : next v with
    | none => exact ⟨_, .ends (turn_of_none hv hnext), rfl⟩
    | some w =>
      by_cases hold : w.isSentinel = true ∨ w ∈ (b.insert v).order
      · exact ⟨_, .ends (turn_of_stop hv hnext hold), rfl⟩
      · -- the walk goes on to a vertex that is no link, and ends there
        obtain ⟨hfree, hnew⟩ := not_or.mp hold
        rw [Bool.not_eq_true] at hfree
        have hskip : takes (b.insert v) w = false := by
          rw [hlinks _ w hnew]
          exact hstop w hnext ((hleft w).mpr ⟨hids v w hnext, hnew⟩) hfree
        exact ⟨_, .goesOn (turn_of_next hv hnext hfree hnew) (.ends (turn_of_not_takes hskip)), rfl⟩
  | cons w vs ih =>
    obtain ⟨⟨hnext, hw, hfree, hlink⟩, hrest⟩ := Network.follow_eq_cons_iff.mp hrun
    have hnew := ((hleft w).mp hw).2
    have hleft' : ∀ u, u ∈ left.erase w ↔ u ∈ ids ∧ u ∉ ((b.insert v).insert w).order := by
      intro u
      rw [hnodup.mem_erase_iff, hleft, mem_insert (b := b.insert v), not_or]
      exact and_rotate
    obtain ⟨c, hwalk, hc⟩ := ih w (b.insert v) (hnodup.erase w) hleft'
      ((hlinks _ w hnew).trans hlink) hrest
    refine ⟨c, .goesOn (turn_of_next hv hnext hfree hnew) hwalk, ?_⟩
    rw [hc, order_insert hnew, List.append_assoc, List.singleton_append]

end Branch

namespace Network

open Branch (Walks exists_walks insert_of_mem order_insert)

variable {n : Network} {s t v : ElementId}

theorem mem_untaken {taken : List ElementId} {w : ElementId} :
    w ∈ n.ids.filter (!taken.contains ·) ↔ w ∈ n.ids ∧ w ∉ taken := by
  simp

theorem exists_walksUp (hn : n.Coherent) {b : Branch} (hv : n.isPassing v = true) :
    ∃ c, Walks n.turnUp b v c ∧
      c.order = (b.insert v).order ++ n.runBefore (b.insert v).order v :=
  exists_walks n.isPassing (fun v => (n.predecessors v).head?) (fun _ _ _ => rfl)
    (fun _ _ h => hn.source_mem_of_step (mem_predecessors.mp (List.mem_of_mem_head? h))) v b
    (hn.ids_nodup.filter _) (fun _ => mem_untaken) hv

theorem exists_walksDown (hn : n.Coherent) {b : Branch} (hv : v ∈ b.order) :
    ∃ c, Walks n.turnDown b v c ∧ c.order = b.order ++ n.runAfter b.order v := by
  have hlinks : ∀ (b : Branch) w, w ∉ b.order → (b.contains w || n.isPassing w) = n.isPassing w :=
    fun b w hw => by rw [Bool.eq_false_iff.mpr (mt Branch.contains_iff.mp hw), Bool.false_or]
  have hwalk := exists_walks n.isPassing (fun v => (n.successors v).head?) hlinks
    (fun _ _ h => hn.target_mem_of_step (mem_successors.mp (List.mem_of_mem_head? h))) v b
    (hn.ids_nodup.filter _) (fun _ => mem_untaken)
    (Bool.or_eq_true_iff.mpr (.inl (Branch.contains_iff.mpr hv)))
  rw [insert_of_mem hv] at hwalk
  exact hwalk

/-- **The walks up and down from a vertex end, and have collected the branch through it.** -/
theorem exists_collectsThrough (hn : n.Coherent) (v : ElementId) :
    ∃ c, n.CollectsThrough v c ∧ c.order = n.branchThrough v := by
  have hfirst : ((∅ : Branch).insert v).order = [v] := order_insert List.not_mem_nil
  unfold branchThrough
  by_cases hv : n.isPassing v = true
  · obtain ⟨up, hup, hbefore⟩ := exists_walksUp hn (b := ∅) hv
    rw [hfirst] at hbefore
    have hvup : v ∈ up.order := hbefore ▸ List.mem_cons_self
    obtain ⟨down, hdown, hafter⟩ := exists_walksDown hn hvup
    have hsome : down.isEmpty = false := by
      unfold Branch.isEmpty
      rw [hafter, hbefore]
      rfl
    refine ⟨down, ⟨up, down, hup, hdown, by rw [hsome]; rfl⟩, ?_⟩
    rw [if_pos hv, hafter, hbefore]
    rfl
  · have hno : n.isPassing v = false := Bool.eq_false_iff.mpr hv
    have hup : Walks n.turnUp ∅ v ∅ := .ends (Branch.turn_of_not_takes hno)
    have hdown : Walks n.turnDown ∅ v ∅ := .ends (Branch.turn_of_not_takes (by rw [hno]; rfl))
    refine ⟨_, ⟨∅, ∅, hup, hdown, rfl⟩, ?_⟩
    rw [if_neg hv]
    cases v.isSentinel with
    | true => rfl
    | false => exact hfirst

/-- **The walk down from one of two vertices ends, and has collected the branch between them.** -/
theorem exists_collectsBetween (hn : n.Coherent) (s t : ElementId) (inclusive : Bool) :
    ∃ c, n.CollectsBetween s t inclusive c ∧ c.order = n.branchBetween s t inclusive := by
  have hs : s ∈ (((∅ : Branch).insert s).insert t).order :=
    Branch.mem_insert.mpr (.inl (Branch.mem_insert.mpr (.inr rfl)))
  have hends : (((∅ : Branch).insert s).insert t).order = [s, t].eraseDups := by
    have hfirst : ((∅ : Branch).insert s).order = [s] := order_insert List.not_mem_nil
    rw [List.eraseDups_cons]
    by_cases hst : t = s
    · subst hst
      rw [insert_of_mem (hfirst ▸ List.mem_singleton_self t), hfirst]
      simp
    · rw [order_insert (by rw [hfirst]; exact mt List.mem_singleton.mp hst), hfirst]
      simp [List.eraseDups_cons, hst]
  obtain ⟨down, hdown, horder⟩ := exists_walksDown hn hs
  rw [hends] at horder
  refine ⟨_, ⟨down, hdown, rfl⟩, ?_⟩
  unfold branchBetween
  cases inclusive with
  | true => exact horder
  | false =>
    show ((down.remove s).remove t).order = n.runAfter [s, t].eraseDups s
    rw [Branch.order_remove, Branch.order_remove, horder, List.filter_filter, List.filter_append,
      List.filter_eq_nil_iff.mpr fun v hv => ?ends, List.filter_eq_self.mpr fun v hv => ?run,
      List.nil_append]
    case ends =>
      have hst : v = s ∨ v = t := by simpa using List.mem_eraseDups.mp hv
      simpa using fun hvt => hst.resolve_right hvt
    case run =>
      have huntaken := (n.isRunAfter_runAfter [s, t].eraseDups s).untaken v hv
      rw [List.mem_eraseDups] at huntaken
      simpa [and_comm] using huntaken

end Network

end Dataflow
