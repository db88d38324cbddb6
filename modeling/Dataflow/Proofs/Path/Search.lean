import Dataflow.Path.Search
import Dataflow.Proofs.Path.Enumeration

/-!
# What the search for paths finds

The sweep back meets the vertices that can complete a path, in whatever order it follows edges. The
search forward keeps what it has found followed by what its frames still lead to, so that in the end
it has found every path.

* **`Network.mem_reaching`**: the vertices that the sweep meets.
* **`Network.Search.found_run`**: what a search finds until every trail is left.
* **`Network.search_eq`**: the search finds the paths, in their order.
-/

namespace Dataflow

namespace Network

variable {n : Network} {admits : ElementId → Bool} {goal : ElementId}

/-! ### Back from the goal -/

/-- What holds of the goal, and of where an edge comes from if it holds of where it leads, holds of
every vertex that can complete a path. -/
theorem completing_induction {motive : ElementId → Prop} (hgoal : motive goal)
    (step : ∀ u v, motive v → Opens admits goal v → n.Step u v → motive u) {v : ElementId}
    (hv : v ∈ n.completing admits goal) : motive v := by
  have hstep : ∀ {a b}, motive a →
      b ∈ (if (a = goal || admits a) = true then n.predecessors a else []) → motive b := by
    intro a b ha hb
    split at hb
    · rename_i hopen
      exact step b a ha (by simpa [Opens] using hopen) (mem_predecessors.mp hb)
    · exact absurd hb List.not_mem_nil
  have hvia : ∀ {a b}, Via (fun v => if v = goal || admits v then n.predecessors v else []) n.nodes
      a b → motive a → motive b := by
    intro a b h
    induction h with
    | single hb _ => exact fun ha => hstep ha hb
    | head hb _ _ ih => exact fun ha => ih (hstep ha hb)
  rcases List.mem_cons.mp hv with rfl | hv
  · exact hgoal
  · obtain ⟨g, hg, h⟩ := mem_sweep.mp hv
    cases List.mem_singleton.mp hg
    exact hvia h hgoal

namespace Retreat

theorem mem_reached_note {r : Retreat} {v w : ElementId} :
    w ∈ (r.note admits v).reached ↔ w ∈ r.reached ∨ w = v := by
  unfold note
  split
  · rename_i hv
    exact ⟨.inl, fun h => h.elim id fun h => h ▸ hv⟩
  · rw [SortedSet.mem_insert, or_comm]

theorem mem_pending_note {r : Retreat} {v w : ElementId} : w ∈ (r.note admits v).pending ↔
    w ∈ r.pending ∨ w = v ∧ w ∉ r.reached ∧ admits w = true := by
  unfold note
  split
  · rename_i hv
    exact ⟨.inl, fun h => h.resolve_right fun hw => hw.2.1 (hw.1 ▸ hv)⟩
  · rename_i hv
    by_cases hw : w = v
    · subst hw
      cases ha : admits w <;> simp [hv]
    · cases ha : admits v <;> simp [hw]

theorem mem_reached_foldl_note {vs : List ElementId} {r : Retreat} {w : ElementId} :
    w ∈ (vs.foldl (note admits) r).reached ↔ w ∈ r.reached ∨ w ∈ vs := by
  induction vs generalizing r with
  | nil => simp
  | cons v vs ih => rw [List.foldl_cons, ih, mem_reached_note, List.mem_cons, or_assoc]

theorem mem_pending_foldl_note {vs : List ElementId} {r : Retreat} {w : ElementId} :
    w ∈ (vs.foldl (note admits) r).pending ↔
      w ∈ r.pending ∨ w ∈ vs ∧ w ∉ r.reached ∧ admits w = true := by
  induction vs generalizing r with
  | nil => simp
  | cons v vs ih =>
    rw [List.foldl_cons, ih, mem_pending_note, mem_reached_note, List.mem_cons]
    by_cases hw : w = v
    · simp [hw]
    · simp [hw]

/-- What holds as long as a sweep is on its way. -/
structure Inv (n : Network) (admits : ElementId → Bool) (goal : ElementId) (r : Retreat) :
    Prop where
  root : goal ∈ r.reached
  sound : ∀ v ∈ r.reached, v ∈ n.completing admits goal
  pending_reached : ∀ v ∈ r.pending, v ∈ r.reached ∧ Opens admits goal v
  closed : ∀ v ∈ r.reached, Opens admits goal v → v ∈ r.pending ∨ ∀ u, n.Step u v → u ∈ r.reached

/-- **One vertex less is pending.** -/
theorem Inv.next {r : Retreat} (h : r.Inv n admits goal) {v : ElementId} {pending : List ElementId}
    (hp : r.pending = v :: pending) :
    Inv n admits goal ((n.predecessors v).foldl (note admits) ⟨r.reached, pending⟩) := by
  obtain ⟨hv, hopen⟩ := h.pending_reached v (hp ▸ List.mem_cons_self)
  refine ⟨?root, ?sound, ?pending_reached, ?closed⟩
  case root => exact mem_reached_foldl_note.mpr (.inl h.root)
  case sound =>
    intro u hu
    rcases mem_reached_foldl_note.mp hu with hu | hu
    · exact h.sound u hu
    · exact mem_completing_of_step (h.sound v hv) hopen (mem_predecessors.mp hu)
  case pending_reached =>
    intro u hu
    rcases mem_pending_foldl_note.mp hu with hu | ⟨hu, -, ha⟩
    · obtain ⟨hr, ho⟩ := h.pending_reached u (hp ▸ List.mem_cons_of_mem _ hu)
      exact ⟨mem_reached_foldl_note.mpr (.inl hr), ho⟩
    · exact ⟨mem_reached_foldl_note.mpr (.inr hu), .inr ha⟩
  case closed =>
    intro w hw ho
    by_cases hold : w ∈ r.reached
    · rcases h.closed w hold ho with hwp | hall
      · rw [hp] at hwp
        rcases List.mem_cons.mp hwp with rfl | hwp
        · exact .inr fun u hu => mem_reached_foldl_note.mpr (.inr (mem_predecessors.mpr hu))
        · exact .inl (mem_pending_foldl_note.mpr (.inl hwp))
      · exact .inr fun u hu => mem_reached_foldl_note.mpr (.inl (hall u hu))
    · -- a vertex that is new is no goal, so it is pending if its edges are followed
      have hnew := (mem_reached_foldl_note.mp hw).resolve_left hold
      have ha := ho.resolve_left fun hg => hold (hg ▸ h.root)
      exact .inl (mem_pending_foldl_note.mpr (.inr ⟨hnew, hold, ha⟩))

/-- **A sweep meets the vertices that can complete a path.** -/
theorem Inv.mem_run {r : Retreat} (h : r.Inv n admits goal) {v : ElementId} :
    v ∈ r.run n admits ↔ v ∈ n.completing admits goal := by
  fun_induction Retreat.run n admits r with
  | case1 r hp =>
    refine ⟨h.sound v, completing_induction h.root fun u w hw ho hu => ?_⟩
    rcases h.closed w hw ho with hwp | hall
    · exact absurd (hp ▸ hwp) List.not_mem_nil
    · exact hall u hu
  | case2 r w pending hp ih => exact ih (h.next hp)

end Retreat

theorem mem_reaching {v : ElementId} :
    v ∈ n.reaching admits goal ↔ v ∈ n.completing admits goal := by
  refine Retreat.Inv.mem_run ⟨?_, fun v hv => ?_, fun v hv => ?_, fun v hv _ => ?_⟩
  · exact SortedSet.mem_ofList.mpr List.mem_cons_self
  · exact List.mem_cons.mpr (.inl (List.mem_singleton.mp (SortedSet.mem_ofList.mp hv)))
  · exact ⟨SortedSet.mem_ofList.mpr hv, .inl (List.mem_singleton.mp hv)⟩
  · exact .inl (SortedSet.mem_ofList.mp hv)

/-! ### Forward -/

namespace Search

variable {offers : ElementId → Frame n}

theorem nodup_free (vs : List ElementId) : (free n vs).Nodup := (nodup_eraseDups _).filter _

theorem mem_free {vs : List ElementId} {v : ElementId} :
    v ∈ free n vs ↔ v ∈ n.nodes ∧ v ∉ vs := by
  simp [free]

theorem erase_free (vs : List ElementId) (v : ElementId) :
    (free n vs).erase v = free n (v :: vs) := by
  rw [(nodup_free vs).erase_eq_filter, free_cons, without]
  refine List.filter_congr fun w _ => ?_
  rw [Bool.eq_iff_iff]
  simp

theorem free_singleton (v : ElementId) : free n [v] = n.nodes.erase v := by
  rw [← erase_free]
  simp [free]

/-- The ways to the goal that begin with a move, from the end of a trail. -/
def waysBy (offers : ElementId → Frame n) (goal : ElementId) (vs : List ElementId) (m : Move) :
    List (List Move) :=
  if m.target = goal then [[m]]
  else if m.target ∈ free n vs then
    (arrivals (fun v => (offers v).rest) goal (free n (m.target :: vs)) m.target).map (m :: ·)
  else []

/-- A trail with the moves that follow it. -/
def prolong (vs : List ElementId) (es : List EdgeId) (ms : List Move) : Route :=
  ⟨vs.reverse ++ targets ms, es.reverse ++ ms.map (·.link)⟩

/-- What frames still lead to, where their trail is given, and what each move leads to from the end
of a trail. -/
def ahead (leadsTo : List ElementId → Move → List (List Move)) :
    List (Frame n) → List ElementId → List EdgeId → List Route
  | [], _, _ => []
  | f :: fs, vs, es => (f.rest.flatMap (leadsTo vs)).map (prolong vs es) ++
      ahead leadsTo fs vs.tail es.tail

/-- The paths that a search has found, and those that it will find. -/
def total (offers : ElementId → Frame n) (goal : ElementId) (s : Search n) : List Route :=
  s.found ++ ahead (waysBy offers goal) s.frames s.vertices s.edges

theorem arrivals_free (vs : List ElementId) (v : ElementId) :
    arrivals (fun v => (offers v).rest) goal (free n vs) v =
      (offers v).rest.flatMap (waysBy offers goal vs) := by
  rw [arrivals_eq]
  refine List.flatMap_congr fun m _ => ?_
  rw [erase_free]
  rfl

theorem prolong_cons (vs : List ElementId) (es : List EdgeId) (m : Move) (ms : List Move) :
    prolong vs es (m :: ms) = prolong (m.target :: vs) (m.link :: es) ms := by
  simp [prolong, targets]

/-- The next move of the last frame comes before what is tried after it. -/
theorem ahead_eq_advance {leadsTo : List ElementId → Move → List (List Move)} {s : Search n}
    {f : Frame n} {fs : List (Frame n)} {m : Move} {ms : List Move} (hf : s.frames = f :: fs)
    (hrest : f.rest = m :: ms) : ahead leadsTo s.frames s.vertices s.edges =
      (leadsTo s.vertices m).map (prolong s.vertices s.edges) ++
        ahead leadsTo (f.advance :: fs) s.vertices s.edges := by
  have hadvance : f.advance.rest = ms := congrArg List.tail hrest
  rw [hf, ahead, ahead, hrest, hadvance, List.flatMap_cons, List.map_append, List.append_assoc]

/-- **A step only moves paths from what is ahead to what is found.** -/
theorem total_step {s s' : Search n} (h : s.step offers goal = some s') :
    s'.total offers goal = s.total offers goal := by
  cases next_of_step h with
  | leaves hf hrest =>
    show s.found ++ ahead (waysBy offers goal) s.frames.tail s.vertices.tail s.edges.tail =
      s.found ++ ahead (waysBy offers goal) s.frames s.vertices s.edges
    rw [hf, ahead, hrest]
    rfl
  | @arrives f fs m ms hf hrest hgoal =>
    have hway : (waysBy offers goal s.vertices m).map (prolong s.vertices s.edges) =
        [⟨(m.target :: s.vertices).reverse, (m.link :: s.edges).reverse⟩] := by
      simp [waysBy, hgoal, prolong, targets]
    show s.found ++ [_] ++ ahead (waysBy offers goal) (f.advance :: fs) s.vertices s.edges = _
    rw [total, ahead_eq_advance hf hrest, hway, List.append_assoc]
    rfl
  | @passes f fs m ms hf hrest hgoal hon =>
    have hway : waysBy offers goal s.vertices m = [] := by
      rw [waysBy, if_neg hgoal, if_neg fun h => (mem_free.mp h).2 hon]
    show s.found ++ ahead (waysBy offers goal) (f.advance :: fs) s.vertices s.edges = _
    rw [total, ahead_eq_advance hf hrest, hway]
    rfl
  | @enters f fs m ms hf hrest hgoal hon =>
    have hfree : m.target ∈ free n s.vertices :=
      mem_free.mpr ⟨f.rest_mem m (hrest ▸ List.mem_cons_self), mt (s.mem_onPath _).mpr hon⟩
    -- the ways by the move are those that the frame it opens leads to
    have hway : (waysBy offers goal s.vertices m).map (prolong s.vertices s.edges) =
        ((offers m.target).rest.flatMap (waysBy offers goal (m.target :: s.vertices))).map
          (prolong (m.target :: s.vertices) (m.link :: s.edges)) := by
      rw [waysBy, if_neg hgoal, if_pos hfree, arrivals_free, List.map_map]
      exact List.map_congr_left fun ms _ => prolong_cons _ _ _ _
    show s.found ++ ahead (waysBy offers goal) (offers m.target :: f.advance :: fs)
      (m.target :: s.vertices) (m.link :: s.edges) = _
    rw [total, ahead_eq_advance hf hrest, hway, ahead]
    rfl

/-- **In the end a search has found what it had found, and all that was ahead.** -/
theorem found_run (s : Search n) : (s.run offers goal).found = s.total offers goal := by
  fun_induction run offers goal s with
  | case1 s h =>
    rw [total, step_eq_none_iff.mp h, ahead, List.append_nil]
  | case2 s s' h ih => rw [ih, total_step h]

end Search

/-- The moves towards a goal depend on which vertices can complete a path, and on nothing else. -/
theorem movesTowards_congr {xs ys : List ElementId} (h : ∀ v, v ∈ xs ↔ v ∈ ys) (v : ElementId) :
    n.movesTowards admits goal xs v = n.movesTowards admits goal ys v := by
  have hcontains : ∀ w, xs.contains w = ys.contains w := by
    intro w
    rw [Bool.eq_iff_iff, List.contains_iff_mem, List.contains_iff_mem]
    exact h w
  unfold movesTowards
  refine List.filterMap_congr fun l _ => ?_
  rw [hcontains]

/-- The frames of a search offer the moves towards its goal. -/
theorem rest_towards (admits : ElementId → Bool) (t : ElementId) :
    (fun v => (Frame.towards n admits t (n.reaching admits t) v).rest) =
      n.movesTowards admits t (n.completing admits t) := by
  funext v
  exact movesTowards_congr (fun w => mem_reaching) v

/-- What a search finds from its start. -/
theorem found_start (admits : ElementId → Bool) (s t : ElementId) :
    ((Search.start (Frame.towards n admits t (n.reaching admits t) s) s).run
      (Frame.towards n admits t (n.reaching admits t)) t).found =
      (arrivals (n.movesTowards admits t (n.completing admits t)) t (n.nodes.erase s) s).map
        (Search.prolong [s] []) := by
  rw [Search.found_run, ← rest_towards, ← Search.free_singleton, Search.arrivals_free]
  exact List.append_nil _

/-- **The search finds the paths, in their order.** -/
theorem search_eq (admits : ElementId → Bool) (s t : ElementId) :
    n.search admits s t = (n.pathsThrough admits s t).map Path.route := by
  -- the sort compares lengths, which a path and its vertices and edges agree on
  have hsort : ∀ ps : List Path,
      (ps.mergeSort fun p q => p.length ≤ q.length).map Path.route =
        (ps.map Path.route).mergeSort fun p q => p.length ≤ q.length := by
    intro ps
    refine List.map_mergeSort fun p _ q _ => ?_
    simp [Route.length, Path.route]
  unfold search pathsThrough trailsThrough
  dsimp only
  rw [hsort, List.map_map]
  by_cases hends : (s ≠ t && n.contains s && n.contains t) = true
  · have hends' : ¬ (s = t || !n.contains s || !n.contains t) = true := by
      simpa [and_assoc] using hends
    rw [if_neg hends', hends, Bool.true_and]
    by_cases hstart : s ∈ n.completing admits t
    · rw [if_pos (mem_reaching.mpr hstart), found_start,
        if_pos (List.contains_iff_mem.mpr hstart)]
      rfl
    · rw [if_neg (mt mem_reaching.mp hstart), if_neg (mt List.contains_iff_mem.mp hstart)]
      simp
  · have hends' : (s = t || !n.contains s || !n.contains t) = true := by
      simpa [imp_iff_not_or, or_assoc, ← contains_iff] using hends
    rw [if_pos hends', if_neg fun h => hends (Bool.and_eq_true_iff.mp h).1]
    simp

end Network

end Dataflow
