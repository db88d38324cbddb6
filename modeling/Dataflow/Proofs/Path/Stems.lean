import Dataflow.Proofs.Path.Search
import Dataflow.Proofs.Plan.Edge

/-!
# The trails that the search extends

The search for paths sets out on one frame and pushes another for each vertex that it enters. A
trail on which it has pushed a frame is a stem: the search tries to extend it.

The sweep back from the goal looks at no trail. It finds the vertices that can complete a path, but
the way on from one of them may run into the trail that leads there. Without cycles it does not, so
no stem is a dead end.

* **`Fruitful.mem_stems_iff`**: where every stem begins a trail that arrives, the stems are the
  beginnings of those trails.
* **`Fruitful.length_stems_add_le`**: then they are no more than the moves of those trails, and one.
* **`Network.Acyclic.fruitful`**: without cycles every stem begins a trail that arrives.
* **`Network.search_avoids_dead_ends`**: so the search pushes a frame on the proper beginnings of the
  paths that it returns, and on nothing else.
-/

namespace Dataflow

open Relation
open Network (arrives)

/-! ### Stems -/

/-- The trails that a depth-first search extends, in its order: the one without moves, and those
that do not arrive. -/
def stems (moves : ElementId → List Move) (goal : ElementId) (unvisited : List ElementId)
    (v : ElementId) : List (List Move) :=
  [] :: (trails moves goal unvisited v).filter fun ms => !arrives goal ms

section Stems

variable {moves : ElementId → List Move} {goal v : ElementId} {pool : List ElementId}

/-- The stems by the first move they make. -/
theorem stems_eq (pool : List ElementId) (v : ElementId) :
    stems moves goal pool v = [] :: (moves v).flatMap fun m =>
      if m.target = goal then []
      else if m.target ∈ pool then
        (stems moves goal (pool.erase m.target) m.target).map (m :: ·)
      else [] :=
  congrArg _ (filter_trails (fun b => !b) pool v)

theorem nil_mem_stems : [] ∈ stems moves goal pool v := List.mem_cons_self

theorem cons_mem_stems {m : Move} {ms : List Move} : m :: ms ∈ stems moves goal pool v ↔
    m ∈ moves v ∧ m.target ≠ goal ∧ m.target ∈ pool ∧
      ms ∈ stems moves goal (pool.erase m.target) m.target := by
  rw [stems_eq, List.mem_cons, or_iff_right (List.cons_ne_nil _ _), List.mem_flatMap]
  constructor
  · rintro ⟨m', hm', h⟩
    split at h
    · exact absurd h List.not_mem_nil
    · rename_i hg
      split at h
      · rename_i hu
        obtain ⟨_, hms, he⟩ := List.mem_map.mp h
        cases he
        exact ⟨hm', hg, hu, hms⟩
      · exact absurd h List.not_mem_nil
  · rintro ⟨hm, hg, hu, hms⟩
    refine ⟨m, hm, ?_⟩
    rw [if_neg hg, if_pos hu]
    exact List.mem_map_of_mem hms

theorem not_arrives_of_mem_stems {ms : List Move} (h : ms ∈ stems moves goal pool v) :
    arrives goal ms = false := by
  rcases List.mem_cons.mp h with rfl | h
  · rfl
  · simpa using (List.mem_filter.mp h).2

/-- The search extends every beginning of a trail that arrives. -/
theorem take_mem_stems {as : List Move} (has : as ∈ arrivals moves goal pool v) {k : Nat}
    (hk : k < as.length) : as.take k ∈ stems moves goal pool v := by
  induction as generalizing pool v k with
  | nil => exact absurd hk (Nat.not_lt_zero _)
  | cons m as ih =>
    cases k with
    | zero => exact nil_mem_stems
    | succ k =>
      have hk : k < as.length := Nat.lt_of_succ_lt_succ hk
      rcases cons_mem_arrivals.mp has with ⟨hm, ⟨-, rfl⟩ | ⟨hg, hu, has⟩⟩
      · exact absurd hk (Nat.not_lt_zero _)
      · exact cons_mem_stems.mpr ⟨hm, hg, hu, ih has hk⟩

/-- Every stem begins a trail that arrives. -/
def Fruitful (moves : ElementId → List Move) (goal : ElementId) (pool : List ElementId)
    (v : ElementId) : Prop :=
  ∀ ms ∈ stems moves goal pool v, ∃ as ∈ arrivals moves goal pool v, ms <+: as

/-- **Where every stem is fruitful, the stems are the beginnings of the trails that arrive.** -/
theorem Fruitful.mem_stems_iff (h : Fruitful moves goal pool v) {ms : List Move} :
    ms ∈ stems moves goal pool v ↔
      ∃ as ∈ arrivals moves goal pool v, ∃ k < as.length, ms = as.take k := by
  constructor
  · intro hms
    obtain ⟨as, has, hbegins⟩ := h ms hms
    refine ⟨as, has, ms.length, ?_, List.prefix_iff_eq_take.mp hbegins⟩
    refine Nat.lt_of_le_of_ne hbegins.length_le fun hlength => ?_
    have harrives : arrives goal as = true := (List.mem_filter.mp has).2
    rw [← hbegins.eq_of_length hlength, not_arrives_of_mem_stems hms] at harrives
    cases harrives
  · rintro ⟨as, has, k, hk, rfl⟩
    exact take_mem_stems has hk

theorem Fruitful.length_arrivals_pos (h : Fruitful moves goal pool v) :
    0 < (arrivals moves goal pool v).length := by
  obtain ⟨as, has, -⟩ := h [] nil_mem_stems
  exact List.length_pos_of_mem has

/-- What follows a move that the search goes on by is fruitful too. -/
theorem Fruitful.next (h : Fruitful moves goal pool v) {m : Move} (hm : m ∈ moves v)
    (hg : m.target ≠ goal) (hu : m.target ∈ pool) :
    Fruitful moves goal (pool.erase m.target) m.target := by
  intro ms hms
  obtain ⟨as, has, rest, rfl⟩ := h (m :: ms) (cons_mem_stems.mpr ⟨hm, hg, hu, hms⟩)
  rcases (cons_mem_arrivals.mp has).2 with ⟨hg', -⟩ | ⟨-, -, has⟩
  · exact absurd hg' hg
  · exact ⟨ms ++ rest, has, List.prefix_append _ _⟩

/-- A bound on lists part by part is one on the whole. -/
theorem length_flatMap_add_le {α β : Type} (f g : α → List (List β)) {l : List α}
    (h : ∀ a ∈ l, (f a).length + (g a).length ≤ (g a).flatten.length) :
    (l.flatMap f).length + (l.flatMap g).length ≤ (l.flatMap g).flatten.length := by
  induction l with
  | nil => exact Nat.le_refl _
  | cons a l ih =>
    obtain ⟨ha, hl⟩ := List.forall_mem_cons.mp h
    have := ih hl
    simp only [List.flatMap_cons, List.flatten_append, List.length_append]
    omega

/-- Lists that become longer by one are together longer by their number. -/
theorem length_flatten_map_cons {α : Type} (a : α) (ls : List (List α)) :
    (ls.map (a :: ·)).flatten.length = ls.flatten.length + ls.length := by
  induction ls with
  | nil => rfl
  | cons l ls ih =>
    simp only [List.map_cons, List.flatten_cons, List.length_append, List.length_cons, ih]
    omega

/-- **Where every stem is fruitful, stems and trails that arrive are together no more than the moves
of those trails, and one.** -/
theorem Fruitful.length_stems_add_le {pool : List ElementId} {v : ElementId}
    (h : Fruitful moves goal pool v) :
    (stems moves goal pool v).length + (arrivals moves goal pool v).length ≤
      (arrivals moves goal pool v).flatten.length + 1 := by
  rw [stems_eq, arrivals_eq, List.length_cons, Nat.add_right_comm, Nat.add_le_add_iff_right]
  refine length_flatMap_add_le _ _ fun m hm => ?_
  by_cases hg : m.target = goal
  · simp [hg]
  · by_cases hu : m.target ∈ pool
    · have hshorter := length_erase_lt hu
      have hnext := h.next hm hg hu
      have hpos := hnext.length_arrivals_pos
      have ih := hnext.length_stems_add_le
      -- the move makes each trail beyond it longer by one, and there is such a trail
      rw [if_neg hg, if_neg hg, if_pos hu, if_pos hu, length_flatten_map_cons, List.length_map,
        List.length_map]
      omega
    · simp [hg, hu]
termination_by pool.length

end Stems

/-- The first edges of a path, and the vertices along them. -/
def Route.take (k : Nat) (r : Route) : Route := ⟨r.vertices.take (k + 1), r.edges.take k⟩

namespace Network

variable {n : Network} {admits : ElementId → Bool} {goal v : ElementId}

/-! ### No dead end without cycles -/

/-- The moves on the way to a goal. -/
def movesTo (n : Network) (admits : ElementId → Bool) (goal : ElementId) :
    ElementId → List Move :=
  n.movesTowards admits goal (n.completing admits goal)

theorem mem_movesTo {m : Move} : m ∈ n.movesTo admits goal v ↔
    m ∈ n.moves v ∧ (m.target = goal ∨
      m.target ∈ n.completing admits goal ∧ admits m.target = true) := by
  rw [movesTo, movesTowards_eq_filter, List.mem_filter]
  simp

/-- The sweep back meets only vertices from which moves on the way to the goal lead there. -/
theorem exists_leads_movesTo (hv : v ∈ n.completing admits goal) :
    ∃ ms, Leads (n.movesTo admits goal) v ms goal := by
  let motive : ElementId → Prop := fun u =>
    u ∈ n.completing admits goal ∧ ∃ ms, Leads (n.movesTo admits goal) u ms goal
  suffices h : motive v from h.2
  refine completing_induction ?root ?step hv
  case root => exact ⟨List.mem_cons_self, [], .nil _⟩
  case step =>
    rintro u w ⟨hw, ms, hms⟩ hopen hstep
    obtain ⟨m, hm, rfl⟩ := hstep.exists_move
    have hto : m ∈ n.movesTo admits goal u :=
      mem_movesTo.mpr ⟨hm, hopen.imp_right fun ha => ⟨hw, ha⟩⟩
    exact ⟨mem_completing_of_step hw hopen hstep, m :: ms, .cons hto hms⟩

theorem leads_of_movesTo {u w : ElementId} {ms : List Move}
    (h : Leads (n.movesTo admits goal) u ms w) : Leads n.moves u ms w := by
  induction h with
  | nil v => exact .nil v
  | cons hm _ ih => exact .cons (mem_movesTo.mp hm).1 ih

/-- Without cycles, where a vertex can complete a path and nothing that comes after it is on the
trail, a trail from it arrives. -/
theorem Acyclic.exists_arrival (ha : n.Acyclic) {pool : List ElementId} (hnd : pool.Nodup)
    (hpool : ∀ w, TransGen n.Step v w → w ∈ pool) (hv : v ∈ n.completing admits goal)
    (hne : v ≠ goal) : ∃ ms, ms ∈ arrivals (n.movesTo admits goal) goal pool v := by
  obtain ⟨ms, hms⟩ := exists_leads_movesTo hv
  have hlead := leads_of_movesTo hms
  refine ⟨ms, (mem_arrivals hnd).mpr ⟨?_, hms, ?_, fun x hx _ => ?_⟩⟩
  · rintro rfl
    cases hms
    exact hne rfl
  · exact (List.nodup_cons.mp (ha.nodup_of_leads hlead)).2
  · obtain ⟨xs, _, _, hxs, hlead, -⟩ := hlead.split hx
    exact hpool x (hlead.transGen hxs)

/-- **Without cycles every stem begins a trail that arrives.** -/
theorem Acyclic.fruitful (ha : n.Acyclic) {pool : List ElementId} (hnd : pool.Nodup)
    (hpool : ∀ w, TransGen n.Step v w → w ∈ pool) (hv : v ∈ n.completing admits goal)
    (hne : v ≠ goal) : Fruitful (n.movesTo admits goal) goal pool v := by
  intro ms hms
  induction ms generalizing pool v with
  | nil =>
    obtain ⟨as, has⟩ := ha.exists_arrival hnd hpool hv hne
    exact ⟨as, has, List.nil_prefix⟩
  | cons m ms ih =>
    obtain ⟨hm, hg, hu, hms⟩ := cons_mem_stems.mp hms
    obtain ⟨hmove, hto⟩ := mem_movesTo.mp hm
    have hstep := step_of_mem_moves hmove
    -- what comes after the vertex that is entered is neither that vertex nor on the trail to it
    have hpool' : ∀ w, TransGen n.Step m.target w → w ∈ pool.erase m.target := fun w hw =>
      hnd.mem_erase_iff.mpr ⟨(ha.ne_of_transGen hw).symm, hpool w (.head hstep hw)⟩
    obtain ⟨as, has, hbegins⟩ :=
      ih (hnd.erase _) hpool' (hto.resolve_left hg).1 hg hms
    exact ⟨m :: as, cons_mem_arrivals.mpr ⟨hm, .inr ⟨hg, hu, has⟩⟩,
      List.cons_prefix_cons.mpr ⟨rfl, hbegins⟩⟩

/-! ### The frames of a search -/

namespace Search

variable {offers : ElementId → Frame n}

/-- The trail that a search is on. -/
def trail (s : Search n) : Route := ⟨s.vertices.reverse, s.edges.reverse⟩

/-- The trail that is to be extended after a step, if the step pushed a frame. -/
def pushed (s s' : Search n) : List Route :=
  if s.frames.length < s'.frames.length then [s'.trail] else []

/-- The trails on which a search pushes a frame until it ends. -/
def pushes (offers : ElementId → Frame n) (goal : ElementId) (s : Search n) : List Route :=
  match _h : s.step offers goal with
  | none => []
  | some s' => s.pushed s' ++ s'.pushes offers goal
termination_by s.work offers goal
decreasing_by exact work_step _h

/-- The stems that begin with a move, from the end of a trail. -/
def stemsBy (offers : ElementId → Frame n) (goal : ElementId) (vs : List ElementId) (m : Move) :
    List (List Move) :=
  if m.target = goal then []
  else if m.target ∈ free n vs then
    (stems (fun v => (offers v).rest) goal (free n (m.target :: vs)) m.target).map (m :: ·)
  else []

theorem stems_free (vs : List ElementId) (v : ElementId) :
    stems (fun v => (offers v).rest) goal (free n vs) v =
      [] :: (offers v).rest.flatMap (stemsBy offers goal vs) := by
  rw [stems_eq]
  refine congrArg _ (List.flatMap_congr fun m _ => ?_)
  rw [erase_free]
  rfl

/-- **A step only moves a stem from what is ahead to what is pushed.** -/
theorem ahead_step {s s' : Search n} (h : s.step offers goal = some s') :
    ahead (stemsBy offers goal) s.frames s.vertices s.edges =
      s.pushed s' ++ ahead (stemsBy offers goal) s'.frames s'.vertices s'.edges := by
  cases next_of_step h with
  | leaves hf hrest =>
    have hpushed : s.pushed s.leave = [] := if_neg (by simp [leave])
    show _ = _ ++ ahead (stemsBy offers goal) s.frames.tail s.vertices.tail s.edges.tail
    rw [hpushed, hf, ahead, hrest]
    rfl
  | @arrives f fs m ms hf hrest hgoal =>
    have hpushed : s.pushed ((s.advance f fs).arrive m) = [] :=
      if_neg (by simp [arrive, advance, hf])
    have hstem : stemsBy offers goal s.vertices m = [] := if_pos hgoal
    rw [hpushed, ahead_eq_advance hf hrest, hstem]
    rfl
  | @passes f fs m ms hf hrest hgoal hon =>
    have hpushed : s.pushed (s.advance f fs) = [] := if_neg (by simp [advance, hf])
    have hstem : stemsBy offers goal s.vertices m = [] := by
      rw [stemsBy, if_neg hgoal, if_neg fun h => (mem_free.mp h).2 hon]
    rw [hpushed, ahead_eq_advance hf hrest, hstem]
    rfl
  | @enters f fs m ms hf hrest hgoal hon =>
    have hpushed : s.pushed ((s.advance f fs).enter m (offers m.target) hon) =
        [prolong (m.target :: s.vertices) (m.link :: s.edges) []] := by
      simp [pushed, enter, advance, trail, prolong, targets, hf]
    have hfree : m.target ∈ free n s.vertices :=
      mem_free.mpr ⟨f.rest_mem m (hrest ▸ List.mem_cons_self), mt (s.mem_onPath _).mpr hon⟩
    -- the stems by the move are the trail it leads to, and those that the frame it opens leads to
    have hstem : (stemsBy offers goal s.vertices m).map (prolong s.vertices s.edges) =
        ([] :: (offers m.target).rest.flatMap (stemsBy offers goal (m.target :: s.vertices))).map
          (prolong (m.target :: s.vertices) (m.link :: s.edges)) := by
      rw [stemsBy, if_neg hgoal, if_pos hfree, stems_free, List.map_map]
      exact List.map_congr_left fun ms _ => prolong_cons _ _ _ _
    rw [hpushed, ahead_eq_advance hf hrest, hstem, List.map_cons]
    rfl

/-- **In the end a search has pushed a frame on every stem that was ahead.** -/
theorem pushes_eq (s : Search n) :
    s.pushes offers goal = ahead (stemsBy offers goal) s.frames s.vertices s.edges := by
  fun_induction pushes offers goal s with
  | case1 s h => rw [step_eq_none_iff.mp h, ahead]
  | case2 s s' h ih => rw [ih, ahead_step h]

end Search

/-- How a search sets out from one vertex to another, on one frame, unless it is plain that no path
leads there. -/
def opening (n : Network) (admits : ElementId → Bool) (start goal : ElementId) :
    Option (Search n) :=
  if start = goal || !n.contains start || !n.contains goal then none
  else if start ∈ n.reaching admits goal then
    some (.start (Frame.towards n admits goal (n.reaching admits goal) start) start)
  else none

/-- The trails on which a search for paths has a frame: the one that it sets out on, and each that
it pushes a frame on. -/
def framed (n : Network) (admits : ElementId → Bool) (start goal : ElementId) : List Route :=
  match n.opening admits start goal with
  | none => []
  | some s => s.trail :: s.pushes (Frame.towards n admits goal (n.reaching admits goal)) goal

/-- The search runs from its opening, and sorts what it has found. -/
theorem search_eq_opening (n : Network) (admits : ElementId → Bool) (s t : ElementId) :
    n.search admits s t = match n.opening admits s t with
      | none => []
      | some x => (x.run (Frame.towards n admits t (n.reaching admits t)) t).found.mergeSort
          fun p q => p.length ≤ q.length := by
  unfold search opening
  split
  · rfl
  · dsimp only
    split <;> rfl

theorem opening_cases (n : Network) (admits : ElementId → Bool) (s t : ElementId) :
    n.opening admits s t = none ∨ s ≠ t ∧ s ∈ n.completing admits t ∧
      n.opening admits s t =
        some (.start (Frame.towards n admits t (n.reaching admits t) s) s) := by
  unfold opening
  split
  · exact .inl rfl
  · rename_i hends
    split
    · rename_i hstart
      exact .inr ⟨fun h => hends (by simp [h]), mem_reaching.mp hstart, rfl⟩
    · exact .inl rfl

/-- The trails on which a search has a frame, from its start. -/
theorem framed_start (admits : ElementId → Bool) (s t : ElementId) :
    let offers := Frame.towards n admits t (n.reaching admits t)
    (Search.start (offers s) s).trail :: (Search.start (offers s) s).pushes offers t =
      (stems (n.movesTo admits t) t (n.nodes.erase s) s).map (Search.prolong [s] []) := by
  intro offers
  rw [Search.pushes_eq, movesTo, ← rest_towards, ← Search.free_singleton, Search.stems_free]
  exact congrArg _ (List.append_nil _)

/-- Without cycles every stem from where a search sets out begins a trail that arrives. -/
theorem Acyclic.fruitful_start (ha : n.Acyclic) (hs : s ∈ n.completing admits t) (hne : s ≠ t) :
    Fruitful (n.movesTo admits t) t (n.nodes.erase s) s := by
  have hnodes : n.nodes.Nodup := nodup_eraseDups _
  refine ha.fruitful (hnodes.erase s) (fun w hw => ?_) hs hne
  obtain ⟨_, -, l, hl, -, rfl⟩ := TransGen.tail'_iff.mp hw
  exact hnodes.mem_erase_iff.mpr ⟨(ha.ne_of_transGen hw).symm, target_mem_nodes hl⟩

theorem take_prolong (s : ElementId) (ms : List Move) (k : Nat) :
    (Search.prolong [s] [] ms).take k = Search.prolong [s] [] (ms.take k) := by
  simp [Search.prolong, Route.take, targets]

theorem length_prolong (s : ElementId) (ms : List Move) :
    (Search.prolong [s] [] ms).length = ms.length := by
  simp [Search.prolong, Route.length]

theorem flatMap_edges_prolong (s : ElementId) (mss : List (List Move)) :
    (mss.map (Search.prolong [s] [])).flatMap Route.edges = mss.flatten.map (·.link) := by
  rw [List.flatMap_map, List.map_flatten]
  rfl

/-- Either a search does not set out, and returns nothing, or it has its frames on the stems from its
start, and returns the trails that arrive. -/
theorem framed_cases (n : Network) (admits : ElementId → Bool) (s t : ElementId) :
    n.framed admits s t = [] ∧ n.search admits s t = [] ∨
      s ≠ t ∧ s ∈ n.completing admits t ∧
        n.framed admits s t =
          (stems (n.movesTo admits t) t (n.nodes.erase s) s).map (Search.prolong [s] []) ∧
        (n.search admits s t).Perm
          ((arrivals (n.movesTo admits t) t (n.nodes.erase s) s).map (Search.prolong [s] [])) := by
  rw [search_eq_opening, framed]
  rcases n.opening_cases admits s t with hopening | ⟨hne, hs, hopening⟩
  · rw [hopening]
    exact .inl ⟨rfl, rfl⟩
  · rw [hopening]
    exact .inr ⟨hne, hs, framed_start admits s t,
      (List.mergeSort_perm _ _).trans (.of_eq (found_start admits s t))⟩

/-- **Without cycles the search walks into no dead end.** The trails on which it has a frame are the
proper beginnings of the paths that it returns, and no others. So there are at most as many frames
as these paths have edges in all, and one; less one for each path. -/
theorem search_avoids_dead_ends (ha : n.Acyclic) (admits : ElementId → Bool) (s t : ElementId) :
    (∀ r, r ∈ n.framed admits s t ↔
      ∃ p ∈ n.search admits s t, ∃ k < p.length, r = p.take k) ∧
    (n.framed admits s t).length + (n.search admits s t).length ≤
      ((n.search admits s t).flatMap Route.edges).length + 1 := by
  rcases n.framed_cases admits s t with ⟨hframed, hsearch⟩ | ⟨hne, hs, hframed, hsearch⟩
  · simp [hframed, hsearch]
  · have hfruitful := ha.fruitful_start hs hne
    constructor
    · intro r
      simp only [hframed, hsearch.mem_iff, List.mem_map, hfruitful.mem_stems_iff]
      constructor
      · rintro ⟨_, ⟨as, has, k, hk, rfl⟩, rfl⟩
        exact ⟨_, ⟨as, has, rfl⟩, k, (length_prolong s as).symm ▸ hk, (take_prolong s as k).symm⟩
      · rintro ⟨_, ⟨as, has, rfl⟩, k, hk, rfl⟩
        exact ⟨_, ⟨as, has, k, length_prolong s as ▸ hk, rfl⟩, (take_prolong s as k).symm⟩
    · have hedges : ((n.search admits s t).flatMap Route.edges).length =
          (arrivals (n.movesTo admits t) t (n.nodes.erase s) s).flatten.length := by
        rw [(hsearch.flatMap_right _).length_eq, flatMap_edges_prolong, List.length_map]
      rw [hframed, hsearch.length_eq, List.length_map, List.length_map, hedges]
      exact hfruitful.length_stems_add_le

/-- Two parallel edges lead to a vertex from which one edge goes on and another into a dead end. A
second way goes through a vertex that may be closed. -/
def spur : Plan :=
  Plan.empty.sketch [⟨2⟩, ⟨3⟩, ⟨4⟩, ⟨5⟩, ⟨6⟩]
    [(⟨2⟩, ⟨3⟩), (⟨2⟩, ⟨3⟩), (⟨3⟩, ⟨5⟩), (⟨3⟩, ⟨6⟩), (⟨2⟩, ⟨4⟩), (⟨4⟩, ⟨6⟩)]

theorem search_avoids_dead_ends_spur : spur.network.Acyclic ∧
    spur.network.framed (· ≠ ⟨4⟩) ⟨2⟩ ⟨6⟩ =
      [⟨[⟨2⟩], []⟩, ⟨[⟨2⟩, ⟨3⟩], [0]⟩, ⟨[⟨2⟩, ⟨3⟩], [1]⟩] ∧
    spur.network.search (· ≠ ⟨4⟩) ⟨2⟩ ⟨6⟩ =
      [⟨[⟨2⟩, ⟨3⟩, ⟨6⟩], [0, 3]⟩, ⟨[⟨2⟩, ⟨3⟩, ⟨6⟩], [1, 3]⟩] ∧
    (∃ p ∈ spur.network.search (· ≠ ⟨4⟩) ⟨2⟩ ⟨6⟩, ∃ k < p.length,
      ⟨[⟨2⟩, ⟨3⟩], [1]⟩ = p.take k) ∧
    3 + 2 ≤ ((spur.network.search (· ≠ ⟨4⟩) ⟨2⟩ ⟨6⟩).flatMap Route.edges).length + 1 := by
  let offers := Frame.towards spur.network (· ≠ ⟨4⟩) ⟨6⟩ (spur.network.reaching (· ≠ ⟨4⟩) ⟨6⟩)
  obtain ⟨hends, hstart, hframed, hfound⟩ :
      ¬ ((⟨2⟩ : ElementId) = ⟨6⟩ || !spur.network.contains ⟨2⟩ ||
        !spur.network.contains ⟨6⟩) = true ∧
      ⟨2⟩ ∈ spur.network.reaching (· ≠ ⟨4⟩) ⟨6⟩ ∧
      spur.network.framed (· ≠ ⟨4⟩) ⟨2⟩ ⟨6⟩ =
        [⟨[⟨2⟩], []⟩, ⟨[⟨2⟩, ⟨3⟩], [0]⟩, ⟨[⟨2⟩, ⟨3⟩], [1]⟩] ∧
      ((Search.start (offers ⟨2⟩) ⟨2⟩).run offers ⟨6⟩).found =
        [⟨[⟨2⟩, ⟨3⟩, ⟨6⟩], [0, 3]⟩, ⟨[⟨2⟩, ⟨3⟩, ⟨6⟩], [1, 3]⟩] := by decide +kernel
  have hsearch : spur.network.search (· ≠ ⟨4⟩) ⟨2⟩ ⟨6⟩ =
      [⟨[⟨2⟩, ⟨3⟩, ⟨6⟩], [0, 3]⟩, ⟨[⟨2⟩, ⟨3⟩, ⟨6⟩], [1, 3]⟩] := by
    rw [search, if_neg hends]
    show (if _ then List.mergeSort ((Search.start (offers ⟨2⟩) ⟨2⟩).run offers ⟨6⟩).found _
      else []) = _
    rw [if_pos hstart, hfound]
    exact List.mergeSort_of_pairwise (by decide)
  obtain ⟨hmem, hlength⟩ := search_avoids_dead_ends spur.acyclic (· ≠ ⟨4⟩) ⟨2⟩ ⟨6⟩
  refine ⟨spur.acyclic, hframed, hsearch, (hmem _).mp (by rw [hframed]; decide), ?_⟩
  rwa [hframed, congrArg List.length hsearch] at hlength

end Network

end Dataflow
