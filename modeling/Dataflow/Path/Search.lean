import Dataflow.Data.SortedSet
import Dataflow.Path

/-!
# The search for paths, step by step

The paths as a search comes upon them. A sweep back from the goal finds the vertices that can
complete a path. Then the search goes forward on a stack of frames, one for each vertex of the trail
that it is on, with the moves that are still to be tried there. The vertices of the trail, its edges
and the set of its vertices are kept beside the frames, and grow and shrink with them.

Model of `paths_through` with its `Frame`, and of `vertices_reaching` (`paths`), turn by turn.

* **`Network.Retreat.work_note`, `Network.Search.work_step`**: every step of either leaves less to
  do.
-/

namespace Dataflow

/-- A path by its vertices and its edges, each in their order. -/
structure Route where
  vertices : List ElementId
  edges : List EdgeId
deriving DecidableEq, Repr

namespace Route

/-- The number of edges. -/
def length (r : Route) : Nat := r.edges.length

/-- The vertices strictly between the ends. -/
def interior (r : Route) : List ElementId := r.vertices.tail.dropLast

end Route

/-- The vertices and the edges of a path. -/
def Path.route (p : Path) : Route := ⟨p.vertices, p.links⟩

namespace Network

/-- The members of a list other than `v`. -/
def without (vs : List ElementId) (v : ElementId) : List ElementId := vs.filter fun w => w ≠ v

theorem length_without_lt {vs : List ElementId} {v : ElementId} (h : v ∈ vs) :
    (without vs v).length < vs.length :=
  List.length_filter_lt_length_iff_exists.mpr ⟨v, h, by simp⟩

/-! ### Back from the goal -/

/-- How far a sweep back has come. -/
structure Retreat where
  /-- The vertices that are met. -/
  reached : SortedSet ElementId
  /-- The vertices whose edges are still to be followed back, the latest first. -/
  pending : List ElementId

namespace Retreat

/-- Meets a vertex. If it is new and admitted, its edges are to be followed in turn. -/
def note (admits : ElementId → Bool) (r : Retreat) (v : ElementId) : Retreat :=
  if v ∈ r.reached then r
  else ⟨r.reached.insert v, if admits v then v :: r.pending else r.pending⟩

/-- The number of vertices that are not met, and of those that are pending. -/
def work (n : Network) (r : Retreat) : Nat :=
  (n.nodes.filter fun v => v ∉ r.reached).length + r.pending.length

theorem work_note {n : Network} (admits : ElementId → Bool) (r : Retreat) {v : ElementId}
    (hv : v ∈ n.nodes) : (r.note admits v).work n ≤ r.work n := by
  unfold note
  split
  · exact Nat.le_refl _
  · rename_i hnew
    have hfewer : (n.nodes.filter fun w => w ∉ r.reached.insert v).length <
        (n.nodes.filter fun w => w ∉ r.reached).length := by
      have hsplit : (n.nodes.filter fun w => w ∉ r.reached.insert v) =
          without (n.nodes.filter fun w => w ∉ r.reached) v := by
        unfold without
        rw [List.filter_filter]
        exact List.filter_congr fun w _ => by simp
      rw [hsplit]
      exact length_without_lt (List.mem_filter.mpr ⟨hv, by simpa using hnew⟩)
    have hpending : (if admits v then v :: r.pending else r.pending).length ≤
        r.pending.length + 1 := by
      split <;> simp
    show (n.nodes.filter fun w => w ∉ r.reached.insert v).length +
      (if admits v then v :: r.pending else r.pending).length ≤ r.work n
    unfold work
    omega

theorem work_foldl_note {n : Network} (admits : ElementId → Bool) : ∀ {vs : List ElementId}
    (r : Retreat), (∀ v ∈ vs, v ∈ n.nodes) → (vs.foldl (note admits) r).work n ≤ r.work n
  | [], _, _ => Nat.le_refl _
  | v :: _, r, h =>
    Nat.le_trans (work_foldl_note admits (r.note admits v) fun w hw => h w (.tail v hw))
      (work_note admits r (h v List.mem_cons_self))

/-- The vertices that the sweep meets in all. -/
def run (n : Network) (admits : ElementId → Bool) (r : Retreat) : SortedSet ElementId :=
  match _h : r.pending with
  | [] => r.reached
  | v :: pending => ((n.predecessors v).foldl (note admits) ⟨r.reached, pending⟩).run n admits
termination_by r.work n
decreasing_by
  have hnodes : ∀ u ∈ n.predecessors v, u ∈ n.nodes := fun u hu => by
    obtain ⟨l, hl, hs, -⟩ := mem_predecessors.mp hu
    exact hs ▸ source_mem_nodes hl
  refine Nat.lt_of_le_of_lt (work_foldl_note admits ⟨r.reached, pending⟩ hnodes) ?_
  unfold work
  rw [_h]
  exact Nat.lt_succ_self _

end Retreat

/-- The vertices from which a path to `goal` can be completed, and `goal` itself. -/
def reaching (n : Network) (admits : ElementId → Bool) (goal : ElementId) : SortedSet ElementId :=
  Retreat.run n admits ⟨.ofList [goal], [goal]⟩

/-! ### Forward -/

/-- The moves that are still to be tried from a vertex. -/
structure Frame (n : Network) where
  rest : List Move
  rest_mem : ∀ m ∈ rest, m.target ∈ n.nodes

namespace Frame

variable {n : Network}

/-- The frame without its next move. -/
def advance (f : Frame n) : Frame n where
  rest := f.rest.tail
  rest_mem m h := f.rest_mem m (List.mem_of_mem_tail h)

/-- All moves from a vertex that go on towards a goal. -/
def towards (n : Network) (admits : ElementId → Bool) (goal : ElementId)
    (reached : SortedSet ElementId) (v : ElementId) : Frame n where
  rest := n.movesTowards admits goal reached.toList v
  rest_mem m h := by
    obtain ⟨l, hl, h⟩ := List.mem_filterMap.mp h
    split at h
    · obtain rfl := Option.some.inj h
      exact target_mem_nodes (mem_outgoing.mp hl).1
    · cases h

end Frame

/-- How far a search has come. The trail is kept from its end back to its start. -/
structure Search (n : Network) where
  frames : List (Frame n)
  vertices : List ElementId
  edges : List EdgeId
  /-- The vertices of the trail. -/
  onPath : SortedSet ElementId
  found : List Route
  vertices_nodup : vertices.Nodup
  mem_onPath : ∀ v, v ∈ onPath ↔ v ∈ vertices

namespace Search

variable {n : Network}

/-- The trail of one vertex. -/
def start (f : Frame n) (v : ElementId) : Search n where
  frames := [f]
  vertices := [v]
  edges := []
  onPath := .ofList [v]
  found := []
  vertices_nodup := by simp
  mem_onPath _ := SortedSet.mem_ofList

/-- Goes back by one vertex. -/
def leave (s : Search n) : Search n where
  frames := s.frames.tail
  vertices := s.vertices.tail
  edges := s.edges.tail
  onPath := match s.vertices with
    | [] => s.onPath
    | v :: _ => s.onPath.erase v
  found := s.found
  vertices_nodup := s.vertices_nodup.tail
  mem_onPath w := by
    have hnd := s.vertices_nodup
    have hmem := s.mem_onPath w
    split
    · rename_i hvs
      simpa [hvs] using hmem
    · rename_i v vs hvs
      rw [hvs] at hnd hmem
      have hv := (List.nodup_cons.mp hnd).1
      rw [SortedSet.mem_erase, hmem, hvs, List.mem_cons, List.tail_cons]
      constructor
      · rintro ⟨rfl | hw, hne⟩
        · exact absurd rfl hne
        · exact hw
      · intro hw
        refine ⟨.inr hw, ?_⟩
        rintro rfl
        exact hv hw

/-- The search without the next move of its last frame. -/
def advance (s : Search n) (f : Frame n) (fs : List (Frame n)) : Search n :=
  { s with frames := f.advance :: fs }

/-- Notes the path that a move completes. -/
def arrive (s : Search n) (m : Move) : Search n :=
  { s with
    found := s.found ++ [⟨(m.target :: s.vertices).reverse, (m.link :: s.edges).reverse⟩] }

/-- Goes on by a move to a vertex that is not on the trail. -/
def enter (s : Search n) (m : Move) (f : Frame n) (h : m.target ∉ s.onPath) : Search n where
  frames := f :: s.frames
  vertices := m.target :: s.vertices
  edges := m.link :: s.edges
  onPath := s.onPath.insert m.target
  found := s.found
  vertices_nodup := List.nodup_cons.mpr ⟨mt (s.mem_onPath _).mpr h, s.vertices_nodup⟩
  mem_onPath v := by rw [SortedSet.mem_insert, List.mem_cons, s.mem_onPath]

/-- One step of a search, as long as it is on its way. -/
def step (offers : ElementId → Frame n) (goal : ElementId) (s : Search n) : Option (Search n) :=
  match s.frames with
  | [] => none
  | f :: fs =>
    match f.rest with
    | [] => some s.leave
    | m :: _ =>
      if m.target = goal then some ((s.advance f fs).arrive m)
      else if h : m.target ∈ s.onPath then some (s.advance f fs)
      else some ((s.advance f fs).enter m (offers m.target) h)

variable {offers : ElementId → Frame n} {goal : ElementId}

/-! ### Steps -/

/-- What a step can do. -/
inductive Next (offers : ElementId → Frame n) (goal : ElementId) (s : Search n) : Search n → Prop
  | leaves {f : Frame n} {fs : List (Frame n)} : s.frames = f :: fs → f.rest = [] →
      Next offers goal s s.leave
  | arrives {f : Frame n} {fs : List (Frame n)} {m : Move} {ms : List Move} :
      s.frames = f :: fs → f.rest = m :: ms → m.target = goal →
      Next offers goal s ((s.advance f fs).arrive m)
  | passes {f : Frame n} {fs : List (Frame n)} {m : Move} {ms : List Move} :
      s.frames = f :: fs → f.rest = m :: ms → m.target ≠ goal → m.target ∈ s.vertices →
      Next offers goal s (s.advance f fs)
  | enters {f : Frame n} {fs : List (Frame n)} {m : Move} {ms : List Move} :
      s.frames = f :: fs → f.rest = m :: ms → m.target ≠ goal → (h : m.target ∉ s.onPath) →
      Next offers goal s ((s.advance f fs).enter m (offers m.target) h)

theorem next_of_step {s s' : Search n} (h : s.step offers goal = some s') :
    s.Next offers goal s' := by
  unfold step at h
  split at h
  · cases h
  · rename_i f fs hframes
    split at h
    · rename_i hrest
      obtain rfl := Option.some.inj h
      exact .leaves hframes hrest
    · rename_i m ms hrest
      split at h
      · rename_i hgoal
        obtain rfl := Option.some.inj h
        exact .arrives hframes hrest hgoal
      · rename_i hgoal
        split at h
        · rename_i hon
          obtain rfl := Option.some.inj h
          exact .passes hframes hrest hgoal ((s.mem_onPath _).mp hon)
        · rename_i hon
          obtain rfl := Option.some.inj h
          exact .enters hframes hrest hgoal hon

theorem step_eq_none_iff {s : Search n} : s.step offers goal = none ↔ s.frames = [] := by
  unfold step
  split
  · rename_i hframes
    exact iff_of_true rfl hframes
  · rename_i f fs hframes
    refine iff_of_false ?_ (by simp [hframes])
    split
    · exact nofun
    · split
      · exact nofun
      · split <;> exact nofun

/-! ### The search ends -/

/-- The number of steps that a search takes from a vertex until it leaves it, where it may enter the
vertices of `free`. -/
def effort (offers : ElementId → Frame n) (goal : ElementId) (free : List ElementId)
    (v : ElementId) : Nat :=
  (offers v).rest.foldr
    (fun m later =>
      (if m.target = goal then 1
      else if _h : m.target ∈ free then 1 + effort offers goal (without free m.target) m.target
      else 1) + later) 1
termination_by free.length
decreasing_by exact length_without_lt _h

/-- The number of steps that a search takes for a move. -/
def moveEffort (offers : ElementId → Frame n) (goal : ElementId) (free : List ElementId)
    (m : Move) : Nat :=
  if m.target = goal then 1
  else if m.target ∈ free then 1 + effort offers goal (without free m.target) m.target
  else 1

/-- The number of steps that a search takes for some moves, and to leave. -/
def movesEffort (offers : ElementId → Frame n) (goal : ElementId) (free : List ElementId)
    (ms : List Move) : Nat :=
  ms.foldr (fun m later => moveEffort offers goal free m + later) 1

/-- The nodes that are not on a trail. -/
def free (n : Network) (vertices : List ElementId) : List ElementId :=
  n.nodes.filter fun v => v ∉ vertices

/-- The number of steps that a search takes on frames, the trail of which is given. -/
def framesEffort (offers : ElementId → Frame n) (goal : ElementId) :
    List (Frame n) → List ElementId → Nat
  | [], _ => 0
  | f :: fs, vs =>
    movesEffort offers goal (free n vs) f.rest + framesEffort offers goal fs vs.tail

/-- The number of steps that are left to a search. -/
def work (offers : ElementId → Frame n) (goal : ElementId) (s : Search n) : Nat :=
  framesEffort offers goal s.frames s.vertices

theorem effort_eq (free : List ElementId) (v : ElementId) :
    effort offers goal free v = movesEffort offers goal free (offers v).rest := by
  conv => lhs; unfold effort
  rfl

theorem moveEffort_pos (free : List ElementId) (m : Move) :
    0 < moveEffort offers goal free m := by
  unfold moveEffort
  split
  · exact Nat.one_pos
  · split <;> omega

theorem free_cons (v : ElementId) (vs : List ElementId) :
    free n (v :: vs) = without (free n vs) v := by
  unfold free without
  rw [List.filter_filter]
  exact List.filter_congr fun w _ => by simp

/-- Without its next move a search has less to do. -/
theorem work_advance {s : Search n} {f : Frame n} {fs : List (Frame n)} {m : Move} {ms : List Move}
    (hf : s.frames = f :: fs) (hrest : f.rest = m :: ms) : s.work offers goal =
      moveEffort offers goal (free n s.vertices) m + (s.advance f fs).work offers goal := by
  have hadvance : f.advance.rest = ms := congrArg List.tail hrest
  show framesEffort offers goal s.frames s.vertices =
    _ + framesEffort offers goal (f.advance :: fs) s.vertices
  rw [hf, framesEffort, framesEffort, hrest, hadvance, movesEffort, List.foldr_cons,
    ← Nat.add_assoc]
  rfl

/-- **Every step of the search leaves less to do.** -/
theorem work_step {s s' : Search n} (h : s.step offers goal = some s') :
    s'.work offers goal < s.work offers goal := by
  cases next_of_step h with
  | leaves hf hrest =>
    show framesEffort offers goal s.frames.tail s.vertices.tail <
      framesEffort offers goal s.frames s.vertices
    rw [hf, framesEffort, hrest]
    exact Nat.lt_add_of_pos_left Nat.one_pos
  | arrives hf hrest _ =>
    rw [work_advance hf hrest]
    exact Nat.lt_add_of_pos_left (moveEffort_pos _ _)
  | passes hf hrest _ _ =>
    rw [work_advance hf hrest]
    exact Nat.lt_add_of_pos_left (moveEffort_pos _ _)
  | @enters f fs m ms hf hrest hgoal hon =>
    -- the steps from the vertex that is entered were counted for the move
    have hfree : m.target ∈ free n s.vertices := List.mem_filter.mpr
      ⟨f.rest_mem m (hrest ▸ List.mem_cons_self), by simpa using mt (s.mem_onPath _).mpr hon⟩
    have hmove : moveEffort offers goal (free n s.vertices) m =
        1 + movesEffort offers goal (free n (m.target :: s.vertices)) (offers m.target).rest := by
      unfold moveEffort
      rw [if_neg hgoal, if_pos hfree, effort_eq, free_cons]
    rw [work_advance hf hrest, hmove]
    show movesEffort offers goal (free n (m.target :: s.vertices)) (offers m.target).rest +
      (s.advance f fs).work offers goal < _
    omega

/-- Goes on until every trail is left. -/
def run (offers : ElementId → Frame n) (goal : ElementId) (s : Search n) : Search n :=
  match _h : s.step offers goal with
  | none => s
  | some s' => s'.run offers goal
termination_by s.work offers goal
decreasing_by exact work_step _h

end Search

/-- The paths between two vertices whose interiors are admitted, as a search comes upon them, the
shortest first. -/
def search (n : Network) (admits : ElementId → Bool) (start goal : ElementId) : List Route :=
  if start = goal || !n.contains start || !n.contains goal then []
  else
    let reached := n.reaching admits goal
    if start ∈ reached then
      let offers := Frame.towards n admits goal reached
      ((Search.start (offers start) start).run offers goal).found.mergeSort
        fun p q => p.length ≤ q.length
    else []

/-- Every path between two vertices. -/
def routes (n : Network) (start goal : ElementId) : List Route :=
  n.search (fun _ => true) start goal

/-- The paths between two vertices with no boundary and no grouping between their ends. -/
def directRoutes (n : Network) (start goal : ElementId) : List Route :=
  n.search n.isPassable start goal

end Network

end Dataflow
