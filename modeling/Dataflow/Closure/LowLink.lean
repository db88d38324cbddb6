import Mathlib.Logic.Function.Basic
import Dataflow.Closure.Biconnected

/-!
# Biconnected components in one search

The components of a whole graph by one depth-first search, on a stack of frames. Every node gets the
time at which it was found, and a low link: the earliest time among its own and those of the nodes
that lead back from what was found under it. Linked pairs are put on a stack as the search meets
them. Where a node is left whose low link is no earlier than the node that it was found from, the
pairs down to the one between the two are a component.

Model of `biconnected_components` with its `Frame`, and of `find_closure_via_biconnected`
(`biconnected`), turn by turn. The graph that it searches comes from a library, of which it is
assumed that every node is listed, and every node linked to it once.

* **`Bonds.Search.work_step`**: every step of the search leaves less to do.
-/

namespace Dataflow

namespace Bonds

/-- A node on the way of the search. -/
structure Frame (b : Bonds) where
  vertex : ElementId
  /-- The node that it was found from. -/
  parent : Option ElementId
  /-- The linked nodes that are still to be looked at. -/
  rest : List ElementId
  rest_linked : ∀ w ∈ rest, w ∈ b.neighbors vertex

namespace Frame

variable {b : Bonds}

/-- A node at which nothing has been looked at. -/
def start (b : Bonds) (v : ElementId) (parent : Option ElementId) : Frame b where
  vertex := v
  parent := parent
  rest := (b.neighbors v).eraseDups
  rest_linked _ h := List.mem_eraseDups.mp h

/-- The frame without the next of its linked nodes. -/
def advance (f : Frame b) : Frame b where
  vertex := f.vertex
  parent := f.parent
  rest := f.rest.tail
  rest_linked w h := f.rest_linked w (List.mem_of_mem_tail h)

/-- What is still to be done at the node: to look at each of the linked nodes, and to leave. -/
def work (f : Frame b) : Nat := f.rest.length + 1

end Frame

/-- How far a search has come. -/
structure Search (b : Bonds) where
  /-- When a node was found. -/
  found : ElementId → Option Nat
  low : ElementId → Nat
  /-- The time of the next node that is found. -/
  time : Nat
  /-- The way to the node that is looked at, from there back to where the search began. -/
  frames : List (Frame b)
  /-- The pairs of components that are not complete, the latest first. -/
  pairs : List (ElementId × ElementId)
  components : List (SortedSet ElementId)

namespace Search

variable {b : Bonds}

/-- Nothing is found. -/
def start (b : Bonds) : Search b := ⟨fun _ => none, fun _ => 0, 0, [], [], []⟩

/-- Notes that a node is found. -/
def find (s : Search b) (w : ElementId) : Search b :=
  { s with
    found := Function.update s.found w (some s.time)
    low := Function.update s.low w s.time
    time := s.time + 1 }

/-- Finds a node and goes there. -/
def enter (s : Search b) (w : ElementId) (parent : Option ElementId) : Search b :=
  { s.find w with frames := .start b w parent :: s.frames }

/-- The low link of a node, no later than `t`. -/
def lower (s : Search b) (v : ElementId) (t : Nat) : Search b :=
  if t < s.low v then { s with low := Function.update s.low v t } else s

/-- Puts a pair on the stack. -/
def push (s : Search b) (v w : ElementId) : Search b := { s with pairs := (v, w) :: s.pairs }

/-- Takes the pairs down to one between two nodes as a component. -/
def complete (s : Search b) (u v : ElementId) : Search b :=
  let above := s.pairs.takeWhile (· ≠ (u, v))
  let below := s.pairs.dropWhile (· ≠ (u, v))
  let nodes := (above ++ below.take 1).flatMap fun p => [p.1, p.2]
  { s with pairs := below.tail, components := s.components ++ [.ofList nodes] }

/-- Looks at the next of the nodes that are linked to the last one on the way. -/
def look (s : Search b) (f : Frame b) (fs : List (Frame b)) (w : ElementId) : Search b :=
  let s := { s with frames := f.advance :: fs }
  if f.parent = some w then s
  else
    match s.found w with
    | none => (s.push f.vertex w).enter w (some f.vertex)
    | some seen =>
      if (s.found f.vertex).any (seen < ·) then (s.push f.vertex w).lower f.vertex seen else s

/-- Goes back from a node to the one that it was found from. -/
def leave (s : Search b) (f : Frame b) (fs : List (Frame b)) : Search b :=
  match fs with
  | [] => { s with frames := [] }
  | p :: ps =>
    let back := { s with frames := p :: ps }.lower p.vertex (s.low f.vertex)
    if (s.found p.vertex).any (· ≤ s.low f.vertex) then back.complete p.vertex f.vertex else back

/-- One step of the search, as long as it is on its way. -/
def step (s : Search b) : Option (Search b) :=
  match s.frames with
  | [] => none
  | f :: fs =>
    match f.rest with
    | [] => some (s.leave f fs)
    | w :: _ => some (s.look f fs w)

theorem lower_eq (s : Search b) (v : ElementId) (t : Nat) :
    s.lower v t = { s with low := Function.update s.low v (min (s.low v) t) } := by
  unfold lower
  split
  · rename_i h
    rw [Nat.min_eq_right (Nat.le_of_lt h)]
  · rename_i h
    rw [Nat.min_eq_left (Nat.le_of_not_lt h), Function.update_eq_self]

/-! ### Steps -/

/-- What a step can do. -/
inductive Next (s : Search b) : Search b → Prop
  | ends {f : Frame b} : s.frames = [f] → f.rest = [] → Next s { s with frames := [] }
  | returns {f p : Frame b} {ps : List (Frame b)} : s.frames = f :: p :: ps → f.rest = [] →
      (∀ t, s.found p.vertex = some t → s.low f.vertex < t) →
      Next s ({ s with frames := p :: ps }.lower p.vertex (s.low f.vertex))
  | completes {f p : Frame b} {ps : List (Frame b)} {t : Nat} : s.frames = f :: p :: ps →
      f.rest = [] → s.found p.vertex = some t → t ≤ s.low f.vertex →
      Next s (({ s with frames := p :: ps }.lower p.vertex (s.low f.vertex)).complete
        p.vertex f.vertex)
  | finds {f : Frame b} {fs : List (Frame b)} {w : ElementId} {ws : List ElementId} :
      s.frames = f :: fs → f.rest = w :: ws → s.found w = none →
      Next s (({ s with frames := f.advance :: fs }.push f.vertex w).enter w (some f.vertex))
  | meets {f : Frame b} {fs : List (Frame b)} {w : ElementId} {ws : List ElementId} {t t' : Nat} :
      s.frames = f :: fs → f.rest = w :: ws → s.found w = some t → s.found f.vertex = some t' →
      t < t' →
      Next s (({ s with frames := f.advance :: fs }.push f.vertex w).lower f.vertex t)
  | passes {f : Frame b} {fs : List (Frame b)} {w : ElementId} {ws : List ElementId} :
      s.frames = f :: fs → f.rest = w :: ws →
      (f.parent = some w ∨
        ∃ t, s.found w = some t ∧ ∀ t', s.found f.vertex = some t' → t' ≤ t) →
      Next s { s with frames := f.advance :: fs }

theorem next_of_step {s s' : Search b} (h : s.step = some s') : s.Next s' := by
  unfold step at h
  split at h
  · cases h
  · rename_i f fs hframes
    split at h
    · rename_i hrest
      obtain rfl := Option.some.inj h
      cases fs with
      | nil => exact .ends hframes hrest
      | cons p ps =>
        unfold leave
        simp only
        split
        · rename_i hlow
          obtain ⟨t, ht, hle⟩ := (Option.any_eq_true _ _).mp hlow
          exact .completes hframes hrest ht (of_decide_eq_true hle)
        · rename_i hlow
          refine .returns hframes hrest fun t ht => ?_
          rw [ht, Option.any_some, decide_eq_true_eq] at hlow
          exact Nat.lt_of_not_le hlow
    · rename_i w ws hrest
      obtain rfl := Option.some.inj h
      unfold look
      simp only
      split
      · rename_i hparent
        exact .passes hframes hrest (.inl hparent)
      · split
        · rename_i hfound
          exact .finds hframes hrest hfound
        · rename_i t hfound
          split
          · rename_i hseen
            obtain ⟨t', ht', hlt⟩ := (Option.any_eq_true _ _).mp hseen
            exact .meets hframes hrest hfound ht' (of_decide_eq_true hlt)
          · rename_i hseen
            refine .passes hframes hrest (.inr ⟨t, hfound, fun t' ht' => ?_⟩)
            rw [ht', Option.any_some, decide_eq_true_eq] at hseen
            exact Nat.le_of_not_lt hseen

/-! ### The search ends -/

/-- The linked nodes that are not found. -/
def unfound (s : Search b) : List ElementId :=
  (b.pairs.flatMap fun p => [p.1, p.2]).filter fun v => (s.found v).isNone

/-- The sum of what the members of a list count. -/
def total {α : Type} (count : α → Nat) : List α → Nat
  | [] => 0
  | a :: as => count a + total count as

/-- What is left to do, by the frames on the way and by those of the nodes to be found. -/
def work (s : Search b) : Nat :=
  total Frame.work s.frames + total (fun v => (Frame.start b v none).work + 1) s.unfound

theorem mem_unfound {s : Search b} {v w : ElementId} (hw : w ∈ b.neighbors v)
    (hfound : s.found w = none) : w ∈ s.unfound := by
  refine List.mem_filter.mpr ⟨?_, by rw [hfound]; rfl⟩
  obtain ⟨p, hp, h⟩ := List.mem_flatMap.mp hw
  refine List.mem_flatMap.mpr ⟨p, hp, ?_⟩
  split at h
  · exact List.mem_cons_of_mem _ h
  · split at h
    · exact List.mem_singleton.mp h ▸ List.mem_cons_self
    · exact absurd h List.not_mem_nil

/-- What is not found after a node is found was not found before. -/
theorem unfound_find (s : Search b) (w : ElementId) :
    (s.find w).unfound = s.unfound.filter fun v => v ≠ w := by
  unfold unfound
  rw [List.filter_filter]
  refine List.filter_congr fun v _ => ?_
  by_cases hv : v = w
  · subst hv
    simp [find]
  · simp [find, hv]

theorem total_filter_le (count : ElementId → Nat) (p : ElementId → Bool) :
    ∀ vs : List ElementId, total count (vs.filter p) ≤ total count vs
  | [] => Nat.le_refl _
  | v :: vs => by
    have ih := total_filter_le count p vs
    cases hv : p v <;> simp [hv, total] <;> omega

theorem total_filter_ne (count : ElementId → Nat) {w : ElementId} : ∀ {vs : List ElementId},
    w ∈ vs → count w + total count (vs.filter fun v => v ≠ w) ≤ total count vs
  | [], h => absurd h List.not_mem_nil
  | v :: vs, h => by
    rw [total]
    by_cases hv : v = w
    · subst hv
      rw [List.filter_cons_of_neg (by simp)]
      exact Nat.add_le_add_left (total_filter_le ..) _
    · have ih := total_filter_ne count (List.mem_of_ne_of_mem (Ne.symm hv) h)
      rw [List.filter_cons_of_pos (by simpa using hv), total]
      omega

theorem work_lt_of_frames {s s' : Search b} (hfound : s'.found = s.found)
    (hframes : total Frame.work s'.frames < total Frame.work s.frames) : s'.work < s.work := by
  rw [work, work, unfound, hfound]
  exact Nat.add_lt_add_right hframes _

/-- **Every step of the search leaves less to do.** -/
theorem work_step {s s' : Search b} (h : s.step = some s') : s'.work < s.work := by
  have hpop : ∀ {f : Frame b} {fs : List (Frame b)}, s.frames = f :: fs →
      total Frame.work fs < total Frame.work s.frames := by
    intro f fs hf
    rw [hf, total, Frame.work]
    omega
  have hadvance : ∀ {f : Frame b} {fs : List (Frame b)} {w ws}, s.frames = f :: fs →
      f.rest = w :: ws → total Frame.work (f.advance :: fs) < total Frame.work s.frames := by
    intro f fs w ws hf hrest
    simp only [hf, total, Frame.work, Frame.advance, hrest, List.tail_cons, List.length_cons]
    omega
  cases next_of_step h with
  | ends hf _ => exact work_lt_of_frames rfl (hpop hf)
  | returns hf _ _ =>
    rw [lower_eq]
    exact work_lt_of_frames rfl (hpop hf)
  | completes hf _ _ _ =>
    rw [lower_eq]
    exact work_lt_of_frames rfl (hpop hf)
  | meets hf hrest _ _ _ =>
    rw [lower_eq]
    exact work_lt_of_frames rfl (hadvance hf hrest)
  | passes hf hrest _ => exact work_lt_of_frames rfl (hadvance hf hrest)
  | @finds f fs w ws hf hrest hfound =>
    -- the frame of the node is new, but it was counted as one of a node to be found
    have hnode := total_filter_ne (fun v => (Frame.start b v none).work + 1)
      (mem_unfound (f.rest_linked w (hrest ▸ List.mem_cons_self)) hfound)
    have hway := hadvance hf hrest
    have hstart : (Frame.start b w (some f.vertex)).work = (Frame.start b w none).work := rfl
    show total Frame.work (Frame.start b w (some f.vertex) :: f.advance :: fs) +
      total (fun v => (Frame.start b v none).work + 1) (s.find w).unfound < s.work
    rw [unfound_find, total, work]
    omega

/-- Goes on until the search is back where it began. -/
def run (s : Search b) : Search b :=
  match _h : s.step with
  | none => s
  | some s' => s'.run
termination_by s.work
decreasing_by exact work_step _h

/-- Searches from a node, unless it is found. One without linked nodes is a component. -/
def visit (s : Search b) (root : ElementId) : Search b :=
  if (s.found root).isSome then s
  else if b.neighbors root = [] then
    { s.find root with components := s.components ++ [.ofList [root]] }
  else ({ s with pairs := [] }.enter root none).run

end Search

/-- The biconnected components, with the nodes of each. -/
def blocks (b : Bonds) : List (SortedSet ElementId) := (b.nodes.foldl Search.visit (.start b)).components

/-- The component of a triangle, of a node that hangs off it, and of a node by itself. -/
example : blocks ⟨[⟨2⟩, ⟨3⟩, ⟨4⟩, ⟨5⟩, ⟨6⟩], [(⟨2⟩, ⟨3⟩), (⟨3⟩, ⟨4⟩), (⟨4⟩, ⟨2⟩), (⟨4⟩, ⟨5⟩)]⟩ =
    [.ofList [⟨4⟩, ⟨5⟩], .ofList [⟨2⟩, ⟨3⟩, ⟨4⟩], .ofList [⟨6⟩]] := by
  decide +kernel

end Bonds

namespace Network

/-- Takes the components that hold both ends of an edge, for each edge in turn, and gives their
nodes. -/
def claim (components : List (SortedSet ElementId)) : List Link → List ElementId
  | [] => []
  | l :: ls =>
    let covers (c : SortedSet ElementId) : Bool := l.source ∈ c ∧ l.target ∈ c
    (components.filter covers).flatMap (·.toList) ++ claim (components.filter (!covers ·)) ls

/-- The contracted vertices, and the components that hold both ends of a contracted edge, as one
search finds them. -/
def lowLinkClosure (full contracted : Network) : Except Failure (SortedSet ElementId) :=
  let components := (full.bonds contracted).blocks
  if components = [] then .error .noComponents
  else
    let vertices := SortedSet.ofList (contracted.ids ++ claim components contracted.links)
    if vertices.isEmpty then .error .emptyClosure else .ok vertices

end Network

end Dataflow
