import Mathlib.Data.List.Shortlex
import Dataflow.Proofs.Path.Search

/-!
# The paths, each once and in order

What the search for paths returns, in terms of the edges of the network alone: a path is a list of
edges that follow each other and meet no vertex twice. Edges that are listed by ascending number let
the search come upon the paths in the order of their numbers, and a stable sort by length keeps that
order among paths of one length.

* **`Network.mem_routes`**: the search returns the paths, and nothing else.
* **`Network.Coherent.ascending_routes`**: shorter paths come first, and paths of one length in the
  order of their edge numbers.
* **`Network.routes_exact`**: both, and that a search for direct paths returns the paths that meet
  no boundary and no grouping between their ends.
-/

namespace Dataflow

/-! ### A stable sort -/

/-- A stable sort by a number keeps the order among members of one number. -/
theorem pairwise_mergeSort_of_pairwise {α : Type} {R : α → α → Prop} (f : α → Nat) {l : List α}
    (h : l.Pairwise R) :
    (l.mergeSort fun a b => f a ≤ f b).Pairwise fun a b => f a < f b ∨ f a = f b ∧ R a b := by
  induction l with
  | nil => simp
  | cons a l ih =>
    obtain ⟨ha, hl⟩ := List.pairwise_cons.mp h
    obtain ⟨l₁, l₂, hsort, hrest, hbefore, hafter⟩ := mergeSort_cons_cut f a l
    have hmem : ∀ b ∈ l₂, b ∈ l := by
      intro b hb
      refine List.mem_mergeSort.mp (?_ : b ∈ l.mergeSort fun a b => f a ≤ f b)
      rw [hrest]
      exact List.mem_append_right _ hb
    have hold := ih hl
    rw [hrest] at hold
    obtain ⟨h₁, h₂, h₁₂⟩ := List.pairwise_append.mp hold
    rw [hsort]
    refine List.pairwise_append.mpr ⟨h₁, List.pairwise_cons.mpr ⟨fun b hb => ?_, h₂⟩, ?_⟩
    · rcases Nat.lt_or_eq_of_le (of_decide_eq_true (hafter b hb)) with hlt | heq
      · exact .inl hlt
      · exact .inr ⟨heq, ha b (hmem b hb)⟩
    · intro b hb c hc
      rcases List.mem_cons.mp hc with rfl | hc
      · exact .inl (Nat.lt_of_not_le (of_decide_eq_false (hbefore b hb)))
      · exact h₁₂ b hb c hc

/-! ### Arrivals in order -/

/-- The edges that moves take come before those of other moves, in the order of their numbers. -/
def Precedes (xs ys : List Move) : Prop := List.Lex (· < ·) (xs.map (·.link)) (ys.map (·.link))

theorem Precedes.cons {xs ys : List Move} (m : Move) (h : Precedes xs ys) :
    Precedes (m :: xs) (m :: ys) := List.Lex.cons h

theorem Precedes.head {m m' : Move} (h : m.link < m'.link) (xs ys : List Move) :
    Precedes (m :: xs) (m' :: ys) := List.Lex.rel h

/-- **Where moves are tried by ascending number, so do the trails arrive.** -/
theorem pairwise_arrivals {moves : ElementId → List Move} {goal : ElementId}
    (hmoves : ∀ v, (moves v).Pairwise fun a b => a.link < b.link) (unvisited : List ElementId)
    (v : ElementId) : (arrivals moves goal unvisited v).Pairwise Precedes := by
  rw [arrivals_eq]
  refine List.pairwise_flatMap.mpr ⟨fun m _ => ?_, (hmoves v).imp fun {m m'} hlt => ?_⟩
  · -- the trails that begin with one move
    by_cases hg : m.target = goal
    · simp [hg]
    · by_cases hu : m.target ∈ unvisited
      · have hshorter := length_erase_lt hu
        rw [if_neg hg, if_pos hu]
        exact List.pairwise_map.mpr
          ((pairwise_arrivals hmoves (unvisited.erase m.target) m.target).imp (.cons m))
      · simp [hg, hu]
  · -- trails that begin with different moves
    intro xs hxs ys hys
    obtain ⟨xs, rfl⟩ := begins_of_mem hxs
    obtain ⟨ys, rfl⟩ := begins_of_mem hys
    exact .head hlt xs ys
termination_by unvisited.length

namespace Network

variable {n : Network}

/-! ### Edges that follow each other -/

/-- The edges lead from one vertex to another, each from where the one before it ends. -/
inductive Follows (n : Network) : ElementId → List Link → ElementId → Prop
  | nil (v : ElementId) : Follows n v [] v
  | cons {l : Link} {ls : List Link} {t : ElementId} :
      l ∈ n.links → Follows n l.target ls t → Follows n l.source (l :: ls) t

theorem follows_nil_iff {s t : ElementId} : n.Follows s [] t ↔ s = t := by
  constructor
  · rintro ⟨⟩
    rfl
  · rintro rfl
    exact .nil s

theorem follows_cons_iff {s t : ElementId} {l : Link} {ls : List Link} :
    n.Follows s (l :: ls) t ↔ (l ∈ n.links ∧ l.source = s) ∧ n.Follows l.target ls t := by
  constructor
  · rintro (_ | ⟨hl, h⟩)
    exact ⟨⟨hl, rfl⟩, h⟩
  · rintro ⟨⟨hl, rfl⟩, h⟩
    exact .cons hl h

instance decidableFollows : ∀ (s : ElementId) (ls : List Link) (t : ElementId),
    Decidable (n.Follows s ls t)
  | _, [], _ => decidable_of_iff' _ follows_nil_iff
  | _, l :: ls, t =>
    have := decidableFollows l.target ls t
    decidable_of_iff' _ follows_cons_iff

/-- At least one edge leads from one vertex to another, and no vertex is met twice. -/
structure IsPath (n : Network) (s t : ElementId) (ls : List Link) : Prop where
  ne_nil : ls ≠ []
  follows : n.Follows s ls t
  nodup : (s :: ls.map (·.target)).Nodup

instance (s t : ElementId) (ls : List Link) : Decidable (n.IsPath s t ls) :=
  decidable_of_iff (ls ≠ [] ∧ n.Follows s ls t ∧ (s :: ls.map (·.target)).Nodup)
    ⟨fun ⟨hne, hfollows, hnodup⟩ => ⟨hne, hfollows, hnodup⟩,
      fun ⟨hne, hfollows, hnodup⟩ => ⟨hne, hfollows, hnodup⟩⟩

/-- The move along an edge. -/
def moveAlong (l : Link) : Move := ⟨l.id, l.target⟩

theorem targets_moveAlong (ls : List Link) :
    targets (ls.map moveAlong) = ls.map (·.target) := by
  simp [targets, moveAlong]

theorem Follows.leads {s t : ElementId} {ls : List Link} (h : n.Follows s ls t) :
    Leads n.moves s (ls.map moveAlong) t := by
  induction h with
  | nil v => exact .nil v
  | cons hl _ ih => exact .cons (mem_moves.mpr ⟨_, hl, rfl, rfl, rfl⟩) ih

theorem exists_follows_of_leads {s t : ElementId} {ms : List Move} (h : Leads n.moves s ms t) :
    ∃ ls, n.Follows s ls t ∧ ls.map moveAlong = ms := by
  induction h with
  | nil v => exact ⟨[], .nil v, rfl⟩
  | @cons u w m ms hm _ ih =>
    obtain ⟨ls, hls, rfl⟩ := ih
    obtain ⟨l, hl, rfl, hi, ht⟩ := mem_moves.mp hm
    refine ⟨l :: ls, .cons hl (ht ▸ hls), ?_⟩
    rw [List.map_cons]
    cases m
    cases hi
    cases ht
    rfl

/-- The ends of a path are two vertices. -/
theorem IsPath.ends (hn : n.Coherent) {s t : ElementId} {ls : List Link} (h : n.IsPath s t ls) :
    s ≠ t ∧ s ∈ n.ids ∧ t ∈ n.ids := by
  have hlead := h.follows.leads
  have hmoves : ls.map moveAlong ≠ [] := by simpa using h.ne_nil
  have hend : t ∈ ls.map (·.target) := by
    rw [← targets_moveAlong]
    exact hlead.end_mem_targets hmoves
  refine ⟨?_, hn.source_mem_of_transGen (hlead.transGen hmoves),
    hn.target_mem_of_transGen (hlead.transGen hmoves)⟩
  rintro rfl
  exact (List.nodup_cons.mp h.nodup).1 hend

/-! ### What the search returns -/

theorem routes_eq (s t : ElementId) : n.routes s t = (n.paths s t).map Path.route :=
  search_eq _ s t

/-- The path along edges. -/
def course (s : ElementId) (ls : List Link) : Path := ⟨s, ls.map moveAlong⟩

theorem vertices_course (s : ElementId) (ls : List Link) :
    (course s ls).vertices = s :: ls.map (·.target) := by
  rw [Path.vertices_eq]
  exact congrArg _ (targets_moveAlong ls)

/-- The paths that are found go along edges that meet no vertex twice. -/
theorem mem_paths_iff (hn : n.Coherent) {s t : ElementId} {p : Path} :
    p ∈ n.paths s t ↔ ∃ ls, n.IsPath s t ls ∧ p = course s ls := by
  constructor
  · intro hp
    obtain ⟨start, ms⟩ := p
    have hne := moves_ne_nil_of_mem_paths hp
    obtain ⟨-, -, -, rfl, hlead, hnd⟩ := mem_paths.mp hp
    obtain ⟨ls, hls, rfl⟩ := exists_follows_of_leads hlead
    rw [Path.vertices_eq, targets_moveAlong] at hnd
    exact ⟨ls, ⟨by simpa using hne, hls, hnd⟩, rfl⟩
  · rintro ⟨ls, hls, rfl⟩
    obtain ⟨hne, hs, ht⟩ := hls.ends hn
    refine mem_paths.mpr ⟨hne, hs, ht, rfl, hls.follows.leads, ?_⟩
    rw [vertices_course]
    exact hls.nodup

/-- **The search returns the paths, and nothing else.** -/
theorem mem_routes (hn : n.Coherent) {s t : ElementId} {r : Route} : r ∈ n.routes s t ↔
    ∃ ls, n.IsPath s t ls ∧ r = ⟨s :: ls.map (·.target), ls.map (·.id)⟩ := by
  have hroute : ∀ ls : List Link,
      (course s ls).route = ⟨s :: ls.map (·.target), ls.map (·.id)⟩ := by
    simp [course, Path.route, Path.vertices, Path.links, moveAlong]
  rw [routes_eq, List.mem_map]
  constructor
  · rintro ⟨p, hp, rfl⟩
    obtain ⟨ls, hls, rfl⟩ := (mem_paths_iff hn).mp hp
    exact ⟨ls, hls, hroute ls⟩
  · rintro ⟨ls, hls, rfl⟩
    exact ⟨course s ls, (mem_paths_iff hn).mpr ⟨ls, hls, rfl⟩, hroute ls⟩

theorem Coherent.moves_ascending (hn : n.Coherent) (v : ElementId) :
    (n.moves v).Pairwise fun a b => a.link < b.link :=
  List.pairwise_map.mpr (hn.links_ascending.filter _)

/-- **Shorter paths come first, and paths of one length in the order of their edge numbers.** -/
theorem Coherent.ascending_routes (hn : n.Coherent) (s t : ElementId) :
    ((n.routes s t).map (·.edges)).Pairwise (List.Shortlex (· < ·)) := by
  have harrive : (if s ≠ t ∧ s ∈ n.ids ∧ t ∈ n.ids then
      (arrivals n.moves t (n.nodes.erase s) s).map fun ms => (⟨s, ms⟩ : Path) else []).Pairwise
        fun p q => Precedes p.moves q.moves := by
    split
    · exact List.pairwise_map.mpr (pairwise_arrivals hn.moves_ascending _ s)
    · exact .nil
  rw [routes_eq, paths_eq, List.map_map]
  refine List.pairwise_map.mpr ((pairwise_mergeSort_of_pairwise Path.length harrive).imp ?_)
  intro p q h
  show List.Shortlex _ p.links q.links
  rw [List.shortlex_def, Path.length_links, Path.length_links]
  exact h

theorem directRoutes_eq_filter (s t : ElementId) : n.directRoutes s t =
    (n.routes s t).filter fun r => r.interior.all n.isPassable := by
  unfold directRoutes
  rw [routes_eq, search_eq, pathsThrough_eq_filter, List.filter_map]
  rfl

/-- **The search for paths is exact.** It returns every list of edges that leads from one vertex to
another without meeting a vertex twice, each once, the shortest first and those of one length in the
order of their edge numbers; there are none from a vertex to itself, nor where an end is no vertex.
The search for direct paths returns those of them that meet no boundary and no grouping between
their ends. -/
theorem routes_exact (hn : n.Coherent) (s t : ElementId) :
    (∀ r, r ∈ n.routes s t ↔
      ∃ ls, n.IsPath s t ls ∧ r = ⟨s :: ls.map (·.target), ls.map (·.id)⟩) ∧
    ((n.routes s t).map (·.edges)).Nodup ∧
    ((n.routes s t).map (·.edges)).Pairwise (List.Shortlex (· < ·)) ∧
    (s = t ∨ s ∉ n.ids ∨ t ∉ n.ids → n.routes s t = []) ∧
    n.directRoutes s t = (n.routes s t).filter fun r => r.interior.all n.isPassable := by
  have hascending := hn.ascending_routes s t
  refine ⟨fun r => mem_routes hn, hascending.imp ?once, hascending, ?none,
    directRoutes_eq_filter s t⟩
  case once =>
    rintro xs _ hlt rfl
    exact Std.Irrefl.irrefl _ hlt
  case none =>
    intro hends
    refine List.eq_nil_iff_forall_not_mem.mpr fun r hr => ?_
    obtain ⟨ls, hls, -⟩ := (mem_routes hn).mp hr
    obtain ⟨hne, hs, ht⟩ := hls.ends hn
    rcases hends with h | h | h
    · exact hne h
    · exact h hs
    · exact h ht

/-- Two parallel edges and a way through a boundary lead from the first vertex to the third, which
lies on a cycle with one that has a loop. -/
def byways : Network :=
  .unchecked
    [.transform ⟨⟨2⟩, ""⟩, .transform ⟨⟨3⟩, ""⟩, .transform ⟨⟨4⟩, ""⟩, .boundary ⟨⟨5⟩, ""⟩]
    ([(2, 3), (2, 3), (3, 4), (4, 3), (3, 3), (2, 5), (5, 4)].map fun e =>
      (⟨e.1⟩, ⟨e.2⟩, .named ""))

theorem routes_exact_byways : byways.Coherent ∧ byways.routes ⟨2⟩ ⟨2⟩ = [] ∧
    ⟨[⟨2⟩, ⟨3⟩, ⟨4⟩], [1, 2]⟩ ∈ byways.directRoutes ⟨2⟩ ⟨4⟩ ∧
    ⟨[⟨2⟩, ⟨5⟩, ⟨4⟩], [5, 6]⟩ ∈ byways.routes ⟨2⟩ ⟨4⟩ ∧
    ⟨[⟨2⟩, ⟨5⟩, ⟨4⟩], [5, 6]⟩ ∉ byways.directRoutes ⟨2⟩ ⟨4⟩ := by
  have hn : byways.Coherent :=
    ⟨by decide +kernel, by decide +kernel, by decide +kernel, by decide +kernel⟩
  obtain ⟨-, -, -, hnone, -⟩ := routes_exact hn ⟨2⟩ ⟨2⟩
  obtain ⟨hmem, -, -, -, hdirect⟩ := routes_exact hn ⟨2⟩ ⟨4⟩
  have hpath : byways.IsPath ⟨2⟩ ⟨4⟩ [⟨1, ⟨2⟩, ⟨3⟩, .named ""⟩, ⟨2, ⟨3⟩, ⟨4⟩, .named ""⟩] := by
    decide +kernel
  have hpath' : byways.IsPath ⟨2⟩ ⟨4⟩ [⟨5, ⟨2⟩, ⟨5⟩, .named ""⟩, ⟨6, ⟨5⟩, ⟨4⟩, .named ""⟩] := by
    decide +kernel
  refine ⟨hn, hnone (.inl rfl), ?_, (hmem _).mpr ⟨_, hpath', rfl⟩, ?_⟩
  · rw [hdirect]
    exact List.mem_filter.mpr ⟨(hmem _).mpr ⟨_, hpath, rfl⟩, by decide +kernel⟩
  · rw [hdirect]
    exact fun h => absurd (List.mem_filter.mp h).2 (by decide +kernel)

end Network

end Dataflow
