import Dataflow.Proofs.Path.FirstMove
import Dataflow.Proofs.Plan.Contract

/-!
# Paths past a contracted element

A path that passed the element takes, after its contraction, the one new edge for the two that it
took there, and every other path stays. What is read of the paths from a vertex by their first edges
(the names by which they arrive, the vertices that they pass) stays with them.

* **`Plan.Bypassed.flatMap_outgoing_perm`**: what is read of the edges out of a vertex after a
  contraction.
* **`Plan.Bypassed.perm_by_first_edge`**: what is read of the paths by their first edges stays.
* **`Plan.paths_contract`**: the paths between two other vertices are those from before, each with
  the element left out.
-/

namespace Dataflow

open Relation

namespace Plan.Bypassed

variable {p q : Plan} {v s t : ElementId} {new : List Link}

/-! ### By the first edge -/

/-- After a contraction the edges out of a vertex are the new ones and those that did not lead to
the element. -/
theorem outgoing_perm (h : p.Bypassed v new q) (hs : s ≠ v) : (q.network.outgoing s).Perm
    (new.filter (·.source = s) ++ (p.network.outgoing s).filter fun l => !decide (l.target = v)) := by
  have hsplit := h.links.filter fun l => l.source = s
  rw [List.filter_append] at hsplit
  refine hsplit.trans (.of_eq (congrArg _ ?_))
  unfold Network.outgoing
  rw [List.filter_filter, List.filter_filter]
  refine List.filter_congr fun l _ => ?_
  by_cases hl : l.source = s
  · simp [Link.touches, hl, hs]
  · simp [hl]

variable {β : Type}

/-- The new edges out of a vertex lead, for each edge that led to the element, where the edges led
from there, by the same names. -/
theorem flatMap_new_perm (h : p.Bypassed v new q) (f : ElementId → String → List β) :
    ((new.filter (·.source = s)).flatMap fun l => f l.target l.edge.name).Perm
      (((p.network.outgoing s).filter (·.target = v)).flatMap fun _ =>
        (p.network.outgoing v).flatMap fun o => f o.target o.edge.name) := by
  obtain ⟨e, -, hends⟩ := h.new_ends
  have hnew : ((new.filter (·.source = s)).flatMap fun l => f l.target l.edge.name) =
      ((new.map ends).filter (·.1 = s)).flatMap fun b => f b.2.1 b.2.2.name := by
    rw [List.filter_map, List.flatMap_map]
    rfl
  have hinto : (p.network.outgoing s).filter (·.target = v) =
      (p.network.incoming v).filter (·.source = s) := by
    unfold Network.outgoing Network.incoming
    rw [List.filter_comm]
  have hbypasses : ((bypasses p.network v e).filter (·.1 = s)).flatMap
        (fun b => f b.2.1 b.2.2.name) =
      ((p.network.incoming v).filter (·.source = s)).flatMap fun _ =>
        (p.network.outgoing v).flatMap fun o => f o.target o.edge.name := by
    unfold bypasses
    rw [List.filter_flatMap, List.flatMap_assoc, flatMap_filter]
    refine List.flatMap_congr fun i _ => ?_
    rw [List.filter_map, Function.comp_def]
    by_cases hi : i.source = s
    · simp only [hi, decide_true, List.filter_true, List.flatMap_map, if_true]
      rfl
    · simp [hi]
  rw [hnew, hinto, ← hbypasses]
  exact (hends.filter _).flatMap_right _

/-- **What is read of the edges out of a vertex after a contraction**: of the edges that led to the
element, what was read of those from there. -/
theorem flatMap_outgoing_perm (h : p.Bypassed v new q) (hs : s ≠ v)
    (f : ElementId → String → List β) :
    ((q.network.outgoing s).flatMap fun l => f l.target l.edge.name).Perm
      ((p.network.outgoing s).flatMap fun l =>
        if l.target = v then (p.network.outgoing v).flatMap fun o => f o.target o.edge.name
        else f l.target l.edge.name) := by
  have hparts := List.filter_append_perm (fun l : Link => l.target = v) (p.network.outgoing s)
  refine .trans ?_ (hparts.flatMap_right _)
  refine ((h.outgoing_perm hs).flatMap_right _).trans ?_
  rw [List.flatMap_append, List.flatMap_append]
  refine ((h.flatMap_new_perm f).trans (.of_eq ?_)).append (.of_eq ?_)
  · refine List.flatMap_congr fun l hl => ?_
    rw [if_pos (of_decide_eq_true (List.mem_filter.mp hl).2)]
  · refine List.flatMap_congr fun l hl => ?_
    rw [if_neg (by simpa using (List.mem_filter.mp hl).2)]

/-- After a contraction an edge leads where a walk led before, and not to the element. -/
theorem transGen_of_mem_outgoing (h : p.Bypassed v new q) {l : Link}
    (hl : l ∈ q.network.outgoing s) : TransGen p.network.Step s l.target ∧ l.target ≠ v := by
  obtain ⟨hmem, hsource⟩ := Network.mem_outgoing.mp hl
  refine ⟨?_, (h.mem_ids.mp (q.coherent.target_mem l hmem)).2⟩
  rcases h.step_iff.mp ⟨l, hmem, hsource, rfl⟩ with ⟨-, -, hstep⟩ | ⟨hin, hout⟩
  · exact .single hstep
  · exact .head hin (.single hout)

/-- **What is read of the paths to `t` by their first edges stays.** From a vertex, `before` and
`after` the contraction, it is what each first edge gives in turn (`beyond` and `beyond'` its
target). It stays if the contracted element gives what the edges out of it do, and the target of an
edge gives the same wherever what is read from there does. -/
theorem perm_by_first_edge (h : p.Bypassed v new q) (t : ElementId)
    (before after : ElementId → List β) (beyond beyond' : ElementId → String → List β)
    (hbefore : ∀ s, s ≠ t →
      (before s).Perm ((p.network.outgoing s).flatMap fun l => beyond l.target l.edge.name))
    (hafter : ∀ s, s ≠ t →
      (after s).Perm ((q.network.outgoing s).flatMap fun l => beyond' l.target l.edge.name))
    (harrived : (after t).Perm (before t))
    (hthrough : ∀ name, (beyond v name).Perm
      ((p.network.outgoing v).flatMap fun o => beyond o.target o.edge.name))
    (hbeyond : ∀ w, w ≠ v → (after w).Perm (before w) →
      ∀ name, (beyond' w name).Perm (beyond w name))
    (hs : s ≠ v) : (after s).Perm (before s) := by
  induction s using p.acyclic.induction with
  | step s ih =>
    by_cases hst : s = t
    · rw [hst]
      exact harrived
    · have hrest : ∀ l ∈ q.network.outgoing s,
          (beyond' l.target l.edge.name).Perm (beyond l.target l.edge.name) := by
        intro l hl
        obtain ⟨hlead, hne⟩ := h.transGen_of_mem_outgoing hl
        exact hbeyond l.target hne (ih l.target hlead hne) _
      -- an edge to the element gives what the edges out of it do
      have hpast : ∀ l ∈ p.network.outgoing s,
          (if l.target = v then (p.network.outgoing v).flatMap fun o => beyond o.target o.edge.name
            else beyond l.target l.edge.name).Perm (beyond l.target l.edge.name) := by
        intro l _
        split
        · rename_i hlv
          rw [hlv]
          exact (hthrough _).symm
        · exact .refl _
      calc (after s).Perm _ := hafter s hst
        List.Perm _ _ := .flatMap_left _ hrest
        List.Perm _ _ := h.flatMap_outgoing_perm hs beyond
        List.Perm _ _ := .flatMap_left _ hpast
        List.Perm _ (before s) := (hbefore s hst).symm

end Plan.Bypassed

/-! ### The vertices of the paths -/

namespace Network

variable {n : Network} {s t : ElementId}

/-- The vertices at which the paths from one vertex to another arrive in turn, path by path. -/
def courses (n : Network) (s t : ElementId) : List (List ElementId) :=
  (n.passages (fun _ => true) s t).map targets

/-- The courses that begin with an edge to `w`: one that ends there, or those that go on. -/
def coursesVia (n : Network) (t w : ElementId) : List (List ElementId) :=
  if w = t then [[w]] else (n.courses w t).map (w :: ·)

theorem courses_eq (hn : n.Coherent) (ha : n.Acyclic) (hne : s ≠ t) :
    n.courses s t = (n.outgoing s).flatMap fun l => n.coursesVia t l.target := by
  unfold courses
  rw [passages_eq hn ha hne, List.map_flatMap, moves, List.flatMap_map]
  refine List.flatMap_congr fun l _ => ?_
  unfold coursesVia courses
  split
  · rfl
  · simp [targets, Function.comp_def]

theorem courses_self (n : Network) (s : ElementId) : n.courses s s = [] := by
  unfold courses
  rw [passages_self, List.map_nil]

theorem map_vertices_paths_perm (n : Network) (s t : ElementId) :
    ((n.paths s t).map Path.vertices).Perm ((n.courses s t).map (s :: ·)) := by
  refine ((n.pathsThrough_perm_passages _ s t).map _).trans (.of_eq ?_)
  rw [courses, List.map_map, List.map_map]
  rfl

end Network

namespace Plan

variable {p q : Plan} {v s t : ElementId} {new : List Link}

/-- A vertex sequence without the contracted element. -/
def past (v : ElementId) (vs : List ElementId) : List ElementId := vs.filter (· ≠ v)

theorem past_cons_self (v : ElementId) (vs : List ElementId) : past v (v :: vs) = past v vs := by
  simp [past]

theorem past_cons_of_ne {w : ElementId} (hw : w ≠ v) (vs : List ElementId) :
    past v (w :: vs) = w :: past v vs := by
  simp [past, hw]

/-- Past any other vertex than the element the courses go on. -/
theorem map_past_map_cons {w : ElementId} (hw : w ≠ v) (vss : List (List ElementId)) :
    (vss.map (w :: ·)).map (past v) = (vss.map (past v)).map (w :: ·) := by
  simp [Function.comp_def, past_cons_of_ne hw]

/-- **The courses after a contraction** are those from before with the element left out. -/
theorem Bypassed.courses_perm (h : p.Bypassed v new q) (hs : s ≠ v) (ht : t ≠ v) :
    (q.network.courses s t).Perm ((p.network.courses s t).map (past v)) := by
  refine h.perm_by_first_edge t (fun s => (p.network.courses s t).map (past v))
    (fun s => q.network.courses s t) (fun w _ => (p.network.coursesVia t w).map (past v))
    (fun w _ => q.network.coursesVia t w) ?before ?after ?arrived ?through ?beyond hs
  case before =>
    intro s hst
    rw [Network.courses_eq p.coherent p.acyclic hst, List.map_flatMap]
  case after =>
    intro s hst
    rw [Network.courses_eq q.coherent q.acyclic hst]
  case arrived =>
    rw [Network.courses_self, Network.courses_self]
    exact .refl _
  case through =>
    intro _
    rw [← List.map_flatMap, ← Network.courses_eq p.coherent p.acyclic ht.symm, Network.coursesVia,
      if_neg ht.symm, List.map_map]
    exact .of_eq (List.map_congr_left fun vs _ => past_cons_self v vs)
  case beyond =>
    intro w hw hcourses _
    unfold Network.coursesVia
    split
    · rw [List.map_singleton, past_cons_of_ne hw]
      exact .refl _
    · rw [map_past_map_cons hw]
      exact hcourses.map _

/-- **The paths between two other vertices, the element left out, are those after its contraction.**
There are as many of them, through parallel edges as well, and what could be reached still can. -/
theorem paths_contract (p : Plan) {v : ElementId} (hv : v ∈ p.network.ids) :
    ∃ q, p.contract v .anyInbound = (.ok (), q) ∧ ∀ s t, s ≠ v → t ≠ v →
      ((q.network.paths s t).map Path.vertices).Perm
        ((p.network.paths s t).map fun r => r.vertices.filter (· ≠ v)) ∧
      (q.network.paths s t).length = (p.network.paths s t).length ∧
      (TransGen q.network.Step s t ↔ TransGen p.network.Step s t) := by
  obtain ⟨q, new, hq, h⟩ := exists_contract hv (.inl rfl)
  refine ⟨q, hq, fun s t hs ht => ?_⟩
  have hvertices : ((q.network.paths s t).map Path.vertices).Perm
      ((p.network.paths s t).map fun r => past v r.vertices) := by
    calc ((q.network.paths s t).map Path.vertices).Perm _ := q.network.map_vertices_paths_perm s t
      List.Perm _ _ := (h.courses_perm hs ht).map _
      _ = ((p.network.courses s t).map (s :: ·)).map (past v) := (map_past_map_cons hs _).symm
      List.Perm _ _ := (p.network.map_vertices_paths_perm s t).symm.map _
      _ = _ := List.map_map
  have hlength : (q.network.paths s t).length = (p.network.paths s t).length := by
    simpa using hvertices.length_eq
  refine ⟨hvertices, hlength, ?_⟩
  rw [q.acyclic.transGen_iff_paths_ne_nil q.coherent, p.acyclic.transGen_iff_paths_ne_nil p.coherent,
    ← List.length_pos_iff, ← List.length_pos_iff, hlength]

/-- Two parallel edges to an element, which leads on directly and through another one. -/
def forked : Plan :=
  empty.sketch [⟨2⟩, ⟨3⟩, ⟨4⟩, ⟨5⟩]
    [(⟨2⟩, ⟨3⟩), (⟨2⟩, ⟨3⟩), (⟨3⟩, ⟨4⟩), (⟨4⟩, ⟨5⟩), (⟨3⟩, ⟨5⟩)]

theorem paths_contract_forked : ⟨3⟩ ∈ forked.network.ids ∧
    ∃ q, forked.contract ⟨3⟩ .anyInbound = (.ok (), q) ∧
      ((q.network.paths ⟨2⟩ ⟨5⟩).map Path.vertices).Perm
        [[⟨2⟩, ⟨4⟩, ⟨5⟩], [⟨2⟩, ⟨5⟩], [⟨2⟩, ⟨4⟩, ⟨5⟩], [⟨2⟩, ⟨5⟩]] := by
  have hv : ⟨3⟩ ∈ forked.network.ids := by decide +kernel
  have hcourses : ((forked.network.courses ⟨2⟩ ⟨5⟩).map (⟨2⟩ :: ·)).map (past ⟨3⟩) =
      [[⟨2⟩, ⟨4⟩, ⟨5⟩], [⟨2⟩, ⟨5⟩], [⟨2⟩, ⟨4⟩, ⟨5⟩], [⟨2⟩, ⟨5⟩]] := by decide +kernel
  obtain ⟨q, hq, h⟩ := paths_contract forked hv
  obtain ⟨hvertices, -, -⟩ := h ⟨2⟩ ⟨5⟩ (by decide) (by decide)
  have hpaths := (forked.network.map_vertices_paths_perm ⟨2⟩ ⟨5⟩).map (past ⟨3⟩)
  rw [hcourses, List.map_map] at hpaths
  exact ⟨hv, q, hq, hvertices.trans hpaths⟩

end Plan

end Dataflow
