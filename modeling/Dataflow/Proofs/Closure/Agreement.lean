import Dataflow.Proofs.Closure.Inclusion

/-!
# Where the closures by walks and by paths agree

Both closures hold the vertices on paths between the ends of contracted edges, and differ in the
paths that they admit. Pruning cuts a path that passes an entry or an exit of the contracted
network; the closure by paths admits none that passes a contracted vertex at all. A path past a
contracted vertex that contracted edges both enter and leave can tell the two closures apart, even
where every contracted edge has but one path.

* **`Network.mem_closure_iff_path`**: the closure by walks in terms of paths.
* **`Network.closure_eq_pathClosure_iff_routes`**: both closures where each contracted edge has one
  path.
* **`Plan.closure_eq_pathClosure_iff`**: where each contracted edge has one path, the closures agree
  exactly where the paths that only the closure by walks admits show nothing new.
* **`Plan.viaduct_closures_differ`**: one path for each contracted edge is not enough.
-/

namespace Dataflow

open Relation

namespace Network

variable {full contracted : Network} {v : ElementId}

theorem not_isRim_iff_step : ¬ contracted.IsRim v ↔
    (v ∈ contracted.ids → (∃ u, contracted.Step u v) ∧ ∃ u, contracted.Step v u) := by
  rw [IsRim, isEntry_iff, isExit_iff, ← and_or_left, not_and, not_or, not_forall_not,
    not_forall_not]

/-- **A vertex that is not contracted is in the closure by walks where detours past entries and
exits join it to both ends of a contracted edge.** -/
theorem mem_closure_iff_detour (hn : full.Coherent) (hcc : contracted.Coherent)
    (hs : ∀ v ∈ full.ids, v.isSentinel = false) (hv : v ∉ contracted.ids) :
    v ∈ (full.closure contracted []).vertices ↔
      ∃ l ∈ contracted.links, l.source ∈ full.ids ∧ l.target ∈ full.ids ∧
        full.Detour contracted.IsRim l.source v ∧ full.Detour contracted.IsRim v l.target := by
  rw [mem_closure hn, or_iff_right hv]
  refine exists_congr fun l => and_congr_right fun hl => ?_
  simp only [mem_ids_inside]
  constructor
  · rintro ⟨⟨hsm, -⟩, ⟨htm, -⟩, hsv, hvt⟩
    have hvs : v ≠ l.source := fun h => hv (h ▸ hcc.source_mem l hl)
    have htv : l.target ≠ v := fun h => hv (h ▸ hcc.target_mem l hl)
    have hsv := (reflTransGen_iff_eq_or_transGen.mp hsv).resolve_left hvs
    have hvt := (reflTransGen_iff_eq_or_transGen.mp hvt).resolve_left htv
    exact ⟨hsm, htm, detour_of_transGen_inside hsv, detour_of_transGen_inside hvt⟩
  · rintro ⟨hsm, htm, hsv, hvt⟩
    have hsv := hsv.transGen_inside hs hn (not_isExit_of_mem hl) (not_isEntry_of_not_mem hv)
    have hvt := hvt.transGen_inside hs hn (not_isExit_of_not_mem hv) (not_isEntry_of_mem hl)
    exact ⟨⟨hsm, hs _ hsm⟩, ⟨htm, hs _ htm⟩, hsv.to_reflTransGen, hvt.to_reflTransGen⟩

/-- **The closure by walks in terms of paths**: it admits those that pass no entry and no exit. -/
theorem mem_closure_iff_path (hn : full.Coherent) (ha : full.Acyclic) (hcc : contracted.Coherent)
    (hs : ∀ v ∈ full.ids, v.isSentinel = false) :
    v ∈ (full.closure contracted []).vertices ↔ v ∈ contracted.ids ∨
      ∃ l ∈ contracted.links, ∃ p ∈ full.paths l.source l.target,
        (∀ x ∈ p.interior, ¬ contracted.IsRim x) ∧ v ∈ p.vertices := by
  by_cases hv : v ∈ contracted.ids
  · exact iff_of_true ((mem_closure hn).mpr (.inl hv)) (.inl hv)
  · rw [mem_closure_iff_detour hn hcc hs hv, or_iff_right hv]
    refine exists_congr fun l => and_congr_right fun hl => ?_
    have hvs : v ≠ l.source := fun h => hv (h ▸ hcc.source_mem l hl)
    have hvt : v ≠ l.target := fun h => hv (h ▸ hcc.target_mem l hl)
    exact (exists_path_iff_detours ha (mt IsRim.mem hv) hvs hvt).symm

/-! ### One path for each contracted edge -/

section Routes

variable {route : Link → Path}
  (hroute : ∀ l ∈ contracted.links, full.paths l.source l.target = [route l])
include hroute

theorem exists_path_iff_route {l : Link} (hl : l ∈ contracted.links) {P : Path → Prop} :
    (∃ p ∈ full.paths l.source l.target, P p) ↔ P (route l) := by
  rw [hroute l hl]
  simp

theorem mem_pathClosure_iff_route : v ∈ full.pathClosure contracted ↔ v ∈ contracted.ids ∨
    ∃ l ∈ contracted.links, (∀ x ∈ (route l).interior, x ∉ contracted.ids) ∧
      v ∈ (route l).vertices := by
  rw [mem_pathClosure]
  exact or_congr_right (exists_congr fun l => and_congr_right fun hl =>
    exists_path_iff_route hroute hl)

variable (hn : full.Coherent) (ha : full.Acyclic) (hcc : contracted.Coherent)
  (hs : ∀ v ∈ full.ids, v.isSentinel = false)
include hn ha hcc hs

theorem mem_closure_iff_route : v ∈ (full.closure contracted []).vertices ↔ v ∈ contracted.ids ∨
    ∃ l ∈ contracted.links, (∀ x ∈ (route l).interior, ¬ contracted.IsRim x) ∧
      v ∈ (route l).vertices := by
  rw [mem_closure_iff_path hn ha hcc hs]
  exact or_congr_right (exists_congr fun l => and_congr_right fun hl =>
    exists_path_iff_route hroute hl)

/-- **The closures agree where no route that only the one by walks admits shows something new.** -/
theorem closure_eq_pathClosure_iff_routes :
    (full.closure contracted []).vertices = full.pathClosure contracted ↔
      ∀ l ∈ contracted.links,
        (∀ w ∈ (route l).interior, w ∈ contracted.ids →
          (∃ u, contracted.Step u w) ∧ ∃ u, contracted.Step w u) →
        ∀ v ∈ (route l).vertices, v ∈ contracted.ids ∨
          ∃ k ∈ contracted.links,
            (∀ w ∈ (route k).interior, w ∉ contracted.ids) ∧ v ∈ (route k).vertices := by
  constructor
  · intro heq l hl hopen v hv
    refine (mem_pathClosure_iff_route hroute).mp ?_
    rw [← heq, mem_closure_iff_route hroute hn ha hcc hs]
    exact .inr ⟨l, hl, fun w hw => not_isRim_iff_step.mpr (hopen w hw), hv⟩
  · intro hnew
    refine SortedSet.ext fun v => ⟨fun hv => ?_, pathClosure_subset_closure hn ha hcc hs⟩
    refine (mem_pathClosure_iff_route hroute).mpr ?_
    rcases (mem_closure_iff_route hroute hn ha hcc hs).mp hv with hv | ⟨l, hl, hopen, hv⟩
    · exact .inl hv
    · exact hnew l hl (fun w hw => not_isRim_iff_step.mp (hopen w hw)) v hv

end Routes

end Network

namespace Plan

/-- **The closures agree exactly where the paths that only the one by walks admits show nothing
new.** -/
theorem closure_eq_pathClosure_iff (full contracted : Plan) (route : Link → Path)
    (hs : ∀ v ∈ full.network.ids, v.isSentinel = false)
    (hroute : ∀ l ∈ contracted.network.links,
      full.network.paths l.source l.target = [route l]) :
    (∀ v ∈ full.network.pathClosure contracted.network,
      v ∈ (full.network.closure contracted.network []).vertices) ∧
    ((full.network.closure contracted.network []).vertices =
        full.network.pathClosure contracted.network ↔
      ∀ l ∈ contracted.network.links,
        (∀ w ∈ (route l).interior, w ∈ contracted.network.ids →
          (∃ u, contracted.network.Step u w) ∧ ∃ u, contracted.network.Step w u) →
        ∀ v ∈ (route l).vertices, v ∈ contracted.network.ids ∨
          ∃ k ∈ contracted.network.links,
            (∀ w ∈ (route k).interior, w ∉ contracted.network.ids) ∧ v ∈ (route k).vertices) := by
  constructor
  · exact fun v =>
      Network.pathClosure_subset_closure full.coherent full.acyclic contracted.coherent hs
  · exact Network.closure_eq_pathClosure_iff_routes hroute full.coherent full.acyclic
      contracted.coherent hs

/-! ### A line of stops -/

/-- A line of four stops, and a side line that joins it at the third. -/
def viaduct : Plan :=
  empty.sketch [⟨2⟩, ⟨3⟩, ⟨4⟩, ⟨5⟩, ⟨6⟩] [(⟨2⟩, ⟨3⟩), (⟨3⟩, ⟨4⟩), (⟨4⟩, ⟨5⟩), (⟨6⟩, ⟨4⟩)]

/-- The ends of the line, and the third stop entered by the side line. -/
def crossing : Plan := empty.sketch [⟨2⟩, ⟨4⟩, ⟨5⟩, ⟨6⟩] [(⟨2⟩, ⟨5⟩), (⟨6⟩, ⟨4⟩), (⟨4⟩, ⟨5⟩)]

/-- The ends of the line, and the third stop entered by the line itself. -/
def calling : Plan := empty.sketch [⟨2⟩, ⟨4⟩, ⟨5⟩] [(⟨2⟩, ⟨5⟩), (⟨2⟩, ⟨4⟩), (⟨4⟩, ⟨5⟩)]

/-- The first path that the search finds between the ends of an edge. -/
def route (p : Plan) (l : Link) : Path :=
  ⟨l.source, ((p.network.trailsThrough (fun _ => true) l.source l.target).filter
    (Network.arrives l.target)).headD []⟩

theorem paths_viaduct (contracted : Plan) (h : ∀ l ∈ contracted.network.links,
    (viaduct.network.trailsThrough (fun _ => true) l.source l.target).filter
      (Network.arrives l.target) = [(route viaduct l).moves]) :
    ∀ l ∈ contracted.network.links, viaduct.network.paths l.source l.target = [route viaduct l] :=
  fun l hl => Network.paths_eq_of_pairwise (h l hl) (List.pairwise_singleton _ _)

theorem closure_eq_pathClosure_iff_viaduct :
    (∀ v ∈ viaduct.network.ids, v.isSentinel = false) ∧
      (∀ l ∈ calling.network.links, viaduct.network.paths l.source l.target = [route viaduct l]) ∧
      (viaduct.network.closure calling.network []).vertices =
        viaduct.network.pathClosure calling.network := by
  have hs : ∀ v ∈ viaduct.network.ids, v.isSentinel = false := by decide +kernel
  have hroute := paths_viaduct calling (by decide +kernel)
  refine ⟨hs, hroute, (closure_eq_pathClosure_iff viaduct calling (route viaduct) hs hroute).2.mpr ?_⟩
  have hshown : ∀ l ∈ calling.network.links, ∀ v ∈ (route viaduct l).vertices,
      v ∈ calling.network.ids ∨ ∃ k ∈ calling.network.links,
        (∀ w ∈ (route viaduct k).interior, w ∉ calling.network.ids) ∧
          v ∈ (route viaduct k).vertices := by decide +kernel
  exact fun l hl _ => hshown l hl

/-- **One path for each contracted edge is not enough.** The line passes the third stop, which
contracted edges enter and leave, so that pruning leaves it whole: the closure by walks holds the
second stop, and the closure by paths does not. -/
theorem viaduct_closures_differ : ¬ ∀ full contracted : Plan,
    (∀ v ∈ full.network.ids, v.isSentinel = false) →
    (∀ v ∈ contracted.network.ids, v ∈ full.network.ids) →
    (∀ l ∈ contracted.network.links, (full.network.paths l.source l.target).length = 1) →
    (full.network.closure contracted.network []).vertices =
      full.network.pathClosure contracted.network := by
  intro h
  have hroute := paths_viaduct crossing (by decide +kernel)
  have heq := h viaduct crossing (by decide +kernel) (by decide +kernel)
    fun l hl => by rw [hroute l hl]; rfl
  have hwalks : ⟨3⟩ ∈ (viaduct.network.closure crossing.network []).vertices := by decide +kernel
  have hpaths := Network.mem_pathClosure.mp (heq ▸ hwalks)
  have hmissing : ⟨3⟩ ∉ crossing.network.ids ∧ ∀ l ∈ crossing.network.links,
      (∀ x ∈ (route viaduct l).interior, x ∉ crossing.network.ids) →
        ⟨3⟩ ∉ (route viaduct l).vertices := by decide +kernel
  obtain ⟨l, hl, p, hp, hfree, hv⟩ := hpaths.resolve_left hmissing.1
  rw [hroute l hl] at hp
  obtain rfl := List.mem_singleton.mp hp
  exact hmissing.2 l hl hfree hv

end Plan

end Dataflow
