import Dataflow.Proofs.Closure.Walks
import Dataflow.Proofs.Path.Enumeration
import Dataflow.Proofs.Plan.Edge

/-!
# The view of a closure

The view takes its vertices from a search of the region, and its edges from a list of what is
neither pruned nor at a sentinel. The two agree for a network that has an entry or no sentinel at
all: the edges of the region between the ends of a contracted edge show in the view, and the paths
of the view are the paths inside the region.

* **`Network.mem_ids_closureView`, `Network.mem_links_closureView`**: what the view shows.
* **`Network.paths_closureView`**: the paths of the view between the ends of a contracted edge.
* **`Plan.closureView_shows_region`**: the view shows the whole region and nothing that leaks.
-/

namespace Dataflow

open Relation

namespace Network

variable {n contracted : Network} {excludes : List ElementId}

theorem Coherent.closureView (hn : n.Coherent) : (n.closureView contracted excludes).Coherent :=
  hn.restrict _ _

/-- The path touches no sentinel and takes no pruned edge. -/
def staysInside (n contracted : Network) (excludes : List ElementId) (p : Path) : Bool :=
  p.vertices.all (fun v => !v.isSentinel) &&
    p.links.all fun i => !decide (i ∈ (n.closure contracted excludes).pruned)

theorem staysInside_iff {p : Path} : n.staysInside contracted excludes p = true ↔
    (∀ v ∈ p.vertices, v.isSentinel = false) ∧
      ∀ m ∈ p.moves, m.link ∉ (n.closure contracted excludes).pruned := by
  simp [staysInside, Path.links]

/-- A walk that touches no sentinel and takes no pruned edge is one inside the region. -/
theorem leads_inside (hn : n.Coherent) {s t : ElementId} {ms : List Move}
    (h : Leads n.moves s ms t) (hs : ∀ v ∈ s :: targets ms, v.isSentinel = false)
    (hp : ∀ m ∈ ms, m.link ∉ (n.closure contracted excludes).pruned) :
    Leads (n.inside contracted excludes).moves s ms t := by
  induction h with
  | nil v => exact .nil v
  | @cons u w m ms hm _ ih =>
    obtain ⟨hu, hrest⟩ := List.forall_mem_cons.mp hs
    have hm' := hp m List.mem_cons_self
    refine .cons ?_ (ih hrest fun m hm => hp m (List.mem_cons_of_mem _ hm))
    obtain ⟨l, hl, rfl, hid, ht⟩ := mem_moves.mp hm
    rw [← hid, hn.mem_pruned hl, Bool.not_eq_true] at hm'
    have htouch : l.touchesSentinel = false :=
      Bool.or_eq_false_iff.mpr ⟨hu, ht ▸ hrest m.target List.mem_cons_self⟩
    exact mem_moves.mpr ⟨l, mem_links_inside.mpr ⟨hl, htouch, hm'⟩, rfl, hid, ht⟩

/-- Whether the view leaves an edge out as pruned does not depend on where the sentinels were
hidden. -/
theorem mem_pruned_of_view (hn : n.Coherent) {l : Link} (hl : l ∈ n.links)
    (hs : (n.contains .head && l.touchesSentinel) = false) :
    l.id ∈ ((if n.contains .head then n.mask else n).closure contracted excludes).pruned ↔
      n.leaks contracted excludes l = true := by
  by_cases hh : n.contains .head = true
  · rw [hh, Bool.true_and] at hs
    rw [if_pos hh, hn.mask.mem_pruned (mem_links_mask.mpr ⟨hl, hs⟩), leaks_mask hs]
  · rw [if_neg hh, hn.mem_pruned hl]

/-- The vertices of the view are those of the closure, without the sentinels where they are left
out. -/
theorem mem_ids_closureView_iff_shown {v : ElementId} :
    v ∈ (n.closureView contracted excludes).ids ↔ v ∈ n.ids ∧
      (n.contains .head && v.isSentinel) = false ∧
      v ∈ (n.closure contracted excludes).vertices := by
  unfold closureView
  simp only [mem_ids_restrict, List.mem_filter, SortedSet.mem_toList, Bool.not_eq_true']
  refine and_congr_right fun hv => ?_
  by_cases hh : n.contains .head = true
  · rw [if_pos hh, closure_mask_vertices, and_comm]
  · rw [if_neg hh, and_comm]

theorem mem_links_closureView_iff_shown {l : Link} :
    l ∈ (n.closureView contracted excludes).links ↔ l ∈ n.links ∧
      l.source ∈ (n.closureView contracted excludes).ids ∧
      l.target ∈ (n.closureView contracted excludes).ids ∧
      ∃ k ∈ n.links, k.id = l.id ∧ (n.contains .head && k.touchesSentinel) = false ∧
        k.id ∉ ((if n.contains .head then n.mask else n).closure contracted excludes).pruned := by
  unfold closureView
  simp only
  rw [mem_links_restrict]
  simp only [Option.some.injEq, forall_eq', List.mem_map, List.mem_filter, Bool.and_eq_true,
    Bool.not_eq_true', decide_eq_false_iff_not]
  refine and_congr_right fun _ => and_congr_right fun _ => and_congr_right fun _ => ?_
  constructor
  · rintro ⟨k, ⟨hk, hs, hp⟩, hid⟩
    exact ⟨k, hk, hid, hs, hp⟩
  · rintro ⟨k, hk, hid, hs, hp⟩
    exact ⟨k, ⟨hk, hs, hp⟩, hid⟩

section Edges

variable (hn : n.Coherent)
include hn

/-- **The edges of the view** are those between its vertices that do not leak. -/
theorem mem_links_closureView {l : Link} :
    l ∈ (n.closureView contracted excludes).links ↔
      l ∈ n.links ∧ l.source ∈ (n.closureView contracted excludes).ids ∧
        l.target ∈ (n.closureView contracted excludes).ids ∧
        n.leaks contracted excludes l = false := by
  have hends : ∀ {l : Link}, l.source ∈ (n.closureView contracted excludes).ids →
      l.target ∈ (n.closureView contracted excludes).ids →
      (n.contains .head && l.touchesSentinel) = false := by
    intro l hs ht
    have hs := (mem_ids_closureView_iff_shown.mp hs).2.1
    have ht := (mem_ids_closureView_iff_shown.mp ht).2.1
    rw [Link.touchesSentinel, Bool.and_or_distrib_left, hs, ht]
    rfl
  rw [mem_links_closureView_iff_shown]
  refine and_congr_right fun hl => and_congr_right fun hs => and_congr_right fun ht => ?_
  constructor
  · rintro ⟨k, hk, hid, -, hp⟩
    cases hn.eq_of_id hk hl hid
    rw [mem_pruned_of_view hn hl (hends hs ht)] at hp
    exact Bool.eq_false_iff.mpr hp
  · intro hleaks
    refine ⟨l, hl, rfl, hends hs ht, ?_⟩
    rw [mem_pruned_of_view hn hl (hends hs ht), hleaks]
    simp

/-- The moves from a vertex of the view are those to another one by an edge that is not pruned. -/
theorem moves_closureView {v : ElementId} (hv : v ∈ (n.closureView contracted excludes).ids) :
    (n.closureView contracted excludes).moves v = (n.moves v).filter fun m =>
      decide (m.target ∈ (n.closureView contracted excludes).ids) &&
        !decide (m.link ∈ (n.closure contracted excludes).pruned) := by
  obtain ⟨shown, hshown⟩ : ∃ shown : Link → Bool,
      (n.closureView contracted excludes).links = n.links.filter shown := ⟨_, rfl⟩
  unfold moves outgoing
  rw [List.filter_map, hshown, List.filter_filter, List.filter_filter]
  refine congrArg _ (List.filter_congr fun l hl => ?_)
  have hiff : shown l = true ↔ l ∈ (n.closureView contracted excludes).links := by
    rw [hshown, List.mem_filter]
    exact (and_iff_right hl).symm
  rw [Bool.eq_iff_iff, Bool.and_eq_true, Bool.and_eq_true, hiff, mem_links_closureView hn]
  simp only [Function.comp, decide_eq_true_eq, Bool.and_eq_true, Bool.not_eq_true',
    decide_eq_false_iff_not, hn.mem_pruned hl, Bool.not_eq_true]
  constructor
  · rintro ⟨rfl, -, -, ht, hleaks⟩
    exact ⟨⟨ht, hleaks⟩, rfl⟩
  · rintro ⟨⟨ht, hleaks⟩, rfl⟩
    exact ⟨rfl, hl, hv, ht, hleaks⟩

/-! ### Walks of the region -/

/-- An edge of the region shows in the view where its ends do, and is inside the region of the view
again. -/
theorem mem_links_inside_closureView {l : Link} (hl : l ∈ (n.inside contracted excludes).links)
    (hs : l.source ∈ (n.closureView contracted excludes).ids)
    (ht : l.target ∈ (n.closureView contracted excludes).ids) :
    l ∈ ((n.closureView contracted excludes).inside contracted excludes).links := by
  obtain ⟨hln, hsentinel, hleaks⟩ := mem_links_inside.mp hl
  have hview := (mem_links_closureView hn).mpr ⟨hln, hs, ht, hleaks⟩
  refine mem_links_inside.mpr ⟨hview, hsentinel, Bool.eq_false_iff.mpr fun h => ?_⟩
  rw [leaks_mono (fun v hv => (mem_ids_closureView_iff_shown.mp hv).1) h] at hleaks
  cases hleaks

/-- **The walks of the region between the ends of a contracted edge** are walks inside the region of
the view. -/
theorem reflTransGen_inside_closureView {l : Link} (hl : l ∈ contracted.links)
    (hs : l.source ∈ (n.inside contracted excludes).ids)
    (ht : l.target ∈ (n.inside contracted excludes).ids) {a b : ElementId}
    (hsa : ReflTransGen (n.inside contracted excludes).Step l.source a)
    (hab : ReflTransGen (n.inside contracted excludes).Step a b)
    (hbt : ReflTransGen (n.inside contracted excludes).Step b l.target) :
    ReflTransGen ((n.closureView contracted excludes).inside contracted excludes).Step a b := by
  have hmem : ∀ {x}, ReflTransGen (n.inside contracted excludes).Step l.source x →
      ReflTransGen (n.inside contracted excludes).Step x l.target →
      x ∈ (n.closureView contracted excludes).ids := by
    intro x hsx hxt
    obtain ⟨hx, hxs⟩ := mem_ids_inside.mp (hn.inside.mem_of_reflTransGen hs hsx)
    have hclosed := (mem_closure hn).mpr (.inr ⟨l, hl, hs, ht, hsx, hxt⟩)
    exact mem_ids_closureView_iff_shown.mpr ⟨hx, by rw [hxs, Bool.and_false], hclosed⟩
  induction hab with
  | refl => exact .refl
  | @tail x y hax hxy ih =>
    obtain ⟨k, hk, rfl, rfl⟩ := hxy
    have hxt : ReflTransGen (n.inside contracted excludes).Step k.source l.target :=
      .head ⟨k, hk, rfl, rfl⟩ hbt
    have hsx := hsa.trans hax
    have hsy := hsx.tail ⟨k, hk, rfl, rfl⟩
    exact (ih hxt).tail
      ⟨k, mem_links_inside_closureView hn hk (hmem hsx hxt) (hmem hsy hbt), rfl, rfl⟩

/-! ### What leaks -/

/-- No edge of the view enters a contracted vertex that no contracted edge enters. -/
theorem inDegree_closureView {v : ElementId} (hv : v ∈ contracted.ids)
    (hfirst : ∀ u, ¬ contracted.Step u v) :
    (n.closureView contracted excludes).inDegree v = 0 := by
  rw [inDegree_eq_zero_iff]
  rintro u ⟨l, hl, -, rfl⟩
  have hleaks := ((mem_links_closureView hn).mp hl).2.2.2
  rw [leaks_eq_true_iff.mpr (.inr (.inl (isEntry_iff.mpr ⟨hv, hfirst⟩)))] at hleaks
  cases hleaks

/-- No edge of the view leaves a contracted vertex that no contracted edge leaves. -/
theorem outDegree_closureView {v : ElementId} (hv : v ∈ contracted.ids)
    (hlast : ∀ u, ¬ contracted.Step v u) :
    (n.closureView contracted excludes).outDegree v = 0 := by
  rw [outDegree_eq_zero_iff]
  rintro u ⟨l, hl, rfl, -⟩
  have hleaks := ((mem_links_closureView hn).mp hl).2.2.2
  rw [leaks_eq_true_iff.mpr (.inr (.inr (isExit_iff.mpr ⟨hv, hlast⟩)))] at hleaks
  cases hleaks

/-- No edge of the view touches an excluded element. -/
theorem not_touches_closureView {v : ElementId} (hx : v ∈ excludes) {l : Link}
    (hl : l ∈ (n.closureView contracted excludes).links) : l.touches v = false := by
  refine Bool.eq_false_iff.mpr fun htouch => ?_
  obtain ⟨hln, -, -, hleaks⟩ := (mem_links_closureView hn).mp hl
  have hv : v ∈ n.ids := by
    rcases Bool.or_eq_true_iff.mp htouch with h | h
    · exact of_decide_eq_true h ▸ hn.source_mem l hln
    · exact of_decide_eq_true h ▸ hn.target_mem l hln
  rw [leaks_eq_true_iff.mpr (.inl ⟨v, hx, hv, htouch⟩)] at hleaks
  cases hleaks

end Edges

section Shown

variable (hb : .head ∈ n.ids ∨ ∀ v ∈ n.ids, v.isSentinel = false)
include hb

/-- **The vertices of the view** are those of the closure that are no sentinels. -/
theorem mem_ids_closureView {v : ElementId} : v ∈ (n.closureView contracted excludes).ids ↔
      v ∈ n.ids ∧ v.isSentinel = false ∧ v ∈ (n.closure contracted excludes).vertices := by
  rw [mem_ids_closureView_iff_shown]
  refine and_congr_right fun hv => and_congr_left fun _ => ?_
  by_cases hh : n.contains .head = true
  · rw [hh, Bool.true_and]
  · have hs := hb.resolve_left (mt contains_iff.mpr hh) v hv
    rw [hs, Bool.and_false]

variable (hn : n.Coherent)
include hn

/-- **A vertex that is not contracted shows only on the way between the ends of a contracted
edge.** -/
theorem exists_path_closureView (ha : n.Acyclic) (hc : contracted.Coherent) {v : ElementId}
    (hv : v ∈ (n.closureView contracted excludes).ids) (hfree : v ∉ contracted.ids) :
    ∃ l ∈ contracted.links,
      ∃ p ∈ (n.closureView contracted excludes).paths l.source l.target, v ∈ p.vertices := by
  obtain ⟨-, -, hclosed⟩ := (mem_ids_closureView hb).mp hv
  obtain ⟨l, hl, hs, ht, hsv, hvt⟩ := ((mem_closure hn).mp hclosed).resolve_left hfree
  have hview : (n.closureView contracted excludes).Acyclic := ha.mono fun _ _ =>
    Step.mono fun k hk => (mem_links_closureView hn).mp hk |>.1
  have hsv' := reflTransGen_mono (fun _ => links_of_inside)
    (reflTransGen_inside_closureView hn hl hs ht .refl hsv hvt)
  have hvt' := reflTransGen_mono (fun _ => links_of_inside)
    (reflTransGen_inside_closureView hn hl hs ht hsv hvt .refl)
  have hne : l.source ≠ v := fun h => hfree (h ▸ hc.source_mem l hl)
  have hsv' := (reflTransGen_iff_eq_or_transGen.mp hsv').resolve_left (Ne.symm hne)
  obtain ⟨xs, hxne, hxs⟩ := exists_leads_of_transGen hsv'
  obtain ⟨ys, hys⟩ := exists_leads_of_reflTransGen hvt'
  have hsource := hn.closureView.source_mem_of_transGen hsv'
  have htarget := hn.closureView.mem_of_reflTransGen hv hvt'
  have happend : xs ++ ys ≠ [] := fun h => hxne (List.append_eq_nil_iff.mp h).1
  refine ⟨l, hl, ⟨l.source, xs ++ ys⟩,
    hview.mem_paths_of_leads hsource htarget happend (hxs.append hys), ?_⟩
  rw [Path.vertices_eq, targets_append]
  exact List.mem_cons_of_mem _ (List.mem_append_left _ (hxs.end_mem_targets hxne))

/-! ### Paths of the view -/

/-- The vertices of a path inside the region show in the view. -/
theorem mem_ids_closureView_of_path {l : Link} (hl : l ∈ contracted.links) {p : Path}
    (hp : p ∈ n.paths l.source l.target) (hin : n.staysInside contracted excludes p = true) :
    ∀ v ∈ p.vertices, v ∈ (n.closureView contracted excludes).ids := by
  obtain ⟨hvs, hms⟩ := staysInside_iff.mp hin
  obtain ⟨-, hs, ht, hstart, hlead, -⟩ := mem_paths.mp hp
  rw [Path.vertices_eq, hstart] at hvs ⊢
  have hne := moves_ne_nil_of_mem_paths hp
  have hinside := leads_inside hn hlead hvs hms
  have hsi : l.source ∈ (n.inside contracted excludes).ids :=
    mem_ids_inside.mpr ⟨hs, hvs _ List.mem_cons_self⟩
  have hti : l.target ∈ (n.inside contracted excludes).ids :=
    mem_ids_inside.mpr ⟨ht, hvs _ (List.mem_cons_of_mem _ (hlead.end_mem_targets hne))⟩
  intro v hv
  have hwalk : ReflTransGen (n.inside contracted excludes).Step l.source v ∧
      ReflTransGen (n.inside contracted excludes).Step v l.target := by
    rcases List.mem_cons.mp hv with rfl | hv
    · exact ⟨.refl, hinside.reflTransGen⟩
    · obtain ⟨xs, ys, -, -, hxs, hys⟩ := hinside.split hv
      exact ⟨hxs.reflTransGen, hys.reflTransGen⟩
  obtain ⟨hvn, hvs⟩ := mem_ids_inside.mp (hn.inside.mem_of_reflTransGen hsi hwalk.1)
  exact (mem_ids_closureView hb).mpr
    ⟨hvn, hvs, (mem_closure hn).mpr (.inr ⟨l, hl, hsi, hti, hwalk⟩)⟩

/-- **The paths of the view between the ends of a contracted edge** are those of the network that
touch no sentinel and take no pruned edge. -/
theorem paths_closureView {l : Link} (hl : l ∈ contracted.links) :
    (n.closureView contracted excludes).paths l.source l.target =
      (n.paths l.source l.target).filter (n.staysInside contracted excludes) := by
  by_cases hends : l.source ∈ (n.closureView contracted excludes).ids ∧
      l.target ∈ (n.closureView contracted excludes).ids
  · rw [paths_eq_filter (fun v hv => ((mem_ids_closureView hb).mp hv).1)
      (fun v hv => moves_closureView hn hv)
      (fun m hm => of_decide_eq_true (Bool.and_eq_true_iff.mp hm).1) hends.1 hends.2]
    refine List.filter_congr fun p hp => ?_
    rw [Bool.eq_iff_iff, List.all_eq_true]
    simp only [Bool.and_eq_true, decide_eq_true_eq, Bool.not_eq_true', decide_eq_false_iff_not]
    constructor
    · intro hkept
      refine staysInside_iff.mpr ⟨fun v hv => ?_, fun m hm => (hkept m hm).2⟩
      rw [Path.vertices_eq, (mem_paths.mp hp).2.2.2.1] at hv
      have hv : v ∈ (n.closureView contracted excludes).ids := by
        rcases List.mem_cons.mp hv with rfl | hv
        · exact hends.1
        · obtain ⟨m, hm, rfl⟩ := List.mem_map.mp hv
          exact (hkept m hm).1
      exact ((mem_ids_closureView hb).mp hv).2.1
    · intro hin m hm
      have hmem : m.target ∈ p.vertices := List.mem_cons_of_mem _ (List.mem_map.mpr ⟨m, hm, rfl⟩)
      exact ⟨mem_ids_closureView_of_path hb hn hl hp hin m.target hmem,
        (staysInside_iff.mp hin).2 m hm⟩
  · have hnone : (n.closureView contracted excludes).paths l.source l.target = [] := by
      refine List.eq_nil_iff_forall_not_mem.mpr fun p hp => hends ?_
      obtain ⟨-, hs, ht, -⟩ := mem_paths.mp hp
      exact ⟨hs, ht⟩
    rw [hnone, eq_comm, List.filter_eq_nil_iff]
    intro p hp hin
    have hshow := mem_ids_closureView_of_path hb hn hl hp hin
    obtain ⟨-, -, -, hstart, hlead, -⟩ := mem_paths.mp hp
    have hlast := hlead.end_mem_targets (moves_ne_nil_of_mem_paths hp)
    rw [Path.vertices_eq, hstart] at hshow
    exact hends ⟨hshow _ List.mem_cons_self, hshow _ (List.mem_cons_of_mem _ hlast)⟩

end Shown

end Network

namespace Plan

/-- **The view of a closure shows the whole region and nothing that leaks.** Between the ends of a
contracted edge it has the paths inside the region, in their order; every vertex that is not
contracted is on one of them; and no edge crosses the boundary or touches an excluded element. -/
theorem closureView_shows_region (full contracted : Plan) (excludes : List ElementId)
    (hb : .head ∈ full.network.ids ∨ ∀ v ∈ full.network.ids, v.isSentinel = false) :
    let view := full.network.closureView contracted.network excludes
    (∀ l ∈ contracted.network.links, view.paths l.source l.target =
      (full.network.paths l.source l.target).filter
        (full.network.staysInside contracted.network excludes)) ∧
    (∀ v ∈ view.ids, v ∉ contracted.network.ids → ∃ l ∈ contracted.network.links,
      ∃ p ∈ view.paths l.source l.target, v ∈ p.vertices) ∧
    (∀ v ∈ view.ids, v ∈ contracted.network.ids →
      ((∀ u, ¬ contracted.network.Step u v) → view.inDegree v = 0) ∧
        ((∀ u, ¬ contracted.network.Step v u) → view.outDegree v = 0)) ∧
    (∀ v ∈ view.ids, v ∈ excludes → ∀ l ∈ view.links, l.touches v = false) := by
  intro view
  refine ⟨?_, ?_, ?_, ?_⟩
  · exact fun l hl => Network.paths_closureView hb full.coherent hl
  · exact fun v hv hfree =>
      Network.exists_path_closureView hb full.coherent full.acyclic contracted.coherent hv hfree
  · intro v _ hv
    constructor
    · exact Network.inDegree_closureView full.coherent hv
    · exact Network.outDegree_closureView full.coherent hv
  · exact fun v _ hx l hl => Network.not_touches_closureView full.coherent hx hl

/-- The diamond between the sentinels. -/
def boundedDiamond : Plan :=
  withExtents.sketch [⟨2⟩, ⟨3⟩, ⟨4⟩, ⟨5⟩] [(.head, ⟨2⟩), (⟨2⟩, ⟨3⟩), (⟨3⟩, ⟨5⟩), (⟨2⟩, ⟨4⟩),
    (⟨4⟩, ⟨5⟩), (⟨5⟩, .tail)]

/-- The ends of the diamond, and a vertex on one of its ways. -/
def calledAt : Plan := empty.sketch [⟨2⟩, ⟨3⟩, ⟨5⟩] [(⟨2⟩, ⟨5⟩), (⟨2⟩, ⟨3⟩), (⟨3⟩, ⟨5⟩)]

/-- With one way excluded, the view has the path along the other. The edges from the entry and to
the exit are pruned, and the excluded vertex shows without its edges. -/
theorem closureView_shows_region_bounded :
    let full := boundedDiamond.network
    let view := full.closureView calledAt.network [⟨3⟩]
    .head ∈ full.ids ∧
      full.paths ⟨2⟩ ⟨5⟩ = [⟨⟨2⟩, [⟨1, ⟨3⟩⟩, ⟨2, ⟨5⟩⟩]⟩, ⟨⟨2⟩, [⟨3, ⟨4⟩⟩, ⟨4, ⟨5⟩⟩]⟩] ∧
      view.paths ⟨2⟩ ⟨5⟩ = [⟨⟨2⟩, [⟨3, ⟨4⟩⟩, ⟨4, ⟨5⟩⟩]⟩] ∧
      (∀ v ∈ view.ids, v ∉ calledAt.network.ids → ∃ l ∈ calledAt.network.links,
        ∃ p ∈ view.paths l.source l.target, v ∈ p.vertices) ∧
      full.inDegree ⟨2⟩ = 1 ∧ view.inDegree ⟨2⟩ = 0 ∧
      full.outDegree ⟨5⟩ = 1 ∧ view.outDegree ⟨5⟩ = 0 ∧
      ⟨3⟩ ∈ view.ids ∧ ∀ l ∈ view.links, l.touches ⟨3⟩ = false := by
  intro full view
  let between : Link := ⟨0, ⟨2⟩, ⟨5⟩, .named ""⟩
  obtain ⟨hhead, htrails, hinside, hbetween, ⟨hshown₂, hshown₅, hshown₃⟩, ⟨hcalled₂, hcalled₅⟩,
      ⟨hentry, hexit⟩, hin, hout⟩ : .head ∈ full.ids ∧
      (full.trailsThrough (fun _ => true) ⟨2⟩ ⟨5⟩).filter (Network.arrives ⟨5⟩) =
        [[⟨1, ⟨3⟩⟩, ⟨2, ⟨5⟩⟩], [⟨3, ⟨4⟩⟩, ⟨4, ⟨5⟩⟩]] ∧
      [⟨⟨2⟩, [⟨1, ⟨3⟩⟩, ⟨2, ⟨5⟩⟩]⟩, ⟨⟨2⟩, [⟨3, ⟨4⟩⟩, ⟨4, ⟨5⟩⟩]⟩].filter
        (full.staysInside calledAt.network [⟨3⟩]) = [⟨⟨2⟩, [⟨3, ⟨4⟩⟩, ⟨4, ⟨5⟩⟩]⟩] ∧
      between ∈ calledAt.network.links ∧
      (⟨2⟩ ∈ view.ids ∧ ⟨5⟩ ∈ view.ids ∧ ⟨3⟩ ∈ view.ids) ∧
      (⟨2⟩ ∈ calledAt.network.ids ∧ ⟨5⟩ ∈ calledAt.network.ids) ∧
      (calledAt.network.inDegree ⟨2⟩ = 0 ∧ calledAt.network.outDegree ⟨5⟩ = 0) ∧
      full.inDegree ⟨2⟩ = 1 ∧ full.outDegree ⟨5⟩ = 1 := by decide +kernel
  have hpaths : full.paths ⟨2⟩ ⟨5⟩ =
      [⟨⟨2⟩, [⟨1, ⟨3⟩⟩, ⟨2, ⟨5⟩⟩]⟩, ⟨⟨2⟩, [⟨3, ⟨4⟩⟩, ⟨4, ⟨5⟩⟩]⟩] :=
    Network.paths_eq_of_pairwise htrails (by decide)
  obtain ⟨hsub, hon, hends, hexcluded⟩ :=
    closureView_shows_region boundedDiamond calledAt [⟨3⟩] (.inl hhead)
  refine ⟨hhead, hpaths, ?_, hon, hin, ?_, hout, ?_, hshown₃, ?_⟩
  · calc view.paths ⟨2⟩ ⟨5⟩
        = (full.paths ⟨2⟩ ⟨5⟩).filter (full.staysInside calledAt.network [⟨3⟩]) :=
          hsub between hbetween
      _ = [⟨⟨2⟩, [⟨3, ⟨4⟩⟩, ⟨4, ⟨5⟩⟩]⟩] := by rw [hpaths, hinside]
  · exact (hends ⟨2⟩ hshown₂ hcalled₂).1 (Network.inDegree_eq_zero_iff.mp hentry)
  · exact (hends ⟨5⟩ hshown₅ hcalled₅).2 (Network.outDegree_eq_zero_iff.mp hexit)
  · exact hexcluded ⟨3⟩ hshown₃ List.mem_cons_self

end Plan

end Dataflow
