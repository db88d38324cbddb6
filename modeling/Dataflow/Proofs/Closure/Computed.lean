import Dataflow.Closure.Computed
import Dataflow.Proofs.Closure.Agreement
import Dataflow.Proofs.Closure.BlockClosure
import Dataflow.Proofs.Closure.Contraction
import Dataflow.Proofs.Closure.Distances
import Dataflow.Proofs.Closure.Masking
import Dataflow.Proofs.Closure.Search

/-!
# What the three algorithms compute

Each algorithm finds the closure that it is meant to find, and there always is one by distances. So
whatever holds of the closures holds of what is computed: how they compare, what they recover of a
contracted plan, what their views show, and that a view is found again. The distances are those of
any function that keeps to `ShortestDistances`, on networks whose vertices can be numbered in 32
bits.

* **`Network.computedSubnetwork_eq`**: by whatever algorithm, what is computed is the view of the
  closure.
* **`Plan.computed_closures_ordered`**, **`Plan.computed_closures_recover`**,
  **`Plan.computed_closures_agree_iff`**: the closures as they are computed.
* **`Plan.distanceView_shows`**, **`Plan.distanceView_of_mask`**,
  **`Plan.computedSubnetwork_computedSubnetwork`**: their views.
-/

namespace Dataflow

open Relation

variable {distances : ∀ size, List (Fin size × Fin size) → Option (Distances size)}

namespace Network

variable {full contracted : Network} {excludes : List ElementId}

theorem length_ids_mask_le (n : Network) : n.mask.ids.length ≤ n.ids.length := by
  unfold ids mask
  rw [List.length_map, List.length_map]
  exact List.length_filter_le _ _

theorem length_ids_restrict_le (n : Network) (vs : List ElementId) (es : Option (List EdgeId)) :
    (n.restrict vs es).ids.length ≤ n.ids.length := by
  unfold ids restrict
  rw [List.length_map, List.length_map]
  exact List.length_filter_le _ _

section Distances

variable (hd : ShortestDistances distances) (hn : full.Coherent)
  (hcapacity : full.ids.length < UInt32.size)
include hd hn hcapacity

theorem distanceClosure_mask_eq : full.mask.distanceClosure distances contracted excludes =
    .ok (full.mask.closure contracted excludes) :=
  distanceClosure_eq hd hn.mask (Nat.lt_of_le_of_lt full.length_ids_mask_le hcapacity)

/-- **The view of the closure by distances is that of the closure by walks.** -/
theorem distanceView_eq : full.distanceView distances contracted excludes =
    .ok (full.closureView contracted excludes) := by
  have hclosure : (if full.contains .head then full.mask else full).distanceClosure distances
      contracted excludes =
        .ok ((if full.contains .head then full.mask else full).closure contracted excludes) := by
    split
    · exact distanceClosure_mask_eq hd hn hcapacity
    · exact distanceClosure_eq hd hn hcapacity
  unfold distanceView
  rw [hclosure]
  rfl

/-- The algorithm by distances finds its view again. -/
theorem distanceView_distanceView {view : Network}
    (h : full.distanceView distances contracted excludes = .ok view) :
    view.distanceView distances contracted excludes = .ok view := by
  rw [distanceView_eq hd hn hcapacity] at h
  cases h
  rw [distanceView_eq hd hn.closureView
    (Nat.lt_of_le_of_lt (length_ids_restrict_le ..) hcapacity), closureView_closureView hn]

end Distances

theorem lowLinkView_eq (hne : ∀ l ∈ contracted.links, l.source ≠ l.target) :
    full.lowLinkView contracted = full.biconnectedView contracted := by
  unfold lowLinkView
  rw [lowLinkClosure_eq hne]
  rfl

theorem searchView_eq : full.searchView contracted = full.pathView contracted := by
  unfold searchView
  rw [searchClosure_eq]
  rfl

/-- The algorithm by components finds its view again. -/
theorem lowLinkView_lowLinkView (hn : full.Coherent) (hc : contracted.Coherent)
    (ha : contracted.Acyclic) {view : Network} (h : full.lowLinkView contracted = .ok view) :
    view.lowLinkView contracted = .ok view := by
  have hne : ∀ l ∈ contracted.links, l.source ≠ l.target := fun l hl => ha.source_ne_target hl
  rw [lowLinkView_eq hne] at h ⊢
  unfold biconnectedView at h
  cases hvs : full.biconnectedClosure contracted with
  | error f =>
    rw [hvs] at h
    cases h
  | ok vs =>
    rw [hvs] at h
    cases h
    exact biconnectedView_of_biconnectedClosure hn hc ha hvs

/-- The algorithm by paths finds its view again. -/
theorem searchView_searchView (hn : full.Coherent) :
    (full.searchView contracted).searchView contracted = full.searchView contracted := by
  rw [searchView_eq, searchView_eq, pathView_pathView hn]

/-- **Each algorithm computes the view of its closure.** -/
theorem computedSubnetwork_eq (hd : ShortestDistances distances) (hn : full.Coherent)
    (hcapacity : full.ids.length < UInt32.size) (ha : contracted.Acyclic) (settings : Settings) :
    full.computedSubnetwork distances contracted excludes settings =
      full.closureSubnetwork contracted excludes settings := by
  unfold computedSubnetwork closureSubnetwork
  cases settings.closureAlgorithm with
  | byWalks => exact distanceView_eq hd hn hcapacity
  | byComponents => exact lowLinkView_eq fun l hl => ha.source_ne_target hl
  | byPaths => exact congrArg Except.ok searchView_eq

end Network

namespace Plan

section Computed

variable (hd : ShortestDistances distances) (full contracted : Plan)
  (hcapacity : full.network.ids.length < UInt32.size)
include hd hcapacity

/-- **The closures are ordered by inclusion as they are computed.** -/
theorem computed_closures_ordered (excludes : List ElementId) :
    ∃ c c₀, full.network.distanceClosure distances contracted.network excludes = .ok c ∧
      full.network.distanceClosure distances contracted.network [] = .ok c₀ ∧
      (∀ v ∈ c.vertices, v ∈ c₀.vertices) ∧
      (∀ vs, full.network.lowLinkClosure contracted.network = .ok vs →
        (∀ v ∈ c.vertices, v ∈ vs) ∧
          ∀ v ∈ full.network.searchClosure contracted.network, v ∈ vs) ∧
      ((∀ v ∈ full.network.ids, v.isSentinel = false) →
        (∀ v ∈ full.network.searchClosure contracted.network, v ∈ c₀.vertices) ∧
        ((∀ l ∈ contracted.network.links, ∀ w ∈ contracted.network.ids,
            TransGen full.network.Step l.source w → ¬ TransGen full.network.Step w l.target) →
          full.network.searchClosure contracted.network = c₀.vertices)) := by
  refine ⟨_, _, Network.distanceClosure_eq hd full.coherent hcapacity,
    Network.distanceClosure_eq hd full.coherent hcapacity,
    fun v => Network.closure_subset_closure_nil full.coherent, fun vs hvs => ?_, fun hs => ?_⟩
  · rw [Network.lowLinkClosure_eq fun l hl => contracted.acyclic.source_ne_target hl] at hvs
    rw [Network.searchClosure_eq]
    constructor
    · exact fun v => Network.closure_subset_biconnectedClosure full.coherent full.acyclic
        contracted.coherent contracted.acyclic hvs
    · exact fun v => Network.pathClosure_subset_biconnectedClosure full.coherent full.acyclic
        contracted.coherent contracted.acyclic hvs
  · rw [Network.searchClosure_eq]
    constructor
    · exact fun v => Network.pathClosure_subset_closure full.coherent full.acyclic
        contracted.coherent hs
    · exact Network.pathClosure_eq_closure full.coherent full.acyclic contracted.coherent hs

omit contracted in
/-- **What was contracted comes back in the closures as they are computed**, where it stands between
what is left. -/
theorem computed_closures_recover (vs : List ElementId) (hhead : .head ∉ full.network.ids)
    (htail : .tail ∉ full.network.ids) :
    let contracted := (full.contractAll vs).network
    ∃ c, full.network.distanceClosure distances contracted [] = .ok c ∧
      c.vertices = full.network.searchClosure contracted ∧
      ∀ v, v ∈ c.vertices ↔ v ∈ contracted.ids ∨
        (v ∈ full.network.ids ∧ v ∈ vs ∧ ∃ a ∈ contracted.ids, ∃ d ∈ contracted.ids,
          TransGen full.network.Step a v ∧ TransGen full.network.Step v d) := by
  intro contracted
  have hcontraction : full.network.IsContraction contracted :=
    isContraction_contractAll (.refl full.coherent) vs
  have heq := hcontraction.closure_eq_pathClosure full.coherent full.acyclic
    (full.contractAll vs).coherent (Network.isSentinel_eq_false hhead htail)
  have hgone : ∀ v ∈ full.network.ids, v ∉ contracted.ids ↔ v ∈ vs := by
    intro v hv
    rw [mem_ids_contractAll, and_iff_right hv, not_not]
  refine ⟨_, Network.distanceClosure_eq hd full.coherent hcapacity,
    heq.trans Network.searchClosure_eq.symm, fun v => ?_⟩
  rw [heq, hcontraction.mem_pathClosure_iff full.coherent full.acyclic
    (full.contractAll vs).coherent]
  exact or_congr_right (and_congr_right fun hv => and_congr_left fun _ => hgone v hv)

/-- **When the closures agree as they are computed**, where each contracted edge has one path. -/
theorem computed_closures_agree_iff (route : Link → Path)
    (hs : ∀ v ∈ full.network.ids, v.isSentinel = false)
    (hroute : ∀ l ∈ contracted.network.links,
      full.network.paths l.source l.target = [route l]) :
    ∃ c, full.network.distanceClosure distances contracted.network [] = .ok c ∧
      (∀ v ∈ full.network.searchClosure contracted.network, v ∈ c.vertices) ∧
      (c.vertices = full.network.searchClosure contracted.network ↔
        ∀ l ∈ contracted.network.links,
          (∀ w ∈ (route l).interior, w ∈ contracted.network.ids →
            (∃ u, contracted.network.Step u w) ∧ ∃ u, contracted.network.Step w u) →
          ∀ v ∈ (route l).vertices, v ∈ contracted.network.ids ∨
            ∃ k ∈ contracted.network.links,
              (∀ w ∈ (route k).interior, w ∉ contracted.network.ids) ∧
                v ∈ (route k).vertices) := by
  rw [Network.searchClosure_eq]
  exact ⟨_, Network.distanceClosure_eq hd full.coherent hcapacity,
    fun v => Network.pathClosure_subset_closure full.coherent full.acyclic contracted.coherent hs,
    Network.closure_eq_pathClosure_iff_routes hroute full.coherent full.acyclic
      contracted.coherent hs⟩

/-! ### Views -/

/-- **The view that is computed by distances shows the whole region and nothing that leaks.** -/
theorem distanceView_shows (excludes : List ElementId)
    (hb : .head ∈ full.network.ids ∨ ∀ v ∈ full.network.ids, v.isSentinel = false) :
    ∃ c view, full.network.distanceClosure distances contracted.network excludes = .ok c ∧
      full.network.distanceView distances contracted.network excludes = .ok view ∧
      (∀ l ∈ contracted.network.links, view.paths l.source l.target =
        (full.network.paths l.source l.target).filter fun p =>
          p.vertices.all (fun v => !v.isSentinel) && p.links.all fun i => !decide (i ∈ c.pruned)) ∧
      (∀ v ∈ view.ids, v ∉ contracted.network.ids → ∃ l ∈ contracted.network.links,
        ∃ p ∈ view.paths l.source l.target, v ∈ p.vertices) ∧
      (∀ v ∈ contracted.network.ids,
        ((∀ u, ¬ contracted.network.Step u v) → view.inDegree v = 0) ∧
          ((∀ u, ¬ contracted.network.Step v u) → view.outDegree v = 0)) ∧
      ∀ v ∈ excludes, ∀ l ∈ view.links, l.touches v = false :=
  ⟨_, _, Network.distanceClosure_eq hd full.coherent hcapacity,
    Network.distanceView_eq hd full.coherent hcapacity,
    fun _ hl => Network.paths_closureView hb full.coherent hl,
    fun _ => Network.exists_path_closureView hb full.coherent full.acyclic contracted.coherent,
    fun _ hv => ⟨Network.inDegree_closureView full.coherent hv,
      Network.outDegree_closureView full.coherent hv⟩,
    fun _ hx _ => Network.not_touches_closureView full.coherent hx⟩

omit contracted in
/-- **A mask before the computation by distances comes to the same as a mask after it.** -/
theorem distanceView_of_mask (contracted : Network) (excludes : List ElementId) :
    ∃ c masked, full.network.distanceClosure distances contracted excludes = .ok c ∧
      full.network.mask.distanceClosure distances contracted excludes = .ok masked ∧
      masked.vertices = c.vertices ∧
      (∀ i, i ∈ masked.pruned ↔
        i ∈ c.pruned ∧ ∃ l ∈ full.network.links, l.id = i ∧ l.touchesSentinel = false) ∧
      full.network.mask.distanceView distances contracted excludes =
        (full.network.distanceView distances contracted excludes).map Network.mask ∧
      (.head ∈ full.network.ids →
        full.network.mask.distanceView distances contracted excludes =
          full.network.distanceView distances contracted excludes) := by
  have hview : full.network.distanceView distances contracted excludes =
      .ok (full.network.closureView contracted excludes) :=
    Network.distanceView_eq hd full.coherent hcapacity
  have hmasked : full.network.mask.distanceView distances contracted excludes =
      .ok (full.network.closureView contracted excludes).mask := by
    rw [Network.distanceView_eq hd full.coherent.mask
      (Nat.lt_of_le_of_lt full.network.length_ids_mask_le hcapacity),
      Network.closureView_mask full.coherent]
  refine ⟨_, _, Network.distanceClosure_eq hd full.coherent hcapacity,
    Network.distanceClosure_mask_eq hd full.coherent hcapacity, Network.closure_mask_vertices,
    fun i => Network.mem_pruned_mask full.coherent, ?_, fun hhead => ?_⟩
  · rw [hmasked, hview]
    rfl
  · rw [hmasked, hview, Network.mask_closureView_of_head full.coherent hhead]

/-- **A closure computed again changes nothing**, whatever the algorithm. -/
theorem computedSubnetwork_computedSubnetwork (excludes : List ElementId) (settings : Settings)
    {view : Network}
    (h : full.network.computedSubnetwork distances contracted.network excludes settings =
      .ok view) :
    view.computedSubnetwork distances contracted.network excludes settings = .ok view := by
  unfold Network.computedSubnetwork at h ⊢
  cases halg : settings.closureAlgorithm with
  | byWalks =>
    rw [halg] at h
    exact Network.distanceView_distanceView hd full.coherent hcapacity h
  | byComponents =>
    rw [halg] at h
    exact Network.lowLinkView_lowLinkView full.coherent contracted.coherent contracted.acyclic h
  | byPaths =>
    rw [halg] at h
    cases h
    exact congrArg Except.ok (Network.searchView_searchView full.coherent)

end Computed

/-- With one way of the diamond excluded, the view by distances lacks it, and so does the view of
that view. -/
example :
    let compute (n : Network) :=
      n.computedSubnetwork floydWarshall shortcut.network [⟨3⟩] ⟨.byWalks, .anyInbound⟩
    let once := compute boundedDiamond.network
    [once, once.bind compute].map (fun view => view.toOption.map (·.ids)) =
      List.replicate 2 (some [⟨2⟩, ⟨4⟩, ⟨5⟩]) := by
  decide +kernel

end Plan

end Dataflow
