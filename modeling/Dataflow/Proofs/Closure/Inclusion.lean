import Dataflow.Proofs.Closure.Components
import Dataflow.Proofs.Closure.Paths
import Dataflow.Proofs.Closure.Walks
import Dataflow.Proofs.Plan.Edge

/-!
# How the closures compare

Between two contracted vertices the closure by walks admits every walk that pruning leaves, the one
by paths only those past no other contracted vertex, and a biconnected component holds all that
stands between, in whatever direction.

* **`Network.pathClosure_eq_closure`**: without sentinels, and where contracted vertices are not
  between others, the closures by walks and by paths are one.
* **`Plan.closure_inclusions`**: excluded elements only shrink the closure by walks; it and the
  closure by paths are within the closure by components; without sentinels the closure by paths is
  within the one by walks, and equal to it where contracted vertices are not between others.
-/

namespace Dataflow

open Relation

namespace Network

variable {full contracted : Network} {excludes : List ElementId} {v : ElementId}

/-- **Excluded elements only shrink the closure by walks.** -/
theorem closure_subset_closure_nil (hn : full.Coherent)
    (h : v ∈ (full.closure contracted excludes).vertices) :
    v ∈ (full.closure contracted []).vertices := by
  have hlinks : ∀ l ∈ (full.inside contracted excludes).links,
      l ∈ (full.inside contracted []).links := by
    intro l hl
    obtain ⟨hl, hs, hleaks⟩ := mem_links_inside.mp hl
    refine mem_links_inside.mpr ⟨hl, hs, Bool.eq_false_iff.mpr fun h => ?_⟩
    rw [leaks_of_leaks_nil h] at hleaks
    exact absurd hleaks (by simp)
  rw [mem_closure hn] at h ⊢
  refine h.imp_right ?_
  rintro ⟨l, hl, hs, ht, hsv, hvt⟩
  rw [mem_ids_inside] at hs ht
  exact ⟨l, hl, mem_ids_inside.mpr hs, mem_ids_inside.mpr ht, reflTransGen_mono hlinks hsv,
    reflTransGen_mono hlinks hvt⟩

/-! ### Components -/

/-- **What stands between the ends of a contracted edge is in the closure by components.** -/
theorem mem_biconnectedClosure_of_between (hn : full.Coherent) (ha : full.Acyclic)
    (hc : contracted.Acyclic) {vs : SortedSet ElementId}
    (hvs : full.biconnectedClosure contracted = .ok vs) {l : Link} (hl : l ∈ contracted.links)
    (hsv : TransGen full.Step l.source v) (hvt : TransGen full.Step v l.target) : v ∈ vs := by
  have hne := hc.source_ne_target hl
  refine (mem_biconnectedClosure hvs).mpr (.inr ⟨l, hl, ?_⟩)
  unfold Bonds.covering
  rw [if_pos hne]
  exact mem_component_of_between hn ha (hn.target_mem_of_transGen hsv) hsv.to_reflTransGen
    hvt.to_reflTransGen

theorem closure_subset_biconnectedClosure (hn : full.Coherent) (ha : full.Acyclic)
    (hcc : contracted.Coherent) (hc : contracted.Acyclic) {vs : SortedSet ElementId}
    (hvs : full.biconnectedClosure contracted = .ok vs)
    (h : v ∈ (full.closure contracted excludes).vertices) : v ∈ vs := by
  by_cases hv : v ∈ contracted.ids
  · exact (mem_biconnectedClosure hvs).mpr (.inl hv)
  · obtain ⟨l, hl, hsv, hvt⟩ := exists_link_of_mem_closure hn hcc h hv
    exact mem_biconnectedClosure_of_between hn ha hc hvs hl hsv hvt

theorem pathClosure_subset_biconnectedClosure (hn : full.Coherent) (ha : full.Acyclic)
    (hcc : contracted.Coherent) (hc : contracted.Acyclic) {vs : SortedSet ElementId}
    (hvs : full.biconnectedClosure contracted = .ok vs) (h : v ∈ full.pathClosure contracted) :
    v ∈ vs := by
  by_cases hv : v ∈ contracted.ids
  · exact (mem_biconnectedClosure hvs).mpr (.inl hv)
  · obtain ⟨l, hl, -, -, hsv, hvt⟩ := (mem_pathClosure_iff_detour ha hcc hv).mp h
    exact mem_biconnectedClosure_of_between hn ha hc hvs hl hsv.transGen hvt.transGen

/-! ### Paths and walks -/

/-- **Without sentinels the closure by paths is within the closure by walks.** -/
theorem pathClosure_subset_closure (hn : full.Coherent) (ha : full.Acyclic)
    (hcc : contracted.Coherent) (hs : ∀ v ∈ full.ids, v.isSentinel = false)
    (h : v ∈ full.pathClosure contracted) : v ∈ (full.closure contracted []).vertices := by
  rw [mem_closure hn]
  by_cases hv : v ∈ contracted.ids
  · exact .inl hv
  · obtain ⟨l, hl, hsm, htm, hsv, hvt⟩ := (mem_pathClosure_iff_detour ha hcc hv).mp h
    -- some contracted edge leaves the source, so no edge out of it is pruned; dually at the target
    have hrim : ∀ w, contracted.IsRim w → w ∈ contracted.ids := fun _ => IsRim.mem
    have hsv := (hsv.mono hrim).transGen_inside hs hn (not_isExit_of_mem hl)
      (not_isEntry_of_not_mem hv)
    have hvt := (hvt.mono hrim).transGen_inside hs hn (not_isExit_of_not_mem hv)
      (not_isEntry_of_mem hl)
    exact .inr ⟨l, hl, mem_ids_inside.mpr ⟨hsm, hs _ hsm⟩, mem_ids_inside.mpr ⟨htm, hs _ htm⟩,
      hsv.to_reflTransGen, hvt.to_reflTransGen⟩

/-- **Where contracted vertices are not between others, the closure by walks is within the closure
by paths.** -/
theorem closure_subset_pathClosure (hn : full.Coherent) (ha : full.Acyclic)
    (hcc : contracted.Coherent)
    (hfree : ∀ l ∈ contracted.links, ∀ w ∈ contracted.ids, TransGen full.Step l.source w →
      ¬ TransGen full.Step w l.target)
    (h : v ∈ (full.closure contracted excludes).vertices) : v ∈ full.pathClosure contracted := by
  by_cases hv : v ∈ contracted.ids
  · exact mem_pathClosure.mpr (.inl hv)
  · obtain ⟨l, hl, hsv, hvt⟩ := exists_link_of_mem_closure hn hcc h hv
    have hs := hn.source_mem_of_transGen hsv
    have ht := hn.target_mem_of_transGen hvt
    refine (mem_pathClosure_iff_detour ha hcc hv).mpr
      ⟨l, hl, hs, ht, detour_of_transGen hsv ?_, detour_of_transGen hvt ?_⟩
    · exact fun w hsw hwv hw => hfree l hl w hw hsw (hwv.trans hvt)
    · exact fun w hvw hwt hw => hfree l hl w hw (hsv.trans hvw) hwt

/-- **Where contracted vertices are not between others, the two closures are one.** -/
theorem pathClosure_eq_closure (hn : full.Coherent) (ha : full.Acyclic) (hcc : contracted.Coherent)
    (hs : ∀ v ∈ full.ids, v.isSentinel = false)
    (hfree : ∀ l ∈ contracted.links, ∀ w ∈ contracted.ids, TransGen full.Step l.source w →
      ¬ TransGen full.Step w l.target) :
    full.pathClosure contracted = (full.closure contracted []).vertices :=
  SortedSet.ext fun _ => ⟨pathClosure_subset_closure hn ha hcc hs,
    closure_subset_pathClosure hn ha hcc hfree⟩

end Network

namespace Plan

/-- **The closures are ordered by inclusion.** -/
theorem closure_inclusions (full contracted : Plan) (excludes : List ElementId) :
    (∀ v ∈ (full.network.closure contracted.network excludes).vertices,
      v ∈ (full.network.closure contracted.network []).vertices) ∧
    (∀ vs, full.network.biconnectedClosure contracted.network = .ok vs →
      (∀ v ∈ (full.network.closure contracted.network excludes).vertices, v ∈ vs) ∧
        ∀ v ∈ full.network.pathClosure contracted.network, v ∈ vs) ∧
    ((∀ v ∈ full.network.ids, v.isSentinel = false) →
      (∀ v ∈ full.network.pathClosure contracted.network,
        v ∈ (full.network.closure contracted.network []).vertices) ∧
      ((∀ l ∈ contracted.network.links, ∀ w ∈ contracted.network.ids,
          TransGen full.network.Step l.source w → ¬ TransGen full.network.Step w l.target) →
        full.network.pathClosure contracted.network =
          (full.network.closure contracted.network []).vertices)) := by
  refine ⟨?_, ?_, ?_⟩
  · exact fun v => Network.closure_subset_closure_nil full.coherent
  · intro vs hvs
    constructor
    · exact fun v => Network.closure_subset_biconnectedClosure full.coherent full.acyclic
        contracted.coherent contracted.acyclic hvs
    · exact fun v => Network.pathClosure_subset_biconnectedClosure full.coherent full.acyclic
        contracted.coherent contracted.acyclic hvs
  · intro hs
    constructor
    · exact fun v => Network.pathClosure_subset_closure full.coherent full.acyclic
        contracted.coherent hs
    · exact Network.pathClosure_eq_closure full.coherent full.acyclic contracted.coherent hs

/-- The diamond, with a vertex after it and one that feeds both of its ways. -/
def fedDiamond : Plan :=
  diamond.sketch [⟨6⟩, ⟨7⟩] [(⟨5⟩, ⟨6⟩), (⟨7⟩, ⟨3⟩), (⟨7⟩, ⟨4⟩)]

/-- All inclusions are proper: the excluded vertex takes itself out of the closure by walks, the one
that feeds both ways is in their component without being between the ends, and the one after the
diamond is in no closure. -/
theorem closure_inclusions_fedDiamond :
    let full := fedDiamond.network
    let contracted := shortcut.network
    let component : SortedSet ElementId := .ofList [⟨2⟩, ⟨3⟩, ⟨4⟩, ⟨5⟩, ⟨7⟩]
    (full.closure contracted [⟨3⟩]).vertices = .ofList [⟨2⟩, ⟨4⟩, ⟨5⟩] ∧
      (full.closure contracted []).vertices = .ofList [⟨2⟩, ⟨3⟩, ⟨4⟩, ⟨5⟩] ∧
      full.biconnectedClosure contracted = .ok component ∧
      (∀ v ∈ (full.closure contracted [⟨3⟩]).vertices, v ∈ (full.closure contracted []).vertices) ∧
      (∀ v ∈ (full.closure contracted [⟨3⟩]).vertices, v ∈ component) ∧
      (∀ v ∈ full.pathClosure contracted, v ∈ component) ∧
      (∀ v ∈ full.pathClosure contracted, v ∈ (full.closure contracted []).vertices) ∧
      full.pathClosure contracted = (full.closure contracted []).vertices := by
  intro full contracted component
  obtain ⟨hexcluded, hwalks, hok, hs, hfree⟩ :
      (full.closure contracted [⟨3⟩]).vertices = .ofList [⟨2⟩, ⟨4⟩, ⟨5⟩] ∧
      (full.closure contracted []).vertices = .ofList [⟨2⟩, ⟨3⟩, ⟨4⟩, ⟨5⟩] ∧
      full.biconnectedClosure contracted = .ok component ∧
      (∀ v ∈ full.ids, v.isSentinel = false) ∧
      ∀ l ∈ contracted.links, ∀ w ∈ contracted.ids,
        w ∈ full.descendants l.source → l.target ∉ full.descendants w := by decide +kernel
  have hreach : ∀ {a b}, b ∈ full.descendants a ↔ TransGen full.Step a b :=
    Network.mem_descendants fedDiamond.coherent.target_mem
  simp only [hreach] at hfree
  obtain ⟨hshrinks, hcomponent, hpaths⟩ := closure_inclusions fedDiamond shortcut [⟨3⟩]
  exact ⟨hexcluded, hwalks, hok, hshrinks, (hcomponent _ hok).1, (hcomponent _ hok).2,
    (hpaths hs).1, (hpaths hs).2 hfree⟩

end Plan

end Dataflow
