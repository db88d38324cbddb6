import Dataflow.Proofs.Closure.View
import Dataflow.Proofs.Network.Layers

/-!
# Closures of masked networks

Sentinels are left out of the region in any case, so a mask over the full network changes neither
the closure nor, apart from the edges that touch a sentinel, what is pruned. Whether the view shows
sentinels hangs on the entry alone: without one, contracted vertices that are sentinels stay. A mask
takes away just these, before the view is made or after.

* **`Network.mem_pruned_mask`**: what is pruned of a masked network.
* **`Network.closureView_mask`**: the view of a masked network is the mask of the view.
* **`Plan.closure_mask`**: closure and view of a plan with its sentinels and without them.
-/

namespace Dataflow

namespace Network

variable {n contracted : Network} {excludes : List ElementId} {v : ElementId} {l : Link}

/-- What is pruned is an edge. -/
theorem exists_link_of_mem_pruned {i : EdgeId}
    (h : i ∈ (n.closure contracted excludes).pruned) : ∃ l ∈ n.links, l.id = i := by
  obtain ⟨l, hl, hid⟩ := List.mem_map.mp (SortedSet.mem_ofList.mp h)
  exact ⟨l, List.mem_of_mem_filter hl, hid⟩

section Coherent

variable (hn : n.Coherent)
include hn

/-- **What is pruned of a masked network** is what is pruned of the network and touches no
sentinel. -/
theorem mem_pruned_mask {i : EdgeId} : i ∈ (n.mask.closure contracted excludes).pruned ↔
    i ∈ (n.closure contracted excludes).pruned ∧
      ∃ l ∈ n.links, l.id = i ∧ l.touchesSentinel = false := by
  constructor
  · intro h
    obtain ⟨l, hmask, rfl⟩ := exists_link_of_mem_pruned h
    obtain ⟨hl, htouch⟩ := mem_links_mask.mp hmask
    rw [hn.mask.mem_pruned hmask, leaks_mask htouch] at h
    exact ⟨(hn.mem_pruned hl).mpr h, l, hl, rfl, htouch⟩
  · rintro ⟨h, l, hl, rfl, htouch⟩
    rw [hn.mask.mem_pruned (mem_links_mask.mpr ⟨hl, htouch⟩), leaks_mask htouch]
    exact (hn.mem_pruned hl).mp h

/-! ### Views -/

omit hn in
theorem mem_ids_closureView_mask : v ∈ (n.mask.closureView contracted excludes).ids ↔
    v ∈ (n.closureView contracted excludes).ids ∧ v.isSentinel = false := by
  rw [mem_ids_closureView_iff_shown, mem_ids_closureView_iff_shown, mem_ids_mask,
    closure_mask_vertices]
  constructor
  · rintro ⟨⟨hv, hfree⟩, -, hclosed⟩
    exact ⟨⟨hv, by rw [hfree, Bool.and_false], hclosed⟩, hfree⟩
  · rintro ⟨⟨hv, -, hclosed⟩, hfree⟩
    exact ⟨⟨hv, hfree⟩, by rw [hfree, Bool.and_false], hclosed⟩

theorem mem_links_closureView_mask : l ∈ (n.mask.closureView contracted excludes).links ↔
    l ∈ (n.closureView contracted excludes).links ∧ l.touchesSentinel = false := by
  have htouches : l.touchesSentinel = false ↔
      l.source.isSentinel = false ∧ l.target.isSentinel = false := Bool.or_eq_false_iff
  rw [mem_links_closureView hn.mask, mem_links_closureView hn, mem_links_mask,
    mem_ids_closureView_mask, mem_ids_closureView_mask, htouches]
  constructor
  · rintro ⟨⟨hl, hfree⟩, ⟨hs, -⟩, ⟨ht, -⟩, hleaks⟩
    exact ⟨⟨hl, hs, ht, leaks_mask (htouches.mpr hfree) ▸ hleaks⟩, hfree⟩
  · rintro ⟨⟨hl, hs, ht, hleaks⟩, hfree⟩
    exact ⟨⟨hl, hfree⟩, ⟨hs, hfree.1⟩, ⟨ht, hfree.2⟩,
      (leaks_mask (htouches.mpr hfree)).trans hleaks⟩

/-- **The view of a masked network is the mask of the view.** -/
theorem closureView_mask : n.mask.closureView contracted excludes =
    (n.closureView contracted excludes).mask := by
  have hbefore : n.mask.closureView contracted excludes = n.through [.mask, .restrict _ _] := rfl
  have hafter : (n.closureView contracted excludes).mask = n.through [.restrict _ _, .mask] := rfl
  refine eq_of_through hn hbefore hafter (fun v => ?_) (fun l => ?_) rfl
  · exact mem_ids_closureView_mask.trans mem_ids_mask.symm
  · exact (mem_links_closureView_mask hn).trans mem_links_mask.symm

/-- Where the network has an entry, the view shows no sentinel for a mask to hide. -/
theorem mask_closureView_of_head (hhead : .head ∈ n.ids) :
    (n.closureView contracted excludes).mask = n.closureView contracted excludes := by
  have hfree : ∀ v ∈ (n.closureView contracted excludes).ids, v.isSentinel = false := by
    intro v hv
    have hshown := (mem_ids_closureView_iff_shown.mp hv).2.1
    rwa [contains_iff.mpr hhead, Bool.true_and] at hshown
  have hmasked : (n.closureView contracted excludes).mask = n.through [.restrict _ _, .mask] := rfl
  have hview : n.closureView contracted excludes = n.through [.restrict _ _] := rfl
  refine eq_of_through hn hmasked hview (fun v => ?_) (fun l => ?_) rfl
  · exact mem_ids_mask.trans (and_iff_left_of_imp (hfree v))
  · refine mem_links_mask.trans (and_iff_left_of_imp fun hl => ?_)
    obtain ⟨-, hs, ht, -⟩ := (mem_links_closureView hn).mp hl
    exact Bool.or_eq_false_iff.mpr ⟨hfree _ hs, hfree _ ht⟩

end Coherent

end Network

namespace Plan

/-- **A mask before the closure comes to the same as a mask after it.** The closure has the same
vertices, and its pruned edges are those that touch no sentinel. The view is the mask of the view,
which is the view itself where the plan has an entry. -/
theorem closure_mask (full : Plan) (contracted : Network) (excludes : List ElementId) :
    (full.network.mask.closure contracted excludes).vertices =
      (full.network.closure contracted excludes).vertices ∧
    (∀ i, i ∈ (full.network.mask.closure contracted excludes).pruned ↔
      i ∈ (full.network.closure contracted excludes).pruned ∧
        ∃ l ∈ full.network.links, l.id = i ∧ l.touchesSentinel = false) ∧
    full.network.mask.closureView contracted excludes =
      (full.network.closureView contracted excludes).mask ∧
    (.head ∈ full.network.ids → full.network.mask.closureView contracted excludes =
      full.network.closureView contracted excludes) := by
  have hview : full.network.mask.closureView contracted excludes =
      (full.network.closureView contracted excludes).mask :=
    Network.closureView_mask full.coherent
  refine ⟨Network.closure_mask_vertices, fun i => Network.mem_pruned_mask full.coherent, hview,
    fun hhead => ?_⟩
  exact hview.trans (Network.mask_closureView_of_head full.coherent hhead)

/-- Without an entry the view shows the exit where it is contracted, and the mask hides it. -/
example :
    let full := ((empty.addVertex .tail).2.addVertex (.transform ⟨⟨2⟩, ""⟩)).2.network
    (full.closureView full []).ids = [.tail, ⟨2⟩] ∧
      (full.mask.closureView full []).ids = [⟨2⟩] := by decide +kernel

end Plan

end Dataflow
