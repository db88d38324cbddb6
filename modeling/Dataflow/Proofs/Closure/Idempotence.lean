import Dataflow.Closure
import Dataflow.Proofs.Closure.Blocks
import Dataflow.Proofs.Closure.Paths
import Dataflow.Proofs.Closure.View

/-!
# Closures taken again

The view of a closure holds whatever put its vertices there: the walks inside the region, the paths
past contracted vertices, the biconnected components. So a closure of the view, against the same
contracted network, is the view itself.

* **`Network.closureView_closureView`, `Network.pathView_pathView`,
  `Network.biconnectedView_of_biconnectedClosure`**: each algorithm finds its own view again.
* **`Plan.closureSubnetwork_closureSubnetwork`**: a closure taken again changes nothing.
-/

namespace Dataflow

open Relation

namespace Network

variable {n full contracted : Network} {excludes : List ElementId}

/-- A restriction that shows every vertex and every edge is the network, if that has no
decoration. -/
theorem eq_of_restrict {m : Network} {vs : List ElementId} {es : Option (List EdgeId)}
    (hm : m = n.restrict vs es) (hplain : n.tags = none) (hids : ∀ v ∈ n.ids, v ∈ m.ids)
    (hlinks : ∀ l ∈ n.links, l ∈ m.links) : m = n := by
  subst hm
  have helements : (n.restrict vs es).elements = n.elements := by
    refine List.filter_eq_self.mpr fun e he => List.contains_iff_mem.mpr ?_
    exact (mem_ids_restrict.mp (hids _ (mem_ids.mpr ⟨e, he, rfl⟩))).2
  have hlinks : (n.restrict vs es).links = n.links :=
    List.filter_eq_self.mpr fun l hl => (List.mem_filter.mp (hlinks l hl)).2
  calc n.restrict vs es
      = ⟨(n.restrict vs es).elements, (n.restrict vs es).links, none⟩ := rfl
    _ = ⟨n.elements, n.links, n.tags⟩ := by rw [helements, hlinks, hplain]

/-- An induced restriction shows every edge where it shows every vertex. -/
theorem restrict_eq_self (hn : n.Coherent) (hplain : n.tags = none) {vs : List ElementId}
    (hvs : ∀ v ∈ n.ids, v ∈ vs) : n.restrict vs none = n := by
  have hids : ∀ v ∈ n.ids, v ∈ (n.restrict vs none).ids := fun v hv =>
    mem_ids_restrict.mpr ⟨hv, hvs v hv⟩
  refine eq_of_restrict rfl hplain hids fun l hl => mem_links_restrict.mpr ?_
  exact ⟨hl, hids _ (hn.source_mem l hl), hids _ (hn.target_mem l hl), fun _ h => nomatch h⟩

/-! ### By walks -/

/-- The view has no entry: it leaves the sentinels out where the network has one. -/
theorem contains_head_closureView : (n.closureView contracted excludes).contains .head = false := by
  refine Bool.eq_false_iff.mpr fun h => ?_
  obtain ⟨hhead, hshown, -⟩ := mem_ids_closureView_iff_shown.mp (contains_iff.mp h)
  rw [contains_iff.mpr hhead] at hshown
  exact absurd hshown (by decide)

/-- Every vertex of the view is in the closure of the view. -/
theorem mem_closure_closureView (hn : n.Coherent) {v : ElementId}
    (hv : v ∈ (n.closureView contracted excludes).ids) :
    v ∈ ((n.closureView contracted excludes).closure contracted excludes).vertices := by
  refine (mem_closure hn.closureView).mpr ?_
  obtain ⟨-, -, hclosed⟩ := mem_ids_closureView_iff_shown.mp hv
  refine ((mem_closure hn).mp hclosed).imp_right ?_
  rintro ⟨l, hl, hs, ht, hsv, hvt⟩
  have hshow : ∀ {x}, x ∈ (n.inside contracted excludes).ids →
      x ∈ (n.closure contracted excludes).vertices →
      x ∈ ((n.closureView contracted excludes).inside contracted excludes).ids := by
    intro x hx hxc
    obtain ⟨hxn, hxs⟩ := mem_ids_inside.mp hx
    refine mem_ids_inside.mpr ⟨mem_ids_closureView_iff_shown.mpr ⟨hxn, ?_, hxc⟩, hxs⟩
    rw [hxs, Bool.and_false]
  have hst := hsv.trans hvt
  have hsc := (mem_closure hn).mpr (.inr ⟨l, hl, hs, ht, .refl, hst⟩)
  have htc := (mem_closure hn).mpr (.inr ⟨l, hl, hs, ht, hst, .refl⟩)
  exact ⟨l, hl, hshow hs hsc, hshow ht htc,
    reflTransGen_inside_closureView hn hl hs ht .refl hsv hvt,
    reflTransGen_inside_closureView hn hl hs ht hsv hvt .refl⟩

/-- **The closure by walks finds its view again.** -/
theorem closureView_closureView (hn : n.Coherent) :
    (n.closureView contracted excludes).closureView contracted excludes =
      n.closureView contracted excludes := by
  have hids : ∀ v ∈ (n.closureView contracted excludes).ids,
      v ∈ ((n.closureView contracted excludes).closureView contracted excludes).ids := by
    intro v hv
    refine mem_ids_closureView_iff_shown.mpr ⟨hv, ?_, mem_closure_closureView hn hv⟩
    rw [contains_head_closureView, Bool.false_and]
  refine eq_of_restrict rfl rfl hids fun l hl => (mem_links_closureView hn.closureView).mpr ?_
  obtain ⟨-, hs, ht, hleaks⟩ := (mem_links_closureView hn).mp hl
  refine ⟨hl, hids _ hs, hids _ ht, Bool.eq_false_iff.mpr fun h => ?_⟩
  rw [leaks_mono (fun v hv => (mem_ids_closureView_iff_shown.mp hv).1) h] at hleaks
  cases hleaks

/-! ### By paths -/

/-- A walk whose vertices all show in a restriction is one of the restriction. -/
theorem leads_restrict {vs : List ElementId} {s t : ElementId} {ms : List Move}
    (h : Leads n.moves s ms t) (hs : s ∈ (n.restrict vs none).ids)
    (hms : ∀ v ∈ targets ms, v ∈ (n.restrict vs none).ids) :
    Leads (n.restrict vs none).moves s ms t := by
  induction h with
  | nil v => exact .nil v
  | @cons u w m ms hm _ ih =>
    obtain ⟨hmt, hrest⟩ := List.forall_mem_cons.mp hms
    refine .cons ?_ (ih hmt hrest)
    obtain ⟨l, hl, rfl, hid, ht⟩ := mem_moves.mp hm
    exact mem_moves.mpr
      ⟨l, mem_links_restrict.mpr ⟨hl, hs, ht ▸ hmt, fun _ h => nomatch h⟩, rfl, hid, ht⟩

/-- Every vertex of a walk from a vertex is one. -/
theorem Coherent.mem_of_leads (hn : n.Coherent) {s t : ElementId} {ms : List Move}
    (h : Leads n.moves s ms t) : ∀ v ∈ targets ms, v ∈ n.ids := by
  induction h with
  | nil v => exact fun _ hv => absurd hv List.not_mem_nil
  | cons hm _ ih =>
    exact List.forall_mem_cons.mpr ⟨hn.target_mem_of_step (step_of_mem_moves hm), ih⟩

/-- **The closure by paths finds its view again.** -/
theorem pathView_pathView (hn : n.Coherent) :
    (n.pathView contracted).pathView contracted = n.pathView contracted := by
  refine restrict_eq_self (hn.restrict _ _) rfl fun v hv => ?_
  obtain ⟨-, hclosed⟩ := mem_ids_restrict.mp hv
  rw [SortedSet.mem_toList] at hclosed ⊢
  refine mem_pathClosure.mpr ((mem_pathClosure.mp hclosed).imp_right ?_)
  rintro ⟨l, hl, p, hp, hfree, hvp⟩
  refine ⟨l, hl, p, ?_, hfree, hvp⟩
  obtain ⟨hne, hs, ht, hstart, hlead, hnd⟩ := mem_paths.mp hp
  -- a path that put its vertices into the closure is a path of the view
  have hshow : ∀ x ∈ n.ids, x ∈ p.vertices → x ∈ (n.pathView contracted).ids := by
    intro x hx hxp
    refine mem_ids_restrict.mpr ⟨hx, ?_⟩
    exact SortedSet.mem_toList.mpr (mem_pathClosure.mpr (.inr ⟨l, hl, p, hp, hfree, hxp⟩))
  rw [Path.vertices_eq, hstart] at hshow
  have hss := hshow _ hs List.mem_cons_self
  have htt := hshow _ ht
    (List.mem_cons_of_mem _ (hlead.end_mem_targets (moves_ne_nil_of_mem_paths hp)))
  refine mem_paths.mpr ⟨hne, hss, htt, hstart, leads_restrict hlead hss fun x hx => ?_, hnd⟩
  exact hshow x (hn.mem_of_leads hlead x hx) (List.mem_cons_of_mem _ hx)

/-! ### By biconnected components -/

theorem closed_bonds : (full.bonds contracted).Closed := by
  have hpairs : ∀ p ∈ (full.bonds contracted).pairs, ∀ v ∈ [p.1, p.2],
      v ∈ (full.bonds contracted).nodes := by
    intro p hp v hv
    unfold bonds at hp ⊢
    simp only [List.mem_eraseDups] at hp ⊢
    exact List.mem_append_right _ (List.mem_flatMap.mpr ⟨p, hp, hv⟩)
  exact ⟨fun p hp => hpairs p hp _ (by simp), fun p hp => hpairs p hp _ (by simp)⟩

theorem graph_adj_bonds {v w : ElementId} : (full.bonds contracted).graph.Adj v w ↔
    v ≠ w ∧ ((full.Step v w ∨ contracted.Step v w) ∨ full.Step w v ∨ contracted.Step w v) := by
  rw [Bonds.graph_adj, Bonds.mem_neighbors, mem_pairs_bonds, mem_pairs_bonds]
  refine and_congr_right fun hne => ?_
  rw [and_iff_right hne, and_iff_right hne.symm]

/-- Of coherent networks only vertices are linked. -/
theorem mem_nodes_bonds (hn : full.Coherent) (hc : contracted.Coherent) {v : ElementId} :
    v ∈ (full.bonds contracted).nodes ↔ v ∈ full.ids ∨ v ∈ contracted.ids := by
  refine ⟨fun h => ?_, mem_nodes_bonds_of_mem⟩
  unfold bonds at h
  simp only [List.mem_eraseDups, List.mem_append, List.mem_flatMap] at h
  rcases h with h | ⟨⟨a, b⟩, hp, hv⟩
  · exact h
  · have hpair : (a, b) ∈ (full.bonds contracted).pairs := by
      unfold bonds
      simpa only [List.mem_eraseDups] using hp
    obtain ⟨-, hstep⟩ := mem_pairs_bonds.mp hpair
    have hends : (a ∈ full.ids ∨ a ∈ contracted.ids) ∧ (b ∈ full.ids ∨ b ∈ contracted.ids) := by
      rcases hstep with hstep | hstep
      · exact ⟨.inl (hn.source_mem_of_step hstep), .inl (hn.target_mem_of_step hstep)⟩
      · exact ⟨.inr (hc.source_mem_of_step hstep), .inr (hc.target_mem_of_step hstep)⟩
    rcases List.mem_pair.mp hv with rfl | rfl
    · exact hends.1
    · exact hends.2

/-- **The closure by components is there exactly where something is contracted.** -/
theorem exists_biconnectedClosure_iff (hc : contracted.Coherent) :
    (∃ vs, full.biconnectedClosure contracted = .ok vs) ↔ contracted.ids ≠ [] := by
  constructor
  · rintro ⟨vs, h⟩ hnil
    have hnone : contracted.links = [] := List.eq_nil_iff_forall_not_mem.mpr fun l hl =>
      absurd (hc.source_mem l hl) (hnil ▸ List.not_mem_nil)
    unfold biconnectedClosure at h
    rw [hnil, hnone] at h
    simp only at h
    split at h
    · cases h
    · split at h
      · cases h
      · rename_i hne
        exact hne rfl
  · intro hne
    obtain ⟨v, hv⟩ := List.exists_mem_of_ne_nil _ hne
    unfold biconnectedClosure
    simp only
    rw [if_neg, if_neg]
    · exact ⟨_, rfl⟩
    · intro hempty
      refine SortedSet.isEmpty_iff.mp hempty v ?_
      exact SortedSet.mem_ofList.mpr (List.mem_append_left _ hv)
    · intro hnil
      have hnode : v ∈ (full.bonds contracted).nodes := mem_nodes_bonds_of_mem (.inr hv)
      exact absurd (hnil ▸ hnode) List.not_mem_nil

/-- The component of a contracted edge is one of the view as well. -/
theorem mem_component_restrict (hn : full.Coherent) (hc : contracted.Coherent)
    {vs : List ElementId} {s t v : ElementId}
    (hvs : ∀ x ∈ (full.bonds contracted).component s t, x ∈ vs)
    (hv : v ∈ (full.bonds contracted).component s t) :
    v ∈ ((full.restrict vs none).bonds contracted).component s t := by
  have hshow : ∀ x ∈ (full.bonds contracted).component s t, x ∈ full.ids →
      x ∈ (full.restrict vs none).ids := fun x hx hxf => mem_ids_restrict.mpr ⟨hxf, hvs x hx⟩
  have hstep : ∀ x ∈ (full.bonds contracted).component s t,
      ∀ y ∈ (full.bonds contracted).component s t, full.Step x y →
        (full.restrict vs none).Step x y := by
    rintro x hx y hy ⟨l, hl, rfl, rfl⟩
    exact ⟨l, mem_links_restrict.mpr ⟨hl, hshow _ hx (hn.source_mem l hl),
      hshow _ hy (hn.target_mem l hl), fun _ h => nomatch h⟩, rfl, rfl⟩
  refine Bonds.mem_component_of_part closed_bonds closed_bonds ?_ ?_ ?_ hv
  · intro x hx
    rw [mem_nodes_bonds (hn.restrict _ _) hc] at hx
    exact mem_nodes_bonds_of_mem (hx.imp_left fun h => (mem_ids_restrict.mp h).1)
  · intro x hx
    have hnode := (mem_nodes_bonds hn hc).mp (Bonds.mem_component.mp hx).1
    exact mem_nodes_bonds_of_mem (hnode.imp_left (hshow x hx))
  · intro x hx y hy hadj
    obtain ⟨hne, h⟩ := graph_adj_bonds.mp hadj
    refine graph_adj_bonds.mpr ⟨hne, h.imp ?_ ?_⟩
    · exact Or.imp_left (hstep x hx y hy)
    · exact Or.imp_left (hstep y hy x hx)

/-- **The closure by components finds its view again.** -/
theorem biconnectedView_of_biconnectedClosure (hn : full.Coherent) (hc : contracted.Coherent)
    (ha : contracted.Acyclic) {vs : SortedSet ElementId}
    (h : full.biconnectedClosure contracted = .ok vs) :
    (full.restrict vs.toList none).biconnectedView contracted =
      .ok (full.restrict vs.toList none) := by
  have hids : contracted.ids ≠ [] := (exists_biconnectedClosure_iff hc).mp ⟨vs, h⟩
  obtain ⟨ws, hws⟩ : ∃ ws, (full.restrict vs.toList none).biconnectedClosure contracted = .ok ws :=
    (exists_biconnectedClosure_iff hc).mpr hids
  unfold biconnectedView
  rw [hws]
  refine congrArg Except.ok (restrict_eq_self (hn.restrict _ _) rfl fun v hv => ?_)
  obtain ⟨-, hvs⟩ := mem_ids_restrict.mp hv
  rw [SortedSet.mem_toList] at hvs ⊢
  refine (mem_biconnectedClosure hws).mpr (((mem_biconnectedClosure h).mp hvs).imp_right ?_)
  rintro ⟨l, hl, hcover⟩
  have hne := ha.source_ne_target hl
  refine ⟨l, hl, ?_⟩
  unfold Bonds.covering at hcover ⊢
  rw [if_pos hne] at hcover ⊢
  refine mem_component_restrict hn hc (fun x hx => SortedSet.mem_toList.mpr ?_) hcover
  refine (mem_biconnectedClosure h).mpr (.inr ⟨l, hl, ?_⟩)
  unfold Bonds.covering
  rw [if_pos hne]
  exact hx

end Network

namespace Plan

/-- **A closure taken again changes nothing**, whatever the algorithm: where there is a closure of
the full network, the closure of its view is there and is the view. -/
theorem closureSubnetwork_closureSubnetwork (full contracted : Plan) (excludes : List ElementId)
    (settings : Settings) {view : Network}
    (h : full.network.closureSubnetwork contracted.network excludes settings = .ok view) :
    view.closureSubnetwork contracted.network excludes settings = .ok view := by
  unfold Network.closureSubnetwork at h ⊢
  cases halg : settings.closureAlgorithm with
  | byWalks =>
    rw [halg] at h
    cases h
    exact congrArg Except.ok (Network.closureView_closureView full.coherent)
  | byComponents =>
    rw [halg] at h
    unfold Network.biconnectedView at h
    cases hvs : full.network.biconnectedClosure contracted.network with
    | error f =>
      rw [hvs] at h
      cases h
    | ok vs =>
      rw [hvs] at h
      cases h
      exact Network.biconnectedView_of_biconnectedClosure full.coherent contracted.coherent
        contracted.acyclic hvs
  | byPaths =>
    rw [halg] at h
    cases h
    exact congrArg Except.ok (Network.pathView_pathView full.coherent)

/-- The components of the shortcut leave the vertex out that hangs off the diamond. -/
theorem closureSubnetwork_closureSubnetwork_diamond :
    let full := diamond.sketch [⟨6⟩] [(⟨5⟩, ⟨6⟩)]
    let view := full.network.restrict [⟨2⟩, ⟨3⟩, ⟨4⟩, ⟨5⟩] none
    let settings : Settings := { closureAlgorithm := .byComponents, contractionMode := .anyInbound }
    full.network.closureSubnetwork shortcut.network [] settings = .ok view ∧
      view.closureSubnetwork shortcut.network [] settings = .ok view := by
  intro full view settings
  have hview : full.network.closureSubnetwork shortcut.network [] settings = .ok view := by
    decide +kernel
  exact ⟨hview, closureSubnetwork_closureSubnetwork full shortcut [] settings hview⟩

end Plan

end Dataflow
