import Dataflow.Proofs.Closure.Idempotence
import Dataflow.Proofs.Closure.LowLink
import Dataflow.Proofs.Closure.SimplePaths

/-!
# The meaning of the closure by components

* **`Bonds.isBlock_of_mem_blocks`, `Bonds.exists_block_of_adj`, `Bonds.exists_block_of_mem`**: the
  search finds blocks, one for every linked pair, and one around every node.
* **`Network.lowLinkClosure_eq`**: the closure is the same whether the components are searched for
  together or one for each contracted edge.
* **`Plan.lowLinkClosure_iff_path`**: it holds the contracted vertices, and what is on a simple
  path between the ends of a contracted edge.
-/

namespace Dataflow

namespace Bonds

variable {b : Bonds}

namespace Search

variable {s s' : Search b}

/-! ### Nodes stay found -/

theorem found_of_step (h : s.step = some s') {x : ElementId} {t : Nat}
    (hx : s.found x = some t) : s'.found x = some t := by
  cases next_of_step h with
  | ends | passes => exact hx
  | returns | completes | meets =>
    rw [lower_eq]
    exact hx
  | @finds _ _ w _ _ _ hw =>
    refine (Function.update_of_ne ?_ ..).trans hx
    rintro rfl
    rw [hw] at hx
    cases hx

theorem found_of_run {x : ElementId} {t : Nat} (hx : s.found x = some t) :
    s.run.found x = some t := by
  fun_induction Search.run s with
  | case1 => exact hx
  | case2 s s' hstep ih => exact ih (found_of_step hstep hx)

theorem found_of_visit {root x : ElementId} {t : Nat} (hx : s.found x = some t) :
    ∃ t', (s.visit root).found x = some t' := by
  have hfind : ∃ t', (s.find root).found x = some t' := by
    by_cases hxr : x = root
    · subst hxr
      exact ⟨_, Function.update_self ..⟩
    · exact ⟨t, (Function.update_of_ne hxr ..).trans hx⟩
  unfold visit
  split
  · exact ⟨t, hx⟩
  · split
    · exact hfind
    · obtain ⟨t', ht'⟩ := hfind
      exact ⟨t', found_of_run ht'⟩

theorem found_visit_self (root : ElementId) : ∃ t, (s.visit root).found root = some t := by
  unfold visit
  split
  · rename_i h
    exact Option.isSome_iff_exists.mp h
  · split
    · exact ⟨_, Function.update_self ..⟩
    · exact ⟨s.time, found_of_run (Function.update_self ..)⟩

/-! ### One search from every node -/

namespace Inv

theorem start (b : Bonds) : (Search.start b).Inv [] none where
  frames_eq := rfl
  pairs_eq := rfl
  way := trivial
  found_lt := nofun
  found_mem := nofun
  seen := nofun
  back := fun _ hm => absurd hm List.not_mem_nil
  covered := nofun
  blocks := fun _ hC => absurd hC List.not_mem_nil
  met := nofun

/-- A node without links is a component. -/
theorem single {root : ElementId} (h : s.Inv [] none) (hroot : root ∈ b.nodes)
    (hbare : b.neighbors root = []) :
    ({ s.find root with components := s.components ++ [.ofList [root]] } : Search b).Inv
      [] none := by
  have hlone : ∀ w, ¬ b.graph.Adj root w := by
    intro w hw
    have hmem := (graph_adj.mp hw).2
    rw [hbare] at hmem
    exact List.not_mem_nil hmem
  have hC : ∀ {x}, x ∈ SortedSet.ofList [root] ↔ x = root := fun {x} =>
    SortedSet.mem_ofList.trans List.mem_singleton
  exact
    { frames_eq := h.frames_eq
      pairs_eq := h.pairs_eq
      way := trivial
      found_lt := h.found_find_lt
      found_mem := h.found_find_mem hroot
      seen := by
        intro x y t hx hxy
        rcases found_find hx with ⟨rfl, -⟩ | ⟨-, hxold⟩
        · exact absurd hxy (hlone y)
        · obtain ⟨t', hy⟩ := (h.seen hxold hxy).resolve_right fun ⟨_, hf, _⟩ =>
            List.not_mem_nil hf
          refine .inl ⟨t', (Function.update_of_ne ?_ ..).trans hy⟩
          rintro rfl
          exact hlone x hxy.symm
      back := fun _ hm => absurd hm List.not_mem_nil
      covered := by
        intro x y t t' hx hy hxy
        rcases found_find hx with ⟨rfl, -⟩ | ⟨-, hxold⟩
        · exact absurd hxy (hlone y)
        · rcases found_find hy with ⟨rfl, -⟩ | ⟨-, hyold⟩
          · exact absurd hxy.symm (hlone x)
          · refine (h.covered hxold hyold hxy).imp_left ?_
            rintro ⟨C, hCs, hxyC⟩
            exact ⟨C, List.mem_append_left _ hCs, hxyC⟩
      blocks := by
        refine List.forall_mem_append.mpr ⟨h.blocks, List.forall_mem_singleton.mpr ?_⟩
        simp only [hC]
        exact isBlock_singleton hroot hlone
      met := by
        intro x t hx
        rcases found_find hx with ⟨rfl, -⟩ | ⟨-, hxold⟩
        · exact .inl ⟨_, List.mem_append_right _ List.mem_cons_self, hC.mpr rfl⟩
        · refine (h.met hxold).imp_left ?_
          rintro ⟨C, hCs, hxC⟩
          exact ⟨C, List.mem_append_left _ hCs, hxC⟩ }

theorem visit (hb : b.Closed) (hloop : ∀ v, v ∉ b.neighbors v) {root : ElementId}
    (h : s.Inv [] none) (hroot : root ∈ b.nodes) : (s.visit root).Inv [] none := by
  unfold Search.visit
  split
  · exact h
  · rename_i hfound
    split
    · rename_i hbare
      exact h.single hroot hbare
    · rename_i hlinked
      obtain ⟨w, hw⟩ := List.exists_mem_of_ne_nil _ hlinked
      have hadj : b.graph.Adj root w :=
        graph_adj.mpr ⟨fun heq => hloop root (heq.symm ▸ hw), hw⟩
      have hdue : s.Inv [] (some root) :=
        { h with
          seen := by
            intro x y t hx hxy
            refine (h.seen hx hxy).imp_right ?_
            rintro ⟨_, hf, -⟩
            exact absurd hf List.not_mem_nil }
      have hpairs : ([] : List (ElementId × ElementId)) =
          (Level.start b root s.time []).pairs ++ s.pairs := by
        rw [h.pairs_eq]
        rfl
      have hfresh := Option.not_isSome_iff_eq_none.mp hfound
      exact (hdue.enter hfresh hroot (by simp) ⟨w, hadj⟩ hpairs).run hb

theorem visitAll (hb : b.Closed) (hloop : ∀ v, v ∉ b.neighbors v) {roots : List ElementId}
    (h : s.Inv [] none) (hroots : ∀ v ∈ roots, v ∈ b.nodes) :
    (roots.foldl Search.visit s).Inv [] none := by
  induction roots generalizing s with
  | nil => exact h
  | cons v roots ih =>
    obtain ⟨hv, hroots⟩ := List.forall_mem_cons.mp hroots
    exact ih (h.visit hb hloop hv) hroots

end Inv

theorem found_visitAll {roots : List ElementId} {x : ElementId}
    (h : x ∈ roots ∨ ∃ t, s.found x = some t) : ∃ t, (roots.foldl visit s).found x = some t := by
  induction roots generalizing s with
  | nil => exact h.resolve_left List.not_mem_nil
  | cons v roots ih =>
    refine ih ?_
    rcases h with h | ⟨t, ht⟩
    · rcases List.mem_cons.mp h with rfl | h
      · exact .inr (found_visit_self x)
      · exact .inl h
    · exact .inr (found_of_visit ht)

end Search

/-! ### The components found -/

section Blocks

variable (hb : b.Closed) (hloop : ∀ v, v ∉ b.neighbors v)

include hb hloop

theorem inv_blocks : (b.nodes.foldl Search.visit (.start b)).Inv [] none :=
  (Search.Inv.start b).visitAll hb hloop fun _ h => h

/-- **The search finds blocks.** -/
theorem isBlock_of_mem_blocks {C : SortedSet ElementId} (hC : C ∈ b.blocks) :
    b.IsBlock {v | v ∈ C} :=
  (inv_blocks hb hloop).blocks C hC

/-- **Linked nodes are in one component.** -/
theorem exists_block_of_adj {v w : ElementId} (h : b.graph.Adj v w) :
    ∃ C ∈ b.blocks, v ∈ C ∧ w ∈ C := by
  obtain ⟨t, hv⟩ := Search.found_visitAll (s := .start b) (.inl (hb.mem_of_adj h.symm))
  obtain ⟨t', hw⟩ := Search.found_visitAll (s := .start b) (.inl (hb.mem_of_adj h))
  refine ((inv_blocks hb hloop).covered hv hw h).resolve_right ?_
  rintro ⟨⟨_, hP, -⟩, -⟩
  exact List.not_mem_nil hP

/-- **Every node is in a component.** -/
theorem exists_block_of_mem {v : ElementId} (h : v ∈ b.nodes) : ∃ C ∈ b.blocks, v ∈ C := by
  obtain ⟨t, hv⟩ := Search.found_visitAll (s := .start b) (.inl h)
  rcases (inv_blocks hb hloop).met hv with hC | ⟨w, hw⟩
  · exact hC
  · obtain ⟨C, hC, hvC, -⟩ := exists_block_of_adj hb hloop hw
    exact ⟨C, hC, hvC⟩

end Blocks

end Bonds

namespace Network

variable {full contracted : Network}

theorem mem_claim {v : ElementId} : ∀ {links : List Link} {components : List (SortedSet ElementId)},
    v ∈ claim components links ↔
      ∃ l ∈ links, ∃ C ∈ components, l.source ∈ C ∧ l.target ∈ C ∧ v ∈ C
  | [], _ => by simp [claim]
  | l :: ls, components => by
    unfold claim
    simp only [List.mem_append, List.mem_flatMap, List.mem_filter, decide_eq_true_eq,
      Bool.not_eq_true', decide_eq_false_iff_not, mem_claim, List.exists_mem_cons_iff,
      SortedSet.mem_toList]
    constructor
    · rintro (⟨C, ⟨hC, hs, ht⟩, hv⟩ | ⟨k, hk, C, ⟨hC, -⟩, hkC⟩)
      · exact .inl ⟨C, hC, hs, ht, hv⟩
      · exact .inr ⟨k, hk, C, hC, hkC⟩
    · rintro (⟨C, hC, hs, ht, hv⟩ | ⟨k, hk, C, hC, hks, hkt, hv⟩)
      · exact .inl ⟨C, ⟨hC, hs, ht⟩, hv⟩
      · -- a component that an earlier edge took has given its nodes there
        by_cases hl : l.source ∈ C ∧ l.target ∈ C
        · exact .inl ⟨C, ⟨hC, hl⟩, hv⟩
        · exact .inr ⟨k, hk, C, ⟨hC, hl⟩, hks, hkt, hv⟩

theorem not_mem_neighbors_bonds (v : ElementId) :
    v ∉ (full.bonds contracted).neighbors v := by
  rw [Bonds.mem_neighbors, mem_pairs_bonds, or_self]
  exact fun h => h.1 rfl

theorem blocks_bonds_eq_nil_iff :
    (full.bonds contracted).blocks = [] ↔ (full.bonds contracted).nodes = [] := by
  constructor
  · intro h
    refine List.eq_nil_iff_forall_not_mem.mpr fun v hv => ?_
    obtain ⟨C, hC, -⟩ := Bonds.exists_block_of_mem closed_bonds not_mem_neighbors_bonds hv
    exact List.not_mem_nil (h ▸ hC)
  · intro h
    rw [Bonds.blocks, h]
    rfl

theorem adj_of_mem_links {l : Link} (hl : l ∈ contracted.links) (hne : l.source ≠ l.target) :
    (full.bonds contracted).graph.Adj l.source l.target :=
  graph_adj_bonds.mpr ⟨hne, .inl (.inr ⟨l, hl, rfl, rfl⟩)⟩

/-- **The closure is the same whether the components are searched for together or one for each
contracted edge.** -/
theorem lowLinkClosure_eq (hne : ∀ l ∈ contracted.links, l.source ≠ l.target) :
    full.lowLinkClosure contracted = full.biconnectedClosure contracted := by
  have hvertices : SortedSet.ofList (contracted.ids ++
        claim (full.bonds contracted).blocks contracted.links) =
      SortedSet.ofList (contracted.ids ++ contracted.links.flatMap fun l =>
        (full.bonds contracted).covering l.source l.target) := by
    refine SortedSet.ext fun v => ?_
    rw [SortedSet.mem_ofList, SortedSet.mem_ofList, List.mem_append, List.mem_append, mem_claim,
      List.mem_flatMap]
    refine or_congr_right (exists_congr fun l => and_congr_right fun hl => ?_)
    have hcomponent : ∀ C ∈ (full.bonds contracted).blocks, l.source ∈ C → l.target ∈ C →
        (v ∈ (full.bonds contracted).component l.source l.target ↔ v ∈ C) := fun C hC hs ht =>
      (Bonds.isBlock_of_mem_blocks closed_bonds not_mem_neighbors_bonds hC).mem_component_iff
        closed_bonds (hne l hl) hs ht
    unfold Bonds.covering
    rw [if_pos (hne l hl)]
    constructor
    · rintro ⟨C, hC, hs, ht, hv⟩
      exact (hcomponent C hC hs ht).mpr hv
    · intro hv
      obtain ⟨C, hC, hs, ht⟩ := Bonds.exists_block_of_adj closed_bonds not_mem_neighbors_bonds
        (adj_of_mem_links hl (hne l hl))
      exact ⟨C, hC, hs, ht, (hcomponent C hC hs ht).mp hv⟩
  unfold lowLinkClosure biconnectedClosure
  simp only [hvertices, blocks_bonds_eq_nil_iff]

/-- The vertices of both networks, joined where an edge of one leads from one to the other. -/
def undirected (full contracted : Network) : SimpleGraph ElementId :=
  .fromRel fun v w => full.Step v w ∨ contracted.Step v w

theorem graph_bonds : (full.bonds contracted).graph = full.undirected contracted := by
  ext v w
  rw [graph_adj_bonds]
  exact (SimpleGraph.fromRel_adj (fun v w => full.Step v w ∨ contracted.Step v w) v w).symm

theorem nodes_bonds_eq_nil_iff (hn : full.Coherent) (hc : contracted.Coherent) :
    (full.bonds contracted).nodes = [] ↔ full.ids = [] ∧ contracted.ids = [] := by
  simp only [List.eq_nil_iff_forall_not_mem, mem_nodes_bonds hn hc, not_or, forall_and]

theorem biconnectedClosure_cases (hn : full.Coherent) (hc : contracted.Coherent) :
    (full.ids = [] ∧ contracted.ids = [] ∧
        full.biconnectedClosure contracted = .error .noComponents) ∨
      (full.ids ≠ [] ∧ contracted.ids = [] ∧
        full.biconnectedClosure contracted = .error .emptyClosure) ∨
      contracted.ids ≠ [] ∧ ∃ vs, full.biconnectedClosure contracted = .ok vs := by
  by_cases hids : contracted.ids = []
  · have hlinks : contracted.links = [] := List.eq_nil_iff_forall_not_mem.mpr fun l hl =>
      absurd (hc.source_mem l hl) (hids ▸ List.not_mem_nil)
    by_cases hfull : full.ids = []
    · refine .inl ⟨hfull, hids, ?_⟩
      unfold biconnectedClosure
      exact if_pos ((nodes_bonds_eq_nil_iff hn hc).mpr ⟨hfull, hids⟩)
    · refine .inr (.inl ⟨hfull, hids, ?_⟩)
      unfold biconnectedClosure
      simp only
      rw [if_neg (mt (nodes_bonds_eq_nil_iff hn hc).mp fun h => hfull h.1), hids, hlinks]
      rfl
  · exact .inr (.inr ⟨hids, (exists_biconnectedClosure_iff hc).mpr hids⟩)

end Network

namespace Plan

/-- **The meaning of the closure by components.** It fails without vertices, with one failure where
there are none at all and another where none is contracted. Otherwise it holds the contracted
vertices, and the vertices on simple paths between the ends of a contracted edge in the undirected
graph of both networks. -/
theorem lowLinkClosure_iff_path (full contracted : Plan) :
    let closure := full.network.lowLinkClosure contracted.network
    closure = full.network.biconnectedClosure contracted.network ∧
      (closure = .error .noComponents ↔ full.network.ids = [] ∧ contracted.network.ids = []) ∧
      (closure = .error .emptyClosure ↔ full.network.ids ≠ [] ∧ contracted.network.ids = []) ∧
      (contracted.network.ids ≠ [] ↔
        ∃ R, closure = .ok R ∧ ∀ v, v ∈ R ↔ v ∈ contracted.network.ids ∨
          ∃ l ∈ contracted.network.links,
            ∃ p : (full.network.undirected contracted.network).Walk l.source l.target,
              p.IsPath ∧ v ∈ p.support) := by
  have hne : ∀ l ∈ contracted.network.links, l.source ≠ l.target := fun l hl =>
    contracted.acyclic.ne_of_transGen (.single ⟨l, hl, rfl, rfl⟩)
  have heq : full.network.lowLinkClosure contracted.network =
      full.network.biconnectedClosure contracted.network := Network.lowLinkClosure_eq hne
  intro closure
  rw [show closure = _ from heq]
  have hmem : ∀ vs, full.network.biconnectedClosure contracted.network = .ok vs → ∀ v, v ∈ vs ↔
      v ∈ contracted.network.ids ∨ ∃ l ∈ contracted.network.links,
        ∃ p : (full.network.undirected contracted.network).Walk l.source l.target,
          p.IsPath ∧ v ∈ p.support := by
    intro vs hvs v
    rw [Network.mem_biconnectedClosure hvs, ← Network.graph_bonds]
    refine or_congr_right (exists_congr fun l => and_congr_right fun hl => ?_)
    unfold Bonds.covering
    rw [if_pos (hne l hl)]
    exact Bonds.mem_component_iff_path Network.closed_bonds
      (Network.adj_of_mem_links hl (hne l hl))
  rcases Network.biconnectedClosure_cases full.coherent contracted.coherent with
    ⟨hfull, hids, hclosure⟩ | ⟨hfull, hids, hclosure⟩ | ⟨hids, vs, hclosure⟩
  · rw [hclosure]
    exact ⟨rfl, iff_of_true rfl ⟨hfull, hids⟩, iff_of_false nofun fun h => h.1 hfull,
      iff_of_false (fun h => h hids) nofun⟩
  · rw [hclosure]
    exact ⟨rfl, iff_of_false nofun fun h => hfull h.1, iff_of_true rfl ⟨hfull, hids⟩,
      iff_of_false (fun h => h hids) nofun⟩
  · rw [hclosure]
    exact ⟨rfl, iff_of_false nofun fun h => hids h.2, iff_of_false nofun fun h => hids h.2,
      iff_of_true hids ⟨vs, rfl, hmem vs hclosure⟩⟩

end Plan

end Dataflow
