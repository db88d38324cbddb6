import Mathlib.Combinatorics.SimpleGraph.Paths
import Dataflow.Proofs.Closure.Components

/-!
# Simple paths in biconnected components

The search of a component goes by what single nodes cut off. Read in terms of simple paths, a
component holds whatever is on a simple path from an end of its pair to one of its nodes, so nothing
outside the component matters to it.

* **`Bonds.mem_component_of_mem_path`**: a simple path from an end of the pair to a node of the
  component stays in the component.
* **`Bonds.mem_component_of_part`**: a component stays whole in every part of the graph that shows
  its nodes and the pairs among them.
-/

namespace Dataflow.Bonds

open SimpleGraph

variable {b : Bonds}

/-- The nodes, joined where a pair links them. -/
def graph (b : Bonds) : SimpleGraph ElementId := .fromRel fun v w => (v, w) ∈ b.pairs

theorem graph_adj {v w : ElementId} : b.graph.Adj v w ↔ v ≠ w ∧ w ∈ b.neighbors v := by
  rw [graph, fromRel_adj, mem_neighbors]

/-- Pairs link nodes. -/
structure Closed (b : Bonds) : Prop where
  fst_mem : ∀ p ∈ b.pairs, p.1 ∈ b.nodes
  snd_mem : ∀ p ∈ b.pairs, p.2 ∈ b.nodes

namespace Closed

theorem mem_of_adj (hb : b.Closed) {v w : ElementId} (h : b.graph.Adj v w) : w ∈ b.nodes := by
  rcases mem_neighbors.mp (graph_adj.mp h).2 with h | h
  · exact hb.snd_mem _ h
  · exact hb.fst_mem _ h

/-- A walk that ends at a node passes nodes only. -/
theorem mem_of_mem_support (hb : b.Closed) {s v x : ElementId} (p : b.graph.Walk s v)
    (hv : v ∈ b.nodes) (hx : x ∈ p.support) : x ∈ b.nodes := by
  induction p with
  | nil => exact List.mem_singleton.mp hx ▸ hv
  | cons h p ih =>
    rw [Walk.support_cons, List.mem_cons] at hx
    rcases hx with rfl | hx
    · exact hb.mem_of_adj h.symm
    · exact ih hv hx

end Closed

/-! ### Searches and walks -/

theorem exists_walk_of_via {cut s v : ElementId} (hs : s ≠ cut)
    (h : Via b.neighbors (b.nodes.filter (· ≠ cut)) s v) :
    ∃ p : b.graph.Walk s v, cut ∉ p.support := by
  have hne : ∀ {x}, x ∈ b.nodes.filter (· ≠ cut) → x ≠ cut := fun hx =>
    of_decide_eq_true (List.mem_filter.mp hx).2
  have hlink : ∀ {x y v : ElementId}, x ≠ cut → y ∈ b.neighbors x →
      (∃ p : b.graph.Walk y v, cut ∉ p.support) → ∃ p : b.graph.Walk x v, cut ∉ p.support := by
    rintro x y v hx hxy ⟨p, hp⟩
    by_cases heq : x = y
    · subst heq
      exact ⟨p, hp⟩
    · refine ⟨.cons (graph_adj.mpr ⟨heq, hxy⟩) p, ?_⟩
      rw [Walk.support_cons, List.mem_cons, not_or]
      exact ⟨Ne.symm hx, hp⟩
  induction h with
  | single hstep hpool => exact hlink hs hstep ⟨.nil, by simpa using (hne hpool).symm⟩
  | head hstep hpool _ ih => exact hlink hs hstep (ih (hne hpool))

theorem via_of_walk (hb : b.Closed) {cut s v : ElementId} (p : b.graph.Walk s v)
    (hp : cut ∉ p.support) :
    v = s ∨ Via b.neighbors (b.nodes.filter (· ≠ cut)) s v := by
  induction p with
  | nil => exact .inl rfl
  | @cons x y v h p ih =>
    rw [Walk.support_cons, List.mem_cons, not_or] at hp
    have hy : y ∈ b.nodes.filter (· ≠ cut) := by
      refine List.mem_filter.mpr ⟨hb.mem_of_adj h, decide_eq_true ?_⟩
      rintro rfl
      exact hp.2 p.start_mem_support
    have hstep := (graph_adj.mp h).2
    rcases ih hp.2 with rfl | hvia
    · exact .inr (.single hstep hy)
    · exact .inr (.head hstep hy hvia)

/-- **What the search meets is what walks clear of the cut lead to.** -/
theorem mem_reachAvoiding_iff_walk (hb : b.Closed) {cut v : ElementId}
    {starts : List ElementId} : v ∈ b.reachAvoiding cut starts ↔
      ∃ s ∈ starts, ∃ p : b.graph.Walk s v, cut ∉ p.support := by
  rw [mem_reachAvoiding]
  refine exists_congr fun s => and_congr_right fun _ => ?_
  constructor
  · rintro ⟨hs, rfl | hvia⟩
    · exact ⟨.nil, by simpa using hs.symm⟩
    · exact exists_walk_of_via hs hvia
  · rintro ⟨p, hp⟩
    refine ⟨?_, via_of_walk hb p hp⟩
    rintro rfl
    exact hp p.start_mem_support

theorem mem_component_iff_walk (hb : b.Closed) {s t v : ElementId} : v ∈ b.component s t ↔
    v ∈ b.nodes ∧ ∀ cut ∈ b.nodes, v = cut ∨
      ∃ a ∈ [s, t], ∃ p : b.graph.Walk a v, cut ∉ p.support := by
  simp only [mem_component, mem_reachAvoiding_iff_walk hb]

/-! ### Components -/

/-- **A simple path from an end of the pair to a node of the component stays in the component.** -/
theorem mem_component_of_mem_path (hb : b.Closed) {s t v : ElementId}
    (hv : v ∈ b.component s t) {a : ElementId} (ha : a ∈ [s, t]) {p : b.graph.Walk a v}
    (hp : p.IsPath) {x : ElementId} (hx : x ∈ p.support) : x ∈ b.component s t := by
  obtain ⟨hvn, hreach⟩ := (mem_component_iff_walk hb).mp hv
  refine (mem_component_iff_walk hb).mpr ⟨hb.mem_of_mem_support p hvn hx, fun cut hcut => ?_⟩
  by_cases hxc : x = cut
  · exact .inl hxc
  · right
    by_cases hbefore : cut ∈ (p.takeUntil x hx).support
    · -- the cut is before the vertex on the path, so the rest of the path is clear of it
      have hafter : cut ∉ (p.dropUntil x hx).support := by
        intro h
        have hnd : ((p.takeUntil x hx).append (p.dropUntil x hx)).support.Nodup := by
          rw [p.take_spec hx]
          exact hp.support_nodup
        rw [Walk.support_append] at hnd
        rw [← Walk.cons_tail_support, List.mem_cons] at h
        have htail := h.resolve_left (Ne.symm hxc)
        exact (List.nodup_append.mp hnd).2.2 cut hbefore cut htail rfl
      have hvc : v ≠ cut := by
        rintro rfl
        exact hafter (Walk.end_mem_support _)
      obtain ⟨a', ha', q, hq⟩ := (hreach cut hcut).resolve_left hvc
      refine ⟨a', ha', q.append (p.dropUntil x hx).reverse, fun h => ?_⟩
      rcases (Walk.mem_support_append_iff _ _).mp h with h | h
      · exact hq h
      · rw [Walk.support_reverse, List.mem_reverse] at h
        exact hafter h
    · exact ⟨a, ha, p.takeUntil x hx, hbefore⟩

/-- **A component stays whole in every part of the graph that shows its nodes and the pairs among
them.** -/
theorem mem_component_of_part (hb : b.Closed) {part : Bonds} (hpart : part.Closed)
    (hsub : ∀ x ∈ part.nodes, x ∈ b.nodes) {s t : ElementId}
    (hnodes : ∀ x ∈ b.component s t, x ∈ part.nodes)
    (hadj : ∀ x ∈ b.component s t, ∀ y ∈ b.component s t, b.graph.Adj x y → part.graph.Adj x y)
    {v : ElementId} (hv : v ∈ b.component s t) : v ∈ part.component s t := by
  obtain ⟨-, hreach⟩ := (mem_component_iff_walk hb).mp hv
  refine (mem_component_iff_walk hpart).mpr ⟨hnodes v hv, fun cut hcut => ?_⟩
  refine (hreach cut (hsub cut hcut)).imp_right ?_
  rintro ⟨a, ha, p, hp⟩
  -- without its loops the walk is a simple path, which does not leave the component
  have hstay : ∀ x ∈ p.bypass.support, x ∈ b.component s t := fun x =>
    mem_component_of_mem_path hb hv ha p.bypass_isPath
  have hedges : ∀ e ∈ p.bypass.edges, e ∈ part.graph.edgeSet := by
    intro e he
    induction e using Sym2.ind with
    | _ x y =>
      exact hadj x (hstay x (Walk.fst_mem_support_of_mem_edges _ he)) y
        (hstay y (Walk.snd_mem_support_of_mem_edges _ he)) (Walk.adj_of_mem_edges _ he)
  refine ⟨a, ha, p.bypass.transfer part.graph hedges, ?_⟩
  rw [Walk.support_transfer]
  exact fun h => hp (p.support_bypass_subset_support h)

end Dataflow.Bonds
