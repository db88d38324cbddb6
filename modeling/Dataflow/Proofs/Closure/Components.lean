import Dataflow.Closure.Biconnected
import Dataflow.Proofs.Network.Reach

/-!
# The closure by biconnected components

* **`Bonds.mem_component`**: a node is in the component of a pair where no other node cuts it off
  from both.
* **`Network.mem_biconnectedClosure`**: the closure holds the contracted vertices, and the
  components of contracted edges.
* **`Network.mem_component_of_between`**: without cycles the vertices between the ends of an edge
  are in its component.
-/

namespace Dataflow

open Relation

namespace Bonds

variable {b : Bonds}

theorem mem_neighbors {v w : ElementId} :
    w ∈ b.neighbors v ↔ (v, w) ∈ b.pairs ∨ (w, v) ∈ b.pairs := by
  unfold neighbors
  rw [List.mem_flatMap]
  constructor
  · rintro ⟨⟨x, y⟩, hp, h⟩
    split at h
    · rename_i hx
      cases hx
      cases List.mem_singleton.mp h
      exact .inl hp
    · split at h
      · rename_i hy
        cases hy
        cases List.mem_singleton.mp h
        exact .inr hp
      · exact absurd h List.not_mem_nil
  · rintro (h | h)
    · exact ⟨(v, w), h, by simp⟩
    · refine ⟨(w, v), h, ?_⟩
      by_cases hwv : w = v <;> simp [hwv]

theorem mem_reachAvoiding {cut v : ElementId} {starts : List ElementId} :
    v ∈ b.reachAvoiding cut starts ↔ ∃ s ∈ starts, s ≠ cut ∧
      (v = s ∨ Via b.neighbors (b.nodes.filter (· ≠ cut)) s v) := by
  have hstart : ∀ s, s ∈ starts.filter (· ≠ cut) ↔ s ∈ starts ∧ s ≠ cut := by
    intro s
    simp
  unfold reachAvoiding
  rw [List.mem_append, mem_sweep]
  simp only [hstart]
  constructor
  · rintro (h | ⟨s, hs, hvia⟩)
    · exact ⟨v, h.1, h.2, .inl rfl⟩
    · exact ⟨s, hs.1, hs.2, .inr hvia⟩
  · rintro ⟨s, hs, hne, rfl | hvia⟩
    · exact .inl ⟨hs, hne⟩
    · exact .inr ⟨s, ⟨hs, hne⟩, hvia⟩

/-- **A node is in the component of a pair where no other node cuts it off from both.** -/
theorem mem_component {s t v : ElementId} : v ∈ b.component s t ↔
    v ∈ b.nodes ∧ ∀ cut ∈ b.nodes, v = cut ∨ v ∈ b.reachAvoiding cut [s, t] := by
  have key : ∀ (cuts kept : List ElementId),
      v ∈ cuts.foldl (fun kept cut => kept.filter fun v =>
          v = cut || (b.reachAvoiding cut [s, t]).contains v) kept ↔
        v ∈ kept ∧ ∀ cut ∈ cuts, v = cut ∨ v ∈ b.reachAvoiding cut [s, t] := by
    intro cuts
    induction cuts with
    | nil => intro kept; simp
    | cons cut cuts ih =>
      intro kept
      rw [List.foldl_cons, ih, List.mem_filter, and_assoc, List.forall_mem_cons]
      simp
  exact key b.nodes b.nodes

end Bonds

namespace Network

variable {full contracted : Network}

theorem mem_pairs_bonds {a b : ElementId} : (a, b) ∈ (full.bonds contracted).pairs ↔
    a ≠ b ∧ (full.Step a b ∨ contracted.Step a b) := by
  unfold bonds
  simp only [List.mem_eraseDups, List.mem_filter, List.mem_map, List.mem_append, Prod.mk.injEq,
    decide_eq_true_eq, Step]
  constructor
  · rintro ⟨⟨l, hl | hl, hs, ht⟩, hne⟩
    · exact ⟨hne, .inl ⟨l, hl, hs, ht⟩⟩
    · exact ⟨hne, .inr ⟨l, hl, hs, ht⟩⟩
  · rintro ⟨hne, ⟨l, hl, hs, ht⟩ | ⟨l, hl, hs, ht⟩⟩
    · exact ⟨⟨l, .inl hl, hs, ht⟩, hne⟩
    · exact ⟨⟨l, .inr hl, hs, ht⟩, hne⟩

theorem mem_nodes_bonds_of_mem {v : ElementId} (h : v ∈ full.ids ∨ v ∈ contracted.ids) :
    v ∈ (full.bonds contracted).nodes := by
  unfold bonds
  simp only [List.mem_eraseDups, List.mem_append]
  exact .inl h

/-- **The closure holds the contracted vertices, and the components of contracted edges.** -/
theorem mem_biconnectedClosure {vs : SortedSet ElementId}
    (h : full.biconnectedClosure contracted = .ok vs) {v : ElementId} : v ∈ vs ↔
      v ∈ contracted.ids ∨
        ∃ l ∈ contracted.links, v ∈ (full.bonds contracted).covering l.source l.target := by
  unfold biconnectedClosure at h
  simp only at h
  split at h
  · exact absurd h (by simp)
  · split at h
    · exact absurd h (by simp)
    · cases h
      rw [SortedSet.mem_ofList, List.mem_append, List.mem_flatMap]

/-- A walk to a vertex that `cut` does not lead to stays clear of `cut`. -/
theorem via_of_not_from {r : ElementId → ElementId → Prop}
    (hr : ∀ {a b}, r a b → b ∈ (full.bonds contracted).neighbors a ∧
      b ∈ (full.bonds contracted).nodes)
    {cut s v : ElementId} (hcut : ¬ ReflTransGen r cut v) (h : TransGen r s v) :
    Via (full.bonds contracted).neighbors
      ((full.bonds contracted).nodes.filter (· ≠ cut)) s v := by
  have hpool : ∀ {a b}, r a b → ReflTransGen r b v →
      b ∈ (full.bonds contracted).nodes.filter (· ≠ cut) := by
    intro a b hab hbv
    refine List.mem_filter.mpr ⟨(hr hab).2, decide_eq_true ?_⟩
    rintro rfl
    exact hcut hbv
  induction h using TransGen.head_induction_on with
  | single h => exact .single (hr h).1 (hpool h .refl)
  | head h hcv ih => exact .head (hr h).1 (hpool h hcv.to_reflTransGen) ih

/-- The ends of a step are linked, in both directions. -/
theorem neighbors_of_step (hn : full.Coherent) (ha : full.Acyclic) {a b : ElementId}
    (h : full.Step a b) :
    (b ∈ (full.bonds contracted).neighbors a ∧ b ∈ (full.bonds contracted).nodes) ∧
      a ∈ (full.bonds contracted).neighbors b ∧ a ∈ (full.bonds contracted).nodes := by
  have hpair : (a, b) ∈ (full.bonds contracted).pairs :=
    mem_pairs_bonds.mpr ⟨ha.ne_of_transGen (.single h), .inl h⟩
  exact ⟨⟨Bonds.mem_neighbors.mpr (.inl hpair),
      mem_nodes_bonds_of_mem (.inl (hn.target_mem_of_step h))⟩,
    Bonds.mem_neighbors.mpr (.inr hpair), mem_nodes_bonds_of_mem (.inl (hn.source_mem_of_step h))⟩

/-- **Without cycles the vertices between two others are in the component of the two.** -/
theorem mem_component_of_between (hn : full.Coherent) (ha : full.Acyclic) {s t v : ElementId}
    (hv : v ∈ full.ids) (hsv : ReflTransGen full.Step s v) (hvt : ReflTransGen full.Step v t) :
    v ∈ (full.bonds contracted).component s t := by
  rw [Bonds.mem_component]
  refine ⟨mem_nodes_bonds_of_mem (.inl hv), fun cut _ => ?_⟩
  by_cases hcut : v = cut
  · exact .inl hcut
  · refine .inr (Bonds.mem_reachAvoiding.mpr ?_)
    -- a cut that stood both before and after the vertex would be the vertex
    by_cases hfrom : ReflTransGen full.Step cut v
    · have hto : ¬ ReflTransGen full.Step v cut := fun h => hcut (ha.antisymm h hfrom)
      have ht : t ≠ cut := by
        rintro rfl
        exact hto hvt
      refine ⟨t, by simp, ht, ?_⟩
      rcases reflTransGen_iff_eq_or_transGen.mp hvt with h | h
      · exact .inl h.symm
      · -- the same walk, taken backwards
        refine .inr (via_of_not_from (fun h => (neighbors_of_step hn ha h).2)
          (mt reflTransGen_swap.mp hto) (transGen_swap.mpr h))
    · have hs : s ≠ cut := by
        rintro rfl
        exact hfrom hsv
      refine ⟨s, by simp, hs, ?_⟩
      rcases reflTransGen_iff_eq_or_transGen.mp hsv with h | h
      · exact .inl h
      · exact .inr (via_of_not_from (fun h => (neighbors_of_step hn ha h).1) hfrom h)

end Network

end Dataflow
