import Dataflow.Proofs.Closure.Blocks

/-!
# Simple paths through a component

Two linked nodes and any node of their component lie on one simple path. A node next to a simple path
between the two is not cut off by the one node of the path that it hangs on, so a detour past that
node can be spliced in.

* **`Bonds.mem_component_iff_path`**: the component of a linked pair holds exactly the nodes on the
  simple paths between the two.
-/

namespace Dataflow.Bonds

open SimpleGraph

section Walks

variable {V : Type} {G : SimpleGraph V} {s t u v x y : V}

/-- A walk that ends in a set has a simple path from its start to a first point of the set. -/
theorem exists_path_to_first [DecidableEq V] {S : Set V} (p : G.Walk u v) (hv : v ∈ S) :
    ∃ x ∈ S, ∃ q : G.Walk u x, q.IsPath ∧ q.support ⊆ p.support ∧
      ∀ z ∈ q.support, z ∈ S → z = x := by
  induction p with
  | @nil u => exact ⟨u, hv, .nil, .nil, List.Subset.refl _, fun z hz _ => List.mem_singleton.mp hz⟩
  | @cons u w v h p ih =>
    by_cases hu : u ∈ S
    · refine ⟨u, hu, .nil, .nil, fun z hz => ?_, fun z hz _ => List.mem_singleton.mp hz⟩
      rw [List.mem_singleton.mp hz]
      exact Walk.start_mem_support _
    · obtain ⟨x, hx, q, -, hsub, hfirst⟩ := ih hv
      have hsupport : ∀ z ∈ (q.cons h).bypass.support, z = u ∨ z ∈ q.support := by
        intro z hz
        rw [← List.mem_cons, ← Walk.support_cons h]
        exact Walk.support_bypass_subset_support _ hz
      refine ⟨x, hx, (q.cons h).bypass, Walk.bypass_isPath _, fun z hz => ?_, fun z hz hzS => ?_⟩
      · rw [Walk.support_cons, List.mem_cons]
        exact (hsupport z hz).imp_right (hsub ·)
      · rcases hsupport z hz with hzu | hz
        · exact absurd (hzu ▸ hzS) hu
        · exact hfirst z hz hzS

/-- Simple paths that meet only where one ends and the other starts make up one. -/
theorem isPath_append {p : G.Walk s x} {q : G.Walk x t} (hp : p.IsPath) (hq : q.IsPath)
    (hmeet : ∀ z ∈ p.support, z ∈ q.support → z = x) : (p.append q).IsPath := by
  have hnd : (x :: q.support.tail).Nodup := Walk.cons_tail_support q ▸ hq.support_nodup
  obtain ⟨hx, htail⟩ := List.nodup_cons.mp hnd
  rw [Walk.isPath_def, Walk.support_append, List.nodup_append]
  refine ⟨hp.support_nodup, htail, ?_⟩
  rintro z hz _ hz' rfl
  exact hx (hmeet z hz (List.mem_of_mem_tail hz') ▸ hz')

/-- A stretch of a simple path gives way to another simple path that meets the path at its ends
only. -/
theorem isPath_splice {p₁ : G.Walk s x} {p₂ : G.Walk x y} {p₃ : G.Walk y t}
    (hp : (p₁.append (p₂.append p₃)).IsPath) {q : G.Walk x y} (hq : q.IsPath)
    (hmeet : ∀ z ∈ q.support, z ∈ (p₁.append (p₂.append p₃)).support → z = x ∨ z = y) :
    (p₁.append (q.append p₃)).IsPath := by
  have hrest : (p₂.append p₃).IsPath := hp.of_append_right
  -- points on both sides of a joint of the path are the joint
  have hjoint : ∀ z ∈ p₁.support, z ∈ p₂.support ∨ z ∈ p₃.support → z = x := by
    intro z hz hz'
    by_contra hne
    exact hp.ne_of_mem_support_of_append hne hz ((Walk.mem_support_append_iff _ _).mpr hz') rfl
  have hjoint' : ∀ z ∈ p₂.support, z ∈ p₃.support → z = y := by
    intro z hz hz'
    by_contra hne
    exact hrest.ne_of_mem_support_of_append hne hz hz' rfl
  have hmem : ∀ {z}, z ∈ (p₁.append (p₂.append p₃)).support ↔
      z ∈ p₁.support ∨ z ∈ p₂.support ∨ z ∈ p₃.support := by
    simp only [Walk.mem_support_append_iff, implies_true]
  have hlast : ∀ z ∈ q.support, z ∈ p₃.support → z = y := by
    intro z hz hz'
    rcases hmeet z hz (hmem.mpr (.inr (.inr hz'))) with rfl | rfl
    · exact hjoint' z p₂.start_mem_support hz'
    · rfl
  refine isPath_append hp.of_append_left (isPath_append hq hrest.of_append_right hlast) ?_
  intro z hz hz'
  rcases (Walk.mem_support_append_iff _ _).mp hz' with hz' | hz'
  · rcases hmeet z hz' (hmem.mpr (.inl hz)) with rfl | rfl
    · rfl
    · exact hjoint z hz (.inl p₂.end_mem_support)
  · exact hjoint z hz (.inr hz')

/-- A simple path between two points of another, which it does not meet in between, lies on a simple
path with the ends of the other. -/
theorem exists_path_through {p : G.Walk s t} (hp : p.IsPath) (hx : x ∈ p.support)
    (hy : y ∈ p.support) {q : G.Walk x y} (hq : q.IsPath)
    (hmeet : ∀ z ∈ q.support, z ∈ p.support → z = x ∨ z = y) :
    ∃ p' : G.Walk s t, p'.IsPath ∧ ∀ z ∈ q.support, z ∈ p'.support := by
  have hover : ∀ {x y : V} {p₁ : G.Walk s x} {q : G.Walk x y} {p₃ : G.Walk y t},
      ∀ z ∈ q.support, z ∈ (p₁.append (q.append p₃)).support := fun z hz =>
    (Walk.mem_support_append_iff _ _).mpr (.inr ((Walk.mem_support_append_iff _ _).mpr (.inl hz)))
  obtain ⟨p₁, r, rfl⟩ := p.mem_support_iff_exists_append.mp hx
  rcases (Walk.mem_support_append_iff _ _).mp hy with hy | hy
  · obtain ⟨p₂, p₃, rfl⟩ := p₁.mem_support_iff_exists_append.mp hy
    rw [← Walk.append_assoc] at hp hmeet
    -- `y` comes first, so the stretch is taken backwards
    have hrev : ∀ {z}, z ∈ q.reverse.support ↔ z ∈ q.support := by
      simp only [Walk.support_reverse, List.mem_reverse, implies_true]
    refine ⟨_, isPath_splice hp hq.reverse fun z hz hzp => ?_, fun z hz => hover z (hrev.mpr hz)⟩
    exact (hmeet z (hrev.mp hz) hzp).symm
  · obtain ⟨p₂, p₃, rfl⟩ := r.mem_support_iff_exists_append.mp hy
    exact ⟨_, isPath_splice hp hq hmeet, hover⟩

/-- A point next to a simple path that leads to the path past the point it is next to as well is on a
simple path with the same ends. -/
theorem exists_path_through_of_adj [DecidableEq V] {p : G.Walk s t} (hp : p.IsPath)
    (hy : y ∈ p.support) (hvy : G.Adj v y) {a : V} (ha : a ∈ p.support)
    (r : G.Walk v a) (hr : y ∉ r.support) : ∃ p' : G.Walk s t, p'.IsPath ∧ v ∈ p'.support := by
  obtain ⟨x, hx, q, hq, hsub, hmeet⟩ := exists_path_to_first (S := {z | z ∈ p.support}) r ha
  have hyq : y ∉ q.support := fun h => hr (hsub h)
  obtain ⟨p', hp', hover⟩ := exists_path_through hp hy hx (hq.cons hyq (h := hvy.symm)) (by
    intro z hz hzp
    rw [Walk.support_cons, List.mem_cons] at hz
    exact hz.imp_right fun hz => hmeet z hz hzp)
  refine ⟨p', hp', hover v ?_⟩
  rw [Walk.support_cons]
  exact List.mem_cons_of_mem _ q.start_mem_support

end Walks

variable {b : Bonds} {s t v : ElementId}

theorem end_mem_component (hb : b.Closed) (hst : b.graph.Adj s t) : t ∈ b.component s t :=
  (mem_component_iff_walk hb).mpr ⟨hb.mem_of_adj hst, fun cut _ =>
    or_iff_not_imp_left.mpr fun hne => ⟨t, by simp, .nil, by simpa using Ne.symm hne⟩⟩

/-- A node of a component hangs together with the pair inside the component. -/
theorem exists_walk_inside (hb : b.Closed) (hst : b.graph.Adj s t) (hv : v ∈ b.component s t) :
    ∃ p : b.graph.Walk v s, ∀ x ∈ p.support, x ∈ b.component s t := by
  obtain ⟨p⟩ : Nonempty (b.graph.Walk s v) := by
    obtain ⟨-, hreach⟩ := (mem_component_iff_walk hb).mp hv
    rcases hreach s (hb.mem_of_adj hst.symm) with rfl | ⟨a, ha, p, -⟩
    · exact ⟨.nil⟩
    · rcases List.mem_pair.mp ha with rfl | rfl
      · exact ⟨p⟩
      · exact ⟨.cons hst p⟩
  refine ⟨p.bypass.reverse, fun x hx => ?_⟩
  rw [Walk.support_reverse, List.mem_reverse] at hx
  exact mem_component_of_mem_path hb hv List.mem_cons_self p.bypass_isPath hx

/-- **The component of a linked pair holds exactly the nodes on the simple paths between the two.** -/
theorem mem_component_iff_path (hb : b.Closed) (hst : b.graph.Adj s t) : v ∈ b.component s t ↔
    ∃ p : b.graph.Walk s t, p.IsPath ∧ v ∈ p.support := by
  constructor
  · intro hv
    obtain ⟨q, hq⟩ := exists_walk_inside hb hst hv
    clear hv
    -- the node before `v` on the way from `s` is on a path, and does not cut `v` off
    induction q with
    | nil =>
      refine ⟨.cons hst .nil, ?_, Walk.start_mem_support _⟩
      rw [Walk.cons_isPath_iff, Walk.support_nil, List.mem_singleton]
      exact ⟨.nil, hst.ne⟩
    | @cons v y s h q ih =>
      rw [Walk.support_cons] at hq
      obtain ⟨hv, hq⟩ := List.forall_mem_cons.mp hq
      obtain ⟨p, hp, hy⟩ := ih hst hq
      obtain ⟨hvn, hreach⟩ := (mem_component_iff_walk hb).mp hv
      obtain ⟨a, ha, r, hr⟩ := (hreach y (hb.mem_of_adj h)).resolve_left h.ne
      have hap : a ∈ p.support := by
        rcases List.mem_pair.mp ha with rfl | rfl
        · exact p.start_mem_support
        · exact p.end_mem_support
      refine exists_path_through_of_adj hp hy h hap r.reverse ?_
      rwa [Walk.support_reverse, List.mem_reverse]
  · rintro ⟨p, hp, hvp⟩
    exact mem_component_of_mem_path hb (end_mem_component hb hst) List.mem_cons_self hp hvp

end Dataflow.Bonds
