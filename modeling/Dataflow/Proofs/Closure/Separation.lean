import Dataflow.Proofs.Closure.Blocks

/-!
# What one node separates

* **`Bonds.Shut.mem_of_joined`**: what a node shuts off is left through that node only.
* **`Bonds.IsBlock.mem_component_iff`**: a set that no node cuts, and from which one node each shuts
  off whatever is outside, is the component of every linked pair in it.
-/

namespace Dataflow.Bonds

open SimpleGraph

variable {b : Bonds} {S T : Set ElementId} {c u v w x : ElementId}

/-- Two nodes hang together inside a set. -/
def Joined (b : Bonds) (S : Set ElementId) (v w : ElementId) : Prop :=
  ∃ p : b.graph.Walk v w, ∀ z ∈ p.support, z ∈ S

namespace Joined

theorem refl (h : v ∈ S) : b.Joined S v v :=
  ⟨.nil, fun _ hz => List.mem_singleton.mp hz ▸ h⟩

theorem of_adj (h : b.graph.Adj v w) (hv : v ∈ S) (hw : w ∈ S) : b.Joined S v w := by
  refine ⟨.cons h .nil, fun z hz => ?_⟩
  rcases List.mem_pair.mp hz with rfl | rfl
  · exact hv
  · exact hw

theorem symm (h : b.Joined S v w) : b.Joined S w v := by
  obtain ⟨p, hp⟩ := h
  refine ⟨p.reverse, fun z hz => hp z ?_⟩
  rwa [Walk.support_reverse, List.mem_reverse] at hz

theorem trans (h : b.Joined S u v) (h' : b.Joined S v w) : b.Joined S u w := by
  obtain ⟨p, hp⟩ := h
  obtain ⟨q, hq⟩ := h'
  exact ⟨p.append q, fun z hz => ((Walk.mem_support_append_iff _ _).mp hz).elim (hp z) (hq z)⟩

theorem mono (hsub : S ⊆ T) (h : b.Joined S v w) : b.Joined T v w := by
  obtain ⟨p, hp⟩ := h
  exact ⟨p, fun z hz => hsub (hp z hz)⟩

theorem left_mem (h : b.Joined S v w) : v ∈ S := by
  obtain ⟨p, hp⟩ := h
  exact hp v p.start_mem_support

theorem right_mem (h : b.Joined S v w) : w ∈ S := h.symm.left_mem

end Joined

/-- What is linked to a member of the set is in it or is `c`. -/
def Shut (b : Bonds) (S : Set ElementId) (c : ElementId) : Prop :=
  ∀ v ∈ S, ∀ w, b.graph.Adj v w → w ∈ S ∨ w = c

/-- **What a node shuts off is left through that node only.** -/
theorem Shut.mem_of_joined (h : b.Shut S c) (hv : v ∈ S) (hvw : b.Joined {c}ᶜ v w) : w ∈ S := by
  obtain ⟨p, hp⟩ := hvw
  induction p with
  | nil => exact hv
  | cons hadj p ih =>
    rw [Walk.support_cons] at hp
    obtain ⟨-, hp⟩ := List.forall_mem_cons.mp hp
    exact ih ((h _ hv _ hadj).resolve_right (hp _ p.start_mem_support)) hp

/-- A set of nodes that no node cuts, and from which one node each shuts off whatever is outside. -/
structure IsBlock (b : Bonds) (C : Set ElementId) : Prop where
  mem_nodes : ∀ v ∈ C, v ∈ b.nodes
  uncut : ∀ x, ∀ v ∈ C, ∀ w ∈ C, v ≠ x → w ≠ x → b.Joined {x}ᶜ v w
  shut : ∀ z ∉ C, ∃ c ∈ C, ∃ S, z ∈ S ∧ (∀ x ∈ S, x ∉ C) ∧ b.Shut S c

/-- A node without links is a block. -/
theorem isBlock_singleton (hv : v ∈ b.nodes) (hbare : ∀ w, ¬ b.graph.Adj v w) :
    b.IsBlock {v} where
  mem_nodes := by
    rintro _ rfl
    exact hv
  uncut := by
    rintro x _ rfl _ rfl hne -
    exact .refl hne
  shut z hz := by
    refine ⟨v, rfl, {v}ᶜ, hz, fun _ hx => hx, fun x _ y hxy => .inl ?_⟩
    rintro rfl
    exact hbare _ hxy.symm

/-- **A block is the component of every linked pair in it.** -/
theorem IsBlock.mem_component_iff {C : Set ElementId} (hC : b.IsBlock C) (hb : b.Closed)
    {s t : ElementId} (hst : s ≠ t) (hs : s ∈ C) (ht : t ∈ C) : v ∈ b.component s t ↔ v ∈ C := by
  have hwalk : ∀ {x y cut : ElementId}, (∃ p : b.graph.Walk x y, cut ∉ p.support) ↔
      b.Joined {cut}ᶜ x y := fun {x y cut} =>
    exists_congr fun p => ⟨fun h z hz => by rintro rfl; exact h hz, fun h hcut => h cut hcut rfl⟩
  simp only [mem_component_iff_walk hb, hwalk]
  constructor
  · rintro ⟨-, hreach⟩
    by_contra hv
    obtain ⟨c, hc, S, hvS, hdisjoint, hshut⟩ := hC.shut v hv
    rcases hreach c (hC.mem_nodes c hc) with rfl | ⟨a, ha, hav⟩
    · exact hv hc
    · have haC : a ∈ C := by
        rcases List.mem_pair.mp ha with rfl | rfl
        · exact hs
        · exact ht
      exact hdisjoint a (hshut.mem_of_joined hvS hav.symm) haC
  · intro hv
    refine ⟨hC.mem_nodes v hv, fun cut _ => or_iff_not_imp_left.mpr fun hne => ?_⟩
    by_cases hcut : s = cut
    · exact ⟨t, by simp, hC.uncut cut t ht v hv (hcut ▸ hst.symm) hne⟩
    · exact ⟨s, by simp, hC.uncut cut s hs v hv hcut hne⟩

end Dataflow.Bonds
