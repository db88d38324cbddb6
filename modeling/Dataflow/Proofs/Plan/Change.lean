import Dataflow.Proofs.Plan.Edge
import Dataflow.Proofs.Plan.Steps

/-!
# The changes that edits make

Whatever an edit does, and wherever it stops, it does by few kinds of change to what is read of the
plan, one after the other. The one that adds an edge comes after the check for cycles.

* **`Change.acyclic`**: no change closes a cycle.
* **`Plan.stepwise_changes`**: every step of an edit is a run of changes, and so is every edit.
-/

namespace Dataflow

open Relation

/-- One change to a network that is edited. -/
inductive Change (n : Network) : Network → Prop
  | vertexAdded {m : Network} (e : Element) : e.id ∉ n.ids →
      m.elements.Perm (e :: n.elements) → m.links = n.links → m.tags = n.tags → Change n m
  | vertexRemoved {m : Network} (v : ElementId) : m.elements = n.elements.filter (·.id ≠ v) →
      m.links = n.links.filter (fun l => !l.touches v) → m.tags = n.tags.map (·.remove v) →
      Change n m
  | edgeAdded {m : Network} (l : Link) : l.source ∈ n.ids → l.target ∈ n.ids →
      l.source ≠ l.target → ¬ TransGen n.Step l.target l.source → (∀ k ∈ n.links, l.id ≠ k.id) →
      m.links.Perm (l :: n.links) → m.elements = n.elements → m.tags = n.tags → Change n m
  | edgeRemoved (i : EdgeId) : Change n { n with links := n.links.filter (·.id ≠ i) }
  | edgeChanged (i : EdgeId) (f : Edge → Edge) : Change n
      { n with links := n.links.map fun l => if l.id = i then { l with edge := f l.edge } else l }

/-- **No change closes a cycle.** -/
theorem Change.acyclic {n m : Network} (h : Change n m) (hn : n.Acyclic) : m.Acyclic := by
  cases h with
  | vertexAdded e _ _ hl _ => exact hn.mono fun _ _ => Network.Step.mono fun l h => hl ▸ h
  | vertexRemoved v _ hl _ =>
    refine hn.mono fun _ _ => Network.Step.mono fun l h => ?_
    rw [hl] at h
    exact List.mem_of_mem_filter h
  | edgeAdded l _ _ hne hback _ hl _ _ =>
    refine hn.addStep (fun a b hab => ?_) hne hback
    obtain ⟨k, hk, rfl, rfl⟩ := hab
    rcases List.mem_cons.mp (hl.mem_iff.mp hk) with rfl | hk
    · exact .inr ⟨rfl, rfl⟩
    · exact .inl ⟨k, hk, rfl, rfl⟩
  | edgeRemoved i =>
    exact hn.mono fun _ _ => Network.Step.mono fun l h => List.mem_of_mem_filter h
  | edgeChanged i f =>
    refine hn.mono fun a b hab => ?_
    obtain ⟨l, hl, rfl, rfl⟩ := hab
    obtain ⟨k, hk, rfl⟩ := List.mem_map.mp hl
    refine ⟨k, hk, ?_⟩
    split <;> exact ⟨rfl, rfl⟩

namespace Plan

/-- One plan comes from another by changes. -/
def Changes (p q : Plan) : Prop := ReflTransGen Change p.network q.network

variable {p q r : Plan}

namespace Changes

theorem refl (p : Plan) : p.Changes p := ReflTransGen.refl

theorem trans (h : p.Changes q) (h' : q.Changes r) : p.Changes r := ReflTransGen.trans h h'

theorem acyclic (h : p.Changes q) (hp : p.network.Acyclic) : q.network.Acyclic := by
  unfold Changes at h
  generalize q.network = m at h ⊢
  induction h with
  | refl => exact hp
  | tail _ h ih => exact h.acyclic ih

end Changes

/-! ### Steps -/

theorem changes_addVertex (p : Plan) (e : Element) : p.Changes (p.addVertex e).2 := by
  unfold addVertex
  split
  · exact .refl p
  · rename_i h
    obtain ⟨he, hl, ht⟩ := p.toStore.network_insertVertex e
    exact .single (.vertexAdded e h he hl ht)

theorem changes_removeVertex (p : Plan) (v : ElementId) : p.Changes (p.removeVertex v).2 := by
  by_cases h : v ∈ p.network.ids
  · have hgone := network_removeVertex h
    refine .single (.vertexRemoved v ?_ ?_ ?_)
    · rw [hgone]
    · rw [hgone]
    · rw [hgone]
      rfl
  · rw [removeVertex_of_not_mem h]
    exact .refl p

theorem changes_addEdge (p : Plan) (s t : ElementId) (e : Edge) :
    p.Changes (p.addEdge s t e).2 := by
  rcases addEdge_cases p s t e with ⟨-, hadd⟩ | ⟨-, -, hadd⟩ | ⟨-, -, -, hadd⟩ |
    ⟨hs, ht, hfree, i, q, hadd, hgrows⟩ <;> rw [hadd]
  case inr.inr.inr =>
    obtain ⟨hne, hback⟩ := not_or.mp hfree
    exact .single (.edgeAdded ⟨i, s, t, e⟩ hs ht hne hback
      (fun k hk => hgrows.fresh List.mem_cons_self hk) hgrows.links hgrows.elements hgrows.tags)
  all_goals exact .refl p

theorem changes_eraseEdge (p : Plan) (i : EdgeId) : p.Changes (p.eraseEdge i) := by
  have h := network_removeEdge p i
  unfold Changes
  rw [show (p.eraseEdge i).network = _ from h]
  exact .single (.edgeRemoved i)

theorem changes_modifyEdge (p : Plan) (i : EdgeId) (f : Edge → Edge) :
    p.Changes (p.modifyEdge i f) := by
  unfold Changes
  rw [network_modifyEdge]
  exact .single (.edgeChanged i f)

/-- **Every step is a run of changes.** -/
theorem stepwise_changes : Stepwise Changes where
  refl := .refl
  trans := .trans
  removeVertex := changes_removeVertex
  addEdge := changes_addEdge
  eraseEdge := changes_eraseEdge
  modifyEdge := changes_modifyEdge

theorem Seeded.changes (h : p.Seeded q) : p.Changes q := by
  obtain rfl | ⟨e, rfl⟩ := h
  · exact .refl q
  · exact changes_addVertex p e

end Plan

end Dataflow
