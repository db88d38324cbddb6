import Mathlib.Data.List.Perm.Basic
import Dataflow.Plan.Edit
import Dataflow.Proofs.Network.Reach

/-!
# Edges added to a plan

* **`Plan.addEdge_of_closes`, `Plan.exists_addEdge`**: an edge between two vertices is refused where
  its target leads back to its source, and only there; the plan keeps everything else.
  **`Plan.addEdge_cases`**: all that can come of it.
* **`Plan.editAll_addEdge`**: edges along walks of the plan are never refused, however many are
  added.
-/

namespace Dataflow.Plan

open Relation

variable {p q r : Plan}

/-- The plan with more edges, and nothing else changed. -/
structure Grows (p : Plan) (new : List Link) (q : Plan) : Prop where
  links : q.network.links.Perm (new ++ p.network.links)
  elements : q.network.elements = p.network.elements
  tags : q.network.tags = p.network.tags

namespace Grows

theorem refl (p : Plan) : p.Grows [] p := ⟨.refl _, rfl, rfl⟩

theorem trans {ks ls : List Link} (h : p.Grows ks q) (h' : q.Grows ls r) :
    p.Grows (ls ++ ks) r where
  links := by
    rw [List.append_assoc]
    exact h'.links.trans (h.links.append_left ls)
  elements := h'.elements.trans h.elements
  tags := h'.tags.trans h.tags

theorem ids {new : List Link} (h : p.Grows new q) : q.network.ids = p.network.ids :=
  congrArg (List.map Element.id) h.elements

theorem mem_links {new : List Link} (h : p.Grows new q) {l : Link} :
    l ∈ q.network.links ↔ l ∈ new ∨ l ∈ p.network.links := by
  rw [h.links.mem_iff, List.mem_append]

theorem step {new : List Link} (h : p.Grows new q) {a b : ElementId}
    (hab : p.network.Step a b) : q.network.Step a b :=
  Network.Step.mono (fun _ hl => h.mem_links.mpr (.inr hl)) hab

/-- New edges have numbers of their own. -/
theorem fresh {new : List Link} (h : p.Grows new q) {k l : Link} (hk : k ∈ new)
    (hl : l ∈ p.network.links) : k.id ≠ l.id := by
  have hnd : (q.network.links.map (·.id)).Nodup :=
    List.pairwise_map.mpr (q.coherent.links_ascending.imp Nat.ne_of_lt)
  rw [(h.links.map (·.id)).nodup_iff, List.map_append] at hnd
  exact (List.nodup_append.mp hnd).2.2 _ (List.mem_map_of_mem hk) _ (List.mem_map_of_mem hl)

end Grows

/-! ### One edge -/

variable {s t : ElementId} {e : Edge}

/-- **An edge that would close a cycle is refused**, and the plan stays. -/
theorem addEdge_of_closes (hs : s ∈ p.network.ids) (ht : t ∈ p.network.ids)
    (h : s = t ∨ TransGen p.network.Step t s) :
    p.addEdge s t e = (.error (.closesCycle s t), p) := by
  unfold addEdge
  rw [dif_pos hs, dif_pos ht]
  by_cases hne : s = t
  · rw [dif_pos hne]
  · have hts := (Network.mem_descendants p.coherent.target_mem).mpr (h.resolve_left hne)
    rw [dif_neg hne, dif_pos hts]

/-- **Every other edge between two vertices is added** under a number of its own. -/
theorem exists_addEdge (hs : s ∈ p.network.ids) (ht : t ∈ p.network.ids) (hne : s ≠ t)
    (hts : ¬ TransGen p.network.Step t s) :
    ∃ i q, p.addEdge s t e = (.ok i, q) ∧ p.Grows [⟨i, s, t, e⟩] q := by
  have hts' : s ∉ p.network.descendants t :=
    mt (Network.mem_descendants p.coherent.target_mem).mp hts
  refine ⟨p.wires.next, p.insertEdge s t e hs ht hne hts', ?_, ?_⟩
  · unfold addEdge
    rw [dif_pos hs, dif_pos ht, dif_neg hne, dif_neg hts']
  · obtain ⟨hl, he, htags⟩ := network_insertEdge p s t e hs ht hne hts'
    exact ⟨hl, he, htags⟩

/-- What comes of adding an edge, and when. -/
theorem addEdge_cases (p : Plan) (s t : ElementId) (e : Edge) :
    (s ∉ p.network.ids ∧ p.addEdge s t e = (.error (.notAVertex s), p)) ∨
    (s ∈ p.network.ids ∧ t ∉ p.network.ids ∧ p.addEdge s t e = (.error (.notAVertex t), p)) ∨
    (s ∈ p.network.ids ∧ t ∈ p.network.ids ∧ (s = t ∨ TransGen p.network.Step t s) ∧
      p.addEdge s t e = (.error (.closesCycle s t), p)) ∨
    (s ∈ p.network.ids ∧ t ∈ p.network.ids ∧ ¬ (s = t ∨ TransGen p.network.Step t s) ∧
      ∃ i q, p.addEdge s t e = (.ok i, q) ∧ p.Grows [⟨i, s, t, e⟩] q) := by
  by_cases hs : s ∈ p.network.ids
  case neg => exact .inl ⟨hs, dif_neg hs⟩
  by_cases ht : t ∈ p.network.ids
  case neg => exact .inr (.inl ⟨hs, ht, (dif_pos hs).trans (dif_neg ht)⟩)
  by_cases h : s = t ∨ TransGen p.network.Step t s
  · exact .inr (.inr (.inl ⟨hs, ht, h, addEdge_of_closes hs ht h⟩))
  · obtain ⟨hne, hback⟩ := not_or.mp h
    exact .inr (.inr (.inr ⟨hs, ht, h, exists_addEdge hs ht hne hback⟩))

/-! ### Several edges -/

/-- The edge without its number. -/
def ends (l : Link) : ElementId × ElementId × Edge := (l.source, l.target, l.edge)

/-- **Edges along walks of the plan are never refused**, however many are added. -/
theorem editAll_addEdge {es : List (ElementId × ElementId × Edge)}
    (h : ∀ e ∈ es, TransGen p.network.Step e.1 e.2.1) :
    ∃ q new, editAll (fun p (s, t, edge) => Edit.ignored (p.addEdge s t edge)) p es = (.ok (), q) ∧
      p.Grows new q ∧ (new.map ends).Perm es := by
  induction es generalizing p with
  | nil => exact ⟨p, [], rfl, .refl p, .refl _⟩
  | cons e es ih =>
    obtain ⟨s, t, edge⟩ := e
    obtain ⟨hwalk, hrest⟩ := List.forall_mem_cons.mp h
    have hs := p.coherent.source_mem_of_transGen hwalk
    have ht := p.coherent.target_mem_of_transGen hwalk
    -- a walk ahead rules out one back
    obtain ⟨i, q, hadd, hgrows⟩ := exists_addEdge (e := edge) hs ht
      (p.acyclic.ne_of_transGen hwalk) fun hback => p.acyclic s (hwalk.trans hback)
    obtain ⟨r, new, hall, hgrows', hnew⟩ :=
      ih fun e he => (hrest e he).lift id fun _ _ => hgrows.step
    refine ⟨r, new ++ [⟨i, s, t, edge⟩], ?_, hgrows.trans hgrows', ?_⟩
    · unfold editAll
      simp only [hadd, Edit.ignored, Edit.andThen]
      exact hall
    · rw [List.map_append]
      exact (List.perm_append_comm.trans (List.Perm.cons _ hnew))

/-! ### Plans from lists -/

/-- Adds transforms of the given ids and edges between vertices, as far as the plan takes them. -/
def sketch (p : Plan) (vs : List ElementId) (steps : List (ElementId × ElementId)) : Plan :=
  let placed := vs.foldl (fun p v => (p.addVertex (.transform ⟨v, ""⟩)).2) p
  steps.foldl (fun p st => (p.connect st.1 st.2).2) placed

/-- Two ways from one vertex to another. -/
def diamond : Plan :=
  empty.sketch [⟨2⟩, ⟨3⟩, ⟨4⟩, ⟨5⟩] [(⟨2⟩, ⟨3⟩), (⟨3⟩, ⟨5⟩), (⟨2⟩, ⟨4⟩), (⟨4⟩, ⟨5⟩)]

/-- An edge from where both ways end back to where they begin is refused. -/
example : (diamond.connect ⟨5⟩ ⟨2⟩).1 = .error (.closesCycle ⟨5⟩ ⟨2⟩) := by decide +kernel

/-- The ends of the diamond, and one edge. -/
def shortcut : Plan := empty.sketch [⟨2⟩, ⟨5⟩] [(⟨2⟩, ⟨5⟩)]

end Dataflow.Plan
