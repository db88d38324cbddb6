import Dataflow.Proofs.Plan.Multigraph
import Dataflow.Proofs.Plan.Register

/-!
# A plan stands for a multigraph

Whatever is done to a plan, its slots and the ways in which they are reused do not show: it answers
and changes like the two maps that it stands for, also where it is laid out in a register.

* **`Plan.shows_multigraph`**: every query is answered from the two maps.
* **`Plan.performs_perform`, `Plan.runs_performAll`**: one operation, and any number of them, follow
  the rules of the maps.
* **`Plan.refines_multigraph`**: all of it, and what it means for the numbers of edges.
-/

namespace Dataflow

open Relation

/-! ### Operations on a plan -/

namespace Plan

/-- Performs an operation. -/
def perform (p : Plan) : Operation → Reply × Plan
  | .addVertex e => (.added (p.addVertex e).1, (p.addVertex e).2)
  | .removeVertex v => (.vertex (p.removeVertex v).1, (p.removeVertex v).2)
  | .addEdge s t e => (.number (p.addEdge s t e).1, (p.addEdge s t e).2)
  | .connect s t => (.number (p.connect s t).1, (p.connect s t).2)
  | .removeEdge i => (.value (p.removeEdge i).1, (p.removeEdge i).2)
  | .removeEdgeBetween s t => (.taken (p.removeEdgeBetween s t).1, (p.removeEdgeBetween s t).2)
  | .modifyEdge i f => (.value ((p.network.link? i).map (·.edge)), p.modifyEdge i f)

/-- Performs operations one after the other. -/
abbrev performAll (p : Plan) (ops : List Operation) : List Reply × Plan :=
  Operation.performAll perform p ops

end Plan

namespace Register

/-- Performs an operation. -/
def perform (r : Register) : Operation → Reply × Register
  | .addVertex e => (.added (r.addVertex e).1, (r.addVertex e).2)
  | .removeVertex v => (.vertex (r.removeVertex v).1, (r.removeVertex v).2)
  | .addEdge s t e => (.number (r.addEdge s t e).1, (r.addEdge s t e).2)
  | .connect s t => (.number (r.connect s t).1, (r.connect s t).2)
  | .removeEdge i => (.value (r.removeEdge i).1, (r.removeEdge i).2)
  | .removeEdgeBetween s t => (.taken (r.removeEdgeBetween s t).1, (r.removeEdgeBetween s t).2)
  | .modifyEdge i f => (.value ((r.strands.get? i).map (·.edge)), r.modifyEdge i f)

/-- Performs operations one after the other. -/
abbrev performAll (r : Register) (ops : List Operation) : List Reply × Register :=
  Operation.performAll perform r ops

end Register

namespace Plan

variable {p : Plan} {v : ElementId}

/-- **An operation on the register is the operation on the plan.** -/
theorem register_perform (p : Plan) (op : Operation) :
    p.register.perform op = ((p.perform op).1, (p.perform op).2.register) := by
  cases op with
  | addVertex e => simp only [Register.perform, perform, register_addVertex]
  | removeVertex v => simp only [Register.perform, perform, register_removeVertex]
  | addEdge s t e => simp only [Register.perform, perform, register_addEdge]
  | connect s t => simp only [Register.perform, perform, register_connect]
  | removeEdge i => simp only [Register.perform, perform, register_removeEdge]
  | removeEdgeBetween s t => simp only [Register.perform, perform, register_removeEdgeBetween]
  | modifyEdge i f =>
    simp only [Register.perform, perform, register_modifyEdge, value_register]

theorem register_performAll (p : Plan) (ops : List Operation) :
    p.register.performAll ops = ((p.performAll ops).1, (p.performAll ops).2.register) := by
  induction ops generalizing p with
  | nil => rfl
  | cons op ops ih =>
    show ((p.register.perform op).1 :: ((p.register.perform op).2.performAll ops).1,
      ((p.register.perform op).2.performAll ops).2) = _
    rw [register_perform, ih]
    rfl

/-! ### The multigraph -/

/-- What the plan stands for. -/
def multigraph (p : Plan) : Multigraph where
  element? := p.network.element?
  arc? i := (p.network.link? i).map fun l => ⟨l.source, l.target, l.edge⟩

theorem element?_multigraph {e : Element} :
    p.multigraph.element? v = some e ↔ e ∈ p.network.elements ∧ e.id = v :=
  Network.element?_eq_some_iff p.coherent.ids_nodup

theorem arc?_multigraph {i : EdgeId} {a : Arc} :
    p.multigraph.arc? i = some a ↔ a.link i ∈ p.network.links := by
  show Option.map _ (p.network.link? i) = some a ↔ _
  simp only [Option.map_eq_some_iff, Network.link?_eq_some_iff p.coherent.links_ascending]
  constructor
  · rintro ⟨l, ⟨hl, rfl⟩, rfl⟩
    exact hl
  · exact fun h => ⟨a.link i, ⟨h, rfl⟩, rfl⟩

theorem has_multigraph : p.multigraph.Has v ↔ v ∈ p.network.ids := by
  rw [Multigraph.Has, Network.mem_ids]
  exact exists_congr fun e => element?_multigraph

theorem step_multigraph : p.multigraph.Step = p.network.Step := by
  funext a b
  refine propext ⟨?_, ?_⟩
  · rintro ⟨i, e, h⟩
    exact ⟨_, arc?_multigraph.mp h, rfl, rfl⟩
  · rintro ⟨l, hl, rfl, rfl⟩
    exact ⟨l.id, l.edge, arc?_multigraph.mpr hl⟩

/-- **Every query is answered from the two maps.** -/
theorem shows_multigraph (p : Plan) : p.multigraph.Shows p.answers := by
  rw [p.answers_eq]
  exact
    { ids_nodup := p.coherent.ids_nodup
      mem_ids := fun _ => has_multigraph.symm
      element?_eq := fun _ => rfl
      element_id := fun _ _ h => (element?_multigraph.mp h).2
      contains_iff := fun _ => Network.contains_iff.trans has_multigraph.symm
      links_ascending := p.coherent.links_ascending
      mem_links := fun l => (arc?_multigraph (i := l.id) (a := ⟨l.source, l.target, l.edge⟩)).symm
      link?_eq := fun i => by
        refine Option.ext fun l => ?_
        simp only [Option.map_eq_some_iff, arc?_multigraph]
        refine (Network.link?_eq_some_iff p.coherent.links_ascending).trans ⟨?_, ?_⟩
        · rintro ⟨hl, rfl⟩
          exact ⟨⟨l.source, l.target, l.edge⟩, hl, rfl⟩
        · rintro ⟨a, ha, rfl⟩
          exact ⟨ha, rfl⟩
      incoming_eq := fun _ => rfl
      outgoing_eq := fun _ => rfl
      ends_mem := fun l hl => ⟨p.coherent.source_mem l hl, p.coherent.target_mem l hl⟩
      vertexCount_eq := (List.length_map _).symm
      edgeCount_eq := rfl }

/-! ### One operation -/

theorem multigraph_insertVertex {e : Element} (h : e.id ∉ p.network.ids) :
    (p.insertVertex e h).multigraph = p.multigraph.withVertex e := by
  obtain ⟨he, hl, -⟩ := p.toStore.network_insertVertex e
  refine Multigraph.ext_iff_some (fun v d => ?_) fun i a => ?_
  · rw [element?_multigraph, show d ∈ (p.insertVertex e h).network.elements ↔ _ from he.mem_iff,
      List.mem_cons]
    show _ ↔ Function.update _ _ _ _ = _
    by_cases hv : v = e.id
    · subst hv
      rw [Function.update_self, Option.some.injEq]
      constructor
      · rintro ⟨rfl | hd, hid⟩
        · rfl
        · exact absurd (Network.mem_ids.mpr ⟨d, hd, hid⟩) h
      · rintro rfl
        exact ⟨.inl rfl, rfl⟩
    · rw [Function.update_of_ne hv, element?_multigraph]
      refine and_congr_left fun hid => or_iff_right ?_
      rintro rfl
      exact hv hid.symm
  · rw [arc?_multigraph, show (p.insertVertex e h).network.links = _ from hl]
    exact arc?_multigraph.symm

theorem performs_addVertex (p : Plan) (e : Element) :
    p.multigraph.Performs (.addVertex e) (.added (p.addVertex e).1)
      (p.addVertex e).2.multigraph := by
  unfold addVertex
  split
  · rename_i h
    exact .vertexKept (has_multigraph.mpr h)
  · rename_i h
    rw [multigraph_insertVertex h]
    exact .vertexAdded (mt has_multigraph.mp h)

theorem removeVertex_fst (hv : v ∈ p.network.ids) :
    (p.removeVertex v).1 = p.network.element? v := by
  unfold removeVertex
  split
  · rename_i hn
    exact absurd hv (Store.slotOf?_eq_none hn)
  · rfl

theorem multigraph_removeVertex (hv : v ∈ p.network.ids) :
    (p.removeVertex v).2.multigraph = p.multigraph.withoutVertex v := by
  have hgone := network_removeVertex hv
  refine Multigraph.ext_iff_some (fun w d => ?_) fun i a => ?_
  · rw [element?_multigraph, hgone, List.mem_filter, decide_eq_true_eq]
    show _ ↔ Function.update _ _ _ _ = _
    by_cases hw : w = v
    · subst hw
      rw [Function.update_self]
      exact iff_of_false (fun h => h.1.2 h.2) nofun
    · rw [Function.update_of_ne hw, element?_multigraph]
      exact and_congr_left fun hid => and_iff_left (hid ▸ hw)
  · rw [arc?_multigraph, hgone, List.mem_filter]
    show _ ↔ (p.multigraph.arc? i).filter _ = some a
    rw [Option.filter_eq_some_iff, arc?_multigraph]
    rfl

theorem performs_removeVertex (p : Plan) (v : ElementId) :
    p.multigraph.Performs (.removeVertex v) (.vertex (p.removeVertex v).1)
      (p.removeVertex v).2.multigraph := by
  by_cases hv : v ∈ p.network.ids
  · obtain ⟨e, he⟩ := has_multigraph.mpr hv
    rw [multigraph_removeVertex hv, removeVertex_fst hv,
      show p.network.element? v = some e from he]
    exact .vertexRemoved he
  · rw [removeVertex_of_not_mem hv]
    exact .vertexMissing (mt has_multigraph.mp hv)

/-- One more edge is one more arc, under a number that no arc has. -/
theorem Grows.multigraph {i : EdgeId} {s t : ElementId} {e : Edge} {q : Plan}
    (h : p.Grows [⟨i, s, t, e⟩] q) : p.multigraph.arc? i = none ∧
      q.multigraph = p.multigraph.setArc i (some ⟨s, t, e⟩) := by
  have hnew : p.multigraph.arc? i = none := by
    refine Option.eq_none_iff_forall_not_mem.mpr fun a ha => ?_
    exact h.fresh List.mem_cons_self (arc?_multigraph.mp ha) rfl
  refine ⟨hnew, Multigraph.ext_iff_some (fun w d => ?_) fun j a => ?_⟩
  · rw [element?_multigraph, h.elements]
    exact element?_multigraph.symm
  · rw [arc?_multigraph, h.mem_links, List.mem_singleton, ← arc?_multigraph]
    show _ ↔ Function.update _ _ _ _ = _
    by_cases hj : j = i
    · subst hj
      rw [Function.update_self, hnew]
      constructor
      · rintro (h | h)
        · cases a
          cases h
          rfl
        · cases h
      · rintro ⟨⟩
        exact .inl rfl
    · rw [Function.update_of_ne hj]
      exact or_iff_right fun h => hj (congrArg Link.id h)

theorem performs_addEdge (p : Plan) (s t : ElementId) (e : Edge) :
    p.multigraph.Performs (.addEdge s t e) (.number (p.addEdge s t e).1)
      (p.addEdge s t e).2.multigraph := by
  rcases addEdge_cases p s t e with ⟨hs, hadd⟩ | ⟨hs, ht, hadd⟩ | ⟨hs, ht, hcloses, hadd⟩ |
    ⟨hs, ht, hfree, i, q, hadd, hgrows⟩
  · rw [hadd]
    exact .sourceMissing (mt has_multigraph.mp hs)
  · rw [hadd]
    exact .targetMissing (has_multigraph.mpr hs) (mt has_multigraph.mp ht)
  · rw [hadd]
    rw [← step_multigraph] at hcloses
    exact .cycleClosed (has_multigraph.mpr hs) (has_multigraph.mpr ht) hcloses
  · obtain ⟨hnew, hmultigraph⟩ := hgrows.multigraph
    rw [hadd, hmultigraph]
    rw [← step_multigraph] at hfree
    exact .edgeAdded (has_multigraph.mpr hs) (has_multigraph.mpr ht) hfree hnew

theorem performs_connect (p : Plan) (s t : ElementId) :
    p.multigraph.Performs (.connect s t) (.number (p.connect s t).1)
      (p.connect s t).2.multigraph := by
  unfold connect
  split
  · rename_i h
    exact .nothingConnected (mt has_multigraph.mp (Network.element?_eq_none_iff.mp h))
  · rename_i e h
    exact .connected h (performs_addEdge p s t _)

theorem multigraph_eraseEdge (p : Plan) (i : EdgeId) :
    (p.eraseEdge i).multigraph = p.multigraph.setArc i none := by
  have hnetwork := network_removeEdge p i
  refine Multigraph.ext_iff_some (fun _ _ => Iff.rfl) fun j a => ?_
  rw [arc?_multigraph, show (p.eraseEdge i).network = _ from hnetwork, List.mem_filter,
    decide_eq_true_eq]
  show _ ↔ Function.update _ _ _ _ = _
  by_cases hj : j = i
  · subst hj
    rw [Function.update_self]
    exact iff_of_false (fun h => h.2 rfl) nofun
  · rw [Function.update_of_ne hj, arc?_multigraph]
    exact and_iff_left hj

theorem performs_removeEdge (p : Plan) (i : EdgeId) :
    p.multigraph.Performs (.removeEdge i) (.value (p.removeEdge i).1)
      (p.removeEdge i).2.multigraph := by
  have hvalue : (p.removeEdge i).1 = (p.multigraph.arc? i).map (·.edge) := by
    show (p.network.link? i).map _ = ((p.network.link? i).map _).map _
    rw [Option.map_map]
    rfl
  rw [hvalue, show (p.removeEdge i).2 = p.eraseEdge i from rfl, multigraph_eraseEdge]
  exact .edgeRemoved

theorem performs_removeEdgeBetween (p : Plan) (s t : ElementId) :
    p.multigraph.Performs (.removeEdgeBetween s t) (.taken (p.removeEdgeBetween s t).1)
      (p.removeEdgeBetween s t).2.multigraph := by
  unfold removeEdgeBetween
  split
  · rename_i hnone
    refine .noneBetween fun i e h => ?_
    have hmem : Arc.link i ⟨s, t, e⟩ ∈ p.network.between s t :=
      Network.mem_between.mpr ⟨arc?_multigraph.mp h, rfl, rfl⟩
    rw [hnone] at hmem
    exact List.not_mem_nil hmem
  · rename_i l ls hl
    have hascending : (l :: ls).Pairwise fun k l => k.id < l.id :=
      hl ▸ p.coherent.links_ascending.filter _
    obtain ⟨hmem, rfl, rfl⟩ := Network.mem_between.mp (hl ▸ List.mem_cons_self)
    rw [multigraph_eraseEdge]
    refine .lowestRemoved (arc?_multigraph.mpr hmem) fun j e h => ?_
    have hj : Arc.link j ⟨l.source, l.target, e⟩ ∈ p.network.between l.source l.target :=
      Network.mem_between.mpr ⟨arc?_multigraph.mp h, rfl, rfl⟩
    rw [hl] at hj
    rcases List.mem_cons.mp hj with h | h
    · exact Nat.le_of_eq (congrArg Link.id h).symm
    · exact Nat.le_of_lt ((List.pairwise_cons.mp hascending).1 _ h)

theorem multigraph_modifyEdge (p : Plan) (i : EdgeId) (f : Edge → Edge) :
    (p.modifyEdge i f).multigraph =
      p.multigraph.setArc i ((p.multigraph.arc? i).map fun a => { a with edge := f a.edge }) := by
  -- an edge keeps its number, also where it is changed
  have hid {l k : Link} (h : (if l.id = i then { l with edge := f l.edge } else l) = k) :
      l.id = k.id := by
    rw [← h]
    split <;> rfl
  refine Multigraph.ext_iff_some (fun _ _ => Iff.rfl) fun j a => ?_
  rw [arc?_multigraph, network_modifyEdge, List.mem_map]
  show _ ↔ Function.update _ _ _ _ = _
  by_cases hj : j = i
  · subst hj
    rw [Function.update_self, Option.map_eq_some_iff]
    simp only [arc?_multigraph]
    constructor
    · rintro ⟨l, hl, heq⟩
      obtain rfl : l.id = j := hid heq
      rw [if_pos rfl] at heq
      exact ⟨⟨l.source, l.target, l.edge⟩, hl, by cases a; cases heq; rfl⟩
    · rintro ⟨b, hb, rfl⟩
      exact ⟨_, hb, if_pos rfl⟩
  · rw [Function.update_of_ne hj, arc?_multigraph]
    constructor
    · rintro ⟨l, hl, heq⟩
      obtain rfl : l.id = j := hid heq
      rw [if_neg hj] at heq
      exact heq ▸ hl
    · exact fun h => ⟨_, h, if_neg hj⟩

theorem performs_modifyEdge (p : Plan) (i : EdgeId) (f : Edge → Edge) :
    p.multigraph.Performs (.modifyEdge i f) (.value ((p.network.link? i).map (·.edge)))
      (p.modifyEdge i f).multigraph := by
  have hvalue : (p.network.link? i).map (·.edge) = (p.multigraph.arc? i).map (·.edge) := by
    show _ = ((p.network.link? i).map _).map _
    rw [Option.map_map]
    rfl
  rw [hvalue, multigraph_modifyEdge]
  exact .edgeModified

/-- **Every operation follows the rules of the two maps.** -/
theorem performs_perform (p : Plan) (op : Operation) :
    p.multigraph.Performs op (p.perform op).1 (p.perform op).2.multigraph := by
  cases op with
  | addVertex e => exact performs_addVertex p e
  | removeVertex v => exact performs_removeVertex p v
  | addEdge s t e => exact performs_addEdge p s t e
  | connect s t => exact performs_connect p s t
  | removeEdge i => exact performs_removeEdge p i
  | removeEdgeBetween s t => exact performs_removeEdgeBetween p s t
  | modifyEdge i f => exact performs_modifyEdge p i f

/-- **So does any number of operations.** -/
theorem runs_performAll (p : Plan) (ops : List Operation) :
    Multigraph.Runs p.multigraph ops (p.performAll ops).1 (p.performAll ops).2.multigraph := by
  induction ops generalizing p with
  | nil => exact .nil _
  | cons op ops ih => exact .cons (performs_perform p op) (ih _)

/-! ### The refinement -/

theorem multigraph_empty : Plan.empty.multigraph = Multigraph.empty :=
  Multigraph.ext_iff_some (fun _ _ => iff_of_false nofun nofun) fun _ _ =>
    iff_of_false nofun nofun

theorem link?_multigraph {i : EdgeId} {l : Link} :
    p.answers.link? i = some l ↔
      p.multigraph.arc? i = some ⟨l.source, l.target, l.edge⟩ ∧ l.id = i := by
  rw [(shows_multigraph p).link?_eq, Option.map_eq_some_iff]
  constructor
  · rintro ⟨a, ha, rfl⟩
    exact ⟨ha, rfl⟩
  · rintro ⟨ha, rfl⟩
    exact ⟨_, ha, rfl⟩

/-- **A plan stands for two maps**, and so does the register that it is laid out in. Empty ones stand
for empty maps. Before and after any run of operations every query is answered from the maps, and the
run follows their rules: a new edge gets a number of no other edge, a vertex leaves with the edges
that touch it and no others, and of several edges between two vertices the one of the lowest number
goes. A number keeps standing for its edge while the run removes neither the edge nor one of its
ends. -/
theorem refines_multigraph (p : Plan) (ops : List Operation) :
    let replies := (p.performAll ops).1
    let q := (p.performAll ops).2
    (Plan.empty.register = Register.empty ∧ Plan.empty.multigraph = Multigraph.empty) ∧
      p.register.performAll ops = (replies, q.register) ∧
      (p.register.answers = p.answers ∧ q.register.answers = q.answers) ∧
      (p.multigraph.Shows p.answers ∧ q.multigraph.Shows q.answers) ∧
      Multigraph.Runs p.multigraph ops replies q.multigraph ∧
      ∀ i l, p.answers.link? i = some l →
        (∀ x ∈ ops.zip replies,
          Multigraph.Spares i ⟨l.source, l.target, l.edge⟩ x.1 x.2) →
        q.answers.link? i = some { l with edge := ops.foldl (Multigraph.revise i) l.edge } := by
  intro replies q
  have hruns := runs_performAll p ops
  refine ⟨⟨rfl, multigraph_empty⟩, register_performAll p ops,
    ⟨answers_register p, answers_register q⟩, ⟨shows_multigraph p, shows_multigraph q⟩, hruns, ?_⟩
  intro i l hl hspares
  obtain ⟨harc, rfl⟩ := link?_multigraph.mp hl
  exact link?_multigraph.mpr ⟨hruns.arc?_of_spares harc hspares, rfl⟩

end Plan

end Dataflow
