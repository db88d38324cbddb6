import Dataflow.Plan.Register
import Dataflow.Proofs.Plan.Answers

/-!
# The register keeps in step with the plan

A plan laid out is a register, and every operation and every query can be done on either.

* **`Plan.register_addVertex`, …**: each operation on the register answers what it answers on the
  plan, and leaves the register of the plan after it.
* **`Plan.answers_register`**: so does every query.
-/

namespace Dataflow

open Relation

namespace Store

variable {s : Store} {v w : ElementId} {i : Nat}

theorem slotOf?_eq_some_iff (hs : s.network.ids.Nodup) :
    s.slotOf? v = some i ↔ ∃ e, (i, e) ∈ s.vertices.items ∧ e.id = v := by
  refine ⟨slotOf?_eq_some, ?_⟩
  rintro ⟨e, he, rfl⟩
  cases hslot : s.slotOf? e.id with
  | none =>
    refine absurd ?_ (slotOf?_eq_none hslot)
    exact Network.mem_ids.mpr ⟨e, List.mem_map.mpr ⟨_, he, rfl⟩, rfl⟩
  | some j =>
    obtain ⟨d, hd, hid⟩ := slotOf?_eq_some hslot
    have hpair : (s.vertices.items.map fun p => p.2.id).Nodup := by
      simpa [Network.ids, network, List.map_map, Function.comp_def] using hs
    have heq : (j, d) = (i, e) := List.inj_on_of_nodup_map hpair hd he hid
    exact congrArg (fun p => some p.1) heq

theorem exists_slotOf? (hv : v ∈ s.network.ids) : ∃ i, s.slotOf? v = some i :=
  Option.ne_none_iff_exists'.mp fun h => slotOf?_eq_none h hv

/-- A slot has one vertex. -/
theorem eq_of_slotOf? (hv : s.slotOf? v = some i) (hw : s.slotOf? w = some i) : v = w := by
  obtain ⟨e, he, rfl⟩ := slotOf?_eq_some hv
  obtain ⟨d, hd, rfl⟩ := slotOf?_eq_some hw
  exact congrArg (fun p => p.2.id) (Slots.eq_of_number he hd rfl)

/-- An edge between the slots of its ends. -/
def strand (s : Store) (w : Wire) : Strand :=
  ⟨(s.slotOf? w.source).getD 0, (s.slotOf? w.target).getD 0, w.edge, w.serial⟩

/-- The store laid out. -/
def register (s : Store) : Register :=
  ⟨s.vertices, s.wires.map s.strand, s.clock, s.slotOf?, s.tags⟩

theorem youngestFirst_strand (s : Store) (ws : List (Nat × Wire)) :
    Register.youngestFirst (ws.map fun p => (p.1, s.strand p.2)) = youngestFirst ws := by
  unfold Register.youngestFirst youngestFirst
  rw [← List.map_mergeSort (r := fun a b => decide (b.2.serial ≤ a.2.serial))
    (fun _ _ _ _ => rfl), List.map_map]
  rfl

end Store

namespace Plan

variable {p q : Plan} {v : ElementId} {i : Nat}

/-- The plan laid out. -/
abbrev register (p : Plan) : Register := p.toStore.register

theorem slotOf?_eq_some_iff :
    p.slotOf? v = some i ↔ ∃ e, (i, e) ∈ p.vertices.items ∧ e.id = v :=
  Store.slotOf?_eq_some_iff p.coherent.ids_nodup

/-- What has a slot is a vertex. -/
theorem mem_ids_of_slotOf? (h : p.slotOf? v = some i) : v ∈ p.network.ids := by
  obtain ⟨e, he, rfl⟩ := Store.slotOf?_eq_some h
  exact Network.mem_ids.mpr ⟨e, List.mem_map.mpr ⟨_, he, rfl⟩, rfl⟩

theorem slotOf?_eq_none_iff : p.slotOf? v = none ↔ v ∉ p.network.ids := by
  refine ⟨Store.slotOf?_eq_none, fun h => Option.eq_none_iff_forall_not_mem.mpr fun i hi => ?_⟩
  exact h (mem_ids_of_slotOf? hi)

/-- The ends of an edge have slots. -/
theorem exists_slots {x : Nat × Wire} (hx : x ∈ p.wires.items) :
    (∃ i, p.slotOf? x.2.source = some i) ∧ ∃ j, p.slotOf? x.2.target = some j := by
  have hl : x.2.link x.1 ∈ p.network.links := Store.mem_links.mpr ⟨x, hx, rfl⟩
  exact ⟨Store.exists_slotOf? (p.coherent.source_mem _ hl),
    Store.exists_slotOf? (p.coherent.target_mem _ hl)⟩

/-- Edges are laid out alike where their ends keep their slots. -/
theorem strand_congr {ws : Slots Wire} (h : ∀ x ∈ ws.items,
    q.slotOf? x.2.source = p.slotOf? x.2.source ∧ q.slotOf? x.2.target = p.slotOf? x.2.target) :
    ws.map q.strand = ws.map p.strand := by
  refine Slots.map_congr fun x hx => ?_
  obtain ⟨hs, ht⟩ := h x hx
  unfold Store.strand
  rw [hs, ht]

/-- An end is in the slot of a vertex where it is the vertex. -/
theorem getD_slotOf?_eq_iff {w : ElementId} (hv : p.slotOf? v = some i)
    (hw : ∃ j, p.slotOf? w = some j) : (p.slotOf? w).getD 0 = i ↔ w = v := by
  obtain ⟨j, hj⟩ := hw
  rw [hj, Option.getD_some]
  constructor
  · rintro rfl
    exact Store.eq_of_slotOf? hj hv
  · rintro rfl
    exact Option.some.inj (hj.symm.trans hv)

/-! ### Vertices -/

theorem register_addVertex (p : Plan) (e : Element) :
    p.register.addVertex e = ((p.addVertex e).1, (p.addVertex e).2.register) := by
  unfold Register.addVertex addVertex
  have hsome : (p.register.index e.id).isSome = true ↔ e.id ∈ p.network.ids := by
    show (p.slotOf? e.id).isSome = true ↔ _
    rw [Store.isSome_slotOf?, Network.contains_iff]
  by_cases h : e.id ∈ p.network.ids
  · rw [if_pos (hsome.mpr h), dif_pos h]
  · rw [if_neg (mt hsome.mp h), dif_neg h]
    have hindex : (p.insertVertex e h).slotOf? =
        Function.update p.slotOf? e.id (some p.vertices.next) := by
      funext v
      refine Option.ext fun i => ?_
      rw [slotOf?_eq_some_iff]
      show (∃ d, (i, d) ∈ (p.vertices.insert e).items ∧ d.id = v) ↔ _
      simp only [Slots.mem_insert]
      by_cases hv : v = e.id
      · subst hv
        rw [Function.update_self, Option.some.injEq]
        constructor
        · rintro ⟨d, heq | hd, hid⟩
          · exact (congrArg Prod.fst heq).symm
          · exact absurd (Network.mem_ids.mpr ⟨d, List.mem_map.mpr ⟨_, hd, rfl⟩, hid⟩) h
        · rintro rfl
          exact ⟨e, .inl rfl, rfl⟩
      · rw [Function.update_of_ne hv, slotOf?_eq_some_iff]
        refine exists_congr fun d => and_congr_left fun hid => or_iff_right fun heq => ?_
        exact hv (hid.symm.trans (congrArg (fun x => x.2.id) heq))
    have hstrands : p.wires.map (p.insertVertex e h).strand = p.wires.map p.strand := by
      refine strand_congr fun x hx => ?_
      have hl : x.2.link x.1 ∈ p.network.links := Store.mem_links.mpr ⟨x, hx, rfl⟩
      rw [hindex]
      refine ⟨Function.update_of_ne ?_ .., Function.update_of_ne ?_ ..⟩
      · exact fun heq => h (heq ▸ p.coherent.source_mem _ hl)
      · exact fun heq => h (heq ▸ p.coherent.target_mem _ hl)
    refine congrArg (Prod.mk true) ?_
    show Register.mk _ _ _ _ _ = Register.mk _ (p.wires.map (p.insertVertex e h).strand) _
      (p.insertVertex e h).slotOf? _
    rw [hstrands, hindex]
    rfl

/-- The edges found at a slot are those found at its vertex. -/
theorem strandsAt_register {atEnd : Strand → Nat} {atEnd' : Wire → ElementId}
    (hend : ∀ w, atEnd (p.strand w) = (p.slotOf? (atEnd' w)).getD 0)
    (hslot : ∀ x ∈ p.wires.items, ∃ j, p.slotOf? (atEnd' x.2) = some j)
    (hv : p.slotOf? v = some i) : p.register.strandsAt atEnd i =
      Store.youngestFirst (p.wires.items.filter fun x => atEnd' x.2 = v) := by
  have hfilter : p.register.strands.items.filter (fun x => atEnd x.2 = i) =
      (p.wires.items.filter fun x => atEnd' x.2 = v).map fun x => (x.1, p.strand x.2) := by
    show (p.wires.items.map _).filter _ = _
    rw [List.filter_map]
    refine congrArg _ (List.filter_congr fun x hx => ?_)
    exact decide_eq_decide.mpr (hend x.2 ▸ getD_slotOf?_eq_iff hv (hslot x hx))
  unfold Register.strandsAt
  rw [hfilter, Store.youngestFirst_strand]

theorem strandsAt_source (hv : p.slotOf? v = some i) : p.register.strandsAt Strand.source i =
    Store.youngestFirst (p.wires.items.filter fun x => x.2.source = v) :=
  strandsAt_register (fun _ => rfl) (fun _ hx => (exists_slots hx).1) hv

theorem strandsAt_target (hv : p.slotOf? v = some i) : p.register.strandsAt Strand.target i =
    Store.youngestFirst (p.wires.items.filter fun x => x.2.target = v) :=
  strandsAt_register (fun _ => rfl) (fun _ hx => (exists_slots hx).2) hv

theorem slotOf?_eraseVertex (h : p.slotOf? v = some i) :
    (p.eraseVertex i v h).slotOf? = Function.update p.slotOf? v none := by
  funext w
  refine Option.ext fun j => ?_
  rw [slotOf?_eq_some_iff]
  show (∃ d, (j, d) ∈ (p.vertices.erase i).items ∧ d.id = w) ↔ _
  simp only [Slots.items_erase, List.mem_filter, decide_eq_true_eq]
  by_cases hw : w = v
  · subst hw
    rw [Function.update_self]
    refine iff_of_false ?_ nofun
    rintro ⟨d, ⟨hd, hne⟩, hid⟩
    exact hne (Option.some.inj ((slotOf?_eq_some_iff.mpr ⟨d, hd, hid⟩).symm.trans h))
  · rw [Function.update_of_ne hw, slotOf?_eq_some_iff]
    refine exists_congr fun d => and_congr_left fun hid => and_iff_left_of_imp fun hd => ?_
    rintro rfl
    exact hw (Store.eq_of_slotOf? (slotOf?_eq_some_iff.mpr ⟨d, hd, hid⟩) h)

theorem removeVertex_of_slotOf? (h : p.slotOf? v = some i) :
    p.removeVertex v = (p.network.element? v, p.eraseVertex i v h) := by
  unfold removeVertex
  split
  · rename_i hnone
    rw [h] at hnone
    cases hnone
  · rename_i j hj
    obtain rfl := Option.some.inj (hj.symm.trans h)
    rfl

theorem register_removeVertex (p : Plan) (v : ElementId) :
    p.register.removeVertex v = ((p.removeVertex v).1, (p.removeVertex v).2.register) := by
  unfold Register.removeVertex
  cases hv : p.slotOf? v with
  | none =>
    rw [removeVertex_of_not_mem (slotOf?_eq_none_iff.mp hv), show p.register.index v = none from hv]
  | some i =>
    rw [removeVertex_of_slotOf? hv, show p.register.index v = some i from hv]
    have helement : p.vertices.get? i = p.network.element? v := by
      rw [← Store.element?_eq, hv]
      rfl
    have hedges : p.register.strandsAt Strand.source i ++ p.register.strandsAt Strand.target i =
        p.edgesOf v := by
      rw [strandsAt_source hv, strandsAt_target hv]
      rfl
    have hstrands : (p.wires.eraseAll (p.edgesOf v)).map (p.eraseVertex i v hv).strand =
        (p.wires.map p.strand).eraseAll (p.edgesOf v) := by
      rw [← Slots.map_eraseAll]
      refine strand_congr fun x hx => ?_
      rw [Slots.items_eraseAll, List.mem_filter, Bool.not_eq_true', ← Bool.not_eq_true,
        List.contains_iff_mem] at hx
      obtain ⟨hx, hkept⟩ := hx
      rw [Store.mem_edgesOf hx, not_or] at hkept
      rw [slotOf?_eraseVertex]
      exact ⟨Function.update_of_ne hkept.1 .., Function.update_of_ne hkept.2 ..⟩
    simp only [hedges]
    refine Prod.ext helement ?_
    show Register.mk _ ((p.wires.map p.strand).eraseAll (p.edgesOf v)) _ _ _ =
      Register.mk _ ((p.wires.eraseAll (p.edgesOf v)).map (p.eraseVertex i v hv).strand) _
        (p.eraseVertex i v hv).slotOf? _
    rw [hstrands, slotOf?_eraseVertex]
    rfl

/-! ### Edges -/

theorem element?_register (p : Plan) (v : ElementId) :
    p.register.element? v = p.network.element? v :=
  p.toStore.element?_eq v

theorem mem_next_register {j : Nat} (hv : p.slotOf? v = some i) :
    j ∈ p.register.next i ↔ ∃ w, p.network.Step v w ∧ p.slotOf? w = some j := by
  have hmem : j ∈ p.register.next i ↔ ∃ x ∈ p.wires.items,
      (p.strand x.2).source = i ∧ (p.strand x.2).target = j := by
    show j ∈ ((p.wires.items.map _).filter _).map _ ↔ _
    simp [and_assoc]
  rw [hmem]
  constructor
  · rintro ⟨x, hx, hs, ht⟩
    obtain ⟨hsource, k, hk⟩ := exists_slots hx
    have hxv : x.2.source = v := (getD_slotOf?_eq_iff hv hsource).mp hs
    refine ⟨x.2.target, ⟨_, Store.mem_links.mpr ⟨x, hx, rfl⟩, hxv, rfl⟩, ?_⟩
    rw [hk, ← ht]
    exact congrArg some (congrArg (·.getD 0) hk).symm
  · rintro ⟨w, ⟨l, hl, rfl, rfl⟩, hj⟩
    obtain ⟨x, hx, rfl⟩ := Store.mem_links.mp hl
    exact ⟨x, hx, congrArg (·.getD 0) hv, congrArg (·.getD 0) hj⟩

/-- Slots lead where their vertices do. -/
theorem leads_register {w : ElementId} {j : Nat} (hv : p.slotOf? v = some i)
    (hw : p.slotOf? w = some j) : p.register.leads i j = true ↔ TransGen p.network.Step v w := by
  have hpool : ∀ {u k}, p.slotOf? u = some k → k ∈ p.register.vertices.items.map (·.1) := by
    intro u k hu
    obtain ⟨e, he, -⟩ := Store.slotOf?_eq_some hu
    exact List.mem_map.mpr ⟨_, he, rfl⟩
  rw [Register.leads_iff]
  constructor
  · intro h
    have hvia : ∀ {k l}, Via p.register.next (p.register.vertices.items.map (·.1)) k l →
        ∀ {u}, p.slotOf? u = some k → ∃ x, p.slotOf? x = some l ∧ TransGen p.network.Step u x := by
      intro k l hkl
      induction hkl with
      | single hs _ =>
        intro u hu
        obtain ⟨x, hux, hx⟩ := (mem_next_register hu).mp hs
        exact ⟨x, hx, .single hux⟩
      | head hs _ _ ih =>
        intro u hu
        obtain ⟨y, huy, hy⟩ := (mem_next_register hu).mp hs
        obtain ⟨x, hx, hyx⟩ := ih hy
        exact ⟨x, hx, .head huy hyx⟩
    obtain ⟨x, hx, hvx⟩ := hvia h hv
    exact Store.eq_of_slotOf? hx hw ▸ hvx
  · intro h
    induction h using TransGen.head_induction_on generalizing i with
    | single h => exact .single ((mem_next_register hv).mpr ⟨w, h, hw⟩) (hpool hw)
    | head h _ ih =>
      obtain ⟨k, hk⟩ := Store.exists_slotOf? (p.coherent.target_mem_of_step h)
      exact .head ((mem_next_register hv).mpr ⟨_, h, hk⟩) (hpool hk) (ih hk)

theorem register_addEdge (p : Plan) (s t : ElementId) (e : Edge) :
    p.register.addEdge s t e = ((p.addEdge s t e).1, (p.addEdge s t e).2.register) := by
  unfold Register.addEdge
  cases hs : p.slotOf? s with
  | none =>
    rw [show p.register.index s = none from hs]
    unfold addEdge
    rw [dif_neg (slotOf?_eq_none_iff.mp hs)]
  | some i =>
    have hsmem : s ∈ p.network.ids := mem_ids_of_slotOf? hs
    rw [show p.register.index s = some i from hs]
    cases ht : p.slotOf? t with
    | none =>
      simp only [show p.register.index t = none from ht]
      unfold addEdge
      rw [dif_pos hsmem, dif_neg (slotOf?_eq_none_iff.mp ht)]
    | some j =>
      have htmem : t ∈ p.network.ids := mem_ids_of_slotOf? ht
      simp only [show p.register.index t = some j from ht]
      have hsame : i = j ↔ s = t := by
        constructor
        · rintro rfl
          exact Store.eq_of_slotOf? hs ht
        · rintro rfl
          exact Option.some.inj (hs.symm.trans ht)
      have hcloses : (i = j ∨ p.register.leads j i = true) ↔
          s = t ∨ TransGen p.network.Step t s := or_congr hsame (leads_register ht hs)
      by_cases h : s = t ∨ TransGen p.network.Step t s
      · rw [if_pos (hcloses.mpr h), addEdge_of_closes hsmem htmem h]
      · obtain ⟨hne, hback⟩ := not_or.mp h
        have hdescendants : s ∉ p.network.descendants t :=
          mt (Network.mem_descendants p.coherent.target_mem).mp hback
        have hstrand : p.strand ⟨s, t, e, p.clock⟩ = ⟨i, j, e, p.clock⟩ := by
          unfold Store.strand
          rw [hs, ht]
          rfl
        have hstrands : (p.wires.insert ⟨s, t, e, p.clock⟩).map p.strand =
            (p.wires.map p.strand).insert ⟨i, j, e, p.clock⟩ := by
          rw [Slots.map_insert, hstrand]
        rw [if_neg (mt hcloses.mp h)]
        unfold addEdge
        rw [dif_pos hsmem, dif_pos htmem, dif_neg hne, dif_neg hdescendants]
        refine congrArg (Prod.mk _) ?_
        show Register.mk _ ((p.wires.map p.strand).insert _) _ _ _ =
          Register.mk _ ((p.wires.insert _).map p.strand) _ _ _
        rw [hstrands]
        rfl

theorem register_connect (p : Plan) (s t : ElementId) :
    p.register.connect s t = ((p.connect s t).1, (p.connect s t).2.register) := by
  unfold Register.connect connect
  rw [element?_register]
  cases p.network.element? s with
  | none => rfl
  | some e => exact register_addEdge ..

theorem value_register (p : Plan) (k : EdgeId) :
    (p.register.strands.get? k).map (·.edge) = (p.network.link? k).map (·.edge) := by
  rw [← Store.link?_eq]
  show ((p.wires.map p.strand).get? k).map _ = ((p.wires.get? k).map _).map _
  rw [Slots.get?_map, Option.map_map, Option.map_map]
  rfl

theorem register_eraseEdge (p : Plan) (k : EdgeId) :
    { p.register with strands := p.register.strands.erase k } = (p.eraseEdge k).register :=
  congrArg (fun strands => { p.register with strands }) (Slots.map_erase p.strand p.wires k).symm

theorem register_removeEdge (p : Plan) (k : EdgeId) :
    p.register.removeEdge k = ((p.removeEdge k).1, (p.removeEdge k).2.register) :=
  Prod.ext (p.value_register k) (p.register_eraseEdge k)

theorem register_modifyEdge (p : Plan) (k : EdgeId) (f : Edge → Edge) :
    p.register.modifyEdge k f = (p.modifyEdge k f).register :=
  congrArg (fun strands => { p.register with strands })
    (Slots.map_modify (f := p.strand) (fun _ => rfl) p.wires k).symm

/-- The lowest number between two slots is the first between their vertices. -/
theorem lowestBetween?_register (p : Plan) (s t : ElementId) :
    ((p.register.index s).bind fun i => (p.register.index t).bind (p.register.lowestBetween? i)) =
      (p.network.between s t).head?.map (·.id) := by
  have hnone : s ∉ p.network.ids ∨ t ∉ p.network.ids → p.network.between s t = [] := by
    refine fun h => List.eq_nil_iff_forall_not_mem.mpr fun l hl => ?_
    obtain ⟨hmem, rfl, rfl⟩ := Network.mem_between.mp hl
    exact h.elim (· (p.coherent.source_mem l hmem)) (· (p.coherent.target_mem l hmem))
  show ((p.slotOf? s).bind fun i => (p.slotOf? t).bind (p.register.lowestBetween? i)) = _
  cases hs : p.slotOf? s with
  | none =>
    rw [hnone (.inl (slotOf?_eq_none_iff.mp hs))]
    rfl
  | some i =>
    cases ht : p.slotOf? t with
    | none =>
      rw [hnone (.inr (slotOf?_eq_none_iff.mp ht))]
      rfl
    | some j =>
      have hfilter : p.register.strands.items.filter (fun x => x.2.source = i ∧ x.2.target = j) =
          (p.wires.items.filter fun x => x.2.source = s && x.2.target = t).map
            fun x => (x.1, p.strand x.2) := by
        show (p.wires.items.map _).filter _ = _
        rw [List.filter_map]
        refine congrArg _ (List.filter_congr fun x hx => ?_)
        obtain ⟨hsource, htarget⟩ := exists_slots hx
        rw [← Bool.decide_and]
        exact decide_eq_decide.mpr
          (and_congr (getD_slotOf?_eq_iff hs hsource) (getD_slotOf?_eq_iff ht htarget))
      have hbetween : (p.network.between s t).map (·.id) =
          (p.wires.items.filter fun x => x.2.source = s && x.2.target = t).map (·.1) := by
        show ((p.wires.items.map fun x => x.2.link x.1).filter _).map _ = _
        rw [List.filter_map, List.map_map]
        rfl
      have hascending : ((p.network.between s t).map (·.id)).Pairwise fun a b => min a b = a :=
        List.pairwise_map.mpr ((p.coherent.links_ascending.filter _).imp fun h =>
          Nat.min_eq_left (Nat.le_of_lt h))
      show p.register.lowestBetween? i j = _
      rw [← List.head?_map, ← List.min?_eq_head? hascending, hbetween]
      unfold Register.lowestBetween?
      rw [hfilter, List.map_map]
      rfl

theorem register_removeEdgeBetween (p : Plan) (s t : ElementId) :
    p.register.removeEdgeBetween s t =
      ((p.removeEdgeBetween s t).1, (p.removeEdgeBetween s t).2.register) := by
  unfold Register.removeEdgeBetween removeEdgeBetween
  rw [lowestBetween?_register]
  cases hl : p.network.between s t with
  | nil => rfl
  | cons l ls =>
    have hmem : l ∈ p.network.links := (Network.mem_between.mp (hl ▸ List.mem_cons_self)).1
    have hlink : p.network.link? l.id = some l :=
      (Network.link?_eq_some_iff p.coherent.links_ascending).mpr ⟨hmem, rfl⟩
    have hvalue : (p.register.removeEdge l.id).1 = some l.edge := by
      rw [register_removeEdge]
      show (p.network.link? l.id).map _ = _
      rw [hlink]
      rfl
    show ((p.register.removeEdge l.id).1.map _, (p.register.removeEdge l.id).2) = _
    rw [hvalue, register_removeEdge]
    rfl

/-! ### Queries -/

theorem exists_get? (h : p.slotOf? v = some i) : ∃ e, p.vertices.get? i = some e ∧ e.id = v := by
  obtain ⟨e, he, rfl⟩ := Store.slotOf?_eq_some h
  exact ⟨e, Slots.get?_eq_some_iff.mpr he, rfl⟩

theorem link?_register (p : Plan) (k : EdgeId) : p.register.link? k = p.link? k := by
  show ((p.wires.map p.strand).get? k).bind _ = (p.wires.get? k).map _
  rw [Slots.get?_map]
  cases hw : p.wires.get? k with
  | none => rfl
  | some w =>
    obtain ⟨⟨i, hi⟩, j, hj⟩ := exists_slots (Slots.get?_eq_some_iff.mp hw)
    obtain ⟨s, hs, (hsid : s.id = w.source)⟩ := exists_get? hi
    obtain ⟨t, ht, (htid : t.id = w.target)⟩ := exists_get? hj
    show (p.vertices.get? ((p.slotOf? w.source).getD 0)).bind (fun s =>
      (p.vertices.get? ((p.slotOf? w.target).getD 0)).map fun t =>
        (⟨k, s.id, t.id, w.edge⟩ : Link)) = some (w.link k)
    rw [hi, hj, Option.getD_some, Option.getD_some, hs, ht]
    show some (⟨k, s.id, t.id, w.edge⟩ : Link) = _
    rw [hsid, htid]
    rfl

theorem linksAt_register {atEnd : Strand → Nat} {atEnd' : Wire → ElementId}
    (hfound : ∀ {v i}, p.slotOf? v = some i → p.register.strandsAt atEnd i =
      Store.youngestFirst (p.wires.items.filter fun x => atEnd' x.2 = v)) (v : ElementId) :
    p.register.linksAt atEnd v = p.linksAt atEnd' v := by
  unfold Register.linksAt Store.linksAt
  cases hv : p.slotOf? v with
  | none => rw [show p.register.index v = none from hv]
  | some i =>
    rw [show p.register.index v = some i from hv]
    show ((p.register.strandsAt atEnd i).mergeSort _).filterMap p.register.link? = _
    rw [hfound hv, funext p.link?_register]

/-- **Every query of the register is answered as the plan answers it.** -/
theorem answers_register (p : Plan) : p.register.answers = p.answers := by
  have hlinks : (p.register.strands.items.filterMap fun x => p.register.link? x.1) =
      p.wires.items.map fun x => x.2.link x.1 := by
    show (p.wires.items.map _).filterMap _ = _
    rw [List.filterMap_map, ← List.filterMap_eq_map]
    refine List.filterMap_congr fun x hx => ?_
    show p.register.link? x.1 = some (x.2.link x.1)
    rw [link?_register]
    show (p.wires.get? x.1).map _ = _
    rw [Slots.get?_eq_some_iff.mpr hx]
    rfl
  refine Answers.ext rfl rfl rfl hlinks (funext p.link?_register)
    (funext (linksAt_register strandsAt_target)) (funext (linksAt_register strandsAt_source)) rfl
    rfl ?_
  exact List.length_map _

end Plan

end Dataflow
