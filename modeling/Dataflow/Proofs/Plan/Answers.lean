import Dataflow.Plan.Answers
import Dataflow.Proofs.Network.Layers
import Dataflow.Proofs.Plan.Edge

/-!
# What a plan answers through layers

* **`Plan.answers_eq`**: a plan answers from its store what is read of its network.
* **`Plan.answers_through_layers`**: a stack of layers over a plan answers like one restriction of
  it, whatever the order of the layers.
-/

namespace Dataflow

namespace Slots

variable {α : Type} {s : Slots α} {i : Nat} {a : α}

theorem get?_eq_some_iff : s.get? i = some a ↔ (i, a) ∈ s.items := by
  unfold get?
  constructor
  · intro h
    obtain ⟨p, hp, rfl⟩ := Option.map_eq_some_iff.mp h
    have hi : p.1 = i := by simpa using List.find?_some hp
    exact hi ▸ List.mem_of_find?_eq_some hp
  · intro h
    obtain ⟨p, hp⟩ : ∃ p, s.items.find? (fun p => p.1 == i) = some p :=
      Option.isSome_iff_exists.mp (List.find?_isSome.mpr ⟨_, h, beq_self_eq_true i⟩)
    have hi : p.1 = i := by simpa using List.find?_some hp
    rw [hp, eq_of_number (List.mem_of_find?_eq_some hp) h hi]
    rfl

end Slots

namespace Store

variable {s : Store} {v : ElementId}

/-- The vertex of an id is the one in its slot. -/
theorem element?_eq (s : Store) (v : ElementId) :
    (s.slotOf? v).bind s.vertices.get? = s.network.element? v := by
  unfold slotOf? Network.element? network
  rw [List.find?_map]
  show (Option.map _ (s.vertices.items.find? fun p => p.2.id = v)).bind _ =
    Option.map _ (s.vertices.items.find? fun p => p.2.id = v)
  cases hp : s.vertices.items.find? fun p => p.2.id = v with
  | none => rfl
  | some p => exact Slots.get?_eq_some_iff.mpr (List.mem_of_find?_eq_some hp)

/-- An id has a slot where it is a vertex. -/
theorem isSome_slotOf? (s : Store) (v : ElementId) :
    (s.slotOf? v).isSome = s.network.contains v := by
  rw [← Network.isSome_element?, ← element?_eq]
  cases h : s.slotOf? v with
  | none => rfl
  | some i =>
    obtain ⟨e, he, -⟩ := slotOf?_eq_some h
    rw [Option.bind_some, Slots.get?_eq_some_iff.mpr he]
    rfl

theorem link?_eq (s : Store) (i : EdgeId) : s.link? i = s.network.link? i := by
  refine Option.ext fun l => ?_
  rw [Network.link?_eq_some_iff s.links_ascending, mem_links]
  unfold link?
  simp only [Option.map_eq_some_iff, Slots.get?_eq_some_iff]
  constructor
  · rintro ⟨w, hw, rfl⟩
    exact ⟨⟨_, hw, rfl⟩, rfl⟩
  · rintro ⟨⟨p, hp, rfl⟩, rfl⟩
    exact ⟨p.2, hp, rfl⟩

/-- Numbers of edges put in ascending order. -/
theorem mergeSort_youngestFirst {ws : List (Nat × Wire)} (h : ws.Pairwise fun a b => a.1 < b.1) :
    ((youngestFirst ws).mergeSort fun i j => i ≤ j) = ws.map (·.1) := by
  have hperm : (youngestFirst ws).Perm (ws.map (·.1)) := (List.mergeSort_perm _ _).map _
  have htrans : ∀ i j k : Nat, decide (i ≤ j) = true → decide (j ≤ k) = true →
      decide (i ≤ k) = true := by
    simp only [decide_eq_true_eq]
    exact fun _ _ _ => Nat.le_trans
  have htotal : ∀ i j : Nat, (decide (i ≤ j) || decide (j ≤ i)) = true := by
    simp only [Bool.or_eq_true, decide_eq_true_eq]
    exact Nat.le_total
  have hsorted : ((youngestFirst ws).mergeSort fun i j => i ≤ j).Pairwise (· ≤ ·) :=
    (List.pairwise_mergeSort htrans htotal _).imp of_decide_eq_true
  have hascending : (ws.map (·.1)).Pairwise (· ≤ ·) :=
    List.pairwise_map.mpr (h.imp Nat.le_of_lt)
  exact ((List.mergeSort_perm _ _).trans hperm).eq_of_pairwise
    (fun _ _ _ _ => Nat.le_antisymm) hsorted hascending

/-- **The edges found at a vertex**, in the order of their numbers, are those read there. -/
theorem linksAt_eq {atEnd : Wire → ElementId} {linkEnd : Link → ElementId}
    (hend : ∀ i w, linkEnd (w.link i) = atEnd w)
    (hmem : ∀ l ∈ s.network.links, linkEnd l ∈ s.network.ids) (v : ElementId) :
    s.linksAt atEnd v = s.network.links.filter fun l => linkEnd l = v := by
  unfold linksAt
  split
  · rename_i hv
    refine (List.filter_eq_nil_iff.mpr fun l hl hlv => slotOf?_eq_none hv ?_).symm
    exact of_decide_eq_true hlv ▸ hmem l hl
  · have hfound := mergeSort_youngestFirst (s.wires.ascending.filter fun p => atEnd p.2 = v)
    have hlink : ∀ p ∈ s.wires.items.filter (fun p => atEnd p.2 = v),
        (s.link? ∘ (·.1)) p = some (p.2.link p.1) := fun p hp => by
      show Option.map _ (s.wires.get? p.1) = _
      rw [Slots.get?_eq_some_iff.mpr (List.mem_filter.mp hp).1]
      rfl
    show ((youngestFirst _).mergeSort _).filterMap s.link? = _
    rw [hfound, List.filterMap_map, List.filterMap_congr hlink, List.filterMap_eq_map']
    show _ = (s.wires.items.map fun p => p.2.link p.1).filter _
    rw [List.filter_map]
    refine congrArg _ (List.filter_congr fun p _ => ?_)
    show decide (atEnd p.2 = v) = decide (linkEnd (p.2.link p.1) = v)
    rw [hend]

/-- **What is answered from the store is what is read of it.** -/
theorem answers_eq (hs : s.network.Coherent) : s.answers = s.network.answers := by
  have hincoming : ∀ v, s.linksAt Wire.target v = s.network.incoming v :=
    linksAt_eq (fun _ _ => rfl) hs.target_mem
  have houtgoing : ∀ v, s.linksAt Wire.source v = s.network.outgoing v :=
    linksAt_eq (fun _ _ => rfl) hs.source_mem
  refine Answers.ext ?ids (funext s.element?_eq) (funext s.isSome_slotOf?) rfl (funext s.link?_eq)
    (funext hincoming) (funext houtgoing) rfl ?vertexCount ?edgeCount
  case ids =>
    show _ = (s.vertices.items.map (·.2)).map (·.id)
    rw [List.map_map]
    rfl
  case vertexCount => exact (List.length_map _).symm
  case edgeCount => exact (List.length_map _).symm

end Store

namespace Plan

theorem answers_eq (p : Plan) : p.answers = p.network.answers := Store.answers_eq p.coherent

/-- **A stack of views is one restriction.** Layers over a plan answer what is read of the network
they show, which is every answer of the plan less what some layer hides; and they can be laid in any
order. -/
theorem answers_through_layers (p : Plan) (layers : List Layer) :
    p.answers.through layers = (p.network.through layers).answers ∧
      p.answers.IsRestriction layers (p.answers.through layers) ∧
      ∀ layers', layers.Perm layers' → p.answers.through layers' = p.answers.through layers := by
  rw [p.answers_eq]
  refine ⟨Network.answers_through p.coherent layers, ?_, fun layers' h => ?_⟩
  · exact Network.isRestriction_through p.coherent layers
  · rw [Network.answers_through p.coherent, Network.answers_through p.coherent,
      Network.through_perm p.coherent h]

theorem answers_through_layers_diamond :
    let few : Layer := .restrict [⟨5⟩, ⟨9⟩, ⟨3⟩, ⟨2⟩, ⟨3⟩] none
    let marked : Layer := .restrict [⟨2⟩, ⟨3⟩, ⟨4⟩, ⟨5⟩] (some [1, 3])
    let shown := diamond.answers.through [few, .mask, marked]
    [few, .mask, marked].Perm [marked, few, .mask] ∧
      diamond.answers.through [marked, few, .mask] = shown ∧
      shown.ids = [⟨2⟩, ⟨3⟩, ⟨5⟩] ∧ shown.vertexCount = 3 ∧ shown.links.map (·.id) = [1] := by
  intro few marked shown
  have hperm : [few, .mask, marked].Perm [marked, few, .mask] :=
    List.perm_append_singleton marked [few, .mask]
  have hsame := (answers_through_layers diamond [few, .mask, marked]).2.2 _ hperm
  exact ⟨hperm, hsame, by decide +kernel, by decide +kernel, by decide +kernel⟩

end Plan

end Dataflow
