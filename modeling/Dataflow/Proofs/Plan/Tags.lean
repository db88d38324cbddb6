import Dataflow.Proofs.Plan.History

/-!
# Tags through edits

The decoration of a plan lies beside its vertices, and a tag on an id that is no vertex would show
on the vertex that takes the id next. No edit leaves such a tag behind, wherever it stops, and none
touches the tags of the vertices that stay.

* **`Plan.stepwise_tagsStay`**: what each step of an edit does to the tags.
* **`Plan.tags_follow_vertices`**: what every call does to them; **`Plan.run_tagsOnVertices`**: what
  any number of calls keep.
-/

namespace Dataflow

namespace Network

variable {n : Network}

/-- The tags that an id carries. -/
def keysFor (n : Network) (v : ElementId) : List Tag := (n.tags.getD ∅).keysFor v

/-- Whatever carries a tag is a vertex. -/
def TagsOnVertices (n : Network) : Prop :=
  ∀ t, ∀ v ∈ (n.tags.getD ∅).valuesFor t, v ∈ n.ids

theorem keysFor_eq_nil_iff {v : ElementId} :
    n.keysFor v = [] ↔ ∀ t, v ∉ (n.tags.getD ∅).valuesFor t := by
  unfold keysFor Tags.keysFor
  rw [List.filter_eq_nil_iff]
  simp only [Tags.carries_iff]
  exact ⟨fun h t => h t (Tag.mem_all t), fun h t _ => h t⟩

theorem tagsOnVertices_iff : n.TagsOnVertices ↔ ∀ v, v ∉ n.ids → n.keysFor v = [] := by
  simp only [keysFor_eq_nil_iff]
  exact ⟨fun h v hv t ht => hv (h t v ht),
    fun h t v ht => Classical.byContradiction fun hv => h v hv t ht⟩

instance : Decidable n.TagsOnVertices :=
  decidable_of_iff (∀ t ∈ Tag.all, ∀ v ∈ ((n.tags.getD ∅).valuesFor t).toList, v ∈ n.ids)
    ⟨fun h t => h t (Tag.mem_all t), fun h t _ => h t⟩

end Network

namespace Plan

/-! ### One step -/

/-- Where tags were on vertices they still are, every vertex was one before, and it carries what it
carried. -/
def TagsStay (p q : Plan) : Prop :=
  p.network.TagsOnVertices → q.network.TagsOnVertices ∧
    ∀ v ∈ q.network.ids, v ∈ p.network.ids ∧ q.network.keysFor v = p.network.keysFor v

variable {p q : Plan} {v : ElementId}

theorem TagsStay.of_eq (hids : q.network.ids = p.network.ids)
    (htags : q.network.tags = p.network.tags) : p.TagsStay q := by
  intro h
  unfold Network.TagsOnVertices Network.keysFor
  rw [hids, htags]
  exact ⟨h, fun v hv => ⟨hv, rfl⟩⟩

theorem keysFor_removeVertex (hv : v ∈ p.network.ids) (w : ElementId) :
    (p.removeVertex v).2.network.keysFor w = if w = v then [] else p.network.keysFor w := by
  have htags : (p.removeVertex v).2.network.tags = p.network.tags.map (·.remove v) := by
    rw [network_removeVertex hv]
    rfl
  unfold Network.keysFor
  rw [htags]
  cases p.network.tags with
  | none => exact (ite_self _).symm
  | some ts => exact Tags.keysFor_remove ts v w

theorem tagsStay_removeVertex (p : Plan) (v : ElementId) : p.TagsStay (p.removeVertex v).2 := by
  by_cases hv : v ∈ p.network.ids
  · intro h
    rw [Network.tagsOnVertices_iff] at h ⊢
    simp only [mem_ids_removeVertex hv, keysFor_removeVertex hv]
    refine ⟨fun w hw => ?_, fun w hw => ⟨hw.1, if_neg hw.2⟩⟩
    by_cases hwv : w = v
    · exact if_pos hwv
    · rw [if_neg hwv]
      exact h w fun hmem => hw ⟨hmem, hwv⟩
  · rw [removeVertex_of_not_mem hv]
    exact .of_eq rfl rfl

/-- An edge that is added, or refused, leaves the vertices and the decoration. -/
theorem elements_tags_addEdge (p : Plan) (s t : ElementId) (e : Edge) :
    (p.addEdge s t e).2.network.elements = p.network.elements ∧
      (p.addEdge s t e).2.network.tags = p.network.tags := by
  rcases addEdge_cases p s t e with ⟨-, hadd⟩ | ⟨-, -, hadd⟩ | ⟨-, -, -, hadd⟩ |
    ⟨-, -, -, i, q, hadd, hgrows⟩ <;> rw [hadd]
  case inr.inr.inr => exact ⟨hgrows.elements, hgrows.tags⟩
  all_goals exact ⟨rfl, rfl⟩

theorem tagsStay_addEdge (p : Plan) (s t : ElementId) (e : Edge) :
    p.TagsStay (p.addEdge s t e).2 := by
  obtain ⟨helements, htags⟩ := p.elements_tags_addEdge s t e
  exact .of_eq (congrArg (List.map Element.id) helements) htags

/-- **No step but the addition of a vertex touches the tags of a vertex that stays**, and none
leaves a tag on what is no vertex. -/
theorem stepwise_tagsStay : Stepwise TagsStay where
  refl _ := .of_eq rfl rfl
  trans h h' hp := by
    obtain ⟨hq, hpq⟩ := h hp
    obtain ⟨hr, hqr⟩ := h' hq
    exact ⟨hr, fun v hv => ⟨(hpq v (hqr v hv).1).1, (hqr v hv).2.trans (hpq v (hqr v hv).1).2⟩⟩
  removeVertex := tagsStay_removeVertex
  addEdge := tagsStay_addEdge
  eraseEdge _ _ := .of_eq rfl rfl
  modifyEdge _ _ _ := .of_eq rfl rfl

/-! ### Every call -/

/-- A vertex that is added leaves the decoration. -/
theorem Seeded.network_tags (h : p.Seeded q) : q.network.tags = p.network.tags := by
  obtain rfl | ⟨e, rfl⟩ := h
  · rfl
  · unfold addVertex
    split <;> rfl

/-- A vertex that is added carries no tag, and the tags of the others stay. -/
theorem Seeded.tags (h : p.Seeded q) (hp : p.network.TagsOnVertices) :
    q.network.TagsOnVertices ∧ ∀ v, q.network.keysFor v = p.network.keysFor v := by
  obtain rfl | ⟨e, rfl⟩ := h
  · exact ⟨hp, fun _ => rfl⟩
  · unfold addVertex
    split
    · exact ⟨hp, fun _ => rfl⟩
    · obtain ⟨he, -, -⟩ := p.toStore.network_insertVertex e
      have hids : ∀ v ∈ p.network.ids, v ∈ (p.toStore.insertVertex e).network.ids := fun v hv =>
        (he.map Element.id).mem_iff.mpr (List.mem_cons_of_mem _ hv)
      exact ⟨fun t v hv => hids v (hp t v hv), fun _ => rfl⟩

/-- A call on the vertices and edges leaves tags on vertices. -/
theorem Call.tagsOnVertices {c : Call} (hc : c.retags = false) (hp : p.network.TagsOnVertices) :
    (c.run p).network.TagsOnVertices := by
  obtain ⟨q, hseeded, hstay⟩ := Call.stepwise stepwise_tagsStay p hc
  exact (hstay (hseeded.tags hp).1).1

/-- **Any number of calls on the vertices and edges leaves tags on vertices.** -/
theorem run_tagsOnVertices (calls : List Call) (hcalls : ∀ c ∈ calls, c.retags = false)
    (hp : p.network.TagsOnVertices) : (run p calls).network.TagsOnVertices :=
  run_keeps (P := fun p => p.network.TagsOnVertices)
    (fun c hc _ => Call.tagsOnVertices (hcalls c hc)) hp

/-- **Tags follow the vertices through every call**, whether it succeeds or fails: whatever carries
a tag afterwards is a vertex, a vertex that stays carries what it carried, and a new one carries
nothing. -/
theorem tags_follow_vertices (p : Plan) (c : Call) (hc : c.retags = false)
    (hp : p.network.TagsOnVertices) :
    (c.run p).network.TagsOnVertices ∧
    (∀ v ∈ p.network.ids, v ∈ (c.run p).network.ids →
      (c.run p).network.keysFor v = p.network.keysFor v) ∧
    ∀ v ∈ (c.run p).network.ids, v ∉ p.network.ids → (c.run p).network.keysFor v = [] := by
  obtain ⟨q, hseeded, hstay⟩ := Call.stepwise stepwise_tagsStay p hc
  obtain ⟨hq, hsame⟩ := hseeded.tags hp
  obtain ⟨-, hkept⟩ := hstay hq
  refine ⟨Call.tagsOnVertices hc hp, fun v _ hv => (hkept v hv).2.trans (hsame v),
    fun v hv hnew => ?_⟩
  rw [(hkept v hv).2, hsame]
  exact Network.tagsOnVertices_iff.mp hp v hnew

/-- The tags are on a plan that was tagged and then edited. -/
theorem tags_follow_vertices_replace :
    let tagged := ((diamond.tag .source ⟨2⟩).2.tag .streamed ⟨3⟩).2
    let p := run tagged [.contract ⟨4⟩ .anyInbound]
    let q := (p.replace ⟨3⟩ (.transform ⟨⟨6⟩, ""⟩)).2
    p.network.TagsOnVertices ∧ q.network.TagsOnVertices ∧
      q.network.ids = [⟨2⟩, ⟨6⟩, ⟨5⟩] ∧ q.network.keysFor ⟨2⟩ = [.source] ∧
      q.network.keysFor ⟨6⟩ = [] := by
  intro tagged p q
  have hp : p.network.TagsOnVertices :=
    run_tagsOnVertices [.contract ⟨4⟩ .anyInbound] (by decide) (by decide +kernel)
  have hids : q.network.ids = [⟨2⟩, ⟨6⟩, ⟨5⟩] := by decide +kernel
  obtain ⟨hq, hkept, hnew⟩ :=
    tags_follow_vertices p (.replace ⟨3⟩ (.transform ⟨⟨6⟩, ""⟩)) rfl hp
  refine ⟨hp, hq, hids, ?_, ?_⟩
  · rw [show q.network.keysFor ⟨2⟩ = p.network.keysFor ⟨2⟩ from
      hkept ⟨2⟩ (by decide +kernel) (by decide +kernel)]
    decide +kernel
  · exact hnew ⟨6⟩ (by decide +kernel) (by decide +kernel)

end Plan

end Dataflow
