import Dataflow.Document
import Dataflow.Network.Equality
import Dataflow.Proofs.Plan.Tags

/-!
# Equality of decorated networks

Whether a network has tags is asked of what its vertices carry, and whether two decorations are
equal of their entries. An entry without vertices tells the two questions apart: it does not count
as long as no vertex carries a tag, and does as soon as one does. Tagging makes no such entry and
untagging drops it, so only a decoration that is set as a whole can have one.

* **`Network.equals_iff`**: what equality comes to for any two networks.
* **`Plan.run_tagsTight`**: calls that set no such decoration never make one.
* **`Plan.equals_iff_sameTags`**: without them, equality compares the tags of the vertices and
  nothing else.
* **`Plan.entry_without_vertices_counts`**: with one, networks of the same tags differ.
-/

namespace Dataflow

/-! ### Entries without vertices -/

namespace Tags

variable {ts us : Tags} {t u : Tag} {v : ElementId}

/-- There is an entry for the tag, with vertices or without. -/
def lists (ts : Tags) (t : Tag) : Bool := (ts.get? t).isSome

/-- Every entry has a vertex. -/
def Tight (ts : Tags) : Prop := ∀ t, ts.lists t = true → (ts.valuesFor t).isEmpty = false

instance : Decidable ts.Tight :=
  decidable_of_iff (∀ t ∈ Tag.all, ts.lists t = true → (ts.valuesFor t).isEmpty = false)
    ⟨fun h t => h t (Tag.mem_all t), fun h t _ => h t⟩

theorem get?_eq (ts : Tags) (t : Tag) :
    ts.get? t = if ts.lists t then some (ts.valuesFor t) else none := by
  unfold lists valuesFor
  cases ts.get? t <;> rfl

/-- A decoration is known by its entries and their vertices. -/
theorem eq_iff :
    ts = us ↔ (∀ t, ts.valuesFor t = us.valuesFor t) ∧ ∀ t, ts.lists t = us.lists t := by
  constructor
  · rintro rfl
    exact ⟨fun _ => rfl, fun _ => rfl⟩
  · rintro ⟨hvalues, hlists⟩
    have hget : ∀ t, ts.get? t = us.get? t := fun t => by
      rw [get?_eq, get?_eq, hvalues, hlists]
    obtain ⟨streamed, accumulated, source, sink⟩ := ts
    obtain ⟨streamed', accumulated', source', sink'⟩ := us
    obtain rfl : streamed = streamed' := hget .streamed
    obtain rfl : accumulated = accumulated' := hget .accumulated
    obtain rfl : source = source' := hget .source
    obtain rfl : sink = sink' := hget .sink
    rfl

theorem lists_of_isEmpty_eq_false (h : (ts.valuesFor t).isEmpty = false) : ts.lists t = true := by
  unfold valuesFor at h
  unfold lists
  cases hentry : ts.get? t with
  | none =>
    rw [hentry] at h
    cases h
  | some s => rfl

/-- Where every entry has a vertex, the entries are those of the tags that are carried. -/
theorem Tight.lists_eq (h : ts.Tight) (t : Tag) : ts.lists t = !(ts.valuesFor t).isEmpty := by
  rw [Bool.eq_iff_iff, Bool.not_eq_true']
  exact ⟨h t, lists_of_isEmpty_eq_false⟩

theorem tight_empty : Tight ∅ := by decide

/-- Tagging keeps every entry with a vertex. -/
theorem Tight.add (h : ts.Tight) (t : Tag) (v : ElementId) : (ts.add t v).Tight := by
  intro u hu
  rw [← Bool.not_eq_true, SortedSet.isEmpty_iff]
  intro hnone
  by_cases hut : u = t
  · exact hnone v (mem_valuesFor_add.mpr (.inl ⟨hut, rfl⟩))
  · have hlists : ts.lists u = true := by
      unfold lists Tags.add at hu
      rwa [get?_setEntry, if_neg hut] at hu
    refine Bool.false_ne_true ((h u hlists).symm.trans (SortedSet.isEmpty_iff.mpr fun w hw => ?_))
    exact hnone w (mem_valuesFor_add.mpr (.inr hw))

/-- **Untagging leaves no entry without a vertex.** -/
theorem tight_remove (ts : Tags) (v : ElementId) : (ts.remove v).Tight := by
  intro t ht
  unfold lists at ht
  obtain ⟨s, hs⟩ := Option.isSome_iff_exists.mp ht
  unfold valuesFor
  rw [hs]
  unfold remove at hs
  rw [get?_mapEntries, Option.filter_eq_some_iff, Bool.not_eq_true'] at hs
  exact hs.2

end Tags

/-! ### Decorated networks -/

namespace Network

variable {a b n : Network}

/-- The vertices that carry a tag: none without a decoration. -/
def valuesFor (n : Network) (t : Tag) : SortedSet ElementId := (n.tags.getD ∅).valuesFor t

/-- The decoration has an entry for the tag. -/
def lists (n : Network) (t : Tag) : Bool := (n.tags.getD ∅).lists t

/-- Every tag is carried by the same ids. -/
def SameTags (a b : Network) : Prop := ∀ t, a.valuesFor t = b.valuesFor t

/-- The decoration, if there is one, has no entry without a vertex. -/
def TagsTight (n : Network) : Prop := (n.tags.getD ∅).Tight

instance : Decidable n.TagsTight := inferInstanceAs (Decidable (Tags.Tight _))

instance : Decidable (a.SameTags b) :=
  decidable_of_iff (∀ t ∈ Tag.all, a.valuesFor t = b.valuesFor t)
    ⟨fun h t => h t (Tag.mem_all t), fun h t _ => h t⟩

theorem hasTags_eq (n : Network) : n.hasTags = !(n.tags.getD ∅).isEmpty := by
  unfold hasTags
  cases n.tags <;> rfl

theorem SameTags.hasTags_eq (h : a.SameTags b) : a.hasTags = b.hasTags := by
  rw [a.hasTags_eq, b.hasTags_eq]
  unfold Tags.isEmpty
  simp only [show ∀ t, (a.tags.getD ∅).valuesFor t = (b.tags.getD ∅).valuesFor t from h]

theorem valuesFor_of_hasTags_eq_false (h : n.hasTags = false) (t : Tag) : n.valuesFor t = ∅ := by
  rw [n.hasTags_eq, Bool.not_eq_false', Tags.isEmpty, List.all_eq_true] at h
  refine SortedSet.ext fun v => iff_of_false ?_ SortedSet.not_mem_empty
  exact SortedSet.isEmpty_iff.mp (h t (Tag.mem_all t)) v

theorem exists_tags (h : n.hasTags = true) : ∃ ts, n.tags = some ts := by
  refine Option.ne_none_iff_exists'.mp fun hnone => ?_
  rw [hasTags, hnone] at h
  cases h

/-- Decorations with tags are equal if they have the same entries with the same vertices. -/
theorem tags_eq_iff (ha : a.hasTags = true) (hb : b.hasTags = true) :
    a.tags = b.tags ↔ a.SameTags b ∧ ∀ t, a.lists t = b.lists t := by
  obtain ⟨ts, hts⟩ := exists_tags ha
  obtain ⟨us, hus⟩ := exists_tags hb
  unfold SameTags valuesFor lists
  rw [hts, hus, Option.some.injEq, Tags.eq_iff]
  rfl

/-- **Two networks are equal if they are so without their tags and carry the same**, and their
decorations have the same entries unless no vertex carries a tag. -/
theorem equals_iff : a.equals b = true ↔ a.equalsIgnoringTags b = true ∧ a.SameTags b ∧
    (a.hasTags = true → ∀ t, a.lists t = b.lists t) := by
  unfold equals
  rw [Bool.and_eq_true]
  refine and_congr_right fun _ => ?_
  constructor
  · intro h
    cases ha : a.hasTags <;> cases hb : b.hasTags <;> rw [ha, hb] at h
    case false.false =>
      refine ⟨fun t => ?_, nofun⟩
      rw [valuesFor_of_hasTags_eq_false ha, valuesFor_of_hasTags_eq_false hb]
    case true.true =>
      obtain ⟨hsame, hlists⟩ := (tags_eq_iff ha hb).mp (of_decide_eq_true h)
      exact ⟨hsame, fun _ => hlists⟩
    all_goals cases h
  · rintro ⟨hsame, hlists⟩
    have hhas := hsame.hasTags_eq
    cases ha : a.hasTags <;> rw [ha] at hhas <;> rw [← hhas]
    exact decide_eq_true ((tags_eq_iff ha hhas.symm).mpr ⟨hsame, hlists ha⟩)

/-- **Where every entry has a vertex, equality compares the tags and nothing else.** -/
theorem equals_iff_of_tight (ha : a.TagsTight) (hb : b.TagsTight) :
    a.equals b = true ↔ a.equalsIgnoringTags b = true ∧ a.SameTags b := by
  rw [equals_iff]
  refine and_congr_right fun _ => and_iff_left_of_imp fun hsame _ t => ?_
  unfold lists
  rw [Tags.Tight.lists_eq ha, Tags.Tight.lists_eq hb]
  exact congrArg (!·.isEmpty) (hsame t)

end Network

/-! ### Decorated plans -/

namespace Plan

variable {p q : Plan}

theorem tags_removeVertex (p : Plan) (v : ElementId) :
    (p.removeVertex v).2.network.tags = p.network.tags ∨
      (p.removeVertex v).2.network.tags = p.network.tags.map (·.remove v) := by
  by_cases hv : v ∈ p.network.ids
  · rw [network_removeVertex hv]
    exact .inr rfl
  · rw [removeVertex_of_not_mem hv]
    exact .inl rfl

/-- **No step of an edit makes an entry without a vertex.** -/
theorem stepwise_tagsTight : Stepwise fun p q => p.network.TagsTight → q.network.TagsTight where
  refl _ := id
  trans h h' := h' ∘ h
  removeVertex p v hp := by
    unfold Network.TagsTight at hp ⊢
    rcases tags_removeVertex p v with htags | htags <;> rw [htags]
    · exact hp
    · cases p.network.tags with
      | none => exact Tags.tight_empty
      | some ts => exact ts.tight_remove v
  addEdge p s t e hp := by
    unfold Network.TagsTight
    rw [(p.elements_tags_addEdge s t e).2]
    exact hp
  eraseEdge _ _ := id
  modifyEdge _ _ _ := id

/-- A decoration that the call sets as a whole has no entry without a vertex. -/
def Call.SetsTight (c : Call) : Prop := ∀ ts, c = .setTags (some ts) → ts.Tight

/-- One call makes no entry without a vertex, unless it sets one. -/
theorem Call.tagsTight {c : Call} (hc : c.SetsTight) (hp : p.network.TagsTight) :
    (c.run p).network.TagsTight := by
  cases hretags : c.retags with
  | false =>
    obtain ⟨q, hseeded, hstep⟩ := Call.stepwise stepwise_tagsTight p hretags
    refine hstep ?_
    unfold Network.TagsTight
    rw [hseeded.network_tags]
    exact hp
  | true =>
    cases c with
    | setTags ts =>
      cases ts with
      | none => exact Tags.tight_empty
      | some ts => exact hc ts rfl
    | tag t v => exact Tags.Tight.add hp t v
    | untag v => exact Tags.tight_remove _ v
    | decorated => exact hp
    | _ => exact nomatch hretags

/-- **Calls make no entry without a vertex, unless one of them sets one.** -/
theorem run_tagsTight {calls : List Call} (hcalls : ∀ c ∈ calls, c.SetsTight)
    (hp : p.network.TagsTight) : (run p calls).network.TagsTight :=
  run_keeps (P := fun p => p.network.TagsTight) (fun c hc _ => Call.tagsTight (hcalls c hc)) hp

/-- **When equality compares the tags of the vertices and nothing else.** Between any two plans it
also asks for the same entries where vertices carry tags. That adds nothing as long as no decoration
is set that has an entry without a vertex, whatever else is tagged and untagged. -/
theorem equals_iff_sameTags (bounded bounded' : Bool) (calls calls' : List Call) :
    let a := (run (if bounded then withExtents else empty) calls).network
    let b := (run (if bounded' then withExtents else empty) calls').network
    (a.equals b = true ↔ a.equalsIgnoringTags b = true ∧ a.SameTags b ∧
      (a.hasTags = true → ∀ t, a.lists t = b.lists t)) ∧
    ((∀ c ∈ calls ++ calls', c.SetsTight) →
      (a.equals b = true ↔ a.equalsIgnoringTags b = true ∧ a.SameTags b)) := by
  intro a b
  refine ⟨Network.equals_iff, fun hcalls => ?_⟩
  obtain ⟨hleft, hright⟩ := List.forall_mem_append.mp hcalls
  have hstart : ∀ bounded : Bool, (if bounded then withExtents else empty).network.TagsTight := by
    decide +kernel
  exact Network.equals_iff_of_tight (run_tagsTight hleft (hstart bounded))
    (run_tagsTight hright (hstart bounded'))

/-- One decoration is tagged and untagged, the other is set. -/
theorem equals_iff_sameTags_lone :
    let place := Call.addVertex (.transform ⟨⟨2⟩, ""⟩)
    let a := (run empty [place, .tag .streamed ⟨2⟩, .tag .sink ⟨3⟩, .untag ⟨3⟩]).network
    let b := (run empty [place, .setTags (some (Tags.empty.add .streamed ⟨2⟩))]).network
    a.SameTags b ∧ a.equals b = true := by
  intro place a b
  have hsame : a.SameTags b := by decide +kernel
  obtain ⟨-, htight⟩ := equals_iff_sameTags false false
    [place, .tag .streamed ⟨2⟩, .tag .sink ⟨3⟩, .untag ⟨3⟩]
    [place, .setTags (some (Tags.empty.add .streamed ⟨2⟩))]
  refine ⟨hsame, (htight fun c hc ts hset => ?tight).mpr ⟨by decide +kernel, hsame⟩⟩
  case tight =>
    subst hset
    obtain rfl : ts = Tags.empty.add .streamed ⟨2⟩ := by simpa [place] using hc
    exact Tags.tight_empty.add .streamed ⟨2⟩

/-- One vertex, and nothing else. -/
def lone : Plan := empty.sketch [⟨2⟩] []

/-- A document of a decoration that tags one vertex and has an entry without vertices. -/
def looseDocument : Json :=
  .object [(some "keys", .object
    [(some "streamed", .array [ElementId.toJson ⟨2⟩]), (some "sink", .array [])])]

/-- Alone the entry without vertices does not count. -/
example :
    (lone.setTags (some (Tags.empty.setEntry .sink (some ∅)))).network.equals lone.network := by
  decide +kernel

/-- **An entry without vertices counts where some vertex carries a tag**: a decoration that is read
with one differs from one with the same tags. -/
theorem entry_without_vertices_counts :
    ∃ ts, Tags.ofJson? looseDocument = some ts ∧
      let a := (run lone [.setTags (some ts)]).network
      let b := (run lone [.tag .streamed ⟨2⟩]).network
      a.equalsIgnoringTags b = true ∧ a.SameTags b ∧ a.equals b = false := by
  refine ⟨(Tags.empty.add .streamed ⟨2⟩).setEntry .sink (some ∅), ?_, ?_, ?_, ?_⟩
  all_goals decide +kernel

end Plan

end Dataflow
