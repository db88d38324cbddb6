import Dataflow.Network.Answers
import Dataflow.Proofs.Network.Reach
import Dataflow.Proofs.Path.Enumeration

/-!
# Layers are one restriction

A mask shows a part of a network, and so does a restriction: the vertices that one test admits and
the edges that another does (`Network.part`). A part of a part is a part, so a stack of layers shows
one too.

* **`Network.answers_through`**: what layers answer, each asking the one below, is what is read of
  the network they show.
* **`Network.through_eq_part`, `Network.through_perm`**: that network is the part which every layer
  shows, and the order of the layers does not matter.
* **`Network.isRestriction_through`**: every answer, in terms of the vertices and edges that show.
-/

namespace Dataflow

/-- The answers less the vertices and the edges that two tests do not admit. -/
def Answers.part (a : Answers) (vertex : ElementId → Bool) (link : Link → Bool)
    (tags : Option Tags) : Answers where
  ids := a.ids.filter vertex
  element? v := if vertex v then a.element? v else none
  contains v := vertex v && a.contains v
  links := a.links.filter link
  link? i := (a.link? i).filter link
  incoming v := (a.incoming v).filter link
  outgoing v := (a.outgoing v).filter link
  tags := tags

namespace Network

variable {n : Network}

/-! ### Parts of a network -/

section Part

variable {vertex : ElementId → Bool} {link : Link → Bool} {tags : Option Tags}

/-- The vertices and the edges that two tests admit. -/
def part (n : Network) (vertex : ElementId → Bool) (link : Link → Bool) (tags : Option Tags) :
    Network where
  elements := n.elements.filter fun e => vertex e.id
  links := n.links.filter link
  tags := tags

theorem part_part (n : Network) (vertex vertex' : ElementId → Bool) (link link' : Link → Bool)
    (tags tags' : Option Tags) : (n.part vertex link tags).part vertex' link' tags' =
      n.part (fun v => vertex v && vertex' v) (fun l => link l && link' l) tags' := by
  unfold part
  simp only [List.filter_filter, Bool.and_comm]

theorem ids_part : (n.part vertex link tags).ids = n.ids.filter vertex := by
  unfold ids part
  rw [List.filter_map]
  rfl

theorem element?_part (v : ElementId) :
    (n.part vertex link tags).element? v = if vertex v then n.element? v else none := by
  unfold element? part
  rw [List.find?_filter]
  split
  · rename_i hv
    congr 1
    funext e
    by_cases he : e.id = v <;> simp [he, hv]
  · rename_i hv
    refine List.find?_eq_none.mpr fun e _ he => hv ?_
    simp only [decide_eq_true_eq] at he
    exact he.2 ▸ he.1

theorem contains_part (v : ElementId) :
    (n.part vertex link tags).contains v = (vertex v && n.contains v) := by
  unfold contains
  rw [ids_part, Bool.eq_iff_iff, Bool.and_eq_true, List.contains_iff_mem, List.contains_iff_mem,
    List.mem_filter, and_comm]

/-- Tests that agree on the vertices and edges of a network show the same part of it. -/
theorem part_congr {vertex' : ElementId → Bool} {link' : Link → Bool}
    (hvertex : ∀ v ∈ n.ids, vertex v = vertex' v) (hlink : ∀ l ∈ n.links, link l = link' l)
    (tags : Option Tags) : n.part vertex link tags = n.part vertex' link' tags := by
  have helements : n.elements.filter (fun e => vertex e.id) =
      n.elements.filter fun e => vertex' e.id :=
    List.filter_congr fun e he => hvertex e.id (mem_ids.mpr ⟨e, he, rfl⟩)
  unfold part
  rw [helements, List.filter_congr hlink]

/-- The vertices and edges of a part tell which part it is. -/
theorem part_eq (n : Network) (vertex : ElementId → Bool) (link : Link → Bool)
    (tags : Option Tags) : n.part vertex link tags =
      n.part (n.part vertex link tags).contains (· ∈ (n.part vertex link tags).links) tags := by
  refine part_congr (fun v hv => ?_) (fun l hl => ?_) tags
  · rw [contains_part, contains_iff.mpr hv, Bool.and_true]
  · rw [Bool.eq_iff_iff, decide_eq_true_eq]
    exact ⟨fun h => List.mem_filter.mpr ⟨hl, h⟩, fun h => (List.mem_filter.mp h).2⟩

/-- Where edges are listed by ascending number, the edge of a number is the one that has it. -/
theorem link?_eq_some_iff (h : n.links.Pairwise fun k l => k.id < l.id) {i : EdgeId} {l : Link} :
    n.link? i = some l ↔ l ∈ n.links ∧ l.id = i := by
  constructor
  · exact fun hl => ⟨List.mem_of_find?_eq_some hl, by simpa using List.find?_some hl⟩
  · rintro ⟨hl, rfl⟩
    obtain ⟨k, hk⟩ : ∃ k, n.link? l.id = some k :=
      Option.isSome_iff_exists.mp (List.find?_isSome.mpr ⟨l, hl, decide_eq_true rfl⟩)
    have hid : k.id = l.id := by simpa using List.find?_some hk
    have hnodup : (n.links.map (·.id)).Nodup := List.pairwise_map.mpr (h.imp Nat.ne_of_lt)
    rw [hk, List.inj_on_of_nodup_map hnodup (List.mem_of_find?_eq_some hk) hl hid]

theorem link?_part (hn : n.Coherent) (i : EdgeId) :
    (n.part vertex link tags).link? i = (n.link? i).filter link := by
  refine Option.ext fun l => ?_
  rw [link?_eq_some_iff (hn.links_ascending.filter link), Option.filter_eq_some_iff,
    link?_eq_some_iff hn.links_ascending]
  unfold part
  rw [List.mem_filter, and_right_comm]

/-- **What is read of a part of a network** is what is read of the network, less what is left
out. -/
theorem answers_part (hn : n.Coherent) :
    (n.part vertex link tags).answers = n.answers.part vertex link tags := by
  have hcount : (n.part vertex link tags).vertexCount = (n.ids.filter vertex).length := by
    rw [← ids_part, ids, List.length_map]
    rfl
  refine Answers.ext ids_part (funext element?_part) (funext contains_part) rfl
    (funext (link?_part hn)) (funext fun v => ?_) (funext fun v => ?_) rfl hcount rfl
  · exact List.filter_comm ..
  · exact List.filter_comm ..

/-- Tests that agree on the vertices and edges of a network leave the same of its answers. -/
theorem answers_part_congr (hn : n.Coherent) {vertex' : ElementId → Bool} {link' : Link → Bool}
    (hvertex : ∀ v ∈ n.ids, vertex v = vertex' v) (hlink : ∀ l ∈ n.links, link l = link' l)
    (tags : Option Tags) : n.answers.part vertex link tags = n.answers.part vertex' link' tags := by
  rw [← answers_part hn, part_congr hvertex hlink, answers_part hn]

theorem answers_part_eq (hn : n.Coherent) :
    let r := (n.part vertex link tags).answers
    r = n.answers.part r.contains (· ∈ r.links) r.tags :=
  (congrArg answers (n.part_eq vertex link tags)).trans (answers_part hn)

end Part

end Network

/-! ### One layer -/

namespace Layer

/-- The layer does not hide the vertex. -/
def shows : Layer → ElementId → Bool
  | mask, v => !v.isSentinel
  | restrict vs _, v => vs.contains v

/-- The layer does not leave out the number. -/
def lists : Layer → EdgeId → Bool
  | mask, _ => true
  | restrict _ es, i => es.all (·.contains i)

/-- The layer hides neither the edge nor one of its ends. -/
def admits (layer : Layer) (l : Link) : Bool :=
  layer.shows l.source && layer.shows l.target && layer.lists l.id

theorem shows_of_admits {layer : Layer} {l : Link} (h : layer.admits l = true) :
    layer.shows l.source = true ∧ layer.shows l.target = true :=
  Bool.and_eq_true_iff.mp (Bool.and_eq_true_iff.mp h).1

/-- The decoration as it shows through the layer. -/
def tags : Layer → Option Tags → Option Tags
  | mask, ts => ts
  | restrict _ _, _ => none

variable {n : Network}

theorem admits_mask : mask.admits = fun l => !l.touchesSentinel := by
  funext l
  unfold Link.touchesSentinel admits shows lists
  rw [Bool.not_or, Bool.and_true]

/-- A layer shows a part of a network. -/
theorem view_eq_part (hn : n.Coherent) (layer : Layer) :
    layer.view n = n.part layer.shows layer.admits (layer.tags n.tags) := by
  cases layer with
  | mask =>
    unfold Network.part
    rw [admits_mask]
    rfl
  | restrict vs es =>
    have hlinks : (n.restrict vs es).links = n.links.filter (restrict vs es).admits := by
      refine List.filter_congr fun l hl => ?_
      have hs : n.contains l.source = true := Network.contains_iff.mpr (hn.source_mem l hl)
      have ht : n.contains l.target = true := Network.contains_iff.mpr (hn.target_mem l hl)
      rw [hs, ht, Bool.and_true, Bool.and_true]
      rfl
    unfold Network.part
    rw [← hlinks]
    rfl

/-- Asking only where something can show comes to the same. -/
theorem ite_filter_eq {c : Prop} [Decidable c] {ls : List Link} {test : Link → Bool}
    (h : ∀ l ∈ ls, test l = true → c) : (if c then ls.filter test else []) = ls.filter test := by
  split
  · rfl
  · rename_i hc
    exact (List.filter_eq_nil_iff.mpr fun l hl htest => hc (h l hl htest)).symm

/-- A mask answers what is asked of a hidden vertex without asking what is below. -/
theorem answers_mask (n : Network) :
    n.answers.mask = n.answers.part mask.shows mask.admits n.tags := by
  have hguard : ∀ v (ls : List Link), (∀ l ∈ ls, mask.admits l = true → mask.shows v = true) →
      (if v.isSentinel then [] else ls.filter mask.admits) = ls.filter mask.admits := by
    intro v ls hls
    rw [← ite_not]
    exact ite_filter_eq fun l hl h => by simpa [shows] using hls l hl h
  have helement : ∀ v, (if v.isSentinel then none else n.element? v) =
      if mask.shows v then n.element? v else none := fun v => by
    cases hv : v.isSentinel <;> simp [shows, hv]
  unfold Answers.mask
  rw [← admits_mask]
  refine Answers.ext rfl (funext helement) rfl rfl rfl (funext fun v => ?_) (funext fun v => ?_) rfl
    rfl rfl
  · exact hguard v _ fun l hl h => (Network.mem_incoming.mp hl).2 ▸ (shows_of_admits h).2
  · exact hguard v _ fun l hl h => (Network.mem_outgoing.mp hl).2 ▸ (shows_of_admits h).1

/-! ### Restrictions -/

section Restrict

variable {vs : List ElementId} {es : Option (List EdgeId)} {v : ElementId}

theorem mem_kept : v ∈ n.answers.kept vs ↔ v ∈ n.ids ∧ v ∈ vs := by
  rw [Answers.kept, List.mem_eraseDups, List.mem_filter, and_comm]
  exact and_congr_left fun _ => Network.contains_iff

/-- A vertex is kept where the restriction does not hide it. -/
theorem contains_kept (vs : List ElementId) (es : Option (List EdgeId)) (hv : v ∈ n.ids) :
    (n.answers.kept vs).contains v = (restrict vs es).shows v := by
  rw [Bool.eq_iff_iff, List.contains_iff_mem, mem_kept, and_iff_right hv]
  exact List.contains_iff_mem.symm

/-- The ids a restriction keeps are counted like the vertices it shows. -/
theorem length_kept (hn : n.Coherent) :
    (n.answers.kept vs).length = (n.ids.filter (n.answers.kept vs).contains).length := by
  have hkept : (n.answers.kept vs).Nodup := nodup_eraseDups _
  have hshown : (n.ids.filter (n.answers.kept vs).contains).Nodup := hn.ids_nodup.filter _
  refine List.Perm.length_eq ((List.perm_ext_iff_of_nodup hkept hshown).mpr fun v => ?_)
  rw [List.mem_filter, List.contains_iff_mem, mem_kept, ← and_assoc, and_self]

/-- A restriction answers by the ids that it kept. -/
theorem answers_restrict_kept (hn : n.Coherent) (vs : List ElementId) (es : Option (List EdgeId)) :
    n.answers.restrict vs es =
      n.answers.part (n.answers.kept vs).contains (n.answers.admits vs es) none := by
  have hends : ∀ {l}, n.answers.admits vs es l = true →
      (n.answers.kept vs).contains l.source = true ∧ (n.answers.kept vs).contains l.target = true :=
    fun h => Bool.and_eq_true_iff.mp (Bool.and_eq_true_iff.mp h).1
  refine Answers.ext rfl rfl (funext fun v => ?_) rfl rfl (funext fun v => ?_) (funext fun v => ?_)
    rfl (length_kept hn) rfl
  · show (n.answers.kept vs).contains v = ((n.answers.kept vs).contains v && n.contains v)
    rw [Bool.eq_iff_iff, Bool.and_eq_true, List.contains_iff_mem, mem_kept, Network.contains_iff,
      and_iff_left_of_imp And.left]
  · exact ite_filter_eq fun l hl h => (Network.mem_incoming.mp hl).2 ▸ (hends h).2
  · exact ite_filter_eq fun l hl h => (Network.mem_outgoing.mp hl).2 ▸ (hends h).1

/-- A restriction answers like the part of the network that it was asked for. -/
theorem answers_restrict (hn : n.Coherent) (vs : List ElementId) (es : Option (List EdgeId)) :
    n.answers.restrict vs es =
      n.answers.part (restrict vs es).shows (restrict vs es).admits none := by
  refine (answers_restrict_kept hn vs es).trans (Network.answers_part_congr hn
    (fun v hv => contains_kept vs es hv) (fun l hl => ?_) none)
  unfold Answers.admits
  rw [contains_kept vs es (hn.source_mem l hl), contains_kept vs es (hn.target_mem l hl)]
  rfl

end Restrict

/-- **What a layer answers** is what is read of the network it shows. -/
theorem answers_eq_view (hn : n.Coherent) (layer : Layer) :
    layer.answers n.answers = (layer.view n).answers := by
  rw [view_eq_part hn, Network.answers_part hn]
  cases layer with
  | mask => exact answers_mask n
  | restrict vs es => exact answers_restrict hn vs es

end Layer

/-! ### A stack of layers -/

/-- The answers of a graph restricted to what shows through layers: the vertices that no layer
hides, and the edges between them that no layer leaves out. -/
structure Answers.IsRestriction (b : Answers) (layers : List Layer) (r : Answers) : Prop where
  contains_iff : ∀ v, r.contains v = true ↔ b.contains v = true ∧
    (∀ vs es, .restrict vs es ∈ layers → v ∈ vs) ∧ (.mask ∈ layers → v.isSentinel = false)
  mem_links_iff : ∀ l, l ∈ r.links ↔ l ∈ b.links ∧
    r.contains l.source = true ∧ r.contains l.target = true ∧
    ∀ vs is, .restrict vs (some is) ∈ layers → l.id ∈ is
  /-- Every answer is the one of the graph, less what does not show. -/
  eq_part : r = b.part r.contains (· ∈ r.links) r.tags
  elements_eq : r.elements = b.elements.filter fun e => r.contains e.id
  isSome_element? : ∀ v, (r.element? v).isSome = r.contains v
  isSome_link?_iff : ∀ i, (r.link? i).isSome = true ↔ ∃ l ∈ r.links, l.id = i
  incoming_ascending : ∀ v, (r.incoming v).Pairwise fun k l => k.id < l.id
  outgoing_ascending : ∀ v, (r.outgoing v).Pairwise fun k l => k.id < l.id
  tags_of_masks : (∀ layer ∈ layers, layer = .mask) → r.tags = b.tags
  tags_of_restrict : ∀ vs es, .restrict vs es ∈ layers → r.tags = none

namespace Layer

/-- What no layer of a stack hides. -/
theorem all_shows_iff {layers : List Layer} {v : ElementId} :
    layers.all (·.shows v) = true ↔
      (∀ vs es, .restrict vs es ∈ layers → v ∈ vs) ∧ (.mask ∈ layers → v.isSentinel = false) := by
  rw [List.all_eq_true]
  constructor
  · intro h
    exact ⟨fun vs es hmem => List.contains_iff_mem.mp (h _ hmem),
      fun hmem => (Bool.not_eq_true' _).mp (h _ hmem)⟩
  · rintro ⟨hrestrict, hmask⟩ (_ | ⟨vs, es⟩) hmem
    · simp [shows, hmask hmem]
    · exact List.contains_iff_mem.mpr (hrestrict vs es hmem)

/-- An edge shows through a stack where its ends do, if no layer leaves it out. -/
theorem all_admits_iff {layers : List Layer} {l : Link} :
    layers.all (·.admits l) = true ↔
      layers.all (·.shows l.source) = true ∧ layers.all (·.shows l.target) = true ∧
        ∀ vs is, .restrict vs (some is) ∈ layers → l.id ∈ is := by
  have hlists : layers.all (·.lists l.id) = true ↔
      ∀ vs is, .restrict vs (some is) ∈ layers → l.id ∈ is := by
    rw [List.all_eq_true]
    constructor
    · exact fun h vs is hmem => List.contains_iff_mem.mp (h _ hmem)
    · rintro h (_ | ⟨vs, _ | is⟩) hmem
      · rfl
      · rfl
      · exact List.contains_iff_mem.mpr (h vs is hmem)
  rw [← hlists]
  simp only [List.all_eq_true, admits, Bool.and_eq_true, imp_and, forall_and, and_assoc]

/-- The decoration shows through masks and through nothing else. -/
theorem foldl_tags (layers : List Layer) (ts : Option Tags) :
    layers.foldl (fun ts layer => layer.tags ts) ts =
      if layers.all (· matches .mask) then ts else none := by
  induction layers generalizing ts with
  | nil => rfl
  | cons layer layers ih =>
    rw [List.foldl_cons, ih]
    cases layer with
    | mask => rfl
    | restrict vs es => exact ite_self none

end Layer

namespace Network

variable {n : Network}

/-- **What a stack of layers answers** is what is read of the network it shows. -/
theorem answers_through (hn : n.Coherent) (layers : List Layer) :
    n.answers.through layers = (n.through layers).answers := by
  induction layers generalizing n with
  | nil => rfl
  | cons layer layers ih =>
    show (layer.answers n.answers).through layers = _
    rw [layer.answers_eq_view hn]
    exact ih (hn.view layer)

/-- **A stack of layers shows a part of a network**: what every layer shows. -/
theorem through_eq_part (hn : n.Coherent) (layers : List Layer) :
    n.through layers = n.part (fun v => layers.all (·.shows v)) (fun l => layers.all (·.admits l))
      (if layers.all (· matches .mask) then n.tags else none) := by
  rw [← Layer.foldl_tags]
  induction layers generalizing n with
  | nil =>
    unfold part
    simp [through]
  | cons layer layers ih =>
    show (layer.view n).through layers = _
    rw [ih (hn.view layer), layer.view_eq_part hn, part_part]
    rfl

/-- **The order of the layers does not matter.** -/
theorem through_perm (hn : n.Coherent) {layers layers' : List Layer} (h : layers.Perm layers') :
    n.through layers = n.through layers' := by
  rw [through_eq_part hn, through_eq_part hn]
  simp only [h.all_eq]

/-- **What stacks of layers show is told by its vertices and edges**, and the decoration. -/
theorem eq_of_through {k m : Network} {layers layers' : List Layer} (hn : n.Coherent)
    (hk : k = n.through layers) (hm : m = n.through layers')
    (hids : ∀ v, v ∈ k.ids ↔ v ∈ m.ids) (hlinks : ∀ l, l ∈ k.links ↔ l ∈ m.links)
    (htags : k.tags = m.tags) : k = m := by
  have hpart : ∀ {m layers}, m = n.through layers →
      m = n.part m.contains (· ∈ m.links) m.tags := by
    intro m layers h
    rw [h, through_eq_part hn]
    exact n.part_eq _ _ _
  calc k = n.part k.contains (· ∈ k.links) k.tags := hpart hk
    _ = n.part m.contains (· ∈ m.links) k.tags := by
        refine part_congr (fun v _ => ?_) (fun l _ => ?_) _
        · rw [Bool.eq_iff_iff, contains_iff, contains_iff, hids]
        · simp only [hlinks]
    _ = m := htags ▸ (hpart hm).symm

section Through

variable {layers : List Layer}

theorem contains_through (hn : n.Coherent) {v : ElementId} :
    (n.through layers).contains v = true ↔ n.contains v = true ∧
      (∀ vs es, .restrict vs es ∈ layers → v ∈ vs) ∧ (.mask ∈ layers → v.isSentinel = false) := by
  rw [through_eq_part hn, contains_part, Bool.and_eq_true, Layer.all_shows_iff, and_comm]

theorem mem_links_through (hn : n.Coherent) {l : Link} : l ∈ (n.through layers).links ↔
    l ∈ n.links ∧ (n.through layers).contains l.source = true ∧
      (n.through layers).contains l.target = true ∧
      ∀ vs is, .restrict vs (some is) ∈ layers → l.id ∈ is := by
  rw [through_eq_part hn, contains_part, contains_part]
  show l ∈ n.links.filter _ ↔ _
  rw [List.mem_filter, Layer.all_admits_iff, Bool.and_eq_true, Bool.and_eq_true]
  refine and_congr_right fun hl => ?_
  rw [and_iff_left (contains_iff.mpr (hn.source_mem l hl)),
    and_iff_left (contains_iff.mpr (hn.target_mem l hl))]

theorem elements_through (hn : n.Coherent) : (n.through layers).elements =
    n.elements.filter fun e => (n.through layers).contains e.id := by
  rw [through_eq_part hn]
  refine List.filter_congr fun e he => ?_
  have hcontains : n.contains e.id = true := contains_iff.mpr (mem_ids.mpr ⟨e, he, rfl⟩)
  rw [contains_part, hcontains, Bool.and_true]

/-- The decoration shows through masks. -/
theorem tags_through_of_masks (hn : n.Coherent) (h : ∀ layer ∈ layers, layer = .mask) :
    (n.through layers).tags = n.tags := by
  rw [through_eq_part hn]
  refine if_pos (List.all_eq_true.mpr fun layer hmem => ?_)
  rw [h layer hmem]

/-- A restriction has no decoration, and a mask over it has none. -/
theorem tags_through_of_restrict (hn : n.Coherent) {vs : List ElementId}
    {es : Option (List EdgeId)} (h : .restrict vs es ∈ layers) :
    (n.through layers).tags = none := by
  rw [through_eq_part hn]
  exact if_neg fun hall => Bool.false_ne_true (List.all_eq_true.mp hall _ h)

end Through

/-- The id has an element where it is a vertex. -/
theorem isSome_element? (v : ElementId) : (n.element? v).isSome = n.contains v := by
  rw [Bool.eq_iff_iff, contains_iff, Option.isSome_iff_ne_none, ne_eq, element?_eq_none_iff,
    not_not]

theorem isSome_link?_iff {i : EdgeId} : (n.link? i).isSome = true ↔ ∃ l ∈ n.links, l.id = i := by
  unfold link?
  simp only [List.find?_isSome, decide_eq_true_eq]

/-- Elements are looked up by the ids of the vertices. -/
theorem Coherent.elements_answers (hn : n.Coherent) : n.answers.elements = n.elements := by
  have hfind : ∀ e ∈ n.elements, (n.element? ∘ Element.id) e = some e := fun e he =>
    (element?_eq_some_iff hn.ids_nodup).mpr ⟨he, rfl⟩
  show (n.elements.map (·.id)).filterMap n.element? = n.elements
  rw [List.filterMap_map, List.filterMap_congr hfind, List.filterMap_some]

/-- **Every answer through a stack of layers**, in terms of the vertices and edges that show. -/
theorem isRestriction_through (hn : n.Coherent) (layers : List Layer) :
    n.answers.IsRestriction layers (n.answers.through layers) := by
  have hr : (n.through layers).Coherent := hn.through layers
  rw [answers_through hn]
  exact
    { contains_iff := fun v => contains_through hn
      mem_links_iff := fun l => mem_links_through hn
      eq_part := by
        rw [through_eq_part hn]
        exact answers_part_eq hn
      elements_eq := by
        rw [hr.elements_answers, hn.elements_answers]
        exact elements_through hn
      isSome_element? := isSome_element?
      isSome_link?_iff := fun i => isSome_link?_iff
      incoming_ascending := fun v => hr.links_ascending.filter _
      outgoing_ascending := fun v => hr.links_ascending.filter _
      tags_of_masks := tags_through_of_masks hn
      tags_of_restrict := fun vs es h => tags_through_of_restrict hn h }

end Network

end Dataflow
