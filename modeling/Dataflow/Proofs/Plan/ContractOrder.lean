import Dataflow.Proofs.Equality.Matching
import Dataflow.Proofs.Plan.Contract
import Mathlib.Tactic.Ring

/-!
# The order of contractions

A contraction of an element that is no splice leads each inbound edge on by the outbound ones as
they are, prior names apart. So an edge of the result stands for a walk past the elements that are
gone, with the value of the last edge of the walk, and the order in which they went cannot be told
from it. The edges are counted by what they carry (`Network.lanes`), and two contractions are seen
to commute by counting.

* **`Plan.Bypassed.lanes_eq`**: the edges from one vertex to another after a contraction.
* **`Plan.Bypassed.alike_swap`**: two contractions commute.
* **`Plan.contractEach_perm`**: contracting elements that are no splices succeeds in every order,
  with the same result up to the numbers and the prior names of the edges.
-/

namespace Dataflow

/-- What satisfies `r` among the pairs of two lists, where `r` asks something of each of the two. -/
theorem countP_flatMap_map {α β γ : Type} {g : α → β → γ} {a : α → Bool} {b : β → Bool}
    {r : γ → Bool} (h : ∀ x y, r (g x y) = (a x && b y)) (xs : List α) (ys : List β) :
    (xs.flatMap fun x => ys.map (g x)).countP r = xs.countP a * ys.countP b := by
  induction xs with
  | nil => simp
  | cons x xs ih =>
    have hx : (ys.map (g x)).countP r = if a x then ys.countP b else 0 := by
      rw [List.countP_map]
      cases ha : a x with
      | true => exact List.countP_congr fun y _ => by simp [h, ha]
      | false => exact List.countP_eq_zero.mpr fun y _ => by simp [h, ha]
    rw [List.flatMap_cons, List.countP_append, hx, ih, List.countP_cons]
    cases a x <;> simp [Nat.add_mul, Nat.add_comm]

namespace Network

/-! ### Counting edges -/

/-- The number of edges from one vertex to another whose values, prior names apart, satisfy `f`. -/
def lanes (n : Network) (f : Edge → Bool) (s t : ElementId) : Nat :=
  n.links.countP fun l => l.source = s && l.target = t && f l.edge.withoutPriorNames

/-- The number of edges from one vertex to another. -/
def width (n : Network) (s t : ElementId) : Nat := n.lanes (fun _ => true) s t

variable {m n : Network} {f : Edge → Bool} {s t : ElementId}

theorem countP_incoming (n : Network) (s v : ElementId) :
    (n.incoming v).countP (·.source = s) = n.width s v := by
  unfold incoming width lanes
  rw [List.countP_filter]
  simp

theorem countP_outgoing (n : Network) (f : Edge → Bool) (v t : ElementId) :
    (n.outgoing v).countP (fun l => l.target = t && f l.edge.withoutPriorNames) =
      n.lanes f v t := by
  unfold outgoing lanes
  rw [List.countP_filter]
  exact List.countP_congr fun l _ => by rw [Bool.and_comm, Bool.and_assoc]

theorem lanes_eq_zero (h : ¬ n.Step s t) : n.lanes f s t = 0 := by
  refine List.countP_eq_zero.mpr fun l hl hcount => h ⟨l, hl, ?_⟩
  simp only [Bool.and_eq_true, decide_eq_true_eq] at hcount
  exact hcount.1

/-- Edges end at vertices. -/
theorem Coherent.lanes_eq_zero (hn : n.Coherent) (h : ¬ (s ∈ n.ids ∧ t ∈ n.ids)) :
    n.lanes f s t = 0 :=
  Network.lanes_eq_zero fun hst => h ⟨hn.source_mem_of_step hst, hn.target_mem_of_step hst⟩

/-- **Networks have the same edges, up to their numbers and prior names, where they have as many of
every kind.** -/
theorem bareLinks_perm_iff :
    m.bareLinks.Perm n.bareLinks ↔ ∀ f s t, m.lanes f s t = n.lanes f s t := by
  have hlanes : ∀ (k : Network) f s t, k.lanes f s t =
      k.bareLinks.countP fun l => l.source = s && l.target = t && f l.edge := fun k f s t => by
    unfold lanes bareLinks
    rw [List.countP_map]
    rfl
  constructor
  · intro h f s t
    rw [hlanes, hlanes]
    exact h.countP_eq _
  · intro h
    refine List.perm_iff_count.mpr fun k => ?_
    by_cases hk : k.id = 0
    · have hcount : ∀ j : Network,
          j.bareLinks.count k = j.lanes (fun e => e = k.edge) k.source k.target := fun j => by
        rw [hlanes, List.count_eq_countP]
        refine List.countP_congr fun l hl => ?_
        obtain ⟨l, -, rfl⟩ := List.mem_map.mp hl
        obtain ⟨i, s, t, e⟩ := k
        subst hk
        rw [beq_iff_eq, Link.mk.injEq, Bool.and_eq_true, Bool.and_eq_true, decide_eq_true_eq,
          decide_eq_true_eq, decide_eq_true_eq, and_assoc]
        exact and_iff_right rfl
      rw [hcount, hcount, h]
    · have hcount : ∀ j : Network, j.bareLinks.count k = 0 := fun j => by
        refine List.count_eq_zero.mpr fun hmem => hk ?_
        obtain ⟨l, -, rfl⟩ := List.mem_map.mp hmem
        rfl
      rw [hcount, hcount]

/-- The id is a vertex, and no splice. -/
def Plain (n : Network) (v : ElementId) : Prop := ∃ e, n.element? v = some e ∧ e.isSplice = false

theorem Plain.mem_ids {n : Network} {v : ElementId} (h : n.Plain v) : v ∈ n.ids := by
  obtain ⟨e, he, -⟩ := h
  exact mem_ids_of_element? he

/-- The networks have the same vertices and tags, and the same edges up to their numbers and prior
names. -/
structure Alike (m n : Network) : Prop where
  elements : m.elements = n.elements
  tags : m.tags = n.tags
  links : m.bareLinks.Perm n.bareLinks

namespace Alike

variable {k : Network}

theorem refl (n : Network) : n.Alike n := ⟨rfl, rfl, .refl _⟩

theorem trans (h : k.Alike m) (h' : m.Alike n) : k.Alike n :=
  ⟨h.elements.trans h'.elements, h.tags.trans h'.tags, h.links.trans h'.links⟩

/-- Coherent networks of the same vertices need only have as many edges between these. -/
theorem of_lanes (hm : m.Coherent) (hn : n.Coherent) (helements : m.elements = n.elements)
    (htags : m.tags = n.tags)
    (hlanes : ∀ f s t, s ∈ m.ids → t ∈ m.ids → m.lanes f s t = n.lanes f s t) : m.Alike n where
  elements := helements
  tags := htags
  links := by
    have hids : n.ids = m.ids := congrArg (List.map Element.id) helements.symm
    refine bareLinks_perm_iff.mpr fun f s t => ?_
    by_cases hst : s ∈ m.ids ∧ t ∈ m.ids
    · exact hlanes f s t hst.1 hst.2
    · rw [hm.lanes_eq_zero hst, hn.lanes_eq_zero (hids ▸ hst)]

theorem lanes_eq (h : m.Alike n) (f : Edge → Bool) (s t : ElementId) :
    m.lanes f s t = n.lanes f s t :=
  bareLinks_perm_iff.mp h.links f s t

theorem plain (h : m.Alike n) {v : ElementId} (hv : m.Plain v) : n.Plain v := by
  unfold Plain element? at *
  rw [← h.elements]
  exact hv

end Alike

end Network

/-! ### Tags -/

namespace Tags

/-- An entry that is dropped when it is empty can be dropped later. -/
theorem erase_filter (e : Option (SortedSet ElementId)) (v : ElementId) :
    ((e.filter (!·.isEmpty)).map (·.erase v)).filter (!·.isEmpty) =
      (e.map (·.erase v)).filter (!·.isEmpty) := by
  cases e with
  | none => rfl
  | some s =>
    cases hs : s.isEmpty with
    | true =>
      have herase : (s.erase v).isEmpty = true := SortedSet.isEmpty_iff.mpr fun a ha =>
        SortedSet.isEmpty_iff.mp hs a (SortedSet.mem_erase.mp ha).1
      simp [Option.filter_some, hs, herase]
    | false => simp [Option.filter_some, hs]

/-- Vertices are taken out in either order. -/
theorem remove_comm (ts : Tags) (v w : ElementId) :
    (ts.remove v).remove w = (ts.remove w).remove v := by
  have herase : ∀ s : SortedSet ElementId, (s.erase v).erase w = (s.erase w).erase v := fun s =>
    SortedSet.ext fun a => by simp only [SortedSet.mem_erase, and_right_comm]
  have hentry : ∀ e : Option (SortedSet ElementId),
      (((e.map (·.erase v)).filter (!·.isEmpty)).map (·.erase w)).filter (!·.isEmpty) =
        (((e.map (·.erase w)).filter (!·.isEmpty)).map (·.erase v)).filter (!·.isEmpty) := by
    intro e
    rw [erase_filter, erase_filter]
    cases e with
    | none => rfl
    | some s => simp only [Option.map_some, herase]
  unfold remove mapEntries
  simp only [hentry]

end Tags

namespace Plan

variable {p q r p' q' : Plan} {v w s t : ElementId} {new new' : List Link}

/-! ### One contraction -/

/-- Past an element that is no splice the outbound edge is led on as it is. -/
theorem withoutPriorNames_bypass {e : Element} (he : e.isSplice = false) (i o : Edge) :
    (bypass e i o).withoutPriorNames = o.withoutPriorNames := by
  have hjoin : e.performsJoin = false := by
    cases e with
    | join j => cases he
    | _ => rfl
  unfold bypass
  simp [he, hjoin, Edge.withoutPriorNames, Edge.addPriorNames]

namespace Bypassed

/-- **The edges from one vertex to another after a contraction** are those from before, and one for
each edge to the element and each edge from it. -/
theorem lanes_eq (h : p.Bypassed v new q) (hv : p.network.Plain v) (hs : s ≠ v) (ht : t ≠ v)
    (f : Edge → Bool) : q.network.lanes f s t =
      p.network.lanes f s t + p.network.width s v * p.network.lanes f v t := by
  obtain ⟨e, he, hends⟩ := h.new_ends
  have hsplice : e.isSplice = false := by
    obtain ⟨d, hd, hsplice⟩ := hv
    rw [hd] at he
    cases he
    exact hsplice
  let counted (b : ElementId × ElementId × Edge) : Bool :=
    b.1 = s && b.2.1 = t && f b.2.2.withoutPriorNames
  have hkept : (p.network.links.filter fun l => !l.touches v).countP (counted ∘ ends) =
      p.network.lanes f s t := by
    rw [List.countP_filter]
    refine List.countP_congr fun l _ => ?_
    simp only [counted, Function.comp, ends, Link.touches, Bool.and_eq_true, Bool.not_eq_true',
      Bool.or_eq_false_iff, decide_eq_true_eq, decide_eq_false_iff_not]
    constructor
    · exact And.left
    · rintro ⟨⟨rfl, rfl⟩, hf⟩
      exact ⟨⟨⟨rfl, rfl⟩, hf⟩, hs, ht⟩
  have hpairs : ∀ i o : Link, counted (i.source, o.target, bypass e i.edge o.edge) =
      (decide (i.source = s) && (decide (o.target = t) && f o.edge.withoutPriorNames)) := by
    intro i o
    simp only [counted, withoutPriorNames_bypass hsplice, Bool.and_assoc]
  have hnew : new.countP (counted ∘ ends) =
      p.network.width s v * p.network.lanes f v t := by
    calc new.countP (counted ∘ ends) = (new.map ends).countP counted := List.countP_map.symm
      _ = (bypasses p.network v e).countP counted := hends.countP_eq _
      _ = _ := countP_flatMap_map hpairs _ _
      _ = _ := by rw [Network.countP_incoming, Network.countP_outgoing]
  calc q.network.lanes f s t = q.network.links.countP (counted ∘ ends) := rfl
    _ = _ := h.links.countP_eq _
    _ = _ := List.countP_append
    _ = _ := by rw [hnew, hkept, Nat.add_comm]

theorem width_eq (h : p.Bypassed v new q) (hv : p.network.Plain v) (hs : s ≠ v) (ht : t ≠ v) :
    q.network.width s t =
      p.network.width s t + p.network.width s v * p.network.width v t :=
  h.lanes_eq hv hs ht _

/-- The other elements are what they were. -/
theorem plain (h : p.Bypassed v new q) (hwv : w ≠ v) (hw : p.network.Plain w) :
    q.network.Plain w := by
  unfold Network.Plain
  rw [h.element?_eq hwv]
  exact hw

theorem plain_of_cons (h : p.Bypassed v new q) {vs : List ElementId} (hnodup : (v :: vs).Nodup)
    (hvs : ∀ w ∈ v :: vs, p.network.Plain w) : ∀ w ∈ vs, q.network.Plain w := fun w hw =>
  h.plain (fun e => (List.nodup_cons.mp hnodup).1 (e ▸ hw)) (hvs w (List.mem_cons_of_mem _ hw))

/-- **The same contraction of plans that are alike.** -/
theorem alike (h : p.Bypassed v new q) (h' : p'.Bypassed v new' q') (hv : p.network.Plain v)
    (hp : p.network.Alike p'.network) : q.network.Alike q'.network := by
  have helements : q.network.elements = q'.network.elements := by
    rw [h.elements, h'.elements, hp.elements]
  refine .of_lanes q.coherent q'.coherent helements ?_ fun f s t hs ht => ?_
  · rw [h.tags, h'.tags, hp.tags]
  · have hsv : s ≠ v := (h.mem_ids.mp hs).2
    have htv : t ≠ v := (h.mem_ids.mp ht).2
    rw [h.lanes_eq hv hsv htv, h'.lanes_eq (hp.plain hv) hsv htv]
    unfold Network.width
    simp only [hp.lanes_eq]

end Bypassed

/-! ### Two contractions -/

/-- No edge between two vertices has one the other way. -/
theorem width_mul_width (p : Plan) (v w : ElementId) :
    p.network.width v w * p.network.width w v = 0 := by
  refine Nat.mul_eq_zero.mpr ?_
  by_cases hstep : p.network.Step v w
  · exact .inr (Network.lanes_eq_zero fun hback => p.acyclic v (.head hstep (.single hback)))
  · exact .inl (Network.lanes_eq_zero hstep)

namespace Bypassed

variable {r' : Plan} {newV newW newV' newW' : List Link}

/-- The edges from one vertex to another after two contractions: those from before, those through
one of the two elements, and those through both, either way round. -/
theorem lanes_eq_both (hv : p.network.Plain v) (hw : p.network.Plain w) (hvw : v ≠ w)
    (h : p.Bypassed v newV q) (h' : q.Bypassed w newW r) (f : Edge → Bool)
    (hs : s ∈ r.network.ids) (ht : t ∈ r.network.ids) : r.network.lanes f s t =
      p.network.lanes f s t + p.network.width s v * p.network.lanes f v t +
        p.network.width s w * p.network.lanes f w t +
        p.network.width s v * p.network.width v w * p.network.lanes f w t +
        p.network.width s w * p.network.width w v * p.network.lanes f v t := by
  obtain ⟨hsq, hsw⟩ := h'.mem_ids.mp hs
  obtain ⟨htq, htw⟩ := h'.mem_ids.mp ht
  have hsv : s ≠ v := (h.mem_ids.mp hsq).2
  have htv : t ≠ v := (h.mem_ids.mp htq).2
  rw [h'.lanes_eq (h.plain hvw.symm hw) hsw htw, h.lanes_eq hv hsv htv,
    h.width_eq hv hsv hvw.symm, h.lanes_eq hv hvw.symm htv]
  -- nothing goes to and fro between the two
  have hround : p.network.width s v * p.network.width v w *
      (p.network.width w v * p.network.lanes f v t) = 0 := by
    rw [Nat.mul_assoc, ← Nat.mul_assoc (p.network.width v w), p.width_mul_width, Nat.zero_mul,
      Nat.mul_zero]
  rw [Nat.add_mul, Nat.mul_add, Nat.mul_add, hround]
  ring

/-- **Two contractions commute.** -/
theorem alike_swap (hv : p.network.Plain v) (hw : p.network.Plain w) (hvw : v ≠ w)
    (h : p.Bypassed v newV q) (h' : q.Bypassed w newW r)
    (k : p.Bypassed w newW' q') (k' : q'.Bypassed v newV' r') : r.network.Alike r'.network := by
  have helements : r.network.elements = r'.network.elements := by
    rw [h'.elements, h.elements, k'.elements, k.elements, List.filter_comm]
  have hids : r.network.ids = r'.network.ids := congrArg (List.map Element.id) helements
  refine .of_lanes r.coherent r'.coherent helements ?_ fun f s t hs ht => ?_
  · rw [h'.tags, h.tags, k'.tags, k.tags, Option.map_map, Option.map_map]
    congr 1
    funext ts
    exact ts.remove_comm v w
  · rw [lanes_eq_both hv hw hvw h h' f hs ht,
      lanes_eq_both hw hv hvw.symm k k' f (hids ▸ hs) (hids ▸ ht)]
    ring

end Bypassed

/-! ### Any number of contractions -/

/-- Contracts elements one after the other, until one is refused. -/
def contractEach (p : Plan) (vs : List ElementId) : Edit Unit :=
  editAll (fun p v => p.contract v .anyInbound) p vs

theorem contractEach_cons (hq : p.contract v .anyInbound = (.ok (), q)) (vs : List ElementId) :
    p.contractEach (v :: vs) = q.contractEach vs := by
  unfold contractEach
  rw [editAll, hq]
  rfl

/-- **The same contractions of plans that are alike.** -/
theorem exists_contractEach_alike (hp : p.network.Alike p'.network) {vs : List ElementId}
    (hnodup : vs.Nodup) (hvs : ∀ v ∈ vs, p.network.Plain v) :
    ∃ q q', p.contractEach vs = (.ok (), q) ∧ p'.contractEach vs = (.ok (), q') ∧
      q.network.Alike q'.network := by
  induction vs generalizing p p' with
  | nil => exact ⟨p, p', rfl, rfl, hp⟩
  | cons v vs ih =>
    have hv : p.network.Plain v := hvs v List.mem_cons_self
    obtain ⟨a, new, ha, hbypassed⟩ := exists_contract hv.mem_ids (.inl rfl)
    obtain ⟨a', new', ha', hbypassed'⟩ := exists_contract (hp.plain hv).mem_ids (.inl rfl)
    rw [contractEach_cons ha, contractEach_cons ha']
    exact ih (hbypassed.alike hbypassed' hv hp) (List.nodup_cons.mp hnodup).2
      (hbypassed.plain_of_cons hnodup hvs)

/-- The first two contractions in either order, and the others after them. -/
theorem exists_contractEach_swap {vs : List ElementId} (hnodup : (v :: w :: vs).Nodup)
    (hvs : ∀ u ∈ v :: w :: vs, p.network.Plain u) :
    ∃ q r, p.contractEach (v :: w :: vs) = (.ok (), q) ∧
      p.contractEach (w :: v :: vs) = (.ok (), r) ∧ q.network.Alike r.network := by
  have hv : p.network.Plain v := hvs v List.mem_cons_self
  have hw : p.network.Plain w := hvs w (List.mem_cons_of_mem _ List.mem_cons_self)
  have hvw : v ≠ w := fun e => (List.nodup_cons.mp hnodup).1 (e ▸ List.mem_cons_self)
  have hrest : (w :: vs).Nodup := (List.nodup_cons.mp hnodup).2
  obtain ⟨a, newV, ha, hpa⟩ := exists_contract hv.mem_ids (.inl rfl)
  obtain ⟨q, newW, hq, haq⟩ := exists_contract (hpa.plain hvw.symm hw).mem_ids (.inl rfl)
  obtain ⟨b, newW', hb, hpb⟩ := exists_contract hw.mem_ids (.inl rfl)
  obtain ⟨r, newV', hr, hbr⟩ := exists_contract (hpb.plain hvw hv).mem_ids (.inl rfl)
  rw [contractEach_cons ha, contractEach_cons hq, contractEach_cons hb, contractEach_cons hr]
  have halike := Bypassed.alike_swap hv hw hvw hpa haq hpb hbr
  exact exists_contractEach_alike halike (List.nodup_cons.mp hrest).2
    (haq.plain_of_cons hrest (hpa.plain_of_cons hnodup hvs))

/-- **Elements that are no splices are contracted in any order**: every order succeeds, and leaves
the same vertices, the same tags and, numbers and prior names apart, the same edges. -/
theorem contractEach_perm (p : Plan) {vs ws : List ElementId} (h : vs.Perm ws)
    (hnodup : vs.Nodup) (hvs : ∀ v ∈ vs, p.network.Plain v) :
    ∃ q r, p.contractEach vs = (.ok (), q) ∧ p.contractEach ws = (.ok (), r) ∧
      q.network.Alike r.network := by
  induction h generalizing p with
  | nil => exact ⟨p, p, rfl, rfl, .refl _⟩
  | @cons v vs ws h ih =>
    obtain ⟨a, new, ha, hbypassed⟩ := exists_contract (hvs v List.mem_cons_self).mem_ids (.inl rfl)
    rw [contractEach_cons ha, contractEach_cons ha]
    exact ih a (List.nodup_cons.mp hnodup).2 (hbypassed.plain_of_cons hnodup hvs)
  | swap w v vs => exact exists_contractEach_swap hnodup hvs
  | trans h _ ih ih' =>
    obtain ⟨q, r, hq, hr, hqr⟩ := ih p hnodup hvs
    obtain ⟨r', s, hr', hs, hrs⟩ :=
      ih' p (h.nodup_iff.mp hnodup) fun v hv => hvs v (h.mem_iff.mpr hv)
    obtain ⟨-, rfl⟩ := Prod.mk.inj (hr.symm.trans hr')
    exact ⟨q, s, hq, hs, hqr.trans hrs⟩

/-- Two elements between two others, joined to each other and to both ends. -/
def braid : Plan :=
  empty.sketch [⟨2⟩, ⟨3⟩, ⟨4⟩, ⟨5⟩]
    [(⟨2⟩, ⟨3⟩), (⟨3⟩, ⟨4⟩), (⟨4⟩, ⟨5⟩), (⟨2⟩, ⟨4⟩), (⟨3⟩, ⟨5⟩)]

theorem contractEach_perm_braid : [⟨3⟩, ⟨4⟩].Perm [⟨4⟩, (⟨3⟩ : ElementId)] ∧
    [⟨3⟩, (⟨4⟩ : ElementId)].Nodup ∧ (∀ v ∈ [⟨3⟩, ⟨4⟩], braid.network.Plain v) ∧
    ∃ q r, braid.contractEach [⟨3⟩, ⟨4⟩] = (.ok (), q) ∧
      braid.contractEach [⟨4⟩, ⟨3⟩] = (.ok (), r) ∧ q.network.Alike r.network := by
  have hperm : [⟨3⟩, ⟨4⟩].Perm [⟨4⟩, (⟨3⟩ : ElementId)] := .swap _ _ _
  have hnodup : [⟨3⟩, (⟨4⟩ : ElementId)].Nodup := by decide
  have hplain : ∀ v ∈ [⟨3⟩, ⟨4⟩], braid.network.Plain v := by
    have h3 : braid.network.element? ⟨3⟩ = some (.transform ⟨⟨3⟩, ""⟩) := by decide +kernel
    have h4 : braid.network.element? ⟨4⟩ = some (.transform ⟨⟨4⟩, ""⟩) := by decide +kernel
    intro v hv
    rcases List.mem_pair.mp hv with rfl | rfl
    · exact ⟨_, h3, rfl⟩
    · exact ⟨_, h4, rfl⟩
  exact ⟨hperm, hnodup, hplain, contractEach_perm braid hperm hnodup hplain⟩

end Plan

end Dataflow
