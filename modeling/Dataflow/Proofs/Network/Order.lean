import Mathlib.Data.List.Perm.Basic
import Dataflow.Network.Traversal
import Dataflow.Plan
import Dataflow.Proofs.Network.Reach
import Dataflow.Proofs.Path.FirstMove

/-!
# Topological traversal

A traversal keeps at each vertex the number of its edges from vertices that it has not given
(`Network.left`), and due are the vertices without such edges. What it never gives is what a cycle
leads to.

* **`Traversal.Inv.next`, `Traversal.Inv.produces`**: what one step of a traversal keeps, and what
  any number of steps keep.
* **`Network.sorts_of_inv`**: what a traversal has given when nothing is due.
* **`Network.traversal_sorts`**: traversals along the edges and against them, and the orders made
  of them, on networks with and without cycles.
-/

namespace Dataflow

open Relation

namespace Network

variable {n : Network} {v w : ElementId} {done : List ElementId}

/-! ### Counting off -/

theorem countOff_map (v : ElementId) (f : ElementId → Int) : ∀ {ids : List ElementId}, ids.Nodup →
    countOff v (ids.map fun w => (w, f w)) =
      (ids.map fun w => (w, if w = v then f w - 1 else f w), decide (v ∈ ids ∧ f v = 1))
  | [], _ => by simp [countOff]
  | w :: ids, h => by
    obtain ⟨hw, hids⟩ := List.nodup_cons.mp h
    rw [List.map_cons, countOff]
    by_cases hv : w = v
    · subst hv
      have hrest : (ids.map fun x => (x, if x = w then f x - 1 else f x)) =
          ids.map fun x => (x, f x) := by
        refine List.map_congr_left fun x hx => ?_
        rw [if_neg]
        rintro rfl
        exact hw hx
      rw [if_pos rfl, List.map_cons, if_pos rfl, hrest]
      simp [show f w - 1 = 0 ↔ f w = 1 by omega]
    · rw [if_neg hv, countOff_map v f hids, List.map_cons, if_neg hv]
      simp [Ne.symm hv]

/-- **What counting off leaves**: from each vertex as many as the list has edges into it. -/
theorem countOffAll_map {ids : List ElementId} (hids : ids.Nodup) :
    ∀ (us : List ElementId) (f : ElementId → Int),
      (countOffAll us (ids.map fun w => (w, f w))).1 = ids.map fun w => (w, f w - us.count w)
  | [], f => by simp [countOffAll]
  | u :: us, f => by
    simp only [countOffAll, countOff_map u f hids]
    rw [countOffAll_map hids us]
    refine List.map_congr_left fun w _ => ?_
    by_cases h : w = u
    · subst h
      rw [if_pos rfl, List.count_cons_self]
      congr 1
      omega
    · rw [if_neg h, List.count_cons_of_ne (Ne.symm h)]

/-- **What counting off makes due**: each vertex once whose last edge it counts off. -/
theorem mem_countOffAll_map {ids : List ElementId} (hids : ids.Nodup) :
    ∀ (us : List ElementId) (f : ElementId → Int),
      (countOffAll us (ids.map fun w => (w, f w))).2.Nodup ∧
        ∀ v, v ∈ (countOffAll us (ids.map fun w => (w, f w))).2 ↔
          v ∈ ids ∧ 1 ≤ f v ∧ f v ≤ us.count v
  | [], f => by
    simp only [countOffAll, List.count_nil]
    exact ⟨.nil, fun v => iff_of_false List.not_mem_nil fun h => by omega⟩
  | u :: us, f => by
    simp only [countOffAll, countOff_map u f hids, decide_eq_true_eq]
    obtain ⟨hnd, hmem⟩ := mem_countOffAll_map hids us fun w => if w = u then f w - 1 else f w
    have hother : ∀ v, v ≠ u → (v ∈ (countOffAll us
        (ids.map fun w => (w, if w = u then f w - 1 else f w))).2 ↔
          v ∈ ids ∧ 1 ≤ f v ∧ f v ≤ (u :: us).count v) := by
      intro v hv
      rw [hmem, if_neg hv, List.count_cons_of_ne (Ne.symm hv)]
    have hself := hmem u
    rw [if_pos rfl] at hself
    have hcount : (u :: us).count u = us.count u + 1 := List.count_cons_self
    split
    · rename_i hlast
      refine ⟨List.nodup_cons.mpr ⟨fun h => ?_, hnd⟩, fun v => ?_⟩
      · have := (hself.mp h).2.1
        omega
      · by_cases hv : v = u
        · subst hv
          exact iff_of_true List.mem_cons_self ⟨hlast.1, by omega, by omega⟩
        · rw [List.mem_cons, or_iff_right hv, hother v hv]
    · rename_i hlast
      refine ⟨hnd, fun v => ?_⟩
      by_cases hv : v = u
      · subst hv
        rw [hself, hcount]
        refine and_congr_right fun hv => ?_
        have : f v ≠ 1 := fun h => hlast ⟨hv, h⟩
        omega
      · exact hother v hv

/-! ### Edges that are left -/

/-- The number of edges into `v` that come from vertices not done. -/
def left (n : Network) (done : List ElementId) (v : ElementId) : Nat :=
  (n.predecessors v).countP fun u => u ∉ done

theorem left_nil : n.left [] v = n.inDegree v := by
  simp [left, predecessors, inDegree]

theorem left_eq_zero_iff : n.left done v = 0 ↔ ∀ u, n.Step u v → u ∈ done := by
  unfold left
  rw [List.countP_eq_zero]
  simp only [mem_predecessors, decide_eq_true_eq, not_not]

/-- Edges from `v` to `w` count the same at both ends. -/
theorem count_predecessors (n : Network) (v w : ElementId) :
    (n.predecessors w).count v = (n.successors v).count w := by
  unfold predecessors successors incoming outgoing List.count
  rw [List.countP_map, List.countP_map, List.countP_filter, List.countP_filter]
  refine List.countP_congr fun l _ => ?_
  simp [and_comm]

theorem left_concat (hv : v ∉ done) (w : ElementId) :
    n.left done w = n.left (done ++ [v]) w + (n.successors v).count w := by
  rw [← count_predecessors]
  unfold left
  induction n.predecessors w with
  | nil => rfl
  | cons u us ih =>
    rw [List.countP_cons, List.countP_cons, List.count_cons, ih]
    by_cases hu : u = v
    · subst hu
      simp [hv]
      omega
    · simp [hu]
      omega

/-! ### Against the edges -/

theorem mem_links_reverse {l : Link} : l ∈ n.reverse.links ↔ l.reverse ∈ n.links := by
  unfold reverse
  rw [List.mem_map]
  exact ⟨fun ⟨k, hk, h⟩ => h ▸ hk, fun h => ⟨l.reverse, h, rfl⟩⟩

theorem step_reverse : n.reverse.Step v w ↔ n.Step w v := by
  constructor
  · rintro ⟨l, hl, rfl, rfl⟩
    exact ⟨l.reverse, mem_links_reverse.mp hl, rfl, rfl⟩
  · rintro ⟨l, hl, rfl, rfl⟩
    exact ⟨l.reverse, mem_links_reverse.mpr hl, rfl, rfl⟩

theorem transGen_reverse : TransGen n.reverse.Step v w ↔ TransGen n.Step w v := by
  rw [← transGen_swap]
  have hstep : Function.swap n.reverse.Step = n.Step := by
    funext a b
    exact propext step_reverse
  rw [hstep]

theorem Coherent.reverse (hn : n.Coherent) : n.reverse.Coherent where
  ids_nodup := hn.ids_nodup
  source_mem _ hl := hn.target_mem _ (mem_links_reverse.mp hl)
  target_mem _ hl := hn.source_mem _ (mem_links_reverse.mp hl)
  links_ascending := List.pairwise_map.mpr (hn.links_ascending.imp fun h => h)

theorem acyclic_reverse : n.reverse.Acyclic ↔ n.Acyclic :=
  forall_congr' fun _ => not_congr transGen_reverse

theorem successors_reverse (n : Network) (v : ElementId) :
    n.reverse.successors v = n.predecessors v := by
  unfold successors predecessors outgoing incoming reverse
  rw [List.filter_map, List.map_map]
  rfl

theorem predecessors_reverse (n : Network) (v : ElementId) :
    n.reverse.predecessors v = n.successors v := by
  unfold successors predecessors outgoing incoming reverse
  rw [List.filter_map, List.map_map]
  rfl

theorem inDegree_reverse (n : Network) (v : ElementId) : n.reverse.inDegree v = n.outDegree v := by
  have h := congrArg List.length (predecessors_reverse n v)
  unfold predecessors successors at h
  rw [List.length_map, List.length_map] at h
  exact h

end Network

namespace Traversal

/-- The network as the traversal takes its edges. -/
def facing (t : Traversal) : Network := if t.reverse then t.network.reverse else t.network

/-- What holds after a traversal has given the vertices of `done`. -/
structure Inv (t : Traversal) (done : List ElementId) : Prop where
  nodup : (done ++ t.queue).Nodup
  mem_iff : ∀ v, v ∈ done ++ t.queue ↔ v ∈ t.facing.ids ∧ t.facing.left done v = 0
  remaining_eq : t.remaining = t.facing.ids.map fun v => (v, (t.facing.left done v : Int))
  sources_first : ∀ xs v ys, done = xs ++ v :: ys → ∀ u, t.facing.Step u v → u ∈ xs

variable {t t' : Traversal} {v : ElementId} {done vs : List ElementId}

theorem onward_eq (t : Traversal) (v : ElementId) : t.onward v = t.facing.successors v := by
  unfold onward facing
  split
  · exact (Network.successors_reverse _ v).symm
  · rfl

theorem inv_start {n : Network} {reverse : Bool} (hn : (start n reverse).facing.Coherent) :
    (start n reverse).Inv [] := by
  have hids : n.ids = (start n reverse).facing.ids := by
    unfold facing
    split <;> rfl
  have hdegree : ∀ v, degree n reverse v = (start n reverse).facing.left [] v := by
    intro v
    rw [Network.left_nil]
    unfold degree facing
    cases reverse
    · rfl
    · exact (Network.inDegree_reverse n v).symm
  have hqueue : (start n reverse).queue = (start n reverse).facing.ids.filter fun v =>
      (start n reverse).facing.left [] v = 0 := by
    simp only [← hids, ← hdegree]
    rfl
  refine ⟨?_, fun v => ?_, ?_, fun xs v ys h => ?_⟩
  · rw [List.nil_append, hqueue]
    exact hn.ids_nodup.filter _
  · rw [List.nil_append, hqueue]
    simp
  · simp only [← hids, ← hdegree]
    rfl
  · cases xs <;> cases h

theorem facing_eq_of_next? (h : t.next? = some (v, t')) : t'.facing = t.facing := by
  obtain ⟨hnetwork, hreverse, -⟩ := of_next?_eq_some h
  unfold facing
  rw [hnetwork, hreverse]

theorem facing_eq_of_produces (h : t.Produces vs t') : t'.facing = t.facing := by
  induction h with
  | nil => rfl
  | cons hnext _ ih => exact ih.trans (facing_eq_of_next? hnext)

/-- A vertex that is due is not done, and all before it are. -/
theorem Inv.ready (h : t.Inv done) {queue : List ElementId} (hq : t.queue = v :: queue) :
    v ∉ done ∧ ∀ u, t.facing.Step u v → u ∈ done := by
  have hnd := h.nodup
  have hmem := h.mem_iff v
  rw [hq] at hnd hmem
  constructor
  · exact fun hv => (List.nodup_append.mp hnd).2.2 v hv v List.mem_cons_self rfl
  · exact Network.left_eq_zero_iff.mp (hmem.mp (by simp)).2

/-- Counting off the edges from a vertex leaves those from the vertices not done. -/
theorem Inv.remaining_countOffAll (h : t.Inv done) (hn : t.facing.Coherent) (hv : v ∉ done) :
    (Network.countOffAll (t.onward v) t.remaining).1 =
      t.facing.ids.map fun w => (w, (t.facing.left (done ++ [v]) w : Int)) := by
  rw [h.remaining_eq, onward_eq, Network.countOffAll_map hn.ids_nodup]
  refine List.map_congr_left fun w _ => ?_
  rw [Network.left_concat hv w]
  simp

/-- Due are the vertices to which the last edge not counted off came from the vertex. -/
theorem Inv.mem_countOffAll (h : t.Inv done) (hn : t.facing.Coherent) (hv : v ∉ done) :
    (Network.countOffAll (t.onward v) t.remaining).2.Nodup ∧
      ∀ w, w ∈ (Network.countOffAll (t.onward v) t.remaining).2 ↔
        w ∈ t.facing.ids ∧ t.facing.left done w ≠ 0 ∧ t.facing.left (done ++ [v]) w = 0 := by
  rw [h.remaining_eq, onward_eq]
  obtain ⟨hnd, hmem⟩ := Network.mem_countOffAll_map hn.ids_nodup (t.facing.successors v)
    fun w => (t.facing.left done w : Int)
  refine ⟨hnd, fun w => (hmem w).trans (and_congr_right fun _ => ?_)⟩
  have := Network.left_concat (n := t.facing) hv w
  omega

/-- **One step of a traversal**: the vertex is done after all those before it. -/
theorem Inv.next (h : t.Inv done) (hn : t.facing.Coherent) (ht : t.next? = some (v, t')) :
    t'.Inv (done ++ [v]) := by
  obtain ⟨-, -, queue, hq, hremaining, hqueue⟩ := of_next?_eq_some ht
  have hfacing := facing_eq_of_next? ht
  obtain ⟨hv, hready⟩ := h.ready hq
  obtain ⟨hdue, hmem_due⟩ := h.mem_countOffAll hn hv
  have hlist : done ++ [v] ++ t'.queue =
      (done ++ t.queue) ++ (Network.countOffAll (t.onward v) t.remaining).2 := by
    rw [hqueue, hq]
    simp
  refine ⟨?nodup, ?mem_iff, ?remaining_eq, ?sources_first⟩
  case nodup =>
    rw [hlist, List.nodup_append]
    refine ⟨h.nodup, hdue, ?_⟩
    rintro w hw _ hw' rfl
    exact ((hmem_due w).mp hw').2.1 ((h.mem_iff w).mp hw).2
  case mem_iff =>
    intro w
    rw [hlist, List.mem_append, h.mem_iff, hmem_due, hfacing]
    have := Network.left_concat (n := t.facing) hv w
    by_cases hw : w ∈ t.facing.ids
    · simp only [hw, true_and]
      omega
    · simp [hw]
  case remaining_eq =>
    rw [hremaining, h.remaining_countOffAll hn hv, hfacing]
  case sources_first =>
    intro xs w ys hcut u hu
    rw [hfacing] at hu
    rcases List.eq_nil_or_concat ys with rfl | ⟨ys', z, rfl⟩
    · obtain ⟨rfl, hw⟩ := List.append_inj' hcut rfl
      cases hw
      exact hready u hu
    · rw [List.concat_eq_append, ← List.cons_append, ← List.append_assoc] at hcut
      exact h.sources_first xs w ys' (List.append_inj' hcut rfl).1 u hu

/-- **Any number of steps.** -/
theorem Inv.produces (hp : t.Produces vs t') (h : t.Inv done) (hn : t.facing.Coherent) :
    t'.Inv (done ++ vs) := by
  induction hp generalizing done with
  | nil t => rwa [List.append_nil]
  | cons hnext _ ih =>
    have := ih (h.next hn hnext) (by rwa [facing_eq_of_next? hnext])
    rwa [List.append_assoc] at this

end Traversal

namespace Network

variable {n : Network} {v : ElementId} {vs : List ElementId}

/-! ### What is given in all -/

/-- No cycle leads to the vertex. -/
def Clear (n : Network) (v : ElementId) : Prop :=
  ∀ c, TransGen n.Step c c → ¬ ReflTransGen n.Step c v

/-- The list has the vertices that no cycle leads to, each once and after those with an edge to
it. -/
structure Sorts (n : Network) (vs : List ElementId) : Prop where
  nodup : vs.Nodup
  mem_iff : ∀ v, v ∈ vs ↔ v ∈ n.ids ∧ n.Clear v
  before : ∀ u v, n.Step u v → v ∈ vs → vs.idxOf u < vs.idxOf v

/-- What holds of a vertex that no cycle leads to if it holds of all with an edge to it, holds of
every vertex that no cycle leads to. -/
theorem Clear.induction {motive : ElementId → Prop} (hv : n.Clear v)
    (step : ∀ v, n.Clear v → (∀ u, n.Step u v → motive u) → motive v) : motive v := by
  let Before : ElementId → ElementId → Prop := fun u v => TransGen n.Step u v ∧ n.Clear v
  have : IsTrans ElementId Before := ⟨fun _ _ _ h h' => ⟨h.1.trans h'.1, h'.2⟩⟩
  have : Std.Irrefl Before := ⟨fun _ h => h.2 _ h.1 .refl⟩
  induction v using (Finite.wellFounded_of_trans_of_irrefl Before).induction with
  | _ v ih =>
    refine step v hv fun u hu => ih u ⟨.single hu, hv⟩ fun c hc hcu => ?_
    exact hv c hc (hcu.tail hu)

/-- Where each edge leads to a later place, so does each walk. -/
theorem idxOf_lt_of_transGen (hbefore : ∀ u v, n.Step u v → v ∈ vs → vs.idxOf u < vs.idxOf v)
    {u : ElementId} (huv : TransGen n.Step u v) (hv : v ∈ vs) : vs.idxOf u < vs.idxOf v := by
  induction huv with
  | single hstep => exact hbefore _ _ hstep hv
  | @tail w x _ hstep ih =>
    have hwx := hbefore w x hstep hv
    have hw : w ∈ vs := List.idxOf_lt_length_iff.mp (hwx.trans (List.idxOf_lt_length_of_mem hv))
    exact (ih hw).trans hwx

/-- **What a traversal has given when nothing is due.** -/
theorem sorts_of_inv {t : Traversal} (h : t.Inv vs) (hn : t.facing.Coherent)
    (hq : t.queue = []) : t.facing.Sorts vs := by
  have hmem := h.mem_iff
  have hnd := h.nodup
  simp only [hq, List.append_nil, left_eq_zero_iff] at hmem hnd
  have hbefore : ∀ u v, t.facing.Step u v → v ∈ vs → vs.idxOf u < vs.idxOf v := by
    intro u v huv hv
    obtain ⟨xs, ys, rfl⟩ := List.append_of_mem hv
    have hu := h.sources_first xs v ys rfl u huv
    have hvx : v ∉ xs := fun hvx => (List.nodup_append.mp hnd).2.2 v hvx v List.mem_cons_self rfl
    rw [List.idxOf_append_of_mem hu, List.idxOf_append_of_notMem hvx]
    have := List.idxOf_lt_length_of_mem hu
    omega
  refine ⟨hnd, fun v => ⟨fun hv => ⟨((hmem v).mp hv).1, fun c hc hcv => ?_⟩, ?_⟩, hbefore⟩
  · have hback : ∀ {u w}, ReflTransGen t.facing.Step u w → w ∈ vs → u ∈ vs := by
      intro u w huw hw
      induction huw using ReflTransGen.head_induction_on with
      | refl => exact hw
      | head hstep _ ih => exact ((hmem _).mp ih).2 _ hstep
    -- along the cycle the places would grow
    exact Nat.lt_irrefl _ (idxOf_lt_of_transGen hbefore hc (hback hcv hv))
  · rintro ⟨hv, hclear⟩
    refine hclear.induction (motive := fun v => v ∈ t.facing.ids → v ∈ vs) (fun v _ ih hv => ?_) hv
    exact (hmem v).mpr ⟨hv, fun u hu => ih u hu (hn.source_mem_of_step hu)⟩

/-- **All that a traversal gives is sorted.** -/
theorem sorts_toList (t : Traversal) (h : t.Inv []) (hn : t.facing.Coherent) :
    t.facing.Sorts t.toList := by
  obtain ⟨t', hp, hq⟩ := t.exists_produces
  have hfacing := Traversal.facing_eq_of_produces hp
  rw [← hfacing] at hn ⊢
  exact sorts_of_inv (h.produces hp (hfacing ▸ hn)) hn hq

theorem reverseOrder_eq_toList (n : Network) :
    n.reverseOrder = (Traversal.start n true).toList := by
  have honward : (Traversal.start n true).onward = n.reverse.successors :=
    funext fun v => Traversal.onward_eq _ v
  have hids : n.reverse.ids = n.ids := rfl
  unfold Traversal.toList reverseOrder order
  rw [honward, hids]
  simp only [inDegree_reverse]
  rfl

theorem sorts_order (hn : n.Coherent) : n.Sorts n.order :=
  sorts_toList (Traversal.start n false) (Traversal.inv_start hn) hn

theorem sorts_reverseOrder (hn : n.Coherent) : n.reverse.Sorts n.reverseOrder := by
  rw [reverseOrder_eq_toList]
  exact sorts_toList (Traversal.start n true) (Traversal.inv_start hn.reverse) hn.reverse

namespace Sorts

/-- Without cycles every vertex is sorted. -/
theorem perm (h : n.Sorts vs) (hn : n.Coherent) (ha : n.Acyclic) : vs.Perm n.ids := by
  refine (List.perm_ext_iff_of_nodup h.nodup hn.ids_nodup).mpr fun v => ?_
  rw [h.mem_iff]
  exact and_iff_left fun c hc _ => ha c hc

/-- No vertex of a sorted list leads to one before it. -/
theorem pairwise_not_transGen (h : n.Sorts vs) : vs.Pairwise fun u v => ¬ TransGen n.Step v u := by
  refine List.pairwise_iff_getElem.mpr fun i j hi hj hij hback => ?_
  have hlt := idxOf_lt_of_transGen h.before hback (List.getElem_mem hi)
  rw [h.nodup.idxOf_getElem, h.nodup.idxOf_getElem] at hlt
  exact Nat.lt_asymm hij hlt

/-- A vertex on a cycle is missing. -/
theorem length_lt (h : n.Sorts vs) (hn : n.Coherent) (ha : ¬ n.Acyclic) :
    vs.length < n.ids.length := by
  obtain ⟨c, hc⟩ : ∃ c, TransGen n.Step c c := by
    by_contra hnone
    exact ha fun v hv => hnone ⟨v, hv⟩
  have hmissing : c ∉ vs := fun hcv => ((h.mem_iff c).mp hcv).2 c hc .refl
  have hsub : (c :: vs).Subperm n.ids := by
    refine List.subperm_of_subset (List.nodup_cons.mpr ⟨hmissing, h.nodup⟩) fun v hv => ?_
    rcases List.mem_cons.mp hv with rfl | hv
    · exact hn.source_mem_of_transGen hc
    · exact ((h.mem_iff v).mp hv).1
  exact hsub.length_le

end Sorts

/-- **A sorted list passes as an order of all vertices exactly without cycles.** -/
theorem Sorts.complete {m : Network} (h : m.Sorts vs) (hm : m.Coherent) (hids : n.ids = m.ids) :
    (m.Acyclic ∧ n.complete vs = .ok vs ∧ vs.Perm n.ids) ∨
      (¬ m.Acyclic ∧ ∃ reason, n.complete vs = .error (.noOrder reason)) := by
  have hcount : n.vertexCount = m.ids.length := by
    rw [← hids]
    exact (List.length_map _).symm
  unfold Network.complete
  by_cases ha : m.Acyclic
  · have hperm := h.perm hm ha
    rw [if_pos (hperm.length_eq.trans hcount.symm), hids]
    exact .inl ⟨ha, rfl, hperm⟩
  · have hlt := h.length_lt hm ha
    rw [if_neg (by omega)]
    exact .inr ⟨ha, _, rfl⟩

/-- An order is all of the list, with every vertex, where there is no cycle, and fails where there
is one. -/
def Orders (n : Network) (vs : List ElementId) (order : Except Failure (List ElementId)) : Prop :=
  (order = .ok vs ∧ vs.Perm n.ids ↔ n.Acyclic) ∧
    ((∃ reason, order = .error (.noOrder reason)) ↔ ¬ n.Acyclic)

theorem orders_of {order : Except Failure (List ElementId)}
    (h : (n.Acyclic ∧ order = .ok vs ∧ vs.Perm n.ids) ∨
      (¬ n.Acyclic ∧ ∃ reason, order = .error (.noOrder reason))) : n.Orders vs order := by
  rcases h with ⟨ha, hok, hperm⟩ | ⟨ha, reason, herror⟩
  · refine ⟨iff_of_true ⟨hok, hperm⟩ ha, iff_of_false ?_ (not_not.mpr ha)⟩
    rw [hok]
    exact nofun
  · refine ⟨iff_of_false ?_ ha, iff_of_true ⟨reason, herror⟩ ha⟩
    rw [herror]
    exact nofun

theorem orders_topologicalOrder (hn : n.Coherent) : n.Orders n.order n.topologicalOrder :=
  orders_of ((sorts_order hn).complete hn rfl)

theorem orders_reverseTopologicalOrder (hn : n.Coherent) :
    n.Orders n.reverseOrder n.reverseTopologicalOrder := by
  have h := (sorts_reverseOrder hn).complete hn.reverse (n := n) rfl
  rw [acyclic_reverse] at h
  exact orders_of h

end Network

/-- What is left to count off falls below zero at no vertex, however far the traversal has come and
however many of the next edges are counted off. -/
def Traversal.CountsDown (t : Traversal) : Prop :=
  ∀ vs t', t.Produces vs t' → ∀ v queue, t'.queue = v :: queue → ∀ us, us <+: t'.onward v →
    ∀ c ∈ (Network.countOffAll us t'.remaining).1, 0 ≤ c.2

namespace Network

variable {n : Network}

theorem left_ge_count {done us : List ElementId} {v : ElementId} (hv : v ∉ done)
    (hus : us <+: n.successors v) (w : ElementId) : us.count w ≤ n.left done w := by
  have hcount : us.count w ≤ (n.successors v).count w := hus.sublist.count_le w
  have := left_concat (n := n) hv w
  omega

theorem countsDown_of_inv {t : Traversal} (h : t.Inv []) (hn : t.facing.Coherent) :
    t.CountsDown := by
  intro vs t' hp v queue hq us hus c hc
  have hfacing := Traversal.facing_eq_of_produces hp
  have h' := h.produces hp hn
  rw [List.nil_append] at h'
  rw [h'.remaining_eq, countOffAll_map (hfacing ▸ hn.ids_nodup)] at hc
  obtain ⟨w, -, rfl⟩ := List.mem_map.mp hc
  have := left_ge_count (h'.ready hq).1 (t'.onward_eq v ▸ hus) w
  simp only
  omega

/-- **Topological traversal is exact**, along the edges and against them. What it gives is sorted,
and its counts never fall below zero. It orders all vertices where there is no cycle, and fails
where there is one; in a plan there is none, nor in a view of one. -/
theorem traversal_sorts (hn : n.Coherent) :
    (n.Sorts n.order ∧ ∃ t, (Traversal.start n false).Produces n.order t ∧ t.next? = none) ∧
    (n.reverse.Sorts n.reverseOrder ∧
      ∃ t, (Traversal.start n true).Produces n.reverseOrder t ∧ t.next? = none) ∧
    (∀ reverse, (Traversal.start n reverse).CountsDown) ∧
    (n.Orders n.order n.topologicalOrder ∧
      n.Orders n.reverseOrder n.reverseTopologicalOrder) ∧
    ∀ (p : Plan) (layers : List Layer),
      let view := p.network.through layers
      (view.topologicalOrder = .ok view.order ∧ view.order.Perm view.ids) ∧
        view.reverseTopologicalOrder = .ok view.reverseOrder ∧
          view.reverseOrder.Perm view.ids := by
  refine ⟨⟨sorts_order hn, ?_⟩, ⟨sorts_reverseOrder hn, ?_⟩, ?_, ?_, fun p layers => ?_⟩
  · simp only [Traversal.next?_eq_none_iff]
    exact (Traversal.start n false).exists_produces
  · rw [reverseOrder_eq_toList]
    simp only [Traversal.next?_eq_none_iff]
    exact (Traversal.start n true).exists_produces
  · rintro (_ | _)
    · exact countsDown_of_inv (Traversal.inv_start hn) hn
    · exact countsDown_of_inv (Traversal.inv_start hn.reverse) hn.reverse
  · exact ⟨orders_topologicalOrder hn, orders_reverseTopologicalOrder hn⟩
  · have hview : (p.network.through layers).Coherent := p.coherent.through layers
    have ha : (p.network.through layers).Acyclic := p.acyclic.through layers
    exact ⟨(orders_topologicalOrder hview).1.mpr ha, (orders_reverseTopologicalOrder hview).1.mpr ha⟩

/-- A cycle of two vertices that a loop hangs on and parallel edges lead to, and what is behind
it. -/
def roundabout : Network :=
  .unchecked ([2, 3, 4, 5, 6].map fun v => .transform ⟨⟨v⟩, ""⟩)
    ([(2, 3), (2, 3), (3, 4), (4, 3), (4, 4), (4, 5), (2, 6)].map fun e =>
      (⟨e.1⟩, ⟨e.2⟩, .named ""))

theorem traversal_sorts_roundabout :
    roundabout.Coherent ∧ roundabout.Sorts [⟨2⟩, ⟨6⟩] ∧ roundabout.reverse.Sorts [⟨5⟩, ⟨6⟩] ∧
      (∀ reverse, (Traversal.start roundabout reverse).CountsDown) ∧ ¬ roundabout.Acyclic := by
  have hn : roundabout.Coherent :=
    ⟨by decide +kernel, by decide +kernel, by decide +kernel, by decide +kernel⟩
  have horder : roundabout.order = [⟨2⟩, ⟨6⟩] := by decide +kernel
  have hreverse : roundabout.reverseOrder = [⟨5⟩, ⟨6⟩] := by decide +kernel
  obtain ⟨⟨hsorts, -⟩, ⟨hsorts', -⟩, hdown, ⟨horders, -⟩, -⟩ := traversal_sorts hn
  rw [horder] at hsorts
  rw [hreverse] at hsorts'
  have hfails : ∃ reason, roundabout.topologicalOrder = .error (.noOrder reason) := by
    unfold topologicalOrder
    rw [horder]
    exact ⟨_, rfl⟩
  exact ⟨hn, hsorts, hsorts', hdown, horders.2.mp hfails⟩

end Network

end Dataflow
