import Mathlib.Data.Set.Card
import Dataflow.Proofs.Path.Exact
import Dataflow.Proofs.Plan.Edge
import Dataflow.Proofs.Splice.Count

/-!
# What a count of paths says

The count goes over the direct paths as they are found, reads of each the name of its last edge, and
enters it for the ordinal of the first branch of that name. Here the direct paths are lists of edges
of the network, and what the count answers is said of them alone.

* **`PathCounts.Tallies.foldl`**: the entries are how often each ordinal was met.
* **`Feed.ofCounts?_eq`**: the class of counts, by which ordinals have an entry.
* **`Network.mem_directPaths`, `Network.ncard_directPaths`**: the direct paths, each found once.
* **`Plan.countPaths_exact`**: when the count fails and how, what it counts otherwise, and which
  class the counts have.
-/

namespace Dataflow

/-! ### Counts by ordinal -/

namespace PathCounts

variable {cs : PathCounts} {os : List Nat} {o o' k : Nat}

/-- The entries of other ordinals stay. -/
theorem mem_update_of_ne (h : o' ≠ o) (f : Option Nat → Nat) (cs : PathCounts) :
    (o', k) ∈ update o f cs ↔ (o', k) ∈ cs := by
  induction cs with
  | nil => simp [update, h]
  | cons c cs ih =>
    obtain ⟨a, j⟩ := c
    unfold update
    split
    · simp [h]
    · split
      · rename_i heq
        subst heq
        simp [h]
      · rw [List.mem_cons, List.mem_cons, ih]

/-- The entry of the ordinal is found from the one before. -/
theorem mem_update_self (hasc : cs.Pairwise (·.1 < ·.1)) (f : Option Nat → Nat) :
    (o, k) ∈ update o f cs ↔
      (∃ j, (o, j) ∈ cs ∧ k = f (some j)) ∨ ((∀ j, (o, j) ∉ cs) ∧ k = f none) := by
  induction cs with
  | nil => simp [update]
  | cons c cs ih =>
    obtain ⟨a, j⟩ := c
    -- behind a larger ordinal there is no entry, so a new one is not a second one
    obtain ⟨hhead, hrest⟩ := List.pairwise_cons.mp hasc
    have ih := ih hrest
    grind [update]

/-- The entries stay in the order of their ordinals. -/
theorem ascending_update (hasc : cs.Pairwise (·.1 < ·.1)) (o : Nat) (f : Option Nat → Nat) :
    (update o f cs).Pairwise (·.1 < ·.1) := by
  induction cs with
  | nil => simp [update]
  | cons c cs ih =>
    obtain ⟨a, j⟩ := c
    obtain ⟨hhead, hrest⟩ := List.pairwise_cons.mp hasc
    unfold update
    split
    case isTrue hlt =>
      refine List.pairwise_cons.mpr ⟨fun c hc => ?_, hasc⟩
      rcases List.mem_cons.mp hc with rfl | hc
      · exact hlt
      · exact Nat.lt_trans hlt (hhead c hc)
    case isFalse hge =>
      split
      case isTrue heq => exact List.pairwise_cons.mpr ⟨hhead, hrest⟩
      case isFalse hne =>
        refine List.pairwise_cons.mpr ⟨fun c hc => ?_, ih hrest⟩
        by_cases hc' : c.1 = o
        · rw [hc']
          omega
        · exact hhead c ((mem_update_of_ne hc' f cs).mp hc)

/-- The counts say of each ordinal of a list how often it occurs, by ascending ordinal. -/
structure Tallies (os : List Nat) (cs : PathCounts) : Prop where
  ascending : cs.Pairwise (·.1 < ·.1)
  mem_iff : ∀ o k, (o, k) ∈ cs ↔ 0 < k ∧ k = os.count o

theorem tallies_nil : Tallies [] [] where
  ascending := .nil
  mem_iff o k := by
    rw [List.count_nil]
    exact iff_of_false List.not_mem_nil fun h => Nat.ne_of_gt h.1 h.2

/-- One more ordinal is counted. -/
theorem Tallies.increment (h : Tallies os cs) (o : Nat) : Tallies (os ++ [o]) (cs.increment o) where
  ascending := ascending_update h.ascending o _
  mem_iff o' k := by
    rw [List.count_append, List.count_singleton]
    by_cases ho : o' = o
    · subst ho
      have hmem := mem_update_self (o := o') (k := k) h.ascending fun k => k.getD 0 + 1
      simp only [h.mem_iff, Option.getD_some, Option.getD_none] at hmem
      refine hmem.trans ?_
      rw [if_pos (beq_self_eq_true o')]
      constructor
      · rintro (⟨j, ⟨-, rfl⟩, rfl⟩ | ⟨hnone, rfl⟩)
        · exact ⟨Nat.succ_pos _, rfl⟩
        · have hzero : os.count o' = 0 := Nat.eq_zero_of_not_pos fun hpos => hnone _ ⟨hpos, rfl⟩
          rw [hzero]
          exact ⟨Nat.one_pos, rfl⟩
      · rintro ⟨-, rfl⟩
        rcases Nat.eq_zero_or_pos (os.count o') with hzero | hpos
        · rw [hzero]
          exact .inr ⟨fun j h => Nat.ne_of_gt h.1 h.2, rfl⟩
        · exact .inl ⟨_, ⟨hpos, rfl⟩, rfl⟩
    · rw [if_neg fun h => ho (eq_of_beq h).symm]
      exact (mem_update_of_ne ho _ cs).trans (h.mem_iff o' k)

/-- **The ordinals of a list are counted.** -/
theorem Tallies.foldl (h : Tallies os cs) (os' : List Nat) :
    Tallies (os ++ os') (os'.foldl (fun cs o => cs.increment o) cs) := by
  induction os' generalizing os cs with
  | nil => simpa using h
  | cons o os' ih => simpa using ih (h.increment o)

end PathCounts

/-! ### Classes of counts -/

/-- Where the streamed ordinal is fed, there is more than one entry if another is fed, too. -/
theorem PathCounts.one_lt_length_iff {cs : PathCounts} (hasc : cs.Pairwise (·.1 < ·.1))
    (h : ∃ c ∈ cs, c.1 = 0) : 1 < cs.length ↔ ∃ c ∈ cs, c.1 ≠ 0 := by
  match cs, hasc, h with
  | [c], _, h => simpa using h
  | c :: d :: cs, hasc, _ =>
    obtain ⟨hhead, -⟩ := List.pairwise_cons.mp hasc
    have hd : d.1 ≠ 0 := Nat.ne_of_gt (Nat.lt_of_le_of_lt c.1.zero_le (hhead d List.mem_cons_self))
    exact iff_of_true (by simp) ⟨d, by simp, hd⟩

/-- **The class tells whether the streamed ordinal is fed, and whether another is.** -/
theorem Feed.ofCounts?_eq {cs : PathCounts} (hasc : cs.Pairwise (·.1 < ·.1)) : ofCounts? cs =
    if ∃ c ∈ cs, c.1 = 0 then
      if ∃ c ∈ cs, c.1 ≠ 0 then some both else some streamOnly
    else if ∃ c ∈ cs, c.1 ≠ 0 then some accumulatedOnly
    else none := by
  have hstreams : cs.streams = true ↔ ∃ c ∈ cs, c.1 = 0 := by
    simp only [PathCounts.streams, List.any_eq_true, decide_eq_true_eq]
  unfold ofCounts? PathCounts.feedsBoth PathCounts.feedsStreamOnly PathCounts.feedsAccumulatedOnly
  by_cases hs : ∃ c ∈ cs, c.1 = 0
  · have hpos : 0 < cs.length := by
      obtain ⟨c, hc, -⟩ := hs
      exact List.length_pos_of_mem hc
    have hlen := PathCounts.one_lt_length_iff hasc hs
    simp only [hstreams.mpr hs, if_pos hs, Bool.and_true, decide_eq_true_eq, hlen]
    split
    case isTrue => rfl
    case isFalse hno => rw [if_pos (by rw [← hlen] at hno; omega)]
  · have hnot : cs.streams = false := Bool.eq_false_iff.mpr (mt hstreams.mp hs)
    have hother : (!cs.isEmpty) = true ↔ ∃ c ∈ cs, c.1 ≠ 0 := by
      cases cs with
      | nil => simp
      | cons c cs =>
        exact iff_of_true rfl ⟨c, List.mem_cons_self, fun hc => hs ⟨c, List.mem_cons_self, hc⟩⟩
    simp only [hnot, if_neg hs, Bool.and_false, Bool.false_eq_true, if_false, Bool.not_false,
      Bool.and_true, hother]

/-! ### Inputs -/

namespace Element

/-- The input of a splice that takes what arrives under a name: the one input of a grouping, and
that of a join whose branch is the first of the name. -/
def Takes (e : Element) (name : String) (o : Nat) : Prop :=
  match e with
  | grouping _ => o = 0
  | join j => j.branches[o]? = some name ∧ ∀ i < o, j.branches[i]? ≠ some name
  | _ => False

theorem ordinalOf_eq_some_iff {e : Element} {name : String} {o : Nat} :
    e.ordinalOf name = some o ↔ e.Takes name o := by
  cases e with
  | grouping _ => simp [ordinalOf, Takes, eq_comm]
  | join j =>
    simp only [ordinalOf, Takes, Junction.ordinalOf, List.idxOf?_eq_some_iff]
    constructor
    · rintro ⟨hlt, hname, hfirst⟩
      refine ⟨List.getElem?_eq_some_iff.mpr ⟨hlt, hname⟩, fun i hi hsome => ?_⟩
      exact hfirst i hi (List.getElem?_eq_some_iff.mp hsome).2
    · rintro ⟨hname, hfirst⟩
      obtain ⟨hlt, hname⟩ := List.getElem?_eq_some_iff.mp hname
      exact ⟨hlt, hname, fun i hi hi' => hfirst i hi (List.getElem?_eq_some_iff.mpr ⟨_, hi'⟩)⟩
  | _ => simp [ordinalOf, Takes]

/-- A splice takes everything but what arrives at a join under the name of none of its branches. -/
theorem ordinalOf_eq_none_iff {e : Element} (he : e.isSplice = true) {name : String} :
    e.ordinalOf name = none ↔ ∃ j, e = .join j ∧ name ∉ j.branches := by
  cases e with
  | grouping _ => simp [ordinalOf]
  | join j => simp [ordinalOf, Junction.ordinalOf]
  | _ => exact absurd he Bool.false_ne_true

end Element

namespace Network

variable {n : Network} {s t : ElementId} {ls : List Link}

/-! ### Direct paths -/

/-- A path on which no vertex between the ends is a boundary or a grouping. -/
structure IsDirectPath (n : Network) (s t : ElementId) (ls : List Link) : Prop
    extends n.IsPath s t ls where
  passable : ∀ l ∈ ls.dropLast, ∀ e, n.element? l.target = some e →
    e.isBoundary = false ∧ e.isGrouping = false

/-- **The direct paths are found, and nothing else.** -/
theorem mem_directPaths (hn : n.Coherent) {q : Path} :
    q ∈ n.directPaths s t ↔ ∃ ls, n.IsDirectPath s t ls ∧ q = course s ls := by
  have hinterior : ∀ ls, (course s ls).interior.all n.isPassable = true ↔
      ∀ l ∈ ls.dropLast, ∀ e, n.element? l.target = some e →
        e.isBoundary = false ∧ e.isGrouping = false := by
    intro ls
    unfold Path.interior
    rw [vertices_course, List.tail_cons, ← List.map_dropLast, List.all_map, List.all_eq_true]
    simp only [Function.comp_apply, isPassable_iff]
  unfold directPaths
  rw [pathsThrough_eq_filter, List.mem_filter, mem_paths_iff hn]
  constructor
  · rintro ⟨⟨ls, hls, rfl⟩, hpass⟩
    exact ⟨ls, ⟨hls, (hinterior ls).mp hpass⟩, rfl⟩
  · rintro ⟨ls, ⟨hls, hpass⟩, rfl⟩
    exact ⟨⟨ls, hls, rfl⟩, (hinterior ls).mpr hpass⟩

theorem nodup_directPaths (hn : n.Coherent) (s t : ElementId) : (n.directPaths s t).Nodup := by
  have hedges : ((n.routes s t).map (·.edges)).Nodup := by
    refine (hn.ascending_routes s t).imp ?_
    rintro xs _ hlt rfl
    exact Std.Irrefl.irrefl _ hlt
  rw [routes_eq] at hedges
  unfold directPaths
  rw [pathsThrough_eq_filter]
  exact ((hedges.of_map _).of_map _).filter _

/-- The edges of a path, by their numbers. -/
theorem Follows.map_link? (hn : n.Coherent) (h : n.Follows s ls t) :
    (ls.map moveAlong).map (fun m => n.link? m.link) = ls.map some := by
  induction h with
  | nil _ => rfl
  | cons hl _ ih =>
    rw [List.map_cons, List.map_cons, List.map_cons, ih]
    exact congrArg (· :: _) (hn.link?_eq hl)

theorem course_injOn (hn : n.Coherent) (s t : ElementId) :
    Set.InjOn (course s) {ls | n.IsDirectPath s t ls} := by
  intro ks hk ls hl h
  have hmoves : ks.map moveAlong = ls.map moveAlong := congrArg Path.moves h
  refine List.map_injective_iff.mpr (Option.some_injective Link) ?_
  rw [← hk.follows.map_link? hn, ← hl.follows.map_link? hn, hmoves]

/-- The name by which a path arrives is that of its last edge. -/
theorem lastName?_course (hn : n.Coherent) (h : n.Follows s ls t) :
    n.lastName? (course s ls) = ls.getLast?.map (·.edge.name) := by
  have hlast := congrArg List.getLast? (h.map_link? hn)
  simp only [List.getLast?_map] at hlast
  unfold lastName? Path.lastLink? Path.links course
  simp only [List.getLast?_map]
  cases hl : ls.getLast? with
  | none => rfl
  | some l =>
    rw [hl] at hlast
    exact congrArg (Option.map (·.edge.name)) (Option.some.inj hlast)

/-- Direct paths of a kind are as many as are found. -/
theorem ncard_directPaths (hn : n.Coherent) {P : List Link → Prop} {found : Path → Bool}
    (hfound : ∀ ls, n.IsDirectPath s t ls → (found (course s ls) = true ↔ P ls)) :
    {ls | n.IsDirectPath s t ls ∧ P ls}.ncard = (n.directPaths s t).countP found := by
  have himage : course s '' {ls | n.IsDirectPath s t ls ∧ P ls} =
      ((n.directPaths s t).filter found).toFinset := by
    ext q
    rw [List.coe_toFinset, Set.mem_image, Set.mem_ofPred_eq, List.mem_filter, mem_directPaths hn]
    constructor
    · rintro ⟨ls, ⟨hls, hP⟩, rfl⟩
      exact ⟨⟨ls, hls, rfl⟩, (hfound ls hls).mpr hP⟩
    · rintro ⟨⟨ls, hls, rfl⟩, hq⟩
      exact ⟨ls, ⟨hls, (hfound ls hls).mp hq⟩, rfl⟩
  rw [← ((course_injOn hn s t).mono fun ls hls => hls.1).ncard_image, himage, Set.ncard_coe_finset,
    List.toFinset_card_of_nodup ((nodup_directPaths hn s t).filter _), List.countP_eq_length_filter]

theorem finite_directPaths (hn : n.Coherent) (s t : ElementId) :
    {ls | n.IsDirectPath s t ls}.Finite := by
  refine Set.Finite.of_finite_image ?_ (course_injOn hn s t)
  refine ((n.directPaths s t).toFinset.finite_toSet).subset ?_
  rintro _ ⟨ls, hls, rfl⟩
  exact List.mem_toFinset.mpr ((mem_directPaths hn).mpr ⟨ls, hls, rfl⟩)

/-! ### Arrivals -/

/-- The path arrives at the input that takes the name of its last edge. -/
def ArrivesAt (n : Network) (t : ElementId) (ls : List Link) (o : Nat) : Prop :=
  ∃ e l, n.element? t = some e ∧ ls.getLast? = some l ∧ e.Takes l.edge.name o

/-- The path arrives at a join, and the name of its last edge is that of none of the branches. -/
def ArrivesUndeclared (n : Network) (t : ElementId) (ls : List Link) (name : String) : Prop :=
  ∃ j l, n.element? t = some (.join j) ∧ ls.getLast? = some l ∧ l.edge.name = name ∧
    name ∉ j.branches

section Arrivals

variable {e : Element} (hn : n.Coherent) (he : n.element? t = some e)

include he in
theorem arrivesAt_iff {o : Nat} :
    n.ArrivesAt t ls o ↔ (ls.getLast?.map (·.edge.name)).bind e.ordinalOf = some o := by
  unfold ArrivesAt
  simp only [he, Option.some.injEq, exists_and_left, exists_eq_left',
    ← Element.ordinalOf_eq_some_iff]
  cases ls.getLast? <;> simp

/-- A path arrives at one input only. -/
theorem ArrivesAt.unique {o o' : Nat} (h : n.ArrivesAt t ls o) (h' : n.ArrivesAt t ls o') :
    o = o' := by
  obtain ⟨e, l, he, hl, ho⟩ := h
  obtain ⟨e', l', he', hl', ho'⟩ := h'
  cases he.symm.trans he'
  cases hl.symm.trans hl'
  rw [← Element.ordinalOf_eq_some_iff] at ho ho'
  exact Option.some.inj (ho.symm.trans ho')

include hn

theorem mem_arrivalNames {name : String} : name ∈ n.arrivalNames s t ↔
    ∃ ls l, n.IsDirectPath s t ls ∧ ls.getLast? = some l ∧ l.edge.name = name := by
  unfold arrivalNames
  simp only [List.mem_filterMap, mem_directPaths hn]
  constructor
  · rintro ⟨_, ⟨ls, hls, rfl⟩, hname⟩
    rw [lastName?_course hn hls.follows, Option.map_eq_some_iff] at hname
    obtain ⟨l, hl, hname⟩ := hname
    exact ⟨ls, l, hls, hl, hname⟩
  · rintro ⟨ls, l, hls, hl, rfl⟩
    refine ⟨_, ⟨ls, hls, rfl⟩, ?_⟩
    rw [lastName?_course hn hls.follows, hl]
    rfl

include he

/-- A name of arrival is not declared exactly if some direct path arrives under it and it is that of
none of the branches. -/
theorem undeclared_iff (hsplice : e.isSplice = true) {name : String} :
    name ∈ n.arrivalNames s t ∧ e.ordinalOf name = none ↔
      ∃ ls, n.IsDirectPath s t ls ∧ n.ArrivesUndeclared t ls name := by
  rw [mem_arrivalNames hn, Element.ordinalOf_eq_none_iff hsplice]
  constructor
  · rintro ⟨⟨ls, l, hls, hl, hname⟩, j, rfl, hbranch⟩
    exact ⟨ls, hls, j, l, he, hl, hname, hbranch⟩
  · rintro ⟨ls, hls, j, l, hj, hl, hname, hbranch⟩
    exact ⟨⟨ls, l, hls, hl, hname⟩, j, Option.some.inj (he.symm.trans hj), hbranch⟩

/-- **Each ordinal is met as often as direct paths arrive at it.** -/
theorem count_ordinals (o : Nat) : ((n.arrivalNames s t).filterMap e.ordinalOf).count o =
    {ls | n.IsDirectPath s t ls ∧ n.ArrivesAt t ls o}.ncard := by
  unfold arrivalNames
  rw [List.filterMap_filterMap, List.count_filterMap]
  refine (ncard_directPaths hn fun ls hls => ?_).symm
  rw [lastName?_course hn hls.follows, arrivesAt_iff he, beq_iff_eq]

end Arrivals

/-! ### The count -/

/-- The counts are those of the direct paths by the inputs at which they arrive. -/
structure CountsArrivals (n : Network) (s t : ElementId) (cs : PathCounts) : Prop where
  ascending : cs.Pairwise (·.1 < ·.1)
  mem_iff : ∀ o k, (o, k) ∈ cs ↔
    0 < k ∧ k = {ls | n.IsDirectPath s t ls ∧ n.ArrivesAt t ls o}.ncard
  /-- Every path is counted. -/
  arrives : ∀ ls, n.IsDirectPath s t ls → ∃ o, n.ArrivesAt t ls o
  finite : {ls | n.IsDirectPath s t ls}.Finite

/-- The class is that of the direct paths. -/
structure ClassifiesArrivals (n : Network) (s t : ElementId) (feed? : Option Feed) : Prop where
  none : feed? = none ↔ ∀ ls, ¬ n.IsDirectPath s t ls
  streamOnly : feed? = some .streamOnly ↔
    (∃ ls, n.IsDirectPath s t ls) ∧ ∀ ls, n.IsDirectPath s t ls → n.ArrivesAt t ls 0
  accumulatedOnly : feed? = some .accumulatedOnly ↔
    (∃ ls, n.IsDirectPath s t ls) ∧ ∀ ls, n.IsDirectPath s t ls → ¬ n.ArrivesAt t ls 0
  both : feed? = some .both ↔ (∃ ls, n.IsDirectPath s t ls ∧ n.ArrivesAt t ls 0) ∧
    ∃ ls, n.IsDirectPath s t ls ∧ ¬ n.ArrivesAt t ls 0

/-- **Where every name of arrival is declared, the count is that of the direct paths.** -/
theorem exists_countsArrivals {e : Element} (hn : n.Coherent) (he : n.element? t = some e)
    (hsplice : e.isSplice = true)
    (hnames : ∀ ls name, n.IsDirectPath s t ls → ¬ n.ArrivesUndeclared t ls name) (skip : Bool) :
    ∃ cs, n.countPaths s t skip = .ok cs ∧ n.CountsArrivals s t cs := by
  have hdeclared : ∀ b ∈ n.arrivalNames s t, e.ordinalOf b ≠ none := by
    intro b hb hnone
    obtain ⟨ls, hls, hname⟩ := (undeclared_iff hn he hsplice).mp ⟨hb, hnone⟩
    exact hnames ls b hls hname
  have htally := PathCounts.tallies_nil.foldl ((n.arrivalNames s t).filterMap e.ordinalOf)
  refine ⟨_, ?_, htally.ascending, fun o k => ?_, fun ls hls => ?_, finite_directPaths hn s t⟩
  · rw [countPaths_eq, he]
    simp only [hsplice, if_true]
    exact tally_eq_ok hdeclared []
  · rw [htally.mem_iff, List.nil_append, count_ordinals hn he]
  · obtain ⟨l, hl⟩ : ∃ l, ls.getLast? = some l :=
      Option.ne_none_iff_exists'.mp (mt List.getLast?_eq_none_iff.mp hls.ne_nil)
    have hname := (mem_arrivalNames hn).mpr ⟨ls, l, hls, hl, rfl⟩
    obtain ⟨o, ho⟩ := Option.ne_none_iff_exists'.mp (hdeclared _ hname)
    exact ⟨o, e, l, he, hl, Element.ordinalOf_eq_some_iff.mp ho⟩

namespace CountsArrivals

variable {cs : PathCounts}

/-- There is an entry for an ordinal exactly if some direct path arrives there. -/
theorem exists_mem_iff (h : n.CountsArrivals s t cs) {o : Nat} :
    (∃ k, (o, k) ∈ cs) ↔ ∃ ls, n.IsDirectPath s t ls ∧ n.ArrivesAt t ls o := by
  have hfinite : {ls | n.IsDirectPath s t ls ∧ n.ArrivesAt t ls o}.Finite :=
    h.finite.subset fun _ hls => hls.1
  simp only [h.mem_iff, exists_eq_right]
  exact Set.ncard_pos hfinite

/-- **The class of the counts is that of the direct paths.** -/
theorem classifies (h : n.CountsArrivals s t cs) :
    n.ClassifiesArrivals s t (Feed.ofCounts? cs) := by
  have hzero : (∃ c ∈ cs, c.1 = 0) ↔ ∃ ls, n.IsDirectPath s t ls ∧ n.ArrivesAt t ls 0 := by
    rw [← h.exists_mem_iff]
    simp
  have hother : (∃ c ∈ cs, c.1 ≠ 0) ↔ ∃ ls, n.IsDirectPath s t ls ∧ ¬ n.ArrivesAt t ls 0 := by
    constructor
    · rintro ⟨⟨o, k⟩, hc, hne⟩
      obtain ⟨ls, hls, ho⟩ := (h.exists_mem_iff).mp ⟨k, hc⟩
      exact ⟨ls, hls, fun h0 => hne (ho.unique h0)⟩
    · rintro ⟨ls, hls, hne⟩
      obtain ⟨o, ho⟩ := h.arrives ls hls
      obtain ⟨k, hk⟩ := (h.exists_mem_iff).mpr ⟨ls, hls, ho⟩
      exact ⟨(o, k), hk, fun h0 => hne (h0 ▸ ho)⟩
  -- some path arrives at the streamed input or none, and some elsewhere or none
  rw [Feed.ofCounts?_eq h.ascending]
  split_ifs with hz ho ho
  all_goals
    rw [hzero] at hz
    rw [hother] at ho
    constructor <;> grind

end CountsArrivals

/-- What the count of the direct paths from one vertex to another answers. -/
structure CountsDirectPaths (n : Network) (s t : ElementId) (r : Except Failure PathCounts) :
    Prop where
  notAVertex : r = .error (.notAVertex t) ↔ t ∉ n.ids
  notASplice : r = .error (.notASplice t) ↔
    ∃ e, n.element? t = some e ∧ e.isGrouping = false ∧ e.isMultiInput = false
  undeclared : (∃ name, r = .error (.undeclaredBranch t name)) ↔
    ∃ ls name, n.IsDirectPath s t ls ∧ n.ArrivesUndeclared t ls name
  /-- The name that is reported is one that some direct path arrives under. -/
  reported : ∀ name, r = .error (.undeclaredBranch t name) →
    ∃ ls, n.IsDirectPath s t ls ∧ n.ArrivesUndeclared t ls name
  /-- Otherwise there are counts. -/
  counted : ∀ e, n.element? t = some e → e.isSplice = true →
    (∀ ls name, n.IsDirectPath s t ls → ¬ n.ArrivesUndeclared t ls name) →
    ∃ cs, r = .ok cs ∧ n.CountsArrivals s t cs ∧ n.ClassifiesArrivals s t (Feed.ofCounts? cs)

theorem countsDirectPaths_of_not_mem (ht : t ∉ n.ids) :
    n.CountsDirectPaths s t (.error (.notAVertex t)) := by
  have hnone : ∀ e, n.element? t ≠ some e := fun e he => ht (mem_ids_of_element? he)
  refine ⟨iff_of_true rfl ht, iff_of_false nofun ?_, iff_of_false nofun ?_, nofun,
    fun e he => absurd he (hnone e)⟩
  · exact fun ⟨e, he, _⟩ => hnone e he
  · exact fun ⟨_, _, _, j, _, hj, _⟩ => hnone _ hj

section Vertex

variable {e : Element} (he : n.element? t = some e)

include he

theorem countsDirectPaths_of_not_isSplice (hsplice : e.isSplice = false) :
    n.CountsDirectPaths s t (.error (.notASplice t)) := by
  obtain ⟨hgrouping, hjoin⟩ := Bool.or_eq_false_iff.mp hsplice
  refine ⟨iff_of_false nofun fun h => h (mem_ids_of_element? he),
    iff_of_true rfl ⟨e, he, hgrouping, hjoin⟩, iff_of_false nofun ?_, nofun,
    fun e' he' hsplice' => ?_⟩
  · rintro ⟨_, _, _, j, _, hj, -⟩
    cases he.symm.trans hj
    cases hjoin
  · cases he.symm.trans he'
    rw [hsplice] at hsplice'
    cases hsplice'

variable (hsplice : e.isSplice = true)

include hsplice

theorem not_exists_neither : ¬ ∃ e', n.element? t = some e' ∧ e'.isGrouping = false ∧
    e'.isMultiInput = false := by
  rintro ⟨e', he', hgrouping, hjoin⟩
  cases he.symm.trans he'
  rw [Element.isSplice, hgrouping, hjoin] at hsplice
  cases hsplice

theorem countsDirectPaths_of_undeclared {name : String} (hls : n.IsDirectPath s t ls)
    (hname : n.ArrivesUndeclared t ls name) :
    n.CountsDirectPaths s t (.error (.undeclaredBranch t name)) := by
  refine ⟨iff_of_false nofun fun h => h (mem_ids_of_element? he),
    iff_of_false nofun (not_exists_neither he hsplice),
    iff_of_true ⟨name, rfl⟩ ⟨ls, name, hls, hname⟩, ?_,
    fun _ _ _ hall => absurd hname (hall ls name hls)⟩
  rintro _ ⟨⟩
  exact ⟨ls, hls, hname⟩

theorem countsDirectPaths_of_declared {cs : PathCounts}
    (hall : ∀ ls name, n.IsDirectPath s t ls → ¬ n.ArrivesUndeclared t ls name)
    (hcounts : n.CountsArrivals s t cs) : n.CountsDirectPaths s t (.ok cs) :=
  ⟨iff_of_false nofun fun h => h (mem_ids_of_element? he),
    iff_of_false nofun (not_exists_neither he hsplice),
    iff_of_false nofun fun ⟨ls, name, hls, hname⟩ => hall ls name hls hname, nofun,
    fun _ _ _ _ => ⟨cs, rfl, hcounts, hcounts.classifies⟩⟩

end Vertex

/-- Counts are those of the direct paths, and so is their class. -/
theorem CountsDirectPaths.of_ok {cs : PathCounts} (h : n.CountsDirectPaths s t (.ok cs)) :
    n.CountsArrivals s t cs ∧ n.ClassifiesArrivals s t (Feed.ofCounts? cs) := by
  have ht : t ∈ n.ids := Classical.byContradiction fun ht => nomatch h.notAVertex.mpr ht
  obtain ⟨e, he⟩ := exists_element? ht
  have hsplice : e.isSplice = true := by
    refine Bool.eq_true_of_not_eq_false fun hnot => ?_
    obtain ⟨hgrouping, hjoin⟩ := Bool.or_eq_false_iff.mp hnot
    cases h.notASplice.mpr ⟨e, he, hgrouping, hjoin⟩
  obtain ⟨cs', hcs, hcounts⟩ := h.counted e he hsplice fun ls name hls hname => by
    obtain ⟨_, hfail⟩ := h.undeclared.mpr ⟨ls, name, hls, hname⟩
    cases hfail
  cases hcs
  exact hcounts

/-- **Every answer of the count is the one that the direct paths call for.** -/
theorem countsDirectPaths (hn : n.Coherent) (s t : ElementId) (skip : Bool) :
    n.CountsDirectPaths s t (n.countPaths s t skip) := by
  cases he : n.element? t with
  | none =>
    have hr : n.countPaths s t skip = .error (.notAVertex t) := by rw [countPaths_eq, he]
    exact hr ▸ countsDirectPaths_of_not_mem (element?_eq_none_iff.mp he)
  | some e =>
    cases hsplice : e.isSplice with
    | false =>
      have hr : n.countPaths s t skip = .error (.notASplice t) := by
        rw [countPaths_eq, he]
        simp [hsplice]
      exact hr ▸ countsDirectPaths_of_not_isSplice he hsplice
    | true =>
      by_cases hname : ∃ name ∈ n.arrivalNames s t, e.ordinalOf name = none
      · obtain ⟨name, hmem, hnone, htally⟩ := exists_tally_eq_error t hname []
        obtain ⟨ls, hls, hbad⟩ := (undeclared_iff hn he hsplice).mp ⟨hmem, hnone⟩
        have hr : n.countPaths s t skip = .error (.undeclaredBranch t name) := by
          rw [countPaths_eq, he]
          simp only [hsplice, if_true, htally]
        exact hr ▸ countsDirectPaths_of_undeclared he hsplice hls hbad
      · have hall : ∀ ls name, n.IsDirectPath s t ls → ¬ n.ArrivesUndeclared t ls name :=
          fun ls name hls hbad =>
            hname ⟨name, (undeclared_iff hn he hsplice).mpr ⟨ls, hls, hbad⟩⟩
        obtain ⟨cs, hr, hcounts⟩ := exists_countsArrivals hn he hsplice hall skip
        exact hr ▸ countsDirectPaths_of_declared he hsplice hall hcounts

end Network

namespace Plan

/-- **A count of paths is faithful to the direct paths**, of a plan or as seen through layers over
it. -/
theorem countPaths_exact (p : Plan) (layers : List Layer) (s t : ElementId) (skip : Bool) :
    (p.network.through layers).CountsDirectPaths s t
      ((p.network.through layers).countPaths s t skip) :=
  Network.countsDirectPaths (p.coherent.through layers) s t skip

/-- A source that feeds both inputs of a join through a step, by parallel edges, and the second one
directly. -/
def forkedFeed : Plan :=
  let placed := ((empty.sketch [⟨2⟩, ⟨3⟩] [(⟨2⟩, ⟨3⟩)]).addVertex
    (.join ⟨⟨4⟩, "", ["a", "b"], true⟩)).2
  let streamed := (placed.addEdge ⟨3⟩ ⟨4⟩ (.named "a")).2
  let parallel := (streamed.addEdge ⟨3⟩ ⟨4⟩ (.named "b")).2
  (parallel.addEdge ⟨2⟩ ⟨4⟩ (.named "b")).2

theorem countPaths_forkedFeed (skip : Bool) :
    forkedFeed.network.countPaths ⟨2⟩ ⟨4⟩ skip = .ok [(0, 1), (1, 2)] :=
  Network.countPaths_of_passages (e := .join ⟨⟨4⟩, "", ["a", "b"], true⟩) (by decide +kernel) rfl
    (by decide +kernel) skip

theorem countPaths_exact_forkedFeed :
    let n := forkedFeed.network
    {ls | n.IsDirectPath ⟨2⟩ ⟨4⟩ ls ∧ n.ArrivesAt ⟨4⟩ ls 1}.ncard = 2 ∧
      (∃ ls, n.IsDirectPath ⟨2⟩ ⟨4⟩ ls ∧ n.ArrivesAt ⟨4⟩ ls 0) ∧
      ∃ ls, n.IsDirectPath ⟨2⟩ ⟨4⟩ ls ∧ ¬ n.ArrivesAt ⟨4⟩ ls 0 := by
  intro n
  have hexact : n.CountsDirectPaths ⟨2⟩ ⟨4⟩ (n.countPaths ⟨2⟩ ⟨4⟩ false) :=
    countPaths_exact forkedFeed [] ⟨2⟩ ⟨4⟩ false
  rw [countPaths_forkedFeed] at hexact
  obtain ⟨hcounts, hclass⟩ := hexact.of_ok
  exact ⟨((hcounts.mem_iff 1 2).mp (by decide)).2.symm, hclass.both.mp (by decide)⟩

end Plan

end Dataflow
