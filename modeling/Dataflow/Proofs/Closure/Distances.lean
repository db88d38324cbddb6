import Dataflow.Closure.Distances
import Dataflow.Proofs.Closure.ShortestWalks
import Dataflow.Proofs.Closure.Walks

/-!
# The closure by distances is the closure by walks

Numbers and edges between them stand for what is inside the region, so that the distance of two
vertices is known where a walk inside joins them. A shortest walk meets no vertex twice, so that it
has fewer edges than there are vertices, and its length fits in 32 bits.

* **`Network.mem_numberedEdges`**: the edges between numbers are those inside the region.
* **`Network.near_iff`**: what the distances say of two vertices.
* **`Network.mem_gather`**: taking candidates away on the way loses none.
* **`Network.distanceClosure_exact`**: the closure by distances, whatever finds the distances.
-/

namespace Dataflow.Network

open Relation

variable {full contracted : Network} {excludes : List ElementId}

/-! ### Pruned edges -/

theorem mem_excluded {l : Link} : l ∈ full.excluded excludes ↔
    l ∈ full.links ∧ ∃ v ∈ excludes, v ∈ full.ids ∧ l.touches v = true := by
  have htouches : ∀ v, l ∈ full.incoming v ++ full.outgoing v ↔
      l ∈ full.links ∧ l.touches v = true := by
    intro v
    simp [Link.touches, ← and_or_left, or_comm]
  simp only [excluded, List.mem_flatMap, List.mem_ite_nil_right, contains_iff, htouches]
  constructor
  · rintro ⟨v, hx, hv, hl, ht⟩
    exact ⟨hl, v, hx, hv, ht⟩
  · rintro ⟨hl, v, hx, hv, ht⟩
    exact ⟨v, hx, hv, hl, ht⟩

theorem mem_leaking {l : Link} : l ∈ full.leaking contracted ↔
    l ∈ full.links ∧ (contracted.isEntry l.target = true ∨ contracted.isExit l.source = true) := by
  simp only [leaking, List.mem_flatMap, List.mem_append, List.mem_ite_nil_right, mem_incoming,
    mem_outgoing, isEntry, isExit, Bool.and_eq_true, contains_iff, decide_eq_true_eq]
  constructor
  · rintro ⟨v, hv, ⟨hd, hl, rfl⟩ | ⟨hd, hl, rfl⟩⟩
    · exact ⟨hl, .inl ⟨hv, hd⟩⟩
    · exact ⟨hl, .inr ⟨hv, hd⟩⟩
  · rintro ⟨hl, ⟨hv, hd⟩ | ⟨hv, hd⟩⟩
    · exact ⟨l.target, hv, .inl ⟨hd, hl, rfl⟩⟩
    · exact ⟨l.source, hv, .inr ⟨hd, hl, rfl⟩⟩

theorem mem_exclusions {i : EdgeId} : i ∈ full.exclusions contracted excludes ↔
    ∃ l ∈ full.links, l.id = i ∧ full.leaks contracted excludes l = true := by
  have hleaks : ∀ l, l ∈ full.excluded excludes ++ full.leaking contracted ↔
      l ∈ full.links ∧ full.leaks contracted excludes l = true := by
    intro l
    rw [List.mem_append, mem_excluded, mem_leaking, ← and_or_left, leaks_eq_true_iff]
  unfold exclusions
  simp only [SortedSet.mem_ofList, List.mem_map, hleaks, and_assoc]
  exact exists_congr fun l => and_congr_right fun _ => and_comm

/-- **The edges that are pruned are those that leak.** -/
theorem exclusions_eq :
    full.exclusions contracted excludes = (full.closure contracted excludes).pruned := by
  refine SortedSet.ext fun i => ?_
  rw [mem_exclusions]
  unfold closure
  simp only [SortedSet.mem_ofList, List.mem_map, List.mem_filter, and_assoc]
  exact exists_congr fun l => and_congr_right fun _ => and_comm

theorem Coherent.mem_exclusions_of_mem (hn : full.Coherent) {l : Link} (hl : l ∈ full.links) :
    l.id ∈ full.exclusions contracted excludes ↔ full.leaks contracted excludes l = true := by
  rw [exclusions_eq, hn.mem_pruned hl]

/-! ### Numbers -/

theorem mem_numbered {v : ElementId} :
    v ∈ full.numbered ↔ v ∈ full.ids ∧ v.isSentinel = false := by
  simp [numbered]

/-- Every numbered vertex has one number. -/
theorem Coherent.finIdxOf?_eq_some_iff (hn : full.Coherent) {v : ElementId}
    {a : Fin full.numbered.length} :
    full.numbered.finIdxOf? v = some a ↔ full.numbered[a] = v := by
  have hnd : full.numbered.Nodup := hn.ids_nodup.filter _
  rw [List.finIdxOf?_eq_some_iff]
  refine and_iff_left_of_imp fun ha b hb hv => ?_
  exact absurd (hnd.getElem_inj_iff.mp (hv.trans ha.symm)) (Nat.ne_of_lt hb)

theorem exists_number {v : ElementId}
    (hv : v ∈ (full.inside contracted excludes).ids) :
    ∃ a : Fin full.numbered.length, full.numbered[a] = v := by
  obtain ⟨a, ha, hav⟩ := List.mem_iff_getElem.mp (mem_numbered.mpr (mem_ids_inside.mp hv))
  exact ⟨⟨a, ha⟩, hav⟩

/-- **The edges between numbers are those inside the region.** -/
theorem mem_numberedEdges (hn : full.Coherent) {a b : Fin full.numbered.length} :
    (a, b) ∈ full.numberedEdges (full.exclusions contracted excludes) ↔
      (full.inside contracted excludes).Step full.numbered[a] full.numbered[b] := by
  unfold numberedEdges
  rw [List.mem_eraseDups, List.mem_filterMap]
  constructor
  · rintro ⟨l, hl, h⟩
    split at h
    · cases h
    · rename_i hpruned
      split at h
      · rename_i ha hb
        cases h
        have hs := hn.finIdxOf?_eq_some_iff.mp ha
        have ht := hn.finIdxOf?_eq_some_iff.mp hb
        have hsource := (mem_numbered.mp (hs ▸ List.getElem_mem _)).2
        have htarget := (mem_numbered.mp (ht ▸ List.getElem_mem _)).2
        rw [hn.mem_exclusions_of_mem hl, Bool.not_eq_true] at hpruned
        have htouches := Bool.or_eq_false_iff.mpr ⟨hsource, htarget⟩
        exact ⟨l, mem_links_inside.mpr ⟨hl, htouches, hpruned⟩, hs.symm, ht.symm⟩
      · cases h
  · rintro ⟨l, hl, hs, ht⟩
    obtain ⟨hmem, -, hleaks⟩ := mem_links_inside.mp hl
    have hkept : l.id ∉ full.exclusions contracted excludes := by
      rw [hn.mem_exclusions_of_mem hmem, hleaks]
      exact Bool.false_ne_true
    refine ⟨l, hmem, ?_⟩
    rw [if_neg hkept, hn.finIdxOf?_eq_some_iff.mpr hs.symm, hn.finIdxOf?_eq_some_iff.mpr ht.symm]

/-! ### Distances -/

theorem reflTransGen_of_hops (hn : full.Coherent) {a b : Fin full.numbered.length} {k : Nat}
    (h : Hops (full.numberedEdges (full.exclusions contracted excludes)) a k b) :
    ReflTransGen (full.inside contracted excludes).Step full.numbered[a] full.numbered[b] := by
  induction h with
  | nil _ => exact .refl
  | cons he _ ih => exact .head ((mem_numberedEdges hn).mp he) ih

theorem hops_of_leads (hn : full.Coherent) {u w : ElementId} {ms : List Move}
    (h : Leads (full.inside contracted excludes).moves u ms w) :
    ∀ {a b : Fin full.numbered.length}, full.numbered[a] = u → full.numbered[b] = w →
      Hops (full.numberedEdges (full.exclusions contracted excludes)) a ms.length b := by
  induction h with
  | nil v =>
    intro a b ha hb
    have hab : some a = some b :=
      (hn.finIdxOf?_eq_some_iff.mpr ha).symm.trans (hn.finIdxOf?_eq_some_iff.mpr hb)
    exact Option.some.inj hab ▸ .nil a
  | cons hm _ ih =>
    rintro a b rfl hb
    have hstep := step_of_mem_moves hm
    obtain ⟨c, hc⟩ := exists_number (hn.inside.target_mem_of_step hstep)
    exact .cons ((mem_numberedEdges hn).mpr (hc ▸ hstep)) (ih hc hb)

/-- Where a walk inside the region leads, one leads that has fewer edges than there are numbers. -/
theorem exists_hops_lt (hn : full.Coherent) {a b : Fin full.numbered.length}
    (h : ReflTransGen (full.inside contracted excludes).Step full.numbered[a] full.numbered[b]) :
    ∃ k < full.numbered.length,
      Hops (full.numberedEdges (full.exclusions contracted excludes)) a k b := by
  obtain ⟨_, hlead⟩ := exists_leads_of_reflTransGen h
  obtain ⟨ms, hlead, hnd⟩ := hlead.exists_nodup
  have hsub : full.numbered[a] :: targets ms ⊆ full.numbered := by
    intro v hv
    rcases List.mem_cons.mp hv with rfl | hv
    · exact List.getElem_mem _
    · obtain ⟨xs, _, -, hne, hxs, -⟩ := hlead.split hv
      have hmem := hn.inside.target_mem_of_transGen (hxs.transGen hne)
      exact mem_numbered.mpr (mem_ids_inside.mp hmem)
  have hlen := hnd.length_le_of_subset hsub
  refine ⟨ms.length, ?_, hops_of_leads hn hlead rfl rfl⟩
  exact Nat.lt_of_succ_le (by simpa [targets] using hlen)

section Distances

variable {distances : ∀ size, List (Fin size × Fin size) → Option (Distances size)}
  {d : Distances full.numbered.length}

/-- Two numbers are not far where a walk inside the region joins their vertices: a walk of fewer
edges than there are vertices is never as long as `far` says. -/
theorem ne_far_iff (hd : ShortestDistances distances) (hn : full.Coherent)
    (hcapacity : full.ids.length < UInt32.size) (hfound : distances full.numbered.length
      (full.numberedEdges (full.exclusions contracted excludes)) = some d)
    {a b : Fin full.numbered.length} {k : UInt32} (hk : d a b = some k) : k ≠ far ↔
      ReflTransGen (full.inside contracted excludes).Step full.numbered[a] full.numbered[b] := by
  constructor
  · exact fun hfar => reflTransGen_of_hops hn (hd.walked hfound hk hfar)
  · rintro h rfl
    obtain ⟨m, hm, hops⟩ := exists_hops_lt hn h
    have hleast : far.toNat ≤ m := hd.least hfound hk hops
    have hfar : far.toNat + 1 = UInt32.size := rfl
    have hfewer : full.numbered.length ≤ full.ids.length := List.length_filter_le _ _
    omega

/-- **Distances say which vertices a walk inside the region joins.** -/
theorem near_iff (hd : ShortestDistances distances) (hn : full.Coherent)
    (hcapacity : full.ids.length < UInt32.size) (hfound : distances full.numbered.length
      (full.numberedEdges (full.exclusions contracted excludes)) = some d) {u v : ElementId} :
    full.near d u v = true ↔ u ∈ (full.inside contracted excludes).ids ∧
      v ∈ (full.inside contracted excludes).ids ∧
        ReflTransGen (full.inside contracted excludes).Step u v := by
  unfold near
  constructor
  · intro h
    split at h
    · rename_i a b ha hb
      obtain rfl := hn.finIdxOf?_eq_some_iff.mp ha
      obtain rfl := hn.finIdxOf?_eq_some_iff.mp hb
      obtain ⟨k, hk⟩ := hd.known hfound a b
      have hfar : k ≠ far := by simpa [hk] using h
      have hmem : ∀ c : Fin full.numbered.length,
          full.numbered[c] ∈ (full.inside contracted excludes).ids := fun c =>
        mem_ids_inside.mpr (mem_numbered.mp (List.getElem_mem _))
      exact ⟨hmem a, hmem b, (ne_far_iff hd hn hcapacity hfound hk).mp hfar⟩
    · cases h
  · rintro ⟨hu, hv, h⟩
    obtain ⟨a, rfl⟩ := exists_number hu
    obtain ⟨b, rfl⟩ := exists_number hv
    obtain ⟨k, hk⟩ := hd.known hfound a b
    rw [hn.finIdxOf?_eq_some_iff.mpr rfl, hn.finIdxOf?_eq_some_iff.mpr rfl]
    simpa [hk] using (ne_far_iff hd hn hcapacity hfound hk).mpr h

end Distances

/-! ### Candidates -/

/-- **Taking candidates away on the way loses none**, in whatever order edges come. -/
theorem mem_gather {near : ElementId → ElementId → Bool} {ls : List Link}
    {candidates : List ElementId} {vertices : SortedSet ElementId} {v : ElementId} :
    v ∈ gather near ls candidates vertices ↔ v ∈ vertices ∨
      v ∈ candidates ∧ ∃ l ∈ ls, near l.source v = true ∧ near v l.target = true := by
  induction ls generalizing candidates vertices with
  | nil => simp [gather]
  | cons l ls ih =>
    have hhead : (∃ k ∈ l :: ls, near k.source v = true ∧ near v k.target = true) ↔
        (near l.source v && near v l.target) = true ∨
          ∃ k ∈ ls, near k.source v = true ∧ near v k.target = true := by
      simp
    rw [gather, ih, SortedSet.mem_insertAll, List.mem_filter, List.mem_filter, hhead]
    dsimp only
    cases near l.source v && near v l.target <;> simp

/-! ### The closure -/

/-- **The closure by distances is the closure by walks**, and there always is one. -/
theorem distanceClosure_eq
    {distances : ∀ size, List (Fin size × Fin size) → Option (Distances size)}
    (hd : ShortestDistances distances) (hn : full.Coherent)
    (hcapacity : full.ids.length < UInt32.size) :
    full.distanceClosure distances contracted excludes =
      .ok (full.closure contracted excludes) := by
  unfold distanceClosure
  dsimp only
  split
  · rename_i hrefused
    obtain ⟨_, k, -, hnegative⟩ := hd.refused hrefused
    exact absurd hnegative (Int.not_lt.mpr (Int.natCast_nonneg k))
  · rename_i d hfound
    have hvertices : gather (full.near d) contracted.links
        (full.ids.filter fun v => !contracted.contains v) (.ofList contracted.ids) =
          (full.closure contracted excludes).vertices := by
      refine SortedSet.ext fun v => ?_
      rw [mem_gather, mem_closure hn, SortedSet.mem_ofList]
      by_cases hv : v ∈ contracted.ids
      · exact iff_of_true (.inl hv) (.inl hv)
      rw [or_iff_right hv, or_iff_right hv]
      simp only [near_iff hd hn hcapacity hfound]
      constructor
      · rintro ⟨-, l, hl, ⟨hs, hvm, hsv⟩, -, ht, hvt⟩
        exact ⟨l, hl, hs, ht, hsv, hvt⟩
      · rintro ⟨l, hl, hs, ht, hsv, hvt⟩
        have hvm := hn.inside.mem_of_reflTransGen hs hsv
        refine ⟨List.mem_filter.mpr
          ⟨(mem_ids_inside.mp hvm).1, by simpa [← contains_iff] using hv⟩, l, hl,
          ⟨hs, hvm, hsv⟩, hvm, ht, hvt⟩
    rw [hvertices, exclusions_eq]

/-- An edge from one vertex to another that touches no sentinel and is not pruned. -/
def Open (full : Network) (pruned : SortedSet EdgeId) (a b : ElementId) : Prop :=
  ∃ l ∈ full.links, l.source = a ∧ l.target = b ∧ l.touchesSentinel = false ∧ l.id ∉ pruned

theorem step_inside_eq (hn : full.Coherent) : (full.inside contracted excludes).Step =
    full.Open (full.closure contracted excludes).pruned := by
  funext a b
  refine propext (exists_congr fun l => ?_)
  constructor
  · rintro ⟨hl, hs, ht⟩
    obtain ⟨hmem, hmask, hleaks⟩ := mem_links_inside.mp hl
    refine ⟨hmem, hs, ht, hmask, ?_⟩
    rw [hn.mem_pruned hmem, hleaks]
    exact Bool.false_ne_true
  · rintro ⟨hmem, hs, ht, hmask, hkept⟩
    rw [hn.mem_pruned hmem, Bool.not_eq_true] at hkept
    exact ⟨mem_links_inside.mpr ⟨hmem, hmask, hkept⟩, hs, ht⟩

/-- An edge of a graph leaks where an end is excluded, or where it enters a contracted vertex that
no contracted edge enters or leaves one that none leaves. -/
theorem Coherent.leaks_iff (hn : full.Coherent) {l : Link} (hl : l ∈ full.links) :
    full.leaks contracted excludes l = true ↔
      (l.source ∈ excludes ∨ l.target ∈ excludes) ∨
      (l.target ∈ contracted.ids ∧ contracted.inDegree l.target = 0) ∨
      (l.source ∈ contracted.ids ∧ contracted.outDegree l.source = 0) := by
  have hexcluded : (∃ v ∈ excludes, v ∈ full.ids ∧ l.touches v = true) ↔
      l.source ∈ excludes ∨ l.target ∈ excludes := by
    simp only [Link.touches, Bool.or_eq_true, decide_eq_true_eq]
    constructor
    · rintro ⟨v, hx, -, rfl | rfl⟩
      · exact .inl hx
      · exact .inr hx
    · rintro (hx | hx)
      · exact ⟨_, hx, hn.source_mem l hl, .inl rfl⟩
      · exact ⟨_, hx, hn.target_mem l hl, .inr rfl⟩
  rw [leaks_eq_true_iff, hexcluded]
  simp [isEntry, isExit]

/-- An excluded vertex that is not contracted is in no closure: every edge to it is pruned. -/
theorem not_mem_closure_of_excluded (hn : full.Coherent) (hc : contracted.Coherent) {v : ElementId}
    (hx : v ∈ excludes) (hv : v ∉ contracted.ids) :
    v ∉ (full.closure contracted excludes).vertices := by
  intro h
  obtain ⟨l, hl, -, -, hsv, -⟩ := ((mem_closure hn).mp h).resolve_left hv
  have hs : v ≠ l.source := fun h => hv (h ▸ hc.source_mem l hl)
  obtain ⟨_, -, k, hk, -, rfl⟩ :=
    TransGen.tail'_iff.mp ((reflTransGen_iff_eq_or_transGen.mp hsv).resolve_left hs)
  obtain ⟨hmem, -, hleaks⟩ := mem_links_inside.mp hk
  exact Bool.eq_false_iff.mp hleaks ((hn.leaks_iff hmem).mpr (.inl (.inr hx)))

/-- **The closure by distances is exact**, whatever finds the distances; numbers have 32 bits, so
that a graph has no more vertices than that. There always is a closure, the one by walks. It prunes
the edges of excluded vertices, into contracted vertices that no contracted edge enters, and out of
contracted vertices that none leaves. It holds the contracted vertices, and what a walk past
sentinels and pruned edges comes upon between the ends of a contracted edge. No excluded vertex is
among them unless it is contracted. -/
theorem distanceClosure_exact
    {distances : ∀ size, List (Fin size × Fin size) → Option (Distances size)}
    (hd : ShortestDistances distances) (hn : full.Coherent) (hc : contracted.Coherent)
    (hcapacity : full.ids.length < UInt32.size) (excludes : List ElementId) :
    ∃ c, full.distanceClosure distances contracted excludes = .ok c ∧
      c = full.closure contracted excludes ∧
      (∀ i, i ∈ c.pruned ↔ ∃ l ∈ full.links, l.id = i ∧
        ((l.source ∈ excludes ∨ l.target ∈ excludes) ∨
        (l.target ∈ contracted.ids ∧ contracted.inDegree l.target = 0) ∨
        (l.source ∈ contracted.ids ∧ contracted.outDegree l.source = 0))) ∧
      (∀ v, v ∈ c.vertices ↔ v ∈ contracted.ids ∨
        (v ∈ full.ids ∧ v.isSentinel = false) ∧ ∃ l ∈ contracted.links,
          (l.source ∈ full.ids ∧ l.source.isSentinel = false) ∧
          (l.target ∈ full.ids ∧ l.target.isSentinel = false) ∧
          ReflTransGen (full.Open c.pruned) l.source v ∧
          ReflTransGen (full.Open c.pruned) v l.target) ∧
      ∀ v ∈ excludes, v ∉ contracted.ids → v ∉ c.vertices := by
  refine ⟨_, distanceClosure_eq hd hn hcapacity, rfl, fun i => ?pruned, fun v => ?vertices,
    fun v hx hv => not_mem_closure_of_excluded hn hc hx hv⟩
  case pruned =>
    rw [← exclusions_eq, mem_exclusions]
    refine exists_congr fun l => and_congr_right fun hl => and_congr_right fun _ => ?_
    exact hn.leaks_iff hl
  case vertices =>
    rw [mem_closure hn, ← step_inside_eq hn]
    refine or_congr_right ?_
    constructor
    · rintro ⟨l, hl, hs, ht, hsv, hvt⟩
      exact ⟨mem_ids_inside.mp (hn.inside.mem_of_reflTransGen hs hsv), l, hl,
        mem_ids_inside.mp hs, mem_ids_inside.mp ht, hsv, hvt⟩
    · rintro ⟨-, l, hl, hs, ht, hsv, hvt⟩
      exact ⟨l, hl, mem_ids_inside.mpr hs, mem_ids_inside.mpr ht, hsv, hvt⟩

/-- Two ways from a source to a sink, between the entry and what follows the sink. -/
def twoWays : Network :=
  .unchecked
    (.head :: [2, 3, 4, 5, 6].map fun v => .transform ⟨⟨v⟩, ""⟩)
    ([(0, 2), (2, 3), (2, 4), (3, 5), (4, 5), (5, 6)].map fun e => (⟨e.1⟩, ⟨e.2⟩, .named ""))

/-- The source and the sink alone. -/
def oneWay : Network :=
  .unchecked ([2, 5].map fun v => .transform ⟨⟨v⟩, ""⟩) [(⟨2⟩, ⟨5⟩, .named "")]

theorem distanceClosure_exact_twoWays :
    ∃ c, twoWays.distanceClosure floydWarshall oneWay [⟨4⟩] = .ok c ∧
      c.pruned.toList = [0, 2, 4, 5] ∧ ⟨3⟩ ∈ c.vertices ∧ ⟨4⟩ ∉ c.vertices ∧ ⟨6⟩ ∉ c.vertices := by
  have hfull : twoWays.Coherent :=
    ⟨by decide +kernel, by decide +kernel, by decide +kernel, by decide +kernel⟩
  have hcontracted : oneWay.Coherent :=
    ⟨by decide +kernel, by decide +kernel, by decide +kernel, by decide +kernel⟩
  obtain ⟨c, hc, rfl, -, -, hexcluded⟩ := distanceClosure_exact shortestDistances_floydWarshall
    hfull hcontracted (by decide +kernel) [⟨4⟩]
  exact ⟨_, hc, by decide +kernel, by decide +kernel,
    hexcluded ⟨4⟩ List.mem_cons_self (by decide +kernel), by decide +kernel⟩

end Dataflow.Network
