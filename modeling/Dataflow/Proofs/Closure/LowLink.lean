import Dataflow.Proofs.Closure.Levels

/-!
# The search finds the biconnected components

Where the search goes back from a level, the links from its nodes lead to the level below, or the
low link says how far back they lead. In the first case what is pending is a block together with the
node below; in the second it is pending there.

* **`Bonds.Search.Inv.bag_adj`, `Bonds.Search.Inv.isBlock`**: where links lead from a level that is
  left, and what is a block then.
* **`Bonds.Search.Inv.step`, `Bonds.Search.Inv.run`**: what holds of the search is kept by a step,
  and by a whole run.
-/

namespace Dataflow.Bonds

variable {b : Bonds}

namespace Level

variable {found : ElementId → Option Nat} {l u : Level b} {x : ElementId} {time : Nat}

/-- Without the next level, its nodes belong to the level below. -/
theorem mem_bag_iff (hul : u.since < l.since) (hl : l.since < time) :
    x ∈ u.bag found time ↔ x ∈ u.bag found l.since ∨ x ∈ l.bag found time := by
  constructor
  · rintro ⟨t, hx, hle, hlt⟩
    rcases Nat.lt_or_ge t l.since with ht | ht
    · exact .inl ⟨t, hx, hle, ht⟩
    · exact .inr ⟨t, hx, ht, hlt⟩
  · rintro (⟨t, hx, hle, hlt⟩ | ⟨t, hx, hle, hlt⟩)
    · exact ⟨t, hx, hle, Nat.lt_trans hlt hl⟩
    · exact ⟨t, hx, Nat.le_trans (Nat.le_of_lt hul) hle, hlt⟩

theorem not_mem_bag (h : x ∈ u.bag found l.since) : x ∉ l.bag found time := by
  rintro ⟨t, hx, hle, -⟩
  obtain ⟨t', hx', -, hlt⟩ := h
  obtain rfl := Option.some.inj (hx.symm.trans hx')
  exact Nat.not_lt.mpr hle hlt

/-! ### A level that takes over what is pending in the next one -/

/-- The level with what is pending in the next one, which was found by a link from it. -/
def merge (u l : Level b) : Level b where
  frame := u.frame
  since := u.since
  pending := u.pending ∪ l.pending
  inner := l.inner ++ (u.vertex, l.vertex) :: u.inner

variable {low : ElementId → Nat} {ls : List (Level b)}

theorem disjoint_pending (hl : l.Fits found low time (u :: ls)) (hu : u.Fits found low l.since ls)
    (hx : x ∈ u.pending) : x ∉ l.pending :=
  fun hxl => not_mem_bag (hu.pending_sub hx) (hl.pending_sub hxl)

/-- No node cuts what is pending, if one in the upper level leads back past the lower. -/
theorem merge_uncut (hl : l.Fits found low time (u :: ls)) (hu : u.Fits found low l.since ls)
    {z : ElementId} (hz : z ∈ l.pending) (hback : ∃ m ∈ ls, b.graph.Adj z m.vertex)
    {w : ElementId} (hx : x ∈ (u.merge l).pending) (hw : w ∈ (u.merge l).pending) (hwx : w ≠ x) :
    ∃ y, b.Joined ((u.merge l).pending \ {x}) w y ∧
      (y = u.vertex ∨ ∃ m ∈ ls, b.graph.Adj y m.vertex) := by
  have hadj : b.graph.Adj u.vertex l.vertex := hl.linked u rfl
  have hleft : u.pending \ {x} ⊆ (u.merge l).pending \ {x} :=
    Set.sdiff_subset_sdiff_left Set.subset_union_left
  have hright : l.pending \ {x} ⊆ (u.merge l).pending \ {x} :=
    Set.sdiff_subset_sdiff_left Set.subset_union_right
  have hdown : ∀ {y}, b.Joined (l.pending \ {x}) w y → b.graph.Adj y u.vertex → u.vertex ≠ x →
      b.Joined ((u.merge l).pending \ {x}) w u.vertex := fun hwy hyu hne =>
    (hwy.mono hright).trans (.of_adj hyu (hright hwy.right_mem) ⟨.inl hu.self_mem, hne⟩)
  rcases hw with hw | hw <;> rcases hx with hx | hx
  · obtain ⟨y, hwy, hy⟩ := hu.uncut x hx w hw hwx
    exact ⟨y, hwy.mono hleft, hy⟩
  · have hclear : u.pending ⊆ u.pending \ {x} := fun y hy => ⟨hy, by
      rintro rfl
      exact disjoint_pending hl hu hy hx⟩
    exact ⟨u.vertex, (hu.joined w hw).mono (hclear.trans hleft), .inl rfl⟩
  · have hclear : l.pending ⊆ l.pending \ {x} := fun y hy => ⟨hy, by
      rintro rfl
      exact disjoint_pending hl hu hx hy⟩
    by_cases hux : u.vertex = x
    · have hwz := (hl.joined w hw).trans (hl.joined z hz).symm
      exact ⟨z, hwz.mono (hclear.trans hright), .inr hback⟩
    · exact ⟨u.vertex, hdown ((hl.joined w hw).mono hclear) hadj.symm hux, .inl rfl⟩
  · have hux : u.vertex ≠ x := by
      rintro rfl
      exact disjoint_pending hl hu hu.self_mem hx
    obtain ⟨y, hwy, rfl | ⟨n, hn, hyn⟩⟩ := hl.uncut x hx w hw hwx
    · exact ⟨u.vertex, hdown hwy hadj.symm hux, .inl rfl⟩
    · rcases List.mem_cons.mp hn with rfl | hn
      · exact ⟨n.vertex, hdown hwy hyn hux, .inl rfl⟩
      · exact ⟨y, hwy.mono hright, .inr ⟨n, hn, hyn⟩⟩

theorem merge_shut (hl : l.Fits found low time (u :: ls)) (hu : u.Fits found low l.since ls)
    {z : ElementId} (hz : z ∈ (u.merge l).bag found time) (hpending : z ∉ (u.merge l).pending) :
    ∃ c ∈ (u.merge l).pending, ∃ S, z ∈ S ∧
      S ⊆ (u.merge l).bag found time \ (u.merge l).pending ∧ b.Shut S c := by
  have hbag : ∀ {x}, x ∈ (u.merge l).bag found time ↔ x ∈ u.bag found l.since ∨ x ∈ l.bag found time :=
    mem_bag_iff hu.since_lt hl.since_lt
  obtain ⟨hzu, hzl⟩ := not_or.mp hpending
  rcases hbag.mp hz with hz | hz
  · obtain ⟨c, hc, S, hzS, hS, hshut⟩ := hu.shut z hz hzu
    refine ⟨c, .inl hc, S, hzS, fun x hx => ?_, hshut⟩
    obtain ⟨hxbag, hxu⟩ := hS hx
    refine ⟨hbag.mpr (.inl hxbag), not_or.mpr ⟨hxu, fun hxl => ?_⟩⟩
    exact not_mem_bag hxbag (hl.pending_sub hxl)
  · obtain ⟨c, hc, S, hzS, hS, hshut⟩ := hl.shut z hz hzl
    refine ⟨c, .inr hc, S, hzS, fun x hx => ?_, hshut⟩
    obtain ⟨hxbag, hxl⟩ := hS hx
    refine ⟨hbag.mpr (.inr hxbag), not_or.mpr ⟨fun hxu => ?_, hxl⟩⟩
    exact not_mem_bag (hu.pending_sub hxu) hxbag

theorem merge_inner_sub (hl : l.Fits found low time (u :: ls)) (hu : u.Fits found low l.since ls)
    {p : ElementId × ElementId} (hp : p ∈ (u.merge l).inner) :
    b.graph.Adj p.1 p.2 ∧ p.1 ∈ (u.merge l).pending ∧
      (p.2 ∈ (u.merge l).pending ∨ ∃ m ∈ ls, p.2 = m.vertex) := by
  rcases List.mem_append.mp hp with hp | hp
  · obtain ⟨hadj, hfst, hsnd⟩ := hl.inner_sub p hp
    refine ⟨hadj, .inr hfst, ?_⟩
    rcases hsnd with hsnd | ⟨n, hn, hpn⟩
    · exact .inl (.inr hsnd)
    · rcases List.mem_cons.mp hn with rfl | hn
      · exact .inl (.inl (hpn ▸ hu.self_mem))
      · exact .inr ⟨n, hn, hpn⟩
  · rcases List.mem_cons.mp hp with rfl | hp
    · exact ⟨hl.linked u rfl, .inl hu.self_mem, .inl (.inr hl.self_mem)⟩
    · obtain ⟨hadj, hfst, hsnd⟩ := hu.inner_sub p hp
      exact ⟨hadj, .inl hfst, hsnd.imp_left .inl⟩

theorem merge_inner_all (hl : l.Fits found low time (u :: ls)) (hu : u.Fits found low l.since ls)
    {w : ElementId} (hw : w ∈ (u.merge l).pending) :
    w = u.vertex ∨ ∃ p ∈ (u.merge l).inner, w = p.1 ∨ w = p.2 := by
  rcases hw with hw | hw
  · refine (hu.inner_all w hw).imp_right ?_
    rintro ⟨p, hp, hwp⟩
    exact ⟨p, List.mem_append_right _ (List.mem_cons_of_mem _ hp), hwp⟩
  · right
    rcases hl.inner_all w hw with rfl | ⟨p, hp, hwp⟩
    · exact ⟨_, List.mem_append_right _ List.mem_cons_self, .inr rfl⟩
    · exact ⟨p, List.mem_append_left _ hp, hwp⟩

end Level

namespace Search.Inv

variable {s : Search b} {l u : Level b} {ls : List (Level b)}

/-- What is linked to the nodes of a level is found before the search leaves it. -/
theorem found_of_adj (h : s.Inv (l :: ls) none) (hrest : l.frame.rest = []) {x y : ElementId}
    {t : Nat} (hy : s.found y = some t) (ht : l.since ≤ t) (hyx : b.graph.Adj y x) :
    ∃ t', s.found x = some t' := by
  refine (h.seen hy hyx).resolve_right ?_
  rintro ⟨f, hf, rfl, hx⟩
  have hx : x ∈ f.rest := hx.resolve_right nofun
  rcases List.mem_cons.mp hf with rfl | hf
  · rw [hrest] at hx
    exact List.not_mem_nil hx
  · obtain ⟨m, hm, rfl⟩ := List.mem_map.mp hf
    exact h.way.2.ne_of_found hm hy ht rfl

/-- **The links from a level that the search leaves lead to the levels below.** -/
theorem bag_adj (h : s.Inv (l :: ls) none) (hrest : l.frame.rest = []) {x y : ElementId}
    (hy : y ∈ l.bag s.found s.time) (hyx : b.graph.Adj y x) :
    x ∈ l.bag s.found s.time ∨ ∃ m ∈ ls, m.vertex = x := by
  obtain ⟨t, hfound, hle, -⟩ := hy
  obtain ⟨t', hx⟩ := h.found_of_adj hrest hfound hle hyx
  rcases Nat.lt_or_ge t' l.since with ht' | ht'
  · obtain ⟨m, hm, hmx, -⟩ := h.exists_level hyx.symm hx hfound ht' hle
    exact .inr ⟨m, hm, hmx⟩
  · exact .inl ⟨t', hx, ht', h.found_lt hx⟩

/-- Further down than to the next level they do not lead without the low link saying so. -/
theorem low_le_of_adj (h : s.Inv (l :: u :: ls) none) (hrest : l.frame.rest = []) {y : ElementId}
    {m : Level b} (hm : m ∈ ls) (hy : y ∈ l.bag s.found s.time) (hadj : b.graph.Adj y m.vertex) :
    s.low l.vertex ≤ m.since := by
  have hlt : m.since < l.since := h.way.2.since_lt (List.mem_cons_of_mem _ hm)
  refine h.way.1.low_le y hy m.vertex m.since hadj (h.way.2.2.found_eq hm) hlt fun _ => ⟨?_, ?_⟩
  · rw [hrest]
    exact List.not_mem_nil
  · rw [h.way.1.parent]
    intro heq
    exact h.way.2.2.ne_of_found hm h.way.2.1.found_eq (Nat.le_refl _) (Option.some.inj heq).symm

/-- What links from a level lead to below the next one, its low link knows. -/
theorem low_le_of_bag (h : s.Inv (l :: u :: ls) none) (hrest : l.frame.rest = []) {x y : ElementId}
    {t : Nat} (hy : y ∈ l.bag s.found s.time) (hyx : b.graph.Adj y x) (hx : s.found x = some t)
    (ht : t < u.since) : s.low l.vertex ≤ t := by
  rcases h.bag_adj hrest hy hyx with ⟨t', hx', hle, -⟩ | ⟨m, hm, rfl⟩
  · obtain rfl := Option.some.inj (hx.symm.trans hx')
    exact absurd (Nat.lt_trans ht h.way.2.1.since_lt) (Nat.not_lt.mpr hle)
  · obtain rfl := h.way.2.since_eq hm hx
    rcases List.mem_cons.mp hm with rfl | hm
    · exact absurd ht (Nat.lt_irrefl _)
    · exact h.low_le_of_adj hrest hm hy hyx

/-! ### The search is back where it began -/

theorem ends (h : s.Inv [l] none) (hrest : l.frame.rest = []) :
    ({ s with frames := [] } : Search b).Inv [] none := by
  have hroot : l.pending = {l.vertex} := h.way.1.root rfl
  have hinner : l.inner = [] := by
    refine List.eq_nil_iff_forall_not_mem.mpr fun p hp => ?_
    obtain ⟨hadj, hfst, hsnd⟩ := h.way.1.inner_sub p hp
    have hsnd : p.2 ∈ l.pending := hsnd.resolve_right fun ⟨_, hm, _⟩ => List.not_mem_nil hm
    rw [hroot] at hfst hsnd
    exact hadj.ne (hfst.trans hsnd.symm)
  exact
    { frames_eq := rfl
      pairs_eq := by
        show s.pairs = []
        rw [h.pairs_eq, List.flatMap_singleton, Level.pairs, hinner, h.way.1.parent]
        rfl
      way := trivial
      found_lt := h.found_lt
      found_mem := h.found_mem
      seen := by
        intro x y t hx hxy
        refine .inl ((h.seen hx hxy).resolve_right ?_)
        rintro ⟨f, hf, -, hy⟩
        rw [List.mem_singleton.mp hf, hrest] at hy
        exact List.not_mem_nil (hy.resolve_right nofun)
      back := fun _ hm => absurd hm List.not_mem_nil
      covered := by
        intro x y t t' hx hy hxy
        refine .inl ((h.covered hx hy hxy).resolve_right ?_)
        rintro ⟨⟨P, hP, hxP⟩, Q, hQ, hyQ⟩
        obtain rfl : P = {l.vertex} := (List.mem_singleton.mp hP).trans hroot
        obtain rfl : Q = {l.vertex} := (List.mem_singleton.mp hQ).trans hroot
        exact hxy.ne (Eq.trans hxP (Eq.symm hyQ))
      blocks := h.blocks
      met := h.met }

/-! ### The level below takes over what is pending -/

theorem merge_fits (h : s.Inv (l :: u :: ls) none) (hrest : l.frame.rest = [])
    (hlow : s.low l.vertex < u.since) :
    (u.merge l).Fits s.found
      (Function.update s.low u.vertex (min (s.low u.vertex) (s.low l.vertex))) s.time ls := by
  obtain ⟨hl, hu, hls⟩ := h.way
  have hlu : u.since < l.since := hu.since_lt
  have hbag : ∀ {x}, x ∈ (u.merge l).bag s.found s.time ↔
      x ∈ u.bag s.found l.since ∨ x ∈ l.bag s.found s.time := Level.mem_bag_iff hlu hl.since_lt
  -- a pending node of the upper level leads back past the lower one
  obtain ⟨m, hm, hlowm, z, hz, hzm⟩ : ∃ m ∈ ls, s.low l.vertex = m.since ∧
      ∃ z ∈ l.pending, b.graph.Adj z m.vertex := by
    rcases hl.low_eq with heq | ⟨m, hm, heq, hz⟩
    · omega
    · rcases List.mem_cons.mp hm with rfl | hm
      · omega
      · exact ⟨m, hm, heq, hz⟩
  exact
    { found_eq := hu.found_eq
      since_lt := Nat.lt_trans hlu hl.since_lt
      parent := hu.parent
      linked := hu.linked
      self_mem := .inl hu.self_mem
      pending_sub := by
        rintro x (hx | hx)
        · exact hbag.mpr (.inl (hu.pending_sub hx))
        · exact hbag.mpr (.inr (hl.pending_sub hx))
      root := by
        rintro rfl
        exact absurd hm List.not_mem_nil
      low_le := by
        intro y hy x t hyx hx ht hskip
        show Function.update s.low u.vertex _ u.vertex ≤ t
        rw [Function.update_self]
        rcases hbag.mp hy with hy | hy
        · exact Nat.le_trans (Nat.min_le_left ..) (hu.low_le y hy x t hyx hx ht hskip)
        · exact Nat.le_trans (Nat.min_le_right ..) (h.low_le_of_bag hrest hy hyx hx ht)
      low_eq := by
        show Function.update s.low u.vertex _ u.vertex = _ ∨ ∃ n ∈ ls,
          Function.update s.low u.vertex _ u.vertex = _ ∧ _
        rw [Function.update_self]
        rcases Nat.le_total (s.low u.vertex) (s.low l.vertex) with hle | hle
        · rw [Nat.min_eq_left hle]
          refine hu.low_eq.imp_right ?_
          rintro ⟨n, hn, heq, y, hy, hyn⟩
          exact ⟨n, hn, heq, y, .inl hy, hyn⟩
        · rw [Nat.min_eq_right hle]
          exact .inr ⟨m, hm, hlowm, z, .inr hz, hzm⟩
      joined := by
        rintro w (hw | hw)
        · exact (hu.joined w hw).mono Set.subset_union_left
        · refine ((hl.joined w hw).mono Set.subset_union_right).trans ?_
          exact .of_adj (hl.linked u rfl).symm (.inr hl.self_mem) (.inl hu.self_mem)
      uncut := fun _ hx _ hw => Level.merge_uncut hl hu hz ⟨m, hm, hzm⟩ hx hw
      shut := fun _ => Level.merge_shut hl hu
      inner_sub := fun _ => Level.merge_inner_sub hl hu
      inner_all := fun _ => Level.merge_inner_all hl hu }

/-- What links lead to from nodes found before the last level is on the way or below. -/
theorem seen_below (h : s.Inv (l :: ls) none) (hrest : l.frame.rest = []) {x y : ElementId}
    {t : Nat} (hx : s.found x = some t) (hxy : b.graph.Adj x y) :
    (∃ t', s.found y = some t') ∨
      ∃ f ∈ ls.map Level.frame, f.vertex = x ∧ (y ∈ f.rest ∨ (none : Option ElementId) = some y) := by
  refine (h.seen hx hxy).imp_right ?_
  rintro ⟨f, hf, hfx, hy⟩
  rcases List.mem_cons.mp hf with rfl | hf
  · rw [hrest] at hy
    exact absurd (hy.resolve_right nofun) List.not_mem_nil
  · exact ⟨f, hf, hfx, hy⟩

theorem back_below (h : s.Inv (l :: ls) none) : ∀ start ∈ ls.map Level.since, ∀ {x y t t'},
    b.graph.Adj x y → s.found x = some t → s.found y = some t' → t < start → start ≤ t' →
    x ∈ ls.map Level.vertex := by
  intro start hstart x y t t' hxy hx hy ht ht'
  have hmem := h.back start (List.mem_cons_of_mem _ hstart) hxy hx hy ht ht'
  refine (List.mem_cons.mp hmem).resolve_left ?_
  rintro rfl
  obtain ⟨m, hm, rfl⟩ := List.mem_map.mp hstart
  have hlt := h.way.2.since_lt hm
  obtain rfl := Option.some.inj (hx.symm.trans h.way.1.found_eq)
  exact Nat.lt_asymm hlt ht

theorem returns (h : s.Inv (l :: u :: ls) none) (hrest : l.frame.rest = [])
    (hlow : s.low l.vertex < u.since) :
    (({ s with frames := u.frame :: ls.map Level.frame } : Search b).lower u.vertex
      (s.low l.vertex)).Inv (u.merge l :: ls) none := by
  have hfits := h.merge_fits hrest hlow
  have hmore : ∀ {x}, Pending (l :: u :: ls) x → Pending (u.merge l :: ls) x := by
    intro x hx
    simp only [pending_cons] at hx ⊢
    rcases hx with hx | hx | hx
    · exact .inl (.inr hx)
    · exact .inl (.inl hx)
    · exact .inr hx
  rw [lower_eq]
  exact
    { frames_eq := rfl
      pairs_eq := by
        show s.pairs = _
        rw [h.pairs_eq]
        simp [Level.pairs, Level.merge, h.way.1.parent, Level.vertex]
      way := ⟨hfits, h.way.2.2.update_low hfits.found_eq (Nat.le_refl _) _⟩
      found_lt := h.found_lt
      found_mem := h.found_mem
      seen := h.seen_below hrest
      back := h.back_below
      covered := fun hx hy hxy =>
        (h.covered hx hy hxy).imp_right fun ⟨hx, hy⟩ => ⟨hmore hx, hmore hy⟩
      blocks := h.blocks
      met := h.met }

/-! ### What is pending is complete with the node below -/

/-- **The node below shuts the level off**, where the low link is not earlier. -/
theorem bag_shut (h : s.Inv (l :: u :: ls) none) (hrest : l.frame.rest = [])
    (hlow : u.since ≤ s.low l.vertex) : b.Shut (l.bag s.found s.time) u.vertex := by
  intro y hy x hyx
  refine (h.bag_adj hrest hy hyx).imp_right ?_
  rintro ⟨m, hm, rfl⟩
  rcases List.mem_cons.mp hm with rfl | hm
  · rfl
  · have := h.low_le_of_adj hrest hm hy hyx
    have := h.way.2.2.since_lt hm
    omega

theorem vertex_not_mem_bag (h : s.Inv (l :: u :: ls) none) : u.vertex ∉ l.bag s.found s.time :=
  Level.not_mem_bag (h.way.2.1.pending_sub h.way.2.1.self_mem)

/-- No node cuts what is pending and the node below: all are joined with the node below, or with the
node of the level where the node below is the cut. -/
theorem joined_hub (h : s.Inv (l :: u :: ls) none) (hrest : l.frame.rest = [])
    (hlow : u.since ≤ s.low l.vertex) (x : ElementId) :
    ∃ hub, ∀ v ∈ insert u.vertex l.pending, v ≠ x → b.Joined {x}ᶜ v hub := by
  have hl := h.way.1
  have hadj : b.graph.Adj u.vertex l.vertex := hl.linked u rfl
  by_cases hux : u.vertex = x
  · refine ⟨l.vertex, ?_⟩
    rintro v (rfl | hv) hvx
    · exact absurd hux hvx
    · refine (hl.joined v hv).mono fun y hy => ?_
      rintro rfl
      exact h.vertex_not_mem_bag (hl.pending_sub (hux ▸ hy))
  · have hdown : ∀ {v y}, b.Joined {x}ᶜ v y → b.graph.Adj y u.vertex →
        b.Joined {x}ᶜ v u.vertex := fun hvy hyu => hvy.trans (.of_adj hyu hvy.right_mem hux)
    refine ⟨u.vertex, ?_⟩
    rintro v (rfl | hv) hvx
    · exact .refl hux
    · by_cases hx : x ∈ l.pending
      · obtain ⟨z, hvz, hz⟩ := hl.uncut x hx v hv hvx
        have hvz' : b.Joined {x}ᶜ v z := hvz.mono fun y hy => hy.2
        rcases hz with rfl | ⟨m, hm, hzm⟩
        · exact hdown hvz' hadj.symm
        · have hmu : m.vertex = u.vertex := by
            refine (h.bag_shut hrest hlow z (hl.pending_sub hvz.right_mem.1) _ hzm).resolve_left ?_
            rintro ⟨t, ht, hle, -⟩
            exact h.way.2.ne_of_found hm ht hle rfl
          exact hdown hvz' (hmu ▸ hzm)
      · refine hdown ((hl.joined v hv).mono fun y hy => ?_) hadj.symm
        rintro rfl
        exact hx hy

/-- Whatever is neither in the level nor the node below is not linked to the level. -/
theorem compl_shut (h : s.Inv (l :: u :: ls) none) (hrest : l.frame.rest = [])
    (hlow : u.since ≤ s.low l.vertex) :
    b.Shut (insert u.vertex (l.bag s.found s.time))ᶜ u.vertex := by
  intro x hx y hxy
  by_cases hyu : y = u.vertex
  · exact .inr hyu
  · refine .inl (not_or.mpr ⟨hyu, fun hy => ?_⟩)
    obtain ⟨hxu, hxbag⟩ := not_or.mp hx
    exact (h.bag_shut hrest hlow y hy x hxy.symm).elim hxbag hxu

/-- **What is pending is a block together with the node below.** -/
theorem isBlock (h : s.Inv (l :: u :: ls) none) (hrest : l.frame.rest = [])
    (hlow : u.since ≤ s.low l.vertex) : b.IsBlock (insert u.vertex l.pending) := by
  have hl := h.way.1
  exact
    { mem_nodes := by
        rintro x (rfl | hx)
        · exact h.found_mem h.way.2.1.found_eq
        · obtain ⟨t, hfound, -⟩ := hl.pending_sub hx
          exact h.found_mem hfound
      uncut := by
        intro x v hv w hw hvx hwx
        obtain ⟨hub, hhub⟩ := h.joined_hub hrest hlow x
        exact (hhub v hv hvx).trans (hhub w hw hwx).symm
      shut := by
        intro z hz
        obtain ⟨hzu, hzl⟩ := not_or.mp hz
        by_cases hbag : z ∈ l.bag s.found s.time
        · obtain ⟨c, hc, S, hzS, hS, hshut⟩ := hl.shut z hbag hzl
          refine ⟨c, .inr hc, S, hzS, ?_, hshut⟩
          rintro x hx (rfl | hxl)
          · exact h.vertex_not_mem_bag (hS hx).1
          · exact (hS hx).2 hxl
        · refine ⟨u.vertex, .inl rfl, _, not_or.mpr ⟨hzu, hbag⟩, ?_, h.compl_shut hrest hlow⟩
          rintro x hx (rfl | hxl)
          · exact hx (.inl rfl)
          · exact hx (.inr (hl.pending_sub hxl)) }

theorem complete_fits (h : s.Inv (l :: u :: ls) none) (hrest : l.frame.rest = [])
    (hlow : u.since ≤ s.low l.vertex) : u.Fits s.found s.low s.time ls := by
  obtain ⟨hl, hu, hls⟩ := h.way
  have hbag : ∀ {x}, x ∈ u.bag s.found s.time ↔
      x ∈ u.bag s.found l.since ∨ x ∈ l.bag s.found s.time :=
    Level.mem_bag_iff hu.since_lt hl.since_lt
  exact
    { hu with
      since_lt := Nat.lt_trans hu.since_lt hl.since_lt
      pending_sub := fun x hx => hbag.mpr (.inl (hu.pending_sub hx))
      low_le := by
        intro y hy x t hyx hx ht hskip
        rcases hbag.mp hy with hy | hy
        · exact hu.low_le y hy x t hyx hx ht hskip
        · have := h.low_le_of_bag hrest hy hyx hx ht
          omega
      shut := by
        intro z hz hpending
        rcases hbag.mp hz with hz | hz
        · obtain ⟨c, hc, S, hzS, hS, hshut⟩ := hu.shut z hz hpending
          exact ⟨c, hc, S, hzS, fun x hx => ⟨hbag.mpr (.inl (hS hx).1), (hS hx).2⟩, hshut⟩
        · refine ⟨u.vertex, hu.self_mem, l.bag s.found s.time, hz, fun x hx => ?_,
            h.bag_shut hrest hlow⟩
          exact ⟨hbag.mpr (.inr hx), fun hxu => Level.not_mem_bag (hu.pending_sub hxu) hx⟩ }

/-- The low link of a node is no later than the node. -/
theorem low_le_since (h : s.Inv (l :: u :: ls) none) : s.low u.vertex ≤ u.since := by
  rcases h.way.2.1.low_eq with heq | ⟨m, hm, heq, -⟩
  · exact Nat.le_of_eq heq
  · exact heq ▸ Nat.le_of_lt (h.way.2.2.since_lt hm)

/-- The pairs of the level are on the stack, with the one by which its node was found the last. -/
theorem pairs_eq_append (h : s.Inv (l :: u :: ls) none) :
    s.pairs = l.inner ++ (u.vertex, l.vertex) :: (u :: ls).flatMap Level.pairs := by
  rw [h.pairs_eq, List.flatMap_cons, Level.pairs, h.way.1.parent]
  simp [Level.vertex]

/-- The pairs that are taken as a component are those of the level. -/
theorem complete_eq (h : s.Inv (l :: u :: ls) none) (fs : List (Frame b)) :
    (({ s with frames := fs } : Search b).lower u.vertex (s.low l.vertex)).complete
        u.vertex l.vertex =
      { s.lower u.vertex (s.low l.vertex) with
        frames := fs
        pairs := (u :: ls).flatMap Level.pairs
        components := s.components ++
          [.ofList ((l.inner ++ [(u.vertex, l.vertex)]).flatMap fun p => [p.1, p.2])] } := by
  have habove : ∀ p ∈ l.inner, decide (p ≠ (u.vertex, l.vertex)) = true := by
    intro p hp
    refine decide_eq_true ?_
    rintro rfl
    exact h.vertex_not_mem_bag (h.way.1.pending_sub (h.way.1.inner_sub _ hp).2.1)
  unfold complete
  rw [lower_eq, lower_eq, h.pairs_eq_append, List.takeWhile_append_of_pos habove,
    List.dropWhile_append_of_pos habove]
  simp

theorem mem_component_iff (h : s.Inv (l :: u :: ls) none) (hrest : l.frame.rest = [])
    (hlow : u.since ≤ s.low l.vertex) {x : ElementId} :
    x ∈ (l.inner ++ [(u.vertex, l.vertex)]).flatMap (fun p => [p.1, p.2]) ↔
      x ∈ insert u.vertex l.pending := by
  have hl := h.way.1
  simp only [List.mem_flatMap, List.mem_append, List.mem_cons, List.not_mem_nil, or_false]
  constructor
  · rintro ⟨p, hp | rfl, hx⟩
    · obtain ⟨hadj, hfst, hsnd⟩ := hl.inner_sub p hp
      rcases hx with rfl | rfl
      · exact .inr hfst
      · rcases hsnd with hsnd | ⟨m, hm, hpm⟩
        · exact .inr hsnd
        · -- a pair of the level leads no further down than to the node below
          left
          refine (h.bag_shut hrest hlow p.1 (hl.pending_sub hfst) p.2 hadj).resolve_left ?_
          rintro ⟨t, ht, hle, -⟩
          exact h.way.2.ne_of_found hm ht hle hpm.symm
    · rcases hx with rfl | rfl
      · exact .inl rfl
      · exact .inr hl.self_mem
  · rintro (rfl | hx)
    · exact ⟨_, .inr rfl, .inl rfl⟩
    · rcases hl.inner_all x hx with rfl | ⟨p, hp, hxp⟩
      · exact ⟨_, .inr rfl, .inr rfl⟩
      · exact ⟨p, .inl hp, hxp⟩

theorem completes (h : s.Inv (l :: u :: ls) none) (hrest : l.frame.rest = [])
    (hlow : u.since ≤ s.low l.vertex) :
    ((({ s with frames := u.frame :: ls.map Level.frame } : Search b).lower u.vertex
      (s.low l.vertex)).complete u.vertex l.vertex).Inv (u :: ls) none := by
  have hl := h.way.1
  have hC : ∀ {x}, x ∈ SortedSet.ofList ((l.inner ++ [(u.vertex, l.vertex)]).flatMap
      fun p => [p.1, p.2]) ↔ x ∈ insert u.vertex l.pending := fun {x} =>
    SortedSet.mem_ofList.trans (h.mem_component_iff hrest hlow)
  have hlow_eq : s.lower u.vertex (s.low l.vertex) = s := by
    rw [lower_eq, Nat.min_eq_left (Nat.le_trans h.low_le_since hlow), Function.update_eq_self]
  rw [h.complete_eq, hlow_eq]
  -- a node pending further down is linked to the level only if it is the node below
  have hdown : ∀ {x y}, x ∈ l.pending → Pending (u :: ls) y → b.graph.Adj x y → y = u.vertex := by
    intro x y hx hy hxy
    refine (h.bag_shut hrest hlow x (hl.pending_sub hx) y hxy).resolve_left ?_
    rintro ⟨t, ht, hle, -⟩
    exact Nat.not_lt.mpr hle (h.way.2.lt_of_pending hy ht)
  exact
    { frames_eq := rfl
      pairs_eq := rfl
      way := ⟨h.complete_fits hrest hlow, h.way.2.2⟩
      found_lt := h.found_lt
      found_mem := h.found_mem
      seen := h.seen_below hrest
      back := h.back_below
      covered := by
        intro x y t t' hx hy hxy
        have hnew : x ∈ insert u.vertex l.pending → y ∈ insert u.vertex l.pending →
            ∃ C ∈ s.components ++ [.ofList ((l.inner ++ [(u.vertex, l.vertex)]).flatMap
              fun p => [p.1, p.2])], x ∈ C ∧ y ∈ C := fun hx hy =>
          ⟨_, List.mem_append_right _ List.mem_cons_self, hC.mpr hx, hC.mpr hy⟩
        rcases h.covered hx hy hxy with ⟨C, hCs, hxyC⟩ | ⟨hxp, hyp⟩
        · exact .inl ⟨C, List.mem_append_left _ hCs, hxyC⟩
        · rcases pending_cons.mp hxp with hxl | hxu <;> rcases pending_cons.mp hyp with hyl | hyu
          · exact .inl (hnew (.inr hxl) (.inr hyl))
          · exact .inl (hnew (.inr hxl) (.inl (hdown hxl hyu hxy)))
          · exact .inl (hnew (.inl (hdown hyl hxu hxy.symm)) (.inr hyl))
          · exact .inr ⟨hxu, hyu⟩
      blocks := by
        refine List.forall_mem_append.mpr ⟨h.blocks, List.forall_mem_singleton.mpr ?_⟩
        simp only [hC]
        exact h.isBlock hrest hlow
      met := by
        intro x t hx
        refine (h.met hx).imp_left ?_
        rintro ⟨C, hCs, hxC⟩
        exact ⟨C, List.mem_append_left _ hCs, hxC⟩ }

/-! ### Steps -/

theorem finds {w : ElementId} {ws : List ElementId} (h : s.Inv (l :: ls) none) (hb : b.Closed)
    (hrest : l.frame.rest = w :: ws) (hw : s.found w = none) :
    ((({ s with frames := l.frame.advance :: ls.map Level.frame } : Search b).push
      l.vertex w).enter w (some l.vertex)).Inv
        (.start b w s.time (l.advance :: ls) :: l.advance :: ls) none := by
  have hne : l.vertex ≠ w := by
    rintro rfl
    rw [h.way.1.found_eq] at hw
    cases hw
  have hadj : b.graph.Adj l.vertex w :=
    graph_adj.mpr ⟨hne, l.frame.rest_linked w (hrest ▸ List.mem_cons_self)⟩
  have hadvance := h.advance hrest fun t ht => by
    rw [hw] at ht
    cases ht
  refine hadvance.enter hw (hb.mem_of_adj hadj) ?_ ⟨_, hadj.symm⟩ rfl
  rintro m ⟨⟩
  exact hadj

theorem meets {w : ElementId} {ws : List ElementId} {t : Nat} (h : s.Inv (l :: ls) none)
    (hrest : l.frame.rest = w :: ws) (hw : s.found w = some t) (ht : t < l.since) :
    ((({ s with frames := l.frame.advance :: ls.map Level.frame } : Search b).push
      l.vertex w).lower l.vertex t).Inv ((l.meet w).advance :: ls) none := by
  have hne : l.vertex ≠ w := by
    rintro rfl
    obtain rfl := Option.some.inj (hw.symm.trans h.way.1.found_eq)
    exact Nat.lt_irrefl _ ht
  have hadj : b.graph.Adj l.vertex w :=
    graph_adj.mpr ⟨hne, l.frame.rest_linked w (hrest ▸ List.mem_cons_self)⟩
  have hmeet := h.meet hadj hw ht
  rw [lower_eq] at hmeet ⊢
  refine (hmeet.advance hrest fun t' ht' _ => .inr ?_).settle hw
  obtain rfl := Option.some.inj (hw.symm.trans ht')
  show Function.update s.low l.vertex _ l.vertex ≤ t
  rw [Function.update_self]
  exact Nat.min_le_right ..

/-- **Every step keeps what holds of the search.** -/
theorem step {s' : Search b} {levels : List (Level b)} (h : s.Inv levels none) (hb : b.Closed)
    (hstep : s.step = some s') : ∃ levels', s'.Inv levels' none := by
  have hframes := h.frames_eq
  cases next_of_step hstep with
  | ends hf hrest =>
    obtain ⟨l, ls, rfl, rfl, hls⟩ := List.map_eq_cons_iff.mp (hframes.symm.trans hf)
    obtain rfl := List.map_eq_nil_iff.mp hls
    exact ⟨_, h.ends hrest⟩
  | returns hf hrest hlow =>
    obtain ⟨l, _, rfl, rfl, hls⟩ := List.map_eq_cons_iff.mp (hframes.symm.trans hf)
    obtain ⟨u, ls, rfl, rfl, rfl⟩ := List.map_eq_cons_iff.mp hls
    exact ⟨_, h.returns hrest (hlow _ h.way.2.1.found_eq)⟩
  | completes hf hrest hfound hlow =>
    obtain ⟨l, _, rfl, rfl, hls⟩ := List.map_eq_cons_iff.mp (hframes.symm.trans hf)
    obtain ⟨u, ls, rfl, rfl, rfl⟩ := List.map_eq_cons_iff.mp hls
    obtain rfl := Option.some.inj (hfound.symm.trans h.way.2.1.found_eq)
    exact ⟨_, h.completes hrest hlow⟩
  | finds hf hrest hw =>
    obtain ⟨l, ls, rfl, rfl, rfl⟩ := List.map_eq_cons_iff.mp (hframes.symm.trans hf)
    exact ⟨_, h.finds hb hrest hw⟩
  | meets hf hrest hw hfound hlt =>
    obtain ⟨l, ls, rfl, rfl, rfl⟩ := List.map_eq_cons_iff.mp (hframes.symm.trans hf)
    obtain rfl := Option.some.inj (hfound.symm.trans h.way.1.found_eq)
    exact ⟨_, h.meets hrest hw hlt⟩
  | @passes _ _ w _ hf hrest hskip =>
    obtain ⟨l, ls, rfl, rfl, rfl⟩ := List.map_eq_cons_iff.mp (hframes.symm.trans hf)
    obtain ⟨t, hw⟩ : ∃ t, s.found w = some t := by
      rcases hskip with hparent | ⟨t, ht, -⟩
      · rw [h.way.1.parent] at hparent
        obtain ⟨u, hu, rfl⟩ := Option.map_eq_some_iff.mp hparent
        exact ⟨_, h.way.2.found_eq (List.mem_of_mem_head? hu)⟩
      · exact ⟨t, ht⟩
    refine ⟨_, (h.advance hrest fun t' ht' hlt => hskip.imp_right ?_).settle hw⟩
    rintro ⟨t, ht, hle⟩
    obtain rfl := Option.some.inj (ht.symm.trans ht')
    exact absurd hlt (Nat.not_lt.mpr (hle _ h.way.1.found_eq))

/-- **A search that comes back has everything linked in components.** -/
theorem run (hb : b.Closed) {levels : List (Level b)} (h : s.Inv levels none) :
    s.run.Inv [] none := by
  fun_induction Search.run s generalizing levels with
  | case1 s hstep =>
    have hnil : s.frames = [] := by
      unfold Search.step at hstep
      split at hstep
      · assumption
      · split at hstep <;> cases hstep
    obtain rfl := List.map_eq_nil_iff.mp (h.frames_eq.symm.trans hnil)
    exact h
  | case2 s s' hstep ih =>
    obtain ⟨levels', h'⟩ := h.step hb hstep
    exact ih h'

end Search.Inv

end Dataflow.Bonds
