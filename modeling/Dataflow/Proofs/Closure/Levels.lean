import Dataflow.Closure.LowLink
import Dataflow.Proofs.Closure.Separation

/-!
# The search for biconnected components keeps its promises

The nodes that the search has found fall into levels, one for each node on the way: what was found
since that node and before the next. Of a level some nodes are pending, which are those whose
component is not complete.

* **`Bonds.Search.Inv`**: what holds between the steps, level by level in `Bonds.Level.Fits`.
* **`Bonds.Search.Inv.advance`, `Bonds.Search.Inv.meet`, `Bonds.Search.Inv.enter`**: it is kept where
  the search looks at a linked node.
-/

namespace Dataflow.Bonds

variable {b : Bonds}

/-- A node on the way, with what the search knows of the nodes found since. -/
structure Level (b : Bonds) where
  frame : Frame b
  /-- When the node was found. -/
  since : Nat
  /-- The nodes of the level whose component is not complete. -/
  pending : Set ElementId
  /-- The pairs that were met at these nodes. -/
  inner : List (ElementId × ElementId)

namespace Level

def vertex (l : Level b) : ElementId := l.frame.vertex

/-- The pairs of the level on the stack. The last is the one by which the node was found. -/
def pairs (l : Level b) : List (ElementId × ElementId) :=
  l.inner ++ l.frame.parent.toList.map fun u => (u, l.vertex)

/-- The nodes of the level, where the next one begins at `upper`. -/
def bag (found : ElementId → Option Nat) (upper : Nat) (l : Level b) : Set ElementId :=
  {x | ∃ t, found x = some t ∧ l.since ≤ t ∧ t < upper}

/-- What holds of a level above others. -/
structure Fits (found : ElementId → Option Nat) (low : ElementId → Nat) (upper : Nat) (l : Level b)
    (below : List (Level b)) : Prop where
  found_eq : found l.vertex = some l.since
  since_lt : l.since < upper
  parent : l.frame.parent = below.head?.map vertex
  linked : ∀ m ∈ below.head?, b.graph.Adj m.vertex l.vertex
  self_mem : l.vertex ∈ l.pending
  pending_sub : l.pending ⊆ l.bag found upper
  /-- Where the search began, every component found was complete. -/
  root : below = [] → l.pending = {l.vertex}
  /-- The low link is no later than what the level leads back to, but for the pair by which its node
  was found. -/
  low_le : ∀ y ∈ l.bag found upper, ∀ x t, b.graph.Adj y x → found x = some t → t < l.since →
    (y = l.vertex → x ∉ l.frame.rest ∧ l.frame.parent ≠ some x) → low l.vertex ≤ t
  /-- The low link is a time to which a pending node leads back. -/
  low_eq : low l.vertex = l.since ∨
    ∃ m ∈ below, low l.vertex = m.since ∧ ∃ z ∈ l.pending, b.graph.Adj z m.vertex
  joined : ∀ w ∈ l.pending, b.Joined l.pending w l.vertex
  /-- No pending node cuts another off from the way. -/
  uncut : ∀ x ∈ l.pending, ∀ w ∈ l.pending, w ≠ x → ∃ z, b.Joined (l.pending \ {x}) w z ∧
    (z = l.vertex ∨ ∃ m ∈ below, b.graph.Adj z m.vertex)
  /-- Nodes that are not pending are shut off by one that is. -/
  shut : ∀ z ∈ l.bag found upper, z ∉ l.pending →
    ∃ c ∈ l.pending, ∃ S, z ∈ S ∧ S ⊆ l.bag found upper \ l.pending ∧ b.Shut S c
  inner_sub : ∀ p ∈ l.inner, b.graph.Adj p.1 p.2 ∧ p.1 ∈ l.pending ∧
    (p.2 ∈ l.pending ∨ ∃ m ∈ below, p.2 = m.vertex)
  inner_all : ∀ w ∈ l.pending, w = l.vertex ∨ ∃ p ∈ l.inner, w = p.1 ∨ w = p.2

variable {found found' : ElementId → Option Nat} {low low' : ElementId → Nat} {upper : Nat}
  {l : Level b} {below : List (Level b)} {w : ElementId}

theorem bag_congr (h : ∀ x t, t < upper → (found' x = some t ↔ found x = some t)) :
    l.bag found' upper = l.bag found upper :=
  Set.ext fun x => exists_congr fun t =>
    ⟨fun ⟨hx, hle, hlt⟩ => ⟨(h x t hlt).mp hx, hle, hlt⟩,
      fun ⟨hx, hle, hlt⟩ => ⟨(h x t hlt).mpr hx, hle, hlt⟩⟩

/-- Only what was found before the next level matters, and the low link. -/
theorem Fits.congr (h : l.Fits found low upper below)
    (hfound : ∀ x t, t < upper → (found' x = some t ↔ found x = some t))
    (hlow : low' l.vertex = low l.vertex) : l.Fits found' low' upper below :=
  { h with
    found_eq := (hfound _ _ h.since_lt).mpr h.found_eq
    pending_sub := bag_congr hfound ▸ h.pending_sub
    low_le := by
      intro y hy x t hyx hx ht hskip
      rw [hlow]
      exact h.low_le y (bag_congr hfound ▸ hy) x t hyx
        ((hfound x t (Nat.lt_trans ht h.since_lt)).mp hx) ht hskip
    low_eq := hlow ▸ h.low_eq
    shut := bag_congr hfound ▸ h.shut }

end Level

/-- Levels one above the other, the last one first. -/
def Way (found : ElementId → Option Nat) (low : ElementId → Nat) : Nat → List (Level b) → Prop
  | _, [] => True
  | upper, l :: ls => l.Fits found low upper ls ∧ Way found low l.since ls

namespace Way

variable {found found' : ElementId → Option Nat} {low low' : ElementId → Nat} {upper : Nat}
  {ls : List (Level b)} {m : Level b}

theorem exists_fits (h : Way found low upper ls) (hm : m ∈ ls) :
    ∃ upper' ≤ upper, ∃ below, m.Fits found low upper' below := by
  induction ls generalizing upper with
  | nil => exact absurd hm List.not_mem_nil
  | cons l ls ih =>
    rcases List.mem_cons.mp hm with rfl | hm
    · exact ⟨upper, Nat.le_refl _, ls, h.1⟩
    · obtain ⟨upper', hle, hfits⟩ := ih h.2 hm
      exact ⟨upper', Nat.le_trans hle (Nat.le_of_lt h.1.since_lt), hfits⟩

theorem since_lt (h : Way found low upper ls) (hm : m ∈ ls) : m.since < upper := by
  obtain ⟨upper', hle, below, hfits⟩ := h.exists_fits hm
  exact Nat.lt_of_lt_of_le hfits.since_lt hle

theorem found_eq (h : Way found low upper ls) (hm : m ∈ ls) : found m.vertex = some m.since := by
  obtain ⟨_, -, _, hfits⟩ := h.exists_fits hm
  exact hfits.found_eq

theorem self_mem (h : Way found low upper ls) (hm : m ∈ ls) : m.vertex ∈ m.pending := by
  obtain ⟨_, -, _, hfits⟩ := h.exists_fits hm
  exact hfits.self_mem

/-- A node on the way was found when its level began. -/
theorem since_eq (h : Way found low upper ls) (hm : m ∈ ls) {t : Nat}
    (ht : found m.vertex = some t) : m.since = t :=
  Option.some.inj ((h.found_eq hm).symm.trans ht)

/-- A node found since has no level below. -/
theorem ne_of_found (h : Way found low upper ls) (hm : m ∈ ls) {x : ElementId} {t : Nat}
    (hx : found x = some t) (ht : upper ≤ t) : m.vertex ≠ x := by
  rintro rfl
  exact absurd (h.since_lt hm) (h.since_eq hm hx ▸ Nat.not_lt.mpr ht)

theorem congr (h : Way found low upper ls)
    (hfound : ∀ x t, t < upper → (found' x = some t ↔ found x = some t))
    (hlow : ∀ m ∈ ls, low' m.vertex = low m.vertex) : Way found' low' upper ls := by
  induction ls generalizing upper with
  | nil => trivial
  | cons l ls ih =>
    obtain ⟨hl, hls⟩ := List.forall_mem_cons.mp hlow
    exact ⟨h.1.congr hfound hl,
      ih h.2 (fun x t ht => hfound x t (Nat.lt_trans ht h.1.since_lt)) hls⟩

/-- The levels below do not depend on the low link of a node found since. -/
theorem update_low (h : Way found low upper ls) {x : ElementId} {t : Nat} (hx : found x = some t)
    (ht : upper ≤ t) (low' : Nat) : Way found (Function.update low x low') upper ls :=
  h.congr (fun _ _ _ => Iff.rfl) fun _ hm => Function.update_of_ne (h.ne_of_found hm hx ht) ..

end Way

/-- Some level has the node pending. -/
def Pending (levels : List (Level b)) (x : ElementId) : Prop :=
  ∃ nodes ∈ levels.map Level.pending, x ∈ nodes

theorem pending_cons {l : Level b} {ls : List (Level b)} {x : ElementId} :
    Pending (l :: ls) x ↔ x ∈ l.pending ∨ Pending ls x :=
  List.exists_mem_cons_iff ..

/-- A node on the way is pending. -/
theorem Way.pending {found : ElementId → Option Nat} {low : ElementId → Nat} {upper : Nat}
    {ls : List (Level b)} {x : ElementId} (h : Way found low upper ls)
    (hx : x ∈ ls.map Level.vertex) : Pending ls x := by
  obtain ⟨m, hm, rfl⟩ := List.mem_map.mp hx
  exact ⟨_, List.mem_map_of_mem hm, h.self_mem hm⟩

/-- What is pending was found before the levels end. -/
theorem Way.lt_of_pending {found : ElementId → Option Nat} {low : ElementId → Nat} {upper t : Nat}
    {ls : List (Level b)} {x : ElementId} (h : Way found low upper ls) (hx : Pending ls x)
    (ht : found x = some t) : t < upper := by
  obtain ⟨_, hP, hx⟩ := hx
  obtain ⟨m, hm, rfl⟩ := List.mem_map.mp hP
  obtain ⟨upper', hle, _, hfits⟩ := h.exists_fits hm
  obtain ⟨t', ht', -, hlt⟩ := hfits.pending_sub hx
  obtain rfl := Option.some.inj (ht.symm.trans ht')
  exact Nat.lt_of_lt_of_le hlt hle

/-- What holds between the steps of the search. A node may be due to be found next. -/
structure Search.Inv (s : Search b) (levels : List (Level b)) (due : Option ElementId) : Prop where
  frames_eq : s.frames = levels.map Level.frame
  pairs_eq : s.pairs = levels.flatMap Level.pairs
  way : Way s.found s.low s.time levels
  found_lt : ∀ {x t}, s.found x = some t → t < s.time
  found_mem : ∀ {x t}, s.found x = some t → x ∈ b.nodes
  /-- What is linked to a node that the search has left is found. -/
  seen : ∀ {x y t}, s.found x = some t → b.graph.Adj x y →
    (∃ t', s.found y = some t') ∨
      ∃ f ∈ levels.map Level.frame, f.vertex = x ∧ (y ∈ f.rest ∨ due = some y)
  /-- From a level and those above it links lead to nodes on the way only. -/
  back : ∀ start ∈ levels.map Level.since, ∀ {x y t t'}, b.graph.Adj x y → s.found x = some t →
    s.found y = some t' → t < start → start ≤ t' → x ∈ levels.map Level.vertex
  /-- Linked nodes are in one component that is complete, or pending. -/
  covered : ∀ {x y t t'}, s.found x = some t → s.found y = some t' → b.graph.Adj x y →
    (∃ C ∈ s.components, x ∈ C ∧ y ∈ C) ∨ Pending levels x ∧ Pending levels y
  blocks : ∀ C ∈ s.components, b.IsBlock {v | v ∈ C}
  met : ∀ {x t}, s.found x = some t → (∃ C ∈ s.components, x ∈ C) ∨ ∃ y, b.graph.Adj x y

/-! ### Looking at a linked node -/

namespace Level

variable {found : ElementId → Option Nat} {low : ElementId → Nat} {upper : Nat} {l : Level b}
  {below : List (Level b)} {w : ElementId}

/-- The level with one linked node looked at. -/
def advance (l : Level b) : Level b := { l with frame := l.frame.advance }

/-- The level with one more pair met. -/
def meet (l : Level b) (w : ElementId) : Level b := { l with inner := (l.vertex, w) :: l.inner }

theorem Fits.advance {ws : List ElementId} (h : l.Fits found low upper below)
    (hrest : l.frame.rest = w :: ws)
    (hw : ∀ t, found w = some t → t < l.since → l.frame.parent = some w ∨ low l.vertex ≤ t) :
    l.advance.Fits found low upper below :=
  { h with
    low_le := by
      intro y hy x t hyx hx ht hskip
      by_cases hxw : y = l.vertex ∧ x = w
      · obtain ⟨rfl, rfl⟩ := hxw
        exact (hw t hx ht).resolve_left (hskip rfl).2
      · refine h.low_le y hy x t hyx hx ht fun hyl => ?_
        obtain ⟨hrest', hparent⟩ := hskip hyl
        refine ⟨fun hmem => ?_, hparent⟩
        rw [hrest] at hmem
        rcases List.mem_cons.mp hmem with hmem | hmem
        · exact hxw ⟨hyl, hmem⟩
        · exact hrest' (by simpa [Level.advance, Frame.advance, hrest] using hmem) }

theorem Fits.meet {m : Level b} (h : l.Fits found low upper below)
    (hadj : b.graph.Adj l.vertex m.vertex) (hm : m ∈ below) :
    (l.meet m.vertex).Fits found
      (Function.update low l.vertex (min (low l.vertex) m.since)) upper below :=
  { h with
    low_le := by
      intro y hy x t hyx hx ht hskip
      refine Nat.le_trans ?_ (h.low_le y hy x t hyx hx ht hskip)
      show Function.update low l.vertex _ l.vertex ≤ low l.vertex
      rw [Function.update_self]
      exact Nat.min_le_left ..
    low_eq := by
      show Function.update low l.vertex _ l.vertex = _ ∨ ∃ n ∈ below,
        Function.update low l.vertex _ l.vertex = _ ∧ _
      rw [Function.update_self]
      rcases Nat.le_total (low l.vertex) m.since with hle | hle
      · rw [Nat.min_eq_left hle]
        exact h.low_eq
      · rw [Nat.min_eq_right hle]
        exact .inr ⟨m, hm, rfl, l.vertex, h.self_mem, hadj⟩
    inner_sub := List.forall_mem_cons.mpr
      ⟨⟨hadj, h.self_mem, .inr ⟨m, hm, rfl⟩⟩, h.inner_sub⟩
    inner_all := fun w hw => (h.inner_all w hw).imp_right fun ⟨p, hp, hwp⟩ =>
      ⟨p, List.mem_cons_of_mem _ hp, hwp⟩ }

end Level

namespace Search.Inv

variable {s : Search b} {l : Level b} {ls : List (Level b)} {w : ElementId}

theorem advance {ws : List ElementId} (h : s.Inv (l :: ls) none)
    (hrest : l.frame.rest = w :: ws)
    (hw : ∀ t, s.found w = some t → t < l.since →
      l.frame.parent = some w ∨ s.low l.vertex ≤ t) :
    Inv { s with frames := l.frame.advance :: ls.map Level.frame } (l.advance :: ls) (some w) where
  frames_eq := rfl
  pairs_eq := h.pairs_eq
  way := ⟨h.way.1.advance hrest hw, h.way.2⟩
  found_lt := h.found_lt
  found_mem := h.found_mem
  seen := by
    intro x y t hx hxy
    refine (h.seen hx hxy).imp_right ?_
    rintro ⟨f, hf, rfl, hy⟩
    have hy : y ∈ f.rest := hy.resolve_right nofun
    rcases List.mem_cons.mp hf with rfl | hf
    · refine ⟨l.frame.advance, List.mem_cons_self, rfl, ?_⟩
      rw [hrest] at hy
      rcases List.mem_cons.mp hy with rfl | hy
      · exact .inr rfl
      · exact .inl (by simpa [Frame.advance, hrest] using hy)
    · exact ⟨f, List.mem_cons_of_mem _ hf, rfl, .inl hy⟩
  back := h.back
  covered := h.covered
  blocks := h.blocks
  met := h.met

/-- A node that is found is not due. -/
theorem settle {levels : List (Level b)} {t : Nat} (h : s.Inv levels (some w))
    (hw : s.found w = some t) : s.Inv levels none :=
  { h with
    seen := by
      intro x y t' hx hxy
      rcases h.seen hx hxy with hy | ⟨m, hm, hmx, hy | hy⟩
      · exact .inl hy
      · exact .inr ⟨m, hm, hmx, .inl hy⟩
      · cases hy
        exact .inl ⟨t, hw⟩ }

/-- Where a link leads back from the last level there is a level. -/
theorem exists_level {due : Option ElementId} (h : s.Inv (l :: ls) due) {x y : ElementId}
    {t t' : Nat} (hxy : b.graph.Adj x y) (hx : s.found x = some t) (hy : s.found y = some t')
    (ht : t < l.since) (ht' : l.since ≤ t') : ∃ m ∈ ls, m.vertex = x ∧ m.since = t := by
  obtain ⟨m, hm, rfl⟩ :=
    List.mem_map.mp (h.back _ (List.mem_map_of_mem List.mem_cons_self) hxy hx hy ht ht')
  have hsince := h.way.since_eq hm hx
  rcases List.mem_cons.mp hm with rfl | hm
  · exact absurd ht (hsince ▸ Nat.lt_irrefl _)
  · exact ⟨m, hm, rfl, hsince⟩

theorem meet {t : Nat} (h : s.Inv (l :: ls) none) (hadj : b.graph.Adj l.vertex w)
    (hw : s.found w = some t) (ht : t < l.since) :
    Inv ((s.push l.vertex w).lower l.vertex t) (l.meet w :: ls) none := by
  have hl := h.way.1.found_eq
  obtain ⟨m, hm, rfl, rfl⟩ := h.exists_level hadj.symm hw hl ht (Nat.le_refl _)
  rw [lower_eq]
  exact
    { frames_eq := h.frames_eq
      pairs_eq := congrArg ((l.vertex, m.vertex) :: ·) h.pairs_eq
      way := ⟨h.way.1.meet hadj hm, h.way.2.update_low hl (Nat.le_refl _) _⟩
      found_lt := h.found_lt
      found_mem := h.found_mem
      seen := h.seen
      back := h.back
      covered := h.covered
      blocks := h.blocks
      met := h.met }

end Search.Inv

/-! ### Finding a node -/

namespace Level

variable {found : ElementId → Option Nat} {low : ElementId → Nat} {upper : Nat}
  {below : List (Level b)} {w : ElementId}

/-- The level of a node that is found. -/
def start (b : Bonds) (w : ElementId) (since : Nat) (below : List (Level b)) : Level b where
  frame := .start b w (below.head?.map vertex)
  since := since
  pending := {w}
  inner := []

theorem fits_start {time : Nat} (hfound : ∀ x t, found x = some t → t < time)
    (hlinked : ∀ m ∈ below.head?, b.graph.Adj m.vertex w) :
    (start b w time below).Fits (Function.update found w (some time))
      (Function.update low w time) (time + 1) below := by
  have hbag : ∀ x ∈ (start b w time below).bag (Function.update found w (some time)) (time + 1),
      x = w := by
    rintro x ⟨t, hx, ht, -⟩
    by_contra hne
    rw [Function.update_of_ne hne] at hx
    exact Nat.not_lt.mpr ht (hfound x t hx)
  exact
    { found_eq := Function.update_self ..
      since_lt := Nat.lt_succ_self _
      parent := rfl
      linked := hlinked
      self_mem := rfl
      pending_sub := by
        rintro x rfl
        exact ⟨time, Function.update_self .., Nat.le_refl _, Nat.lt_succ_self _⟩
      root := fun _ => rfl
      low_le := by
        intro y hy x t hyx _ _ hskip
        obtain rfl := hbag y hy
        -- nothing was looked at so far
        exact absurd (List.mem_eraseDups.mpr (graph_adj.mp hyx).2) (hskip rfl).1
      low_eq := .inl (Function.update_self ..)
      joined := by
        rintro x rfl
        exact .refl rfl
      uncut := by
        rintro x rfl y rfl hne
        exact absurd rfl hne
      shut := fun z hz hpending => absurd (hbag z hz) hpending
      inner_sub := fun p hp => absurd hp List.not_mem_nil
      inner_all := fun x hx => .inl hx }

end Level

namespace Search

variable {s : Search b} {levels : List (Level b)} {due : Option ElementId} {w x : ElementId}
  {t : Nat}

/-- What is found after a node is found is the node, or was found before. -/
theorem found_find (hx : (s.find w).found x = some t) :
    x = w ∧ t = s.time ∨ x ≠ w ∧ s.found x = some t := by
  by_cases hxw : x = w
  · subst hxw
    exact .inl ⟨rfl, Option.some.inj (hx.symm.trans (Function.update_self ..))⟩
  · exact .inr ⟨hxw, (Function.update_of_ne hxw ..).symm.trans hx⟩

namespace Inv

theorem found_find_lt (h : s.Inv levels due) (hx : (s.find w).found x = some t) :
    t < (s.find w).time := by
  rcases found_find hx with ⟨-, rfl⟩ | ⟨-, hx⟩
  · exact Nat.lt_succ_self _
  · exact Nat.lt_succ_of_lt (h.found_lt hx)

theorem found_find_mem (h : s.Inv levels due) (hw : w ∈ b.nodes)
    (hx : (s.find w).found x = some t) : x ∈ b.nodes := by
  rcases found_find hx with ⟨rfl, -⟩ | ⟨-, hx⟩
  · exact hw
  · exact h.found_mem hx

/-- What leads to a node that is not found is on the way: the search has left nothing linked to
it. -/
theorem mem_way (h : s.Inv levels due) (hw : s.found w = none) (hxw : b.graph.Adj x w)
    (hx : s.found x = some t) : x ∈ levels.map Level.vertex := by
  rcases h.seen hx hxw with ⟨t', ht'⟩ | ⟨f, hf, rfl, -⟩
  · rw [hw] at ht'
    cases ht'
  · obtain ⟨m, hm, rfl⟩ := List.mem_map.mp hf
    exact List.mem_map_of_mem hm

theorem enter (h : s.Inv levels (some w)) (hw : s.found w = none) (hnode : w ∈ b.nodes)
    (hlinked : ∀ m ∈ levels.head?, b.graph.Adj m.vertex w) (hmet : ∃ y, b.graph.Adj w y)
    {pairs : List (ElementId × ElementId)}
    (hpairs : pairs = (Level.start b w s.time levels).pairs ++ s.pairs) :
    Inv ({ s with pairs := pairs }.enter w (levels.head?.map Level.vertex))
      (.start b w s.time levels :: levels) none := by
  have hold : ∀ {x t}, s.found x = some t → x ≠ w := by
    rintro x t hx rfl
    rw [hw] at hx
    cases hx
  have hkeep : ∀ {x t}, s.found x = some t → Function.update s.found w (some s.time) x = some t :=
    fun hx => (Function.update_of_ne (hold hx) ..).trans hx
  have hfound : ∀ {x t}, Function.update s.found w (some s.time) x = some t →
      x = w ∧ t = s.time ∨ s.found x = some t := fun hx => (found_find hx).imp_right And.right
  have hself : Pending (.start b w s.time levels :: levels) w := pending_cons.mpr (.inl rfl)
  have hmore : ∀ {x}, Pending levels x → Pending (.start b w s.time levels :: levels) x :=
    fun hx => pending_cons.mpr (.inr hx)
  have hpending : ∀ {x t}, b.graph.Adj x w → s.found x = some t →
      Pending (.start b w s.time levels :: levels) x := fun hxw hx =>
    hmore (h.way.pending (h.mem_way hw hxw hx))
  exact
    { frames_eq := congrArg (Frame.start b w (levels.head?.map Level.vertex) :: ·) h.frames_eq
      pairs_eq := by
        show pairs = _
        rw [hpairs, h.pairs_eq]
        rfl
      way := by
        refine ⟨Level.fits_start (fun _ _ => h.found_lt) hlinked, h.way.congr (fun x t ht => ?_) ?_⟩
        · refine ⟨fun hx => (hfound hx).resolve_left fun hnew => ?_, hkeep⟩
          exact Nat.ne_of_lt ht hnew.2
        · exact fun m hm => Function.update_of_ne (hold (h.way.found_eq hm)) ..
      found_lt := h.found_find_lt
      found_mem := h.found_find_mem hnode
      seen := by
        intro x y t hx hxy
        rcases hfound hx with ⟨rfl, -⟩ | hx
        · refine .inr ⟨_, List.mem_cons_self, rfl, .inl ?_⟩
          exact List.mem_eraseDups.mpr (graph_adj.mp hxy).2
        · rcases h.seen hx hxy with ⟨t', hy⟩ | ⟨f, hf, hfx, hy | hy⟩
          · exact .inl ⟨t', hkeep hy⟩
          · exact .inr ⟨f, List.mem_cons_of_mem _ hf, hfx, .inl hy⟩
          · cases hy
            exact .inl ⟨s.time, Function.update_self ..⟩
      back := by
        intro start hstart x y t t' hxy hx hy ht ht'
        refine List.mem_cons_of_mem _ ?_
        have hle : start ≤ s.time := by
          rcases List.mem_cons.mp hstart with rfl | hstart
          · exact Nat.le_refl _
          · obtain ⟨m, hm, rfl⟩ := List.mem_map.mp hstart
            exact Nat.le_of_lt (h.way.since_lt hm)
        have hxold : s.found x = some t := (hfound hx).resolve_left fun hnew =>
          Nat.not_lt.mpr hle (hnew.2 ▸ ht)
        rcases hfound hy with ⟨rfl, -⟩ | hyold
        · exact h.mem_way hw hxy hxold
        · rcases List.mem_cons.mp hstart with rfl | hstart
          · exact absurd (h.found_lt hyold) (Nat.not_lt.mpr ht')
          · exact h.back start hstart hxy hxold hyold ht ht'
      covered := by
        intro x y t t' hx hy hxy
        rcases hfound hx with ⟨rfl, -⟩ | hxold <;> rcases hfound hy with ⟨rfl, -⟩ | hyold
        · exact absurd hxy b.graph.irrefl
        · exact .inr ⟨hself, hpending hxy.symm hyold⟩
        · exact .inr ⟨hpending hxy hxold, hself⟩
        · exact (h.covered hxold hyold hxy).imp_right fun ⟨hx, hy⟩ => ⟨hmore hx, hmore hy⟩
      blocks := h.blocks
      met := by
        intro x t hx
        rcases hfound hx with ⟨rfl, -⟩ | hx
        · exact .inr hmet
        · exact h.met hx }

end Inv

end Search

end Dataflow.Bonds
