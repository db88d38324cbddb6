import Dataflow.Proofs.Network.Reach
import Dataflow.Proofs.Path.FirstMove
import Dataflow.Splice

/-!
# Counting the paths into a splice

The count reads of each direct path only the name of the edge by which it arrives
(`Network.arrivalNames`), and the order in which it meets the names decides no more than which
undeclared name it reports (`tally_perm`).

* **`Network.filter_passesBoundary`, `Network.countPaths_skipBoundaries`**: a direct path into a
  splice passes no boundary, so leaving out the paths that do changes nothing.
* **`Network.sameOutcome_countPaths`**: networks with the same names of arrival count alike.
* **`Network.arrivalNames_perm`**: the names of arrival, by the first edge of the paths.
-/

namespace Dataflow

/-- The failures have one cause, whatever they name. -/
def Failure.SameKind (f g : Failure) : Prop := f.ctorIdx = g.ctorIdx

/-- The same answer, or failures of one kind. -/
def SameOutcome {α : Type} : Except Failure α → Except Failure α → Prop
  | .ok a, .ok b => a = b
  | .error f, .error g => f.SameKind g
  | _, _ => False

namespace SameOutcome

variable {α β : Type} {r r' : Except Failure α}

theorem refl : ∀ r : Except Failure α, SameOutcome r r
  | .ok _ => rfl
  | .error _ => rfl

theorem eq_ok {a : α} (h : SameOutcome r (.ok a)) : r = .ok a := by
  cases r with
  | ok _ => exact congrArg _ h
  | error _ => exact h.elim

theorem map (f : α → β) (h : SameOutcome r r') : SameOutcome (r.map f) (r'.map f) := by
  cases r with
  | ok a =>
    cases r' with
    | ok b => exact congrArg f h
    | error _ => exact h
  | error _ =>
    cases r' with
    | ok _ => exact h
    | error _ => exact h

end SameOutcome

/-! ### Counts -/

namespace PathCounts

/-- One path more at each of two ordinals, in either order. -/
theorem increment_comm (a b : Nat) (cs : PathCounts) :
    (cs.increment a).increment b = (cs.increment b).increment a := by
  unfold increment
  induction cs with
  | nil =>
    rcases Nat.lt_trichotomy a b with h | rfl | h
    · simp [update, h, Nat.not_lt_of_gt h, Nat.ne_of_gt h]
    · rfl
    · simp [update, h, Nat.not_lt_of_gt h, Nat.ne_of_gt h]
  | cons c cs ih =>
    obtain ⟨o, k⟩ := c
    unfold update
    grind [update]

end PathCounts

/-- Counts names by the ordinal that the target declares for them. -/
def tally (splice : ElementId) (target : Element) :
    PathCounts → List String → Except Failure PathCounts
  | cs, [] => .ok cs
  | cs, b :: bs =>
    match target.ordinalOf b with
    | none => .error (.undeclaredBranch splice b)
    | some o => tally splice target (cs.increment o) bs

section Tally

variable {splice : ElementId} {target : Element}

theorem Network.countByOrdinal_eq_tally (n : Network) (splice : ElementId) (target : Element)
    (cs : PathCounts) (ps : List Path) :
    n.countByOrdinal splice target cs ps = tally splice target cs (ps.filterMap n.lastName?) := by
  induction ps generalizing cs with
  | nil => rfl
  | cons p ps ih =>
    unfold Network.countByOrdinal
    cases hname : n.lastName? p with
    | none => rw [List.filterMap_cons_none hname, ih]
    | some b =>
      rw [List.filterMap_cons_some hname]
      unfold tally
      dsimp only
      cases target.ordinalOf b with
      | none => rfl
      | some o => exact ih _

/-- Names that are all declared are counted. -/
theorem tally_eq_ok {bs : List String} (h : ∀ b ∈ bs, target.ordinalOf b ≠ none)
    (cs : PathCounts) : tally splice target cs bs =
      .ok ((bs.filterMap target.ordinalOf).foldl (fun cs o => cs.increment o) cs) := by
  induction bs generalizing cs with
  | nil => rfl
  | cons b bs ih =>
    obtain ⟨hb, hbs⟩ := List.forall_mem_cons.mp h
    obtain ⟨o, ho⟩ := Option.ne_none_iff_exists'.mp hb
    unfold tally
    simp only [List.filterMap_cons, ho]
    exact ih hbs _

/-- A name that is not declared is reported, the first one. -/
theorem exists_tally_eq_error (splice : ElementId) {bs : List String}
    (h : ∃ b ∈ bs, target.ordinalOf b = none) (cs : PathCounts) :
    ∃ b ∈ bs, target.ordinalOf b = none ∧
      tally splice target cs bs = .error (.undeclaredBranch splice b) := by
  induction bs generalizing cs with
  | nil => exact absurd h (by simp)
  | cons b bs ih =>
    unfold tally
    cases hb : target.ordinalOf b with
    | none => exact ⟨b, List.mem_cons_self, hb, rfl⟩
    | some o =>
      obtain ⟨b', hb', hnone⟩ := h
      rcases List.mem_cons.mp hb' with rfl | hb'
      · rw [hb] at hnone
        cases hnone
      · obtain ⟨c, hc, hfail⟩ := ih ⟨b', hb', hnone⟩ (cs.increment o)
        exact ⟨c, List.mem_cons_of_mem _ hc, hfail⟩

/-- **The order of the names decides no more than which undeclared one is reported.** -/
theorem tally_perm {bs bs' : List String} (h : bs.Perm bs') :
    SameOutcome (tally splice target [] bs) (tally splice target [] bs') := by
  by_cases hall : ∀ b ∈ bs, target.ordinalOf b ≠ none
  · rw [tally_eq_ok hall, tally_eq_ok fun b hb => hall b (h.mem_iff.mpr hb)]
    exact (h.filterMap _).foldl_eq' (fun a _ b _ cs => PathCounts.increment_comm a b cs) []
  · have hsome : ∃ b ∈ bs, target.ordinalOf b = none := by
      refine Classical.byContradiction fun hno => hall fun b hb hnone => hno ⟨b, hb, hnone⟩
    obtain ⟨b, hb, hnone⟩ := hsome
    obtain ⟨c, -, -, hc⟩ := exists_tally_eq_error splice ⟨b, hb, hnone⟩ []
    obtain ⟨c', -, -, hc'⟩ := exists_tally_eq_error splice ⟨b, h.mem_iff.mp hb, hnone⟩ []
    rw [hc, hc']
    rfl

end Tally

namespace Network

variable {n : Network} {s t : ElementId}

/-! ### Direct paths into a splice -/

theorem isPassable_iff {v : ElementId} : n.isPassable v = true ↔
    ∀ e, n.element? v = some e → e.isBoundary = false ∧ e.isGrouping = false := by
  unfold isPassable isVertexWith
  cases n.element? v <;> simp

/-- A direct path may pass a vertex only if it is no boundary. -/
theorem not_isBoundary_of_isPassable {v : ElementId} (h : n.isPassable v = true) :
    n.isVertexWith Element.isBoundary v = false := by
  unfold isVertexWith
  cases he : n.element? v with
  | none => rfl
  | some e => exact (isPassable_iff.mp h e he).1

/-- A splice is no boundary. -/
theorem not_isBoundary_of_isSplice {e : Element} (he : n.element? t = some e)
    (hsplice : e.isSplice = true) : n.isVertexWith Element.isBoundary t = false := by
  unfold isVertexWith
  rw [he, Option.any_some]
  cases e with
  | boundary _ => exact absurd hsplice Bool.false_ne_true
  | _ => rfl

/-- **A direct path into a splice passes no boundary.** -/
theorem filter_passesBoundary {e : Element} (he : n.element? t = some e)
    (hsplice : e.isSplice = true) (skip : Bool) :
    ((n.directPaths s t).filter fun p => !(skip && n.passesBoundary s p)) =
      n.directPaths s t := by
  refine List.filter_eq_self.mpr fun p hp => ?_
  unfold directPaths at hp
  rw [pathsThrough_eq_filter, List.mem_filter, List.all_eq_true] at hp
  obtain ⟨hp, hfree⟩ := hp
  obtain ⟨-, -, -, hstart, hlead, -⟩ := mem_paths.mp hp
  have htargets := hlead.targets_eq (moves_ne_nil_of_mem_paths hp)
  have hnone : n.passesBoundary s p = false := by
    refine List.any_eq_false.mpr fun v hv h => ?_
    obtain ⟨hvs, hboundary⟩ := Bool.and_eq_true_iff.mp h
    have hv : v ∈ targets p.moves :=
      (List.mem_cons.mp hv).resolve_left fun h => of_decide_eq_true hvs (h.trans hstart)
    rw [htargets, List.mem_append, List.mem_singleton] at hv
    refine Bool.eq_false_iff.mp ?_ hboundary
    rcases hv with hv | rfl
    · exact not_isBoundary_of_isPassable (hfree v hv)
    · exact not_isBoundary_of_isSplice he hsplice
  rw [hnone, Bool.and_false]
  rfl

/-- The names of the edges by which the direct paths arrive. -/
def arrivalNames (n : Network) (s t : ElementId) : List String :=
  (n.directPaths s t).filterMap n.lastName?

/-- The count, by the names of arrival. -/
theorem countPaths_eq (n : Network) (s t : ElementId) (skip : Bool) : n.countPaths s t skip =
    match n.element? t with
    | none => .error (.notAVertex t)
    | some e =>
      if e.isSplice then tally t e [] (n.arrivalNames s t) else .error (.notASplice t) := by
  unfold countPaths
  cases he : n.element? t with
  | none => rfl
  | some e =>
    by_cases hsplice : e.isSplice = true
    · simp only [hsplice, if_true]
      rw [filter_passesBoundary he hsplice, countByOrdinal_eq_tally]
      rfl
    · simp [hsplice]

/-- **Leaving out the paths through a boundary changes no count and no failure**, on any network. -/
theorem countPaths_skipBoundaries (n : Network) (s t : ElementId) :
    n.countPaths s t true = n.countPaths s t false :=
  (n.countPaths_eq s t true).trans (n.countPaths_eq s t false).symm

/-- **Networks with the same names of arrival count alike.** -/
theorem sameOutcome_countPaths {m : Network} (he : m.element? t = n.element? t)
    (hnames : (m.arrivalNames s t).Perm (n.arrivalNames s t)) (skip : Bool) :
    SameOutcome (m.countPaths s t skip) (n.countPaths s t skip) := by
  rw [countPaths_eq, countPaths_eq, he]
  cases n.element? t with
  | none => exact .refl _
  | some e =>
    by_cases hsplice : e.isSplice = true
    · simp only [hsplice, if_true]
      exact tally_perm hnames
    · simp only [hsplice]
      exact .refl _

/-! ### Names of arrival -/

theorem lastName?_cons (n : Network) {s s' : ElementId} (m : Move) {ms : List Move} (h : ms ≠ []) :
    n.lastName? ⟨s, m :: ms⟩ = n.lastName? ⟨s', ms⟩ := by
  have hlinks : ms.map (·.link) ≠ [] := fun hnil => h (List.map_eq_nil_iff.mp hnil)
  unfold lastName? Path.lastLink? Path.links
  rw [List.map_cons, List.getLast?_cons_of_ne_nil hlinks]

theorem arrivalNames_perm_passages (n : Network) (s t : ElementId) : (n.arrivalNames s t).Perm
    ((n.passages n.isPassable s t).filterMap fun ms => n.lastName? ⟨s, ms⟩) := by
  unfold arrivalNames directPaths
  refine ((n.pathsThrough_perm_passages _ s t).filterMap _).trans ?_
  rw [List.filterMap_map]
  exact .refl _

/-- The names by which the direct paths arrive that start with an edge: its own name, or those of
the paths that go on from where it leads. -/
def namesVia (n : Network) (t target : ElementId) (name : String) : List String :=
  if target = t then [name]
  else if n.isPassable target then n.arrivalNames target t
  else []

/-- **The names of arrival, by the first edge of the paths.** -/
theorem arrivalNames_perm (hn : n.Coherent) (ha : n.Acyclic) (hne : s ≠ t) :
    (n.arrivalNames s t).Perm
      ((n.outgoing s).flatMap fun l => n.namesVia t l.target l.edge.name) := by
  refine (n.arrivalNames_perm_passages s t).trans ?_
  rw [passages_eq hn ha hne, List.filterMap_flatMap, moves, List.flatMap_map]
  refine List.Perm.flatMap_left _ fun l hl => ?_
  unfold namesVia
  split
  · have hname : n.lastName? ⟨s, [⟨l.id, l.target⟩]⟩ = some l.edge.name := by
      show (n.link? l.id).map (·.edge.name) = _
      rw [hn.link?_eq (mem_outgoing.mp hl).1]
      rfl
    simp only [List.filterMap_cons, List.filterMap_nil, hname]
    exact .refl _
  · split
    · refine .trans ?_ (n.arrivalNames_perm_passages l.target t).symm
      rw [List.filterMap_map]
      refine .of_eq (List.filterMap_congr fun ms hms => ?_)
      exact n.lastName?_cons _ (ne_nil_of_mem_passages hms)
    · exact .refl _

/-- The count, evaluated without the order of the paths. -/
theorem countPaths_of_passages {e : Element} {cs : PathCounts} (he : n.element? t = some e)
    (hsplice : e.isSplice = true)
    (h : tally t e [] ((n.passages n.isPassable s t).filterMap fun ms => n.lastName? ⟨s, ms⟩) =
      .ok cs) (skip : Bool) : n.countPaths s t skip = .ok cs := by
  refine SameOutcome.eq_ok ?_
  rw [countPaths_eq, he, ← h]
  simp only [hsplice, if_true]
  exact tally_perm (n.arrivalNames_perm_passages s t)

/-- The names of arrival of the paths that start with an edge to a vertex that they pass. -/
theorem namesVia_perm (hn : n.Coherent) (ha : n.Acyclic) {v : ElementId}
    (hpass : n.isPassable v = true) (hne : v ≠ t) (name : String) : (n.namesVia t v name).Perm
      ((n.outgoing v).flatMap fun l => n.namesVia t l.target l.edge.name) := by
  unfold namesVia
  rw [if_neg hne, if_pos hpass]
  exact arrivalNames_perm hn ha hne

theorem arrivalNames_self (n : Network) (s : ElementId) : n.arrivalNames s s = [] := by
  have h := n.arrivalNames_perm_passages s s
  rw [passages_self] at h
  exact h.eq_nil

end Network

end Dataflow
