import Mathlib.Data.List.Chain
import Mathlib.Data.List.Nodup
import Dataflow.Plan.Branch
import Dataflow.Proofs.Network.Order

/-!
# Runs of links

A link is a vertex with one edge in and one edge out that is no sentinel. Links in a row are a run.
What follows a vertex by the first edges is a run, and the longest there is; since a link is followed
by one vertex only, and follows one only, the longest run through it is one list.

* **`Network.isLongestRunAfter_runAfter`**: every run that follows a vertex and avoids what is taken
  is the beginning of the one that is found.
* **`Network.isLongestRun_runThrough`**: a link, what is found before it and what is found after it
  are the longest run through it.
-/

namespace Dataflow.Network

open Relation

/-! ### Following -/

section Follow

variable {link : ElementId → Bool} {step : ElementId → Option ElementId}
  {left vs : List ElementId} {v w : ElementId}

theorem follow_eq_nil_iff : follow link step left v = [] ↔
    ∀ w, step v = some w → w ∈ left → w.isSentinel = false → link w = false := by
  rw [follow]
  cases step v with
  | none => simp
  | some w => by_cases hw : w ∈ left <;> simp [hw]

theorem follow_eq_cons_iff : follow link step left v = w :: vs ↔
    (step v = some w ∧ w ∈ left ∧ w.isSentinel = false ∧ link w = true) ∧
      follow link step (left.erase w) w = vs := by
  by_cases hgo : ∃ x, step v = some x ∧ x ∈ left ∧ x.isSentinel = false ∧ link x = true
  · obtain ⟨x, hstep, hx, hfree, hlink⟩ := hgo
    conv => lhs; rw [follow, hstep]
    simp only [hx, hfree, hlink, dif_pos, Bool.not_false, Bool.and_self, if_true, hstep,
      List.cons.injEq, Option.some.injEq]
    constructor
    · rintro ⟨rfl, h⟩
      exact ⟨⟨rfl, hx, hfree, hlink⟩, h⟩
    · rintro ⟨⟨rfl, -⟩, h⟩
      exact ⟨rfl, h⟩
  · have hnil : follow link step left v = [] := by
      refine follow_eq_nil_iff.mpr fun x hstep hx hfree => ?_
      exact Bool.eq_false_iff.mpr fun hlink => hgo ⟨x, hstep, hx, hfree, hlink⟩
    rw [hnil]
    exact iff_of_false nofun fun h => hgo ⟨w, h.1⟩

/-- What follows is among the vertices that are left, and links. -/
theorem of_mem_follow (h : follow link step left v = vs) :
    ∀ w ∈ vs, w ∈ left ∧ w.isSentinel = false ∧ link w = true := by
  induction vs generalizing left v with
  | nil => exact fun _ hw => absurd hw List.not_mem_nil
  | cons x vs ih =>
    obtain ⟨⟨-, hx⟩, hrest⟩ := follow_eq_cons_iff.mp h
    refine List.forall_mem_cons.mpr ⟨hx, fun w hw => ?_⟩
    obtain ⟨hleft, hlinks⟩ := ih hrest w hw
    exact ⟨List.mem_of_mem_erase hleft, hlinks⟩

/-- Each of what follows is the next one of the one before. -/
theorem isChain_follow (h : follow link step left v = vs) :
    (v :: vs).IsChain fun a b => step a = some b := by
  induction vs generalizing left v with
  | nil => exact .singleton v
  | cons x vs ih =>
    obtain ⟨⟨hstep, -⟩, hrest⟩ := follow_eq_cons_iff.mp h
    exact List.isChain_cons_cons.mpr ⟨hstep, ih hrest⟩

/-- **Links that follow one another begin what is found**, if they are left and none comes twice. -/
theorem prefix_follow (hchain : (v :: vs).IsChain fun a b => step a = some b) (hnodup : vs.Nodup)
    (hvs : ∀ w ∈ vs, w ∈ left ∧ w.isSentinel = false ∧ link w = true) :
    vs <+: follow link step left v := by
  induction vs generalizing left v with
  | nil => exact List.nil_prefix
  | cons x vs ih =>
    obtain ⟨hstep, hchain⟩ := List.isChain_cons_cons.mp hchain
    obtain ⟨hx, hnodup⟩ := List.nodup_cons.mp hnodup
    obtain ⟨hlinkx, hvs⟩ := List.forall_mem_cons.mp hvs
    have hrest : vs <+: follow link step (left.erase x) x := by
      refine ih hchain hnodup fun w hw => ⟨?_, (hvs w hw).2⟩
      exact (List.mem_erase_of_ne (ne_of_mem_of_not_mem hw hx)).mpr (hvs w hw).1
    rw [follow_eq_cons_iff.mpr ⟨⟨hstep, hlinkx⟩, rfl⟩]
    exact (List.prefix_cons_inj x).mpr hrest

end Follow

/-! ### Links -/

variable {n : Network} {s v w : ElementId} {taken vs : List ElementId}

/-- One edge enters the vertex and one leaves it, and it is no sentinel. -/
structure IsLink (n : Network) (v : ElementId) : Prop where
  inDegree : n.inDegree v = 1
  outDegree : n.outDegree v = 1
  free : v.isSentinel = false

/-- The first edge from one vertex leads to another. -/
def FirstStep (n : Network) (v w : ElementId) : Prop := (n.successors v).head? = some w

theorem isPassing_iff : n.isPassing v = true ↔ n.inDegree v = 1 ∧ n.outDegree v = 1 := by
  simp [isPassing]

theorem isLink_iff : n.IsLink v ↔ v.isSentinel = false ∧ n.isPassing v = true := by
  rw [isPassing_iff]
  exact ⟨fun h => ⟨h.free, h.inDegree, h.outDegree⟩, fun ⟨hfree, hin, hout⟩ => ⟨hin, hout, hfree⟩⟩

instance : Decidable (n.IsLink v) := decidable_of_iff _ isLink_iff.symm

instance : Decidable (n.FirstStep v w) := inferInstanceAs (Decidable (_ = _))

theorem FirstStep.step (h : n.FirstStep v w) : n.Step v w :=
  mem_successors.mp (List.mem_of_mem_head? h)

/-- The only edge from a link is the first one. -/
theorem IsLink.firstStep_iff (hv : n.IsLink v) : n.FirstStep v w ↔ n.Step v w := by
  have hlength : (n.successors v).length = 1 := (List.length_map _).trans hv.outDegree
  obtain ⟨x, hx⟩ := List.length_eq_one_iff.mp hlength
  unfold FirstStep
  rw [← mem_successors, hx, List.head?_cons, List.mem_singleton, Option.some.injEq, eq_comm]

/-- A row of steps leads from its first vertex to every other one. -/
theorem transGen_of_isChain (h : (v :: vs).IsChain n.Step) :
    ∀ w ∈ vs, TransGen n.Step v w := fun _ hw =>
  (h.imp fun _ _ => TransGen.single).rel_cons hw

/-- Without cycles a row of steps meets no vertex twice. -/
theorem Acyclic.nodup_of_isChain (ha : n.Acyclic) (h : vs.IsChain n.Step) : vs.Nodup :=
  (h.imp fun _ _ => TransGen.single).pairwise.imp fun hvw => ha.ne_of_transGen hvw

/-! ### The run after a vertex -/

/-- Links that follow a vertex by the first edges and are none of those taken. -/
structure IsRunAfter (n : Network) (taken : List ElementId) (s : ElementId)
    (vs : List ElementId) : Prop where
  links : ∀ v ∈ vs, n.IsLink v
  chain : (s :: vs).IsChain n.FirstStep
  untaken : ∀ v ∈ vs, v ∉ taken

theorem isRunAfter_runAfter (n : Network) (taken : List ElementId) (s : ElementId) :
    n.IsRunAfter taken s (n.runAfter taken s) where
  links v hv := isLink_iff.mpr (of_mem_follow rfl v hv).2
  chain := isChain_follow rfl
  untaken v hv := by
    have hleft := (of_mem_follow rfl v hv).1
    simpa using (List.mem_filter.mp hleft).2

/-- **Every run that follows a vertex begins the one that is found.** -/
theorem prefix_runAfter (hn : n.Coherent) (ha : n.Acyclic) (h : n.IsRunAfter taken s vs) :
    vs <+: n.runAfter taken s := by
  have hsteps : (s :: vs).IsChain n.Step := h.chain.imp fun _ _ => FirstStep.step
  refine prefix_follow h.chain (ha.nodup_of_isChain hsteps).of_cons fun v hv => ⟨?_, ?_⟩
  · have hids := hn.target_mem_of_transGen (transGen_of_isChain hsteps v hv)
    exact List.mem_filter.mpr ⟨hids, by simpa using h.untaken v hv⟩
  · exact isLink_iff.mp (h.links v hv)

/-- A run that follows a vertex, and that every other one is the beginning of. -/
structure IsLongestRunAfter (n : Network) (taken : List ElementId) (s : ElementId)
    (vs : List ElementId) : Prop where
  run : n.IsRunAfter taken s vs
  longest : ∀ ws, n.IsRunAfter taken s ws → ws <+: vs

/-- **What is found after a vertex is the longest run that follows it.** -/
theorem isLongestRunAfter_runAfter (hn : n.Coherent) (ha : n.Acyclic) (taken : List ElementId)
    (s : ElementId) : n.IsLongestRunAfter taken s (n.runAfter taken s) where
  run := n.isRunAfter_runAfter taken s
  longest _ := prefix_runAfter hn ha

/-! ### The run through a link -/

/-- Links in a row. -/
structure IsRun (n : Network) (vs : List ElementId) : Prop where
  links : ∀ v ∈ vs, n.IsLink v
  chain : vs.IsChain n.Step

/-- A run through a vertex that every other one is a part of. -/
structure IsLongestRun (n : Network) (v : ElementId) (vs : List ElementId) : Prop where
  run : n.IsRun vs
  mem : v ∈ vs
  longest : ∀ ws, n.IsRun ws → v ∈ ws → ws <:+: vs

/-- Links follow one another by the first edges. -/
theorem IsRun.isRunAfter (h : n.IsRun (v :: vs)) (htaken : ∀ w ∈ vs, w ∉ taken) :
    n.IsRunAfter taken v vs where
  links := (List.forall_mem_cons.mp h.links).2
  chain := h.chain.imp_of_mem_imp fun u _ hu _ => (h.links u hu).firstStep_iff.mpr
  untaken := htaken

theorem isRun_cons_runAfter (hv : n.IsLink v) (taken : List ElementId) :
    n.IsRun (v :: n.runAfter taken v) where
  links := List.forall_mem_cons.mpr ⟨hv, (n.isRunAfter_runAfter taken v).links⟩
  chain := (n.isRunAfter_runAfter taken v).chain.imp fun _ _ => FirstStep.step

theorem outDegree_reverse (n : Network) (v : ElementId) :
    n.reverse.outDegree v = n.inDegree v := by
  have h := congrArg List.length (successors_reverse n v)
  rwa [successors, predecessors, List.length_map, List.length_map] at h

theorem isLink_reverse : n.reverse.IsLink v ↔ n.IsLink v := by
  constructor
  · intro h
    exact ⟨n.outDegree_reverse v ▸ h.outDegree, n.inDegree_reverse v ▸ h.inDegree, h.free⟩
  · intro h
    exact ⟨(n.inDegree_reverse v).trans h.outDegree, (n.outDegree_reverse v).trans h.inDegree,
      h.free⟩

theorem isRun_reverse : n.reverse.IsRun vs ↔ n.IsRun vs.reverse := by
  have hchain : vs.IsChain n.reverse.Step ↔ vs.reverse.IsChain n.Step := by
    rw [List.isChain_reverse]
    exact List.IsChain.iff fun _ _ => step_reverse
  constructor
  · exact fun h => ⟨fun v hv => isLink_reverse.mp (h.links v (List.mem_reverse.mp hv)),
      hchain.mp h.chain⟩
  · exact fun h => ⟨fun v hv => isLink_reverse.mpr (h.links v (List.mem_reverse.mpr hv)),
      hchain.mpr h.chain⟩

/-- What comes before a vertex follows it in the network turned round. -/
theorem runBefore_eq (n : Network) (taken : List ElementId) (v : ElementId) :
    n.runBefore taken v = n.reverse.runAfter taken v := by
  have hpassing : n.reverse.isPassing = n.isPassing := by
    funext v
    unfold isPassing
    rw [inDegree_reverse, outDegree_reverse, Bool.and_comm]
  unfold runBefore runAfter
  simp only [hpassing, successors_reverse]
  rfl

/-- What is found before a link, the link, and what is found after it. -/
def runThrough (n : Network) (v : ElementId) : List ElementId :=
  (n.runBefore [v] v).reverse ++ v :: n.runAfter (v :: n.runBefore [v] v) v

/-- It is what a removal collects. -/
theorem branchThrough_perm (hv : n.isPassing v = true) :
    (n.branchThrough v).Perm (n.runThrough v) := by
  unfold branchThrough runThrough
  rw [if_pos hv]
  exact List.perm_middle.symm.trans ((List.reverse_perm _).symm.append_right _)

theorem isRun_runThrough (hv : n.IsLink v) : n.IsRun (n.runThrough v) := by
  have hbefore : n.IsRun ((n.runBefore [v] v).reverse ++ [v]) := by
    rw [← List.reverse_cons, ← isRun_reverse, runBefore_eq]
    exact isRun_cons_runAfter (isLink_reverse.mpr hv) _
  have hafter := isRun_cons_runAfter hv (v :: n.runBefore [v] v)
  refine ⟨fun w hw => ?links, ?chain⟩
  case links =>
    rcases List.mem_append.mp hw with hw | hw
    · exact hbefore.links w (List.mem_append_left _ hw)
    · exact hafter.links w hw
  case chain =>
    have hchain := hbefore.chain.append_overlap hafter.chain (List.cons_ne_nil v [])
    rwa [List.append_assoc] at hchain

/-- **The run found on both sides of a link is the longest through it.** -/
theorem isLongestRun_runThrough (hn : n.Coherent) (ha : n.Acyclic) (hv : n.IsLink v) :
    n.IsLongestRun v (n.runThrough v) := by
  refine ⟨isRun_runThrough hv, List.mem_append_right _ List.mem_cons_self, fun ws hws hvws => ?_⟩
  obtain ⟨xs, ys, rfl⟩ := List.append_of_mem hvws
  have hdown : n.IsRun (v :: ys) :=
    ⟨fun w hw => hws.links w (List.mem_append_right _ hw), hws.chain.right_of_append⟩
  have hup : n.reverse.IsRun (v :: xs.reverse) := by
    rw [isRun_reverse, List.reverse_cons, List.reverse_reverse]
    have hcut : xs ++ v :: ys = (xs ++ [v]) ++ ys := by simp
    rw [hcut] at hws
    exact ⟨fun w hw => hws.links w (List.mem_append_left _ hw), hws.chain.left_of_append⟩
  have hbefore : ∀ w ∈ n.runBefore [v] v, TransGen n.Step w v := by
    rw [runBefore_eq]
    intro w hw
    have hchain := (isRun_cons_runAfter (isLink_reverse.mpr hv) [v]).chain
    exact transGen_reverse.mp (transGen_of_isChain hchain w hw)
  -- what comes after the vertex is not before it, as there are no cycles
  have hys : ys <+: n.runAfter (v :: n.runBefore [v] v) v := by
    refine prefix_runAfter hn ha (hdown.isRunAfter fun w hw hold => ?_)
    have hvw := transGen_of_isChain hdown.chain w hw
    rcases List.mem_cons.mp hold with rfl | hold
    · exact ha w hvw
    · exact ha v (hvw.trans (hbefore w hold))
  have hxs : xs.reverse <+: n.runBefore [v] v := by
    rw [runBefore_eq]
    refine prefix_runAfter hn.reverse (acyclic_reverse.mpr ha) (hup.isRunAfter fun w hw hold => ?_)
    have hvw := transGen_reverse.mp (transGen_of_isChain hup.chain w hw)
    exact ha.ne_of_transGen hvw (List.mem_singleton.mp hold)
  obtain ⟨us, hus⟩ := hxs
  obtain ⟨zs, hzs⟩ := hys
  refine ⟨us.reverse, zs, ?_⟩
  rw [runThrough, ← hzs, ← hus]
  simp

end Dataflow.Network
