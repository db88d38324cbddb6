import Dataflow.Proofs.Branch.Walk
import Dataflow.Proofs.Plan.Edge

/-!
# What the removal of a branch takes

* **`Plan.cleared_removeAll`**: vertices removed one after the other are gone with their edges, and
  the rest stays.
* **`Plan.removeBranchThrough_exact`**: the branch through a vertex is the longest run of links
  through it, or the vertex alone.
* **`Plan.removeBranchBetween_exact`**: the branch between two vertices is the run after the first
  of them, wherever that leads. It lies between the two if the first opens towards the second, and
  only then.
-/

namespace Dataflow

open Relation

namespace Network

variable {n : Network} {s t v w : ElementId} {inclusive : Bool} {b c : Branch}

theorem CollectsThrough.unique (h : n.CollectsThrough v b) (h' : n.CollectsThrough v c) :
    b = c := by
  obtain ⟨up, down, hup, hdown, rfl⟩ := h
  obtain ⟨up', down', hup', hdown', rfl⟩ := h'
  obtain rfl := hup.unique hup'
  obtain rfl := hdown.unique hdown'
  rfl

theorem CollectsBetween.unique (h : n.CollectsBetween s t inclusive b)
    (h' : n.CollectsBetween s t inclusive c) : b = c := by
  obtain ⟨down, hdown, rfl⟩ := h
  obtain ⟨down', hdown', rfl⟩ := h'
  obtain rfl := hdown.unique hdown'
  rfl

theorem IsLink.mem_ids (hn : n.Coherent) (h : n.IsLink v) : v ∈ n.ids := by
  have hdegree : n.inDegree v ≠ 0 := by
    rw [h.inDegree]
    exact Nat.one_ne_zero
  obtain ⟨u, hstep⟩ := not_forall_not.mp (mt inDegree_eq_zero_iff.mpr hdegree)
  exact hn.target_mem_of_step hstep

/-! ### Between two vertices -/

/-- From a link that leads to a vertex, what follows it leads there too, unless it is that vertex. -/
theorem IsLink.transGen_of_step (hv : n.IsLink v) (hvt : TransGen n.Step v t) (hvw : n.Step v w)
    (hne : w ≠ t) : TransGen n.Step w t := by
  obtain ⟨x, hvx, hxt⟩ := TransGen.head'_iff.mp hvt
  obtain rfl : x = w :=
    Option.some.inj ((hv.firstStep_iff.mpr hvx).symm.trans (hv.firstStep_iff.mpr hvw))
  exact (reflTransGen_iff_eq_or_transGen.mp hxt).resolve_left hne.symm

/-- A run that starts towards a vertex leads there, unless it passes it. -/
theorem IsRun.transGen_of_head {vs : List ElementId} (h : n.IsRun (v :: vs))
    (hvt : TransGen n.Step v t) (ht : t ∉ vs) : ∀ w ∈ v :: vs, TransGen n.Step w t := by
  induction vs generalizing v with
  | nil => exact fun w hw => List.mem_singleton.mp hw ▸ hvt
  | cons x vs ih =>
    obtain ⟨hstep, hchain⟩ := List.isChain_cons_cons.mp h.chain
    obtain ⟨hlink, hlinks⟩ := List.forall_mem_cons.mp h.links
    obtain ⟨hx, hvs⟩ := List.ne_and_not_mem_of_not_mem_cons ht
    refine List.forall_mem_cons.mpr ⟨hvt, ih ⟨hlinks, hchain⟩ ?_ hvs⟩
    exact hlink.transGen_of_step hvt hstep (Ne.symm hx)

/-- Where the first edge from one vertex leads to a link, that is the other vertex or leads there. -/
def OpensTowards (n : Network) (s t : ElementId) : Prop :=
  ∀ v, n.FirstStep s v → n.IsLink v → v ≠ t → TransGen n.Step v t

/-- **The run after one vertex lies between that and another exactly if the one opens towards the
other.** -/
theorem IsLongestRunAfter.between_iff {ends run : List ElementId}
    (h : n.IsLongestRunAfter ends s run) (ha : n.Acyclic)
    (hends : ∀ v, v ∈ ends ↔ v = s ∨ v = t) :
    (∀ v ∈ run, TransGen n.Step s v ∧ TransGen n.Step v t) ↔ n.OpensTowards s t := by
  constructor
  · -- the first vertex is a run by itself
    intro hbetween v hfirst hlink hvt
    have hvs : v ≠ s := (ha.ne_of_transGen (.single hfirst.step)).symm
    have hone : n.IsRunAfter ends s [v] :=
      { links := List.forall_mem_singleton.mpr hlink
        chain := List.isChain_pair.mpr hfirst
        untaken := List.forall_mem_singleton.mpr fun hv => ((hends v).mp hv).elim hvs hvt }
    exact (hbetween v ((h.longest _ hone).subset (List.mem_singleton_self v))).2
  · intro hopens v hv
    have hsteps := h.run.chain.imp fun _ _ => FirstStep.step
    refine ⟨transGen_of_isChain hsteps v hv, ?_⟩
    cases run with
    | nil => exact absurd hv List.not_mem_nil
    | cons w ws =>
      have ht : t ∉ w :: ws := fun ht => h.run.untaken t ht ((hends t).mpr (.inr rfl))
      obtain ⟨hw, hws⟩ := List.ne_and_not_mem_of_not_mem_cons ht
      have hfirst := (List.isChain_cons_cons.mp h.run.chain).1
      have hwt := hopens w hfirst (h.run.links w List.mem_cons_self) (Ne.symm hw)
      exact IsRun.transGen_of_head ⟨h.run.links, hsteps.of_cons⟩ hwt hws v hv

/-- The branch between two vertices: the two, if they are included, and the longest run that follows
the first. -/
theorem exists_runBetween (hn : n.Coherent) (ha : n.Acyclic) (s t : ElementId) (inclusive : Bool) :
    ∃ branch, n.CollectsBetween s t inclusive branch ∧
      ∃ run, n.IsLongestRunAfter [s, t].eraseDups s run ∧
        branch.order = (if inclusive then [s, t].eraseDups else []) ++ run := by
  obtain ⟨branch, hcollects, horder⟩ := exists_collectsBetween hn s t inclusive
  exact ⟨branch, hcollects, _, isLongestRunAfter_runAfter hn ha [s, t].eraseDups s, horder⟩

end Network

namespace Plan

variable {p q : Plan} {s t v : ElementId} {vs : List ElementId} {inclusive : Bool}

/-- The plan without some vertices: they are gone with their edges and their tags, and the rest is
as it was. -/
structure Cleared (p : Plan) (vs : List ElementId) (q : Plan) : Prop where
  elements : q.network.elements = p.network.elements.filter fun e => !vs.contains e.id
  links : q.network.links =
    p.network.links.filter fun l => !vs.contains l.source && !vs.contains l.target
  tags : q.network.tags = p.network.tags.map fun ts => vs.foldl Tags.remove ts

theorem Cleared.mem_ids (h : p.Cleared vs q) :
    v ∈ q.network.ids ↔ v ∈ p.network.ids ∧ v ∉ vs := by
  rw [Network.mem_ids_of_filter (!vs.contains ·) h.elements, Bool.not_eq_true',
    ← Bool.not_eq_true, List.contains_iff_mem]

/-- **Vertices removed one after the other are gone with their edges**, and the rest stays. -/
theorem cleared_removeAll (hvs : ∀ v ∈ vs, v ∈ p.network.ids) (hnodup : vs.Nodup) :
    p.Cleared vs (p.removeAll vs) := by
  induction vs generalizing p with
  | nil =>
    refine ⟨?_, ?_, ?_⟩ <;> simp [removeAll]
  | cons v vs ih =>
    obtain ⟨hv, hvs⟩ := List.forall_mem_cons.mp hvs
    obtain ⟨hnew, hnodup⟩ := List.nodup_cons.mp hnodup
    have hgone := network_removeVertex hv
    have hmem : ∀ w ∈ vs, w ∈ (p.removeVertex v).2.network.ids := fun w hw =>
      (mem_ids_removeVertex hv).mpr ⟨hvs w hw, ne_of_mem_of_not_mem hw hnew⟩
    have hrest := ih hmem hnodup
    refine ⟨?elements, ?links, ?tags⟩
    case elements =>
      refine hrest.elements.trans ?_
      rw [hgone, List.filter_filter]
      refine List.filter_congr fun e _ => ?_
      simp [Bool.and_comm]
    case links =>
      refine hrest.links.trans ?_
      rw [hgone, List.filter_filter]
      refine List.filter_congr fun l _ => ?_
      simp only [Link.touches, List.contains_cons, beq_eq_decide, Bool.not_or]
      ac_rfl
    case tags =>
      refine hrest.tags.trans ?_
      rw [hgone, Option.map_map]
      rfl

/-- **A removal takes what the walks through its vertex have collected.** -/
theorem removeBranchThrough_of_collects {branch : Branch} (hv : v ∈ p.network.ids)
    (h : p.network.CollectsThrough v branch) :
    p.removeBranchThrough v = (.ok !branch.isEmpty, p.removeAll branch.order) := by
  obtain ⟨c, hc, horder⟩ := Network.exists_collectsThrough p.coherent v
  obtain rfl := h.unique hc
  unfold removeBranchThrough removeBranch
  rw [if_pos (Network.contains_iff.mpr hv), ← horder]
  rfl

/-- **A removal takes what the walk between its vertices has collected.** -/
theorem removeBranchBetween_of_collects {branch : Branch} (hs : s ∈ p.network.ids)
    (ht : t ∈ p.network.ids) (h : p.network.CollectsBetween s t inclusive branch) :
    p.removeBranchBetween s t inclusive = (.ok !branch.isEmpty, p.removeAll branch.order) := by
  obtain ⟨c, hc, horder⟩ := Network.exists_collectsBetween p.coherent s t inclusive
  obtain rfl := h.unique hc
  unfold removeBranchBetween removeBranch
  rw [Network.contains_iff.mpr hs, Network.contains_iff.mpr ht, ← horder]
  rfl

/-! ### The branch through a vertex -/

/-- **What the removal of the branch through a vertex takes.** The walks up and down end, with one
branch. That is the longest run of links through the vertex, or the vertex alone if it is no link;
it is gone with its edges, and the rest stays. -/
theorem removeBranchThrough_exact (p : Plan) (hv : v ∈ p.network.ids)
    (hfree : v.isSentinel = false) :
    ∃ branch : Branch, (∀ c, p.network.CollectsThrough v c ↔ c = branch) ∧
      p.removeBranchThrough v = (.ok true, p.removeAll branch.order) ∧
      p.Cleared branch.order (p.removeAll branch.order) ∧
      (p.network.inDegree v ≠ 1 ∨ p.network.outDegree v ≠ 1 → branch.order = [v]) ∧
      (p.network.inDegree v = 1 ∧ p.network.outDegree v = 1 →
        ∃ run, p.network.IsLongestRun v run ∧ branch.order.Perm run) := by
  obtain ⟨branch, hcollects, horder⟩ := Network.exists_collectsThrough p.coherent v
  have halone : p.network.inDegree v ≠ 1 ∨ p.network.outDegree v ≠ 1 → branch.order = [v] := by
    intro hdegree
    have hpassing : ¬ p.network.isPassing v = true := fun h =>
      hdegree.elim (· (Network.isPassing_iff.mp h).1) (· (Network.isPassing_iff.mp h).2)
    rw [horder, Network.branchThrough, if_neg hpassing, hfree]
    rfl
  have hrun : p.network.inDegree v = 1 ∧ p.network.outDegree v = 1 →
      ∃ run, p.network.IsLongestRun v run ∧ branch.order.Perm run := by
    intro hdegree
    have hlink : p.network.IsLink v := ⟨hdegree.1, hdegree.2, hfree⟩
    refine ⟨_, Network.isLongestRun_runThrough p.coherent p.acyclic hlink, ?_⟩
    rw [horder]
    exact Network.branchThrough_perm (Network.isPassing_iff.mpr hdegree)
  have hbranch : v ∈ branch.order ∧ ∀ w ∈ branch.order, w ∈ p.network.ids := by
    by_cases hdegree : p.network.inDegree v = 1 ∧ p.network.outDegree v = 1
    · obtain ⟨run, hrun, hperm⟩ := hrun hdegree
      refine ⟨hperm.mem_iff.mpr hrun.mem, fun w hw => ?_⟩
      exact (hrun.run.links w (hperm.mem_iff.mp hw)).mem_ids p.coherent
    · rw [halone (not_and_or.mp hdegree)]
      exact ⟨List.mem_singleton_self v, fun w hw => List.mem_singleton.mp hw ▸ hv⟩
  refine ⟨branch, fun c => ⟨fun hc => hc.unique hcollects, fun hc => hc ▸ hcollects⟩, ?removal,
    cleared_removeAll hbranch.2 branch.order_nodup, halone, hrun⟩
  case removal =>
    have hsome : branch.order.isEmpty = false := by
      rw [List.isEmpty_eq_false_iff]
      exact List.ne_nil_of_mem hbranch.1
    rw [removeBranchThrough_of_collects hv hcollects, Branch.isEmpty, hsome]
    rfl

/-- Three vertices in a row between the sentinels. -/
def conduit : Plan :=
  withExtents.sketch [⟨2⟩, ⟨3⟩, ⟨4⟩] [(.head, ⟨2⟩), (⟨2⟩, ⟨3⟩), (⟨3⟩, ⟨4⟩), (⟨4⟩, .tail)]

/-- The branch through the middle one is all three, and the sentinels stay. -/
theorem removeBranchThrough_exact_conduit :
    (conduit.removeBranchThrough ⟨3⟩).1 = .ok true ∧
      (∀ v ∈ [⟨2⟩, ⟨3⟩, ⟨4⟩], v ∉ (conduit.removeBranchThrough ⟨3⟩).2.network.ids) ∧
      ∀ v ∈ [.head, .tail], v ∈ (conduit.removeBranchThrough ⟨3⟩).2.network.ids := by
  have hlinks : ∀ v ∈ [⟨2⟩, ⟨3⟩, ⟨4⟩], conduit.network.IsLink v := by decide +kernel
  have hchain : [⟨2⟩, ⟨3⟩, ⟨4⟩].IsChain conduit.network.FirstStep := by decide +kernel
  have hends : ∀ v ∈ [.head, .tail], v ∈ conduit.network.ids := by decide +kernel
  have hmid := hlinks ⟨3⟩ (by decide)
  obtain ⟨branch, -, hremoval, hcleared, -, hrun⟩ :=
    conduit.removeBranchThrough_exact (hmid.mem_ids conduit.coherent) hmid.free
  obtain ⟨run, hrun, hperm⟩ := hrun ⟨hmid.inDegree, hmid.outDegree⟩
  have hthree : [⟨2⟩, ⟨3⟩, ⟨4⟩] <:+: run :=
    hrun.longest _ ⟨hlinks, hchain.imp fun _ _ => Network.FirstStep.step⟩ (by decide)
  rw [hremoval]
  refine ⟨rfl, fun v hv hstays => ?_, fun v hv => ?_⟩
  · exact (hcleared.mem_ids.mp hstays).2 (hperm.mem_iff.mpr (hthree.subset hv))
  · refine hcleared.mem_ids.mpr ⟨hends v hv, fun hgone => ?_⟩
    have hfree := (hrun.run.links v (hperm.mem_iff.mp hgone)).free
    rcases List.mem_pair.mp hv with rfl | rfl
    · exact absurd hfree (by decide)
    · exact absurd hfree (by decide)

example : (conduit.removeBranchThrough ⟨3⟩).2.network.links = [] := by decide +kernel

/-! ### The branch between two vertices -/

/-- **What the removal of the branch between two vertices takes.** The walk down ends, with one
branch: the two, if they are included, and the longest run that follows the first of them. It is
gone with its edges, and the rest stays.

The run lies between the two exactly if the first opens towards the second. Where it does and no path
leads there, the run is empty. -/
theorem removeBranchBetween_exact (p : Plan) (hs : s ∈ p.network.ids) (ht : t ∈ p.network.ids)
    (inclusive : Bool) :
    ∃ branch : Branch, (∀ c, p.network.CollectsBetween s t inclusive c ↔ c = branch) ∧
      p.removeBranchBetween s t inclusive = (.ok !branch.isEmpty, p.removeAll branch.order) ∧
      p.Cleared branch.order (p.removeAll branch.order) ∧
      (∃ run, p.network.IsLongestRunAfter [s, t].eraseDups s run ∧
        branch.order = (if inclusive then [s, t].eraseDups else []) ++ run) ∧
      (inclusive = false → s ∈ (p.removeAll branch.order).network.ids ∧
        t ∈ (p.removeAll branch.order).network.ids) ∧
      ((∀ v ∈ branch.order, v ≠ s → v ≠ t →
          TransGen p.network.Step s v ∧ TransGen p.network.Step v t) ↔
        p.network.OpensTowards s t) ∧
      (p.network.OpensTowards s t → ¬ TransGen p.network.Step s t →
        ∀ v ∈ branch.order, inclusive = true ∧ (v = s ∨ v = t)) := by
  obtain ⟨branch, hcollects, run, hrun, horder⟩ :=
    Network.exists_runBetween p.coherent p.acyclic s t inclusive
  have hends : ∀ v, v ∈ [s, t].eraseDups ↔ v = s ∨ v = t := by simp
  have hmem : ∀ v, v ∈ branch.order ↔ (inclusive = true ∧ (v = s ∨ v = t)) ∨ v ∈ run := by
    intro v
    rw [horder, List.mem_append, ← hends]
    cases inclusive <;> simp
  have hapart : ∀ v ∈ run, v ≠ s ∧ v ≠ t := fun v hv =>
    not_or.mp (mt (hends v).mpr (hrun.run.untaken v hv))
  have hids : ∀ v ∈ branch.order, v ∈ p.network.ids := by
    intro v hv
    rcases (hmem v).mp hv with ⟨-, rfl | rfl⟩ | hv
    · exact hs
    · exact ht
    · exact (hrun.run.links v hv).mem_ids p.coherent
  have hcleared := cleared_removeAll hids branch.order_nodup
  have hbetween : (∀ v ∈ branch.order, v ≠ s → v ≠ t →
        TransGen p.network.Step s v ∧ TransGen p.network.Step v t) ↔
      p.network.OpensTowards s t := by
    rw [← hrun.between_iff p.acyclic hends]
    constructor
    · intro h v hv
      exact h v ((hmem v).mpr (.inr hv)) (hapart v hv).1 (hapart v hv).2
    · intro h v hv hvs hvt
      exact h v (((hmem v).mp hv).resolve_left fun hv => hv.2.elim hvs hvt)
  refine ⟨branch, fun c => ⟨fun hc => hc.unique hcollects, fun hc => hc ▸ hcollects⟩,
    removeBranchBetween_of_collects hs ht hcollects, hcleared, ⟨run, hrun, horder⟩, ?stay,
    hbetween, ?none⟩
  case stay =>
    rintro rfl
    have horder : branch.order = run := horder
    rw [hcleared.mem_ids, hcleared.mem_ids, horder]
    exact ⟨⟨hs, fun hv => (hapart s hv).1 rfl⟩, ht, fun hv => (hapart t hv).2 rfl⟩
  case none =>
    intro hopens hno v hv
    refine ((hmem v).mp hv).resolve_right fun hvrun => hno ?_
    obtain ⟨hsv, hvt⟩ := hbetween.mpr hopens v hv (hapart v hvrun).1 (hapart v hvrun).2
    exact hsv.trans hvt

/-- Two ways that part and do not meet again, and a vertex apart. -/
def siding : Plan := empty.sketch [⟨2⟩, ⟨3⟩, ⟨4⟩, ⟨5⟩, ⟨6⟩] [(⟨2⟩, ⟨3⟩), (⟨3⟩, ⟨4⟩), (⟨2⟩, ⟨5⟩)]

/-- The first way opens towards its end, so what is removed lies on it. -/
theorem removeBranchBetween_exact_siding :
    ∃ branch : Branch, siding.removeBranchBetween ⟨2⟩ ⟨4⟩ false =
        (.ok !branch.isEmpty, siding.removeAll branch.order) ∧
      ⟨3⟩ ∈ branch.order ∧ ∀ v ∈ branch.order, v ≠ ⟨2⟩ → v ≠ ⟨4⟩ →
        TransGen siding.network.Step ⟨2⟩ v ∧ TransGen siding.network.Step v ⟨4⟩ := by
  have hopens : siding.network.OpensTowards ⟨2⟩ ⟨4⟩ := by
    intro v hfirst _ _
    obtain rfl : ⟨3⟩ = v := Option.some.inj
      ((by decide +kernel : siding.network.FirstStep ⟨2⟩ ⟨3⟩).symm.trans hfirst)
    exact .single (by decide +kernel : siding.network.FirstStep ⟨3⟩ ⟨4⟩).step
  have hthree : siding.network.IsRunAfter [⟨2⟩, ⟨4⟩] ⟨2⟩ [⟨3⟩] :=
    ⟨by decide +kernel, by decide +kernel, by decide⟩
  obtain ⟨branch, -, hremoval, -, ⟨run, hrun, horder⟩, -, hbetween, -⟩ :=
    siding.removeBranchBetween_exact (s := ⟨2⟩) (t := ⟨4⟩) (by decide +kernel) (by decide +kernel)
      false
  refine ⟨branch, hremoval, ?_, hbetween.mpr hopens⟩
  exact horder ▸ (hrun.longest _ hthree).subset (List.mem_singleton_self _)

/-- **What is removed need not lie between the two vertices**: not where one way leads from the first
to the second and another way is the first to leave, nor where no way leads there. -/
theorem siding_loses_the_other_way :
    (siding.removeBranchBetween ⟨2⟩ ⟨5⟩ false).2.network.ids = [⟨2⟩, ⟨4⟩, ⟨5⟩, ⟨6⟩] ∧
      ¬ TransGen siding.network.Step ⟨3⟩ ⟨5⟩ ∧
    (siding.removeBranchBetween ⟨2⟩ ⟨6⟩ true).2.network.ids = [⟨4⟩, ⟨5⟩] ∧
      ¬ TransGen siding.network.Step ⟨2⟩ ⟨6⟩ := by
  have hreach : ∀ {a b}, TransGen siding.network.Step a b → b ∈ siding.network.descendants a :=
    (Network.mem_descendants siding.coherent.target_mem).mpr
  exact ⟨by decide +kernel, mt hreach (by decide +kernel), by decide +kernel,
    mt hreach (by decide +kernel)⟩

end Plan

end Dataflow
