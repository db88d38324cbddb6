import Mathlib.Logic.Relation
import Dataflow.Path

/-!
# Walks by moves

A walk follows edges one after the other and may pass a vertex several times. `Leads` lists the
moves that it makes, so that parallel edges give different walks; the walks of `Network.Step` only
say which vertices follow each other.

* **`Leads.transGen`, `Network.exists_leads_of_transGen`**: both kinds of walk join the same
  vertices.
* **`Network.Acyclic.nodup_of_leads`**: without cycles no walk passes a vertex twice, so every walk
  is a path.
* **`Network.exists_detour_to`, `Network.exists_detour_from`**: every walk holds one that passes no
  vertex of a given kind between its ends.
-/

namespace Dataflow

open Relation

/-- The moves lead from one vertex to another, each taken from those offered where the one before
it arrived. -/
inductive Leads (moves : ElementId → List Move) : ElementId → List Move → ElementId → Prop
  | nil (v : ElementId) : Leads moves v [] v
  | cons {u w : ElementId} {m : Move} {ms : List Move} :
      m ∈ moves u → Leads moves m.target ms w → Leads moves u (m :: ms) w

/-- Where the moves arrive, one after the other. -/
def targets (ms : List Move) : List ElementId := ms.map (·.target)

theorem targets_append (xs ys : List Move) : targets (xs ++ ys) = targets xs ++ targets ys :=
  List.map_append

theorem targets_ne_nil {ms : List Move} (h : ms ≠ []) : targets ms ≠ [] := by
  simpa [targets] using h

theorem Path.vertices_eq (p : Path) : p.vertices = p.start :: targets p.moves := rfl

theorem Path.interior_eq (p : Path) : p.interior = (targets p.moves).dropLast := rfl

namespace Leads

variable {moves : ElementId → List Move}

theorem append {u v w : ElementId} {xs ys : List Move} (h : Leads moves u xs v)
    (h' : Leads moves v ys w) : Leads moves u (xs ++ ys) w := by
  induction h with
  | nil _ => exact h'
  | cons hm _ ih => exact .cons hm (ih h')

/-- A walk that makes a move arrives at its end last. -/
theorem targets_eq {u w : ElementId} {ms : List Move} (h : Leads moves u ms w) (hne : ms ≠ []) :
    targets ms = (targets ms).dropLast ++ [w] := by
  induction h with
  | nil _ => exact absurd rfl hne
  | @cons u w m ms _ hms ih =>
    cases hms with
    | nil _ => rfl
    | @cons _ _ m' ms' hm' hms' =>
      have := ih (List.cons_ne_nil _ _)
      show m.target :: targets (m' :: ms') = m.target :: (targets (m' :: ms')).dropLast ++ [w]
      rw [List.cons_append, ← this]

theorem end_mem_targets {u w : ElementId} {ms : List Move} (h : Leads moves u ms w)
    (hne : ms ≠ []) : w ∈ targets ms := by
  rw [h.targets_eq hne]
  exact List.mem_append_right _ List.mem_cons_self

/-- A walk is cut in two where it arrives at a vertex. -/
theorem split {u w x : ElementId} {ms : List Move} (h : Leads moves u ms w)
    (hx : x ∈ targets ms) : ∃ xs ys, ms = xs ++ ys ∧ xs ≠ [] ∧ Leads moves u xs x ∧
      Leads moves x ys w := by
  induction h with
  | nil _ => exact absurd hx List.not_mem_nil
  | @cons u w m ms hm hms ih =>
    rcases List.mem_cons.mp hx with rfl | hx
    · exact ⟨[m], ms, rfl, List.cons_ne_nil _ _, .cons hm (.nil _), hms⟩
    · obtain ⟨xs, ys, rfl, -, h1, h2⟩ := ih hx
      exact ⟨m :: xs, ys, rfl, List.cons_ne_nil _ _, .cons hm h1, h2⟩

/-- Where a walk leads, one leads that meets no vertex twice. -/
theorem exists_nodup {u w : ElementId} {ms : List Move} (h : Leads moves u ms w) :
    ∃ ms', Leads moves u ms' w ∧ (u :: targets ms').Nodup := by
  induction h with
  | nil v => exact ⟨[], .nil v, List.nodup_cons.mpr ⟨List.not_mem_nil, .nil⟩⟩
  | @cons u w m ms hm _ ih =>
    obtain ⟨ms', hms', hnd⟩ := ih
    have hmore := Leads.cons hm hms'
    by_cases hu : u ∈ targets (m :: ms')
    · -- what follows the return to the start is enough
      obtain ⟨xs, ys, heq, hne, hxs, hys⟩ := hmore.split hu
      have htargets : m.target :: targets ms' = (targets xs).dropLast ++ u :: targets ys := by
        show targets (m :: ms') = _
        rw [heq, targets_append, hxs.targets_eq hne]
        simp
      rw [htargets] at hnd
      exact ⟨ys, hys, (List.nodup_append.mp hnd).2.1⟩
    · exact ⟨m :: ms', hmore, List.nodup_cons.mpr ⟨hu, hnd⟩⟩

end Leads

namespace Network

/-- The moves along the edges that start at `v`. -/
def moves (n : Network) (v : ElementId) : List Move := (n.outgoing v).map fun l => ⟨l.id, l.target⟩

theorem mem_moves {n : Network} {v : ElementId} {m : Move} :
    m ∈ n.moves v ↔ ∃ l ∈ n.links, l.source = v ∧ l.id = m.link ∧ l.target = m.target := by
  unfold moves
  rw [List.mem_map]
  constructor
  · rintro ⟨l, hl, rfl⟩
    obtain ⟨hl, hv⟩ := mem_outgoing.mp hl
    exact ⟨l, hl, hv, rfl, rfl⟩
  · rintro ⟨l, hl, hv, hi, ht⟩
    exact ⟨l, mem_outgoing.mpr ⟨hl, hv⟩, by cases m; cases hi; cases ht; rfl⟩

theorem step_of_mem_moves {n : Network} {v : ElementId} {m : Move} (h : m ∈ n.moves v) :
    n.Step v m.target := by
  obtain ⟨l, hl, hs, -, ht⟩ := mem_moves.mp h
  exact ⟨l, hl, hs, ht⟩

theorem Step.exists_move {n : Network} {a b : ElementId} (h : n.Step a b) :
    ∃ m ∈ n.moves a, m.target = b := by
  obtain ⟨l, hl, hs, ht⟩ := h
  exact ⟨⟨l.id, l.target⟩, mem_moves.mpr ⟨l, hl, hs, rfl, rfl⟩, ht⟩

theorem Coherent.source_mem_of_step {n : Network} (hn : n.Coherent) {a b : ElementId}
    (h : n.Step a b) : a ∈ n.ids := by
  obtain ⟨l, hl, rfl, -⟩ := h
  exact hn.source_mem l hl

theorem Coherent.target_mem_of_step {n : Network} (hn : n.Coherent) {a b : ElementId}
    (h : n.Step a b) : b ∈ n.ids := by
  obtain ⟨l, hl, -, rfl⟩ := h
  exact hn.target_mem l hl

theorem Coherent.source_mem_of_transGen {n : Network} (hn : n.Coherent) {a b : ElementId}
    (h : TransGen n.Step a b) : a ∈ n.ids := by
  obtain ⟨_, hstep, -⟩ := TransGen.head'_iff.mp h
  exact hn.source_mem_of_step hstep

theorem Coherent.target_mem_of_transGen {n : Network} (hn : n.Coherent) {a b : ElementId}
    (h : TransGen n.Step a b) : b ∈ n.ids := by
  obtain ⟨_, -, hstep⟩ := TransGen.tail'_iff.mp h
  exact hn.target_mem_of_step hstep

end Network

/-! ### Walks by moves and walks by steps -/

theorem Leads.reflTransGen {n : Network} {s t : ElementId} {ms : List Move}
    (h : Leads n.moves s ms t) : ReflTransGen n.Step s t := by
  induction h with
  | nil _ => exact .refl
  | cons hm _ ih => exact .head (Network.step_of_mem_moves hm) ih

theorem Leads.transGen {n : Network} {s t : ElementId} {ms : List Move}
    (h : Leads n.moves s ms t) (hne : ms ≠ []) : TransGen n.Step s t := by
  cases h with
  | nil _ => exact absurd rfl hne
  | cons hm hms => exact .head' (Network.step_of_mem_moves hm) hms.reflTransGen

namespace Network

variable {n : Network}

theorem exists_leads_of_reflTransGen {s t : ElementId} (h : ReflTransGen n.Step s t) :
    ∃ ms, Leads n.moves s ms t := by
  induction h using ReflTransGen.head_induction_on with
  | refl => exact ⟨[], .nil _⟩
  | head hs _ ih =>
    obtain ⟨m, hm, rfl⟩ := hs.exists_move
    obtain ⟨ms, h⟩ := ih
    exact ⟨m :: ms, .cons hm h⟩

theorem exists_leads_of_transGen {s t : ElementId} (h : TransGen n.Step s t) :
    ∃ ms, ms ≠ [] ∧ Leads n.moves s ms t := by
  obtain ⟨a, hs, h⟩ := TransGen.head'_iff.mp h
  obtain ⟨m, hm, rfl⟩ := hs.exists_move
  obtain ⟨ms, h⟩ := exists_leads_of_reflTransGen h
  exact ⟨m :: ms, List.cons_ne_nil _ _, .cons hm h⟩

theorem Acyclic.ne_of_transGen (hn : n.Acyclic) {s t : ElementId} (h : TransGen n.Step s t) :
    s ≠ t := by
  rintro rfl
  exact hn s h

/-- Without cycles no edge leads from a vertex to itself. -/
theorem Acyclic.source_ne_target (hn : n.Acyclic) {l : Link} (hl : l ∈ n.links) :
    l.source ≠ l.target := hn.ne_of_transGen (.single ⟨l, hl, rfl, rfl⟩)

/-- Without cycles, two vertices that lead to each other are one. -/
theorem Acyclic.antisymm (hn : n.Acyclic) {s t : ElementId} (h : ReflTransGen n.Step s t)
    (h' : ReflTransGen n.Step t s) : s = t := by
  rcases reflTransGen_iff_eq_or_transGen.mp h with h | h
  · exact h.symm
  · exact absurd (h.trans_left h') (hn s)

/-- **Without cycles no walk passes a vertex twice.** -/
theorem Acyclic.nodup_of_leads (hn : n.Acyclic) {s t : ElementId} {ms : List Move}
    (h : Leads n.moves s ms t) : (s :: targets ms).Nodup := by
  induction h with
  | nil _ => exact List.nodup_cons.mpr ⟨List.not_mem_nil, .nil⟩
  | @cons u w m ms hm hms ih =>
    refine List.nodup_cons.mpr ⟨fun hu => ?_, ih⟩
    obtain ⟨xs, _, _, hne, hxs, -⟩ := (Leads.cons hm hms).split hu
    exact hn u (hxs.transGen hne)

/-! ### Detours -/

/-- A walk of at least one edge that passes no vertex of `kept` between its ends. -/
inductive Detour (n : Network) (kept : ElementId → Prop) : ElementId → ElementId → Prop
  | single {a b : ElementId} : n.Step a b → Detour n kept a b
  | head {a b c : ElementId} : n.Step a b → ¬ kept b → Detour n kept b c → Detour n kept a c

namespace Detour

variable {kept : ElementId → Prop}

theorem transGen {a b : ElementId} (h : n.Detour kept a b) : TransGen n.Step a b := by
  induction h with
  | single hs => exact .single hs
  | head hs _ _ ih => exact .head hs ih

theorem trans {a b c : ElementId} (h : n.Detour kept a b) (hb : ¬ kept b)
    (h' : n.Detour kept b c) : n.Detour kept a c := by
  induction h with
  | single hs => exact .head hs hb h'
  | head hs hk _ ih => exact .head hs hk (ih hb h')

/-- With fewer vertices kept a detour stays one. -/
theorem mono {kept' : ElementId → Prop} (hk : ∀ v, kept' v → kept v) {a b : ElementId}
    (h : n.Detour kept a b) : n.Detour kept' a b := by
  induction h with
  | single hs => exact .single hs
  | head hs hv _ ih => exact .head hs (mt (hk _) hv) ih

/-- A detour past one vertex more than before is a detour as before, or two that meet there. -/
theorem cut {kept' : ElementId → Prop} {v : ElementId} (hk : ∀ w, kept w → w ≠ v → kept' w)
    {a b : ElementId} (h : n.Detour kept' a b) :
    n.Detour kept a b ∨ (n.Detour kept a v ∧ n.Detour kept v b) := by
  induction h with
  | single hs => exact .inl (.single hs)
  | @head a c b hac hc _ ih =>
    by_cases hcv : c = v
    · subst hcv
      have hcb : n.Detour kept c b := ih.elim id And.right
      exact .inr ⟨.single hac, hcb⟩
    · have hfree : ¬ kept c := fun hkc => hc (hk c hkc hcv)
      rcases ih with ih | ⟨ih, ih'⟩
      · exact .inl (.head hac hfree ih)
      · exact .inr ⟨.head hac hfree ih, ih'⟩

end Detour

/-- The last kept vertex before the end of a walk leads to that end by a detour. -/
theorem exists_detour_to (kept : ElementId → Prop) {a v : ElementId} (h : TransGen n.Step a v)
    (ha : kept a) : ∃ s, kept s ∧ n.Detour kept s v := by
  induction h with
  | single h => exact ⟨a, ha, .single h⟩
  | @tail b v _ h ih =>
    by_cases hb : kept b
    · exact ⟨b, hb, .single h⟩
    · obtain ⟨s, hs, hd⟩ := ih
      exact ⟨s, hs, hd.trans hb (.single h)⟩

/-- A walk leads by a detour to the first kept vertex after its start. -/
theorem exists_detour_from (kept : ElementId → Prop) {v d : ElementId} (h : TransGen n.Step v d)
    (hd : kept d) : ∃ t, kept t ∧ n.Detour kept v t := by
  induction h using TransGen.head_induction_on with
  | single h => exact ⟨d, hd, .single h⟩
  | @head v c h _ ih =>
    by_cases hc : kept c
    · exact ⟨c, hc, .single h⟩
    · obtain ⟨t, ht, hct⟩ := ih
      exact ⟨t, ht, .head h hc hct⟩

/-- A walk that kept vertices cannot interrupt is a detour. -/
theorem detour_of_transGen {kept : ElementId → Prop} {a b : ElementId}
    (h : TransGen n.Step a b)
    (hfree : ∀ w, TransGen n.Step a w → TransGen n.Step w b → ¬ kept w) : n.Detour kept a b := by
  induction h using TransGen.head_induction_on with
  | single h => exact .single h
  | @head a c h hcb ih =>
    have hc : ¬ kept c := hfree c (.single h) hcb
    exact .head h hc (ih fun w hcw hwb => hfree w (.head h hcw) hwb)

theorem Detour.exists_leads {kept : ElementId → Prop} {a b : ElementId} (h : n.Detour kept a b) :
    ∃ ms, ms ≠ [] ∧ Leads n.moves a ms b ∧ ∀ x ∈ (targets ms).dropLast, ¬ kept x := by
  induction h with
  | single h =>
    obtain ⟨m, hm, rfl⟩ := h.exists_move
    exact ⟨[m], List.cons_ne_nil _ _, .cons hm (.nil _), by simp [targets]⟩
  | head h hk _ ih =>
    obtain ⟨m, hm, rfl⟩ := h.exists_move
    obtain ⟨ms, hne, hms, hfree⟩ := ih
    refine ⟨m :: ms, List.cons_ne_nil _ _, .cons hm hms, ?_⟩
    show ∀ x ∈ (m.target :: targets ms).dropLast, ¬ kept x
    rw [List.dropLast_cons_of_ne_nil (targets_ne_nil hne)]
    exact List.forall_mem_cons.mpr ⟨hk, hfree⟩

theorem detour_of_leads {kept : ElementId → Prop} {a b : ElementId} {ms : List Move}
    (h : Leads n.moves a ms b) (hne : ms ≠ []) (hfree : ∀ x ∈ (targets ms).dropLast, ¬ kept x) :
    n.Detour kept a b := by
  induction h with
  | nil _ => exact absurd rfl hne
  | @cons a b m ms hm hms ih =>
    have hstep := step_of_mem_moves hm
    by_cases hnil : ms = []
    · subst hnil
      cases hms
      exact .single hstep
    · have hfree' : ∀ x ∈ m.target :: (targets ms).dropLast, ¬ kept x := by
        rw [← List.dropLast_cons_of_ne_nil (targets_ne_nil hnil)]
        exact hfree
      obtain ⟨hk, hrest⟩ := List.forall_mem_cons.mp hfree'
      exact .head hstep hk (ih hnil hrest)

end Network

end Dataflow
