import Mathlib.Logic.Function.Basic
import Mathlib.Logic.Relation
import Dataflow.Failure
import Dataflow.Network.Answers

/-!
# Multigraphs as two maps

What a store of vertices and edges stands for, without any regard to how it stores them: an element
for some ids, and the ends and the value of an edge for some numbers. Each operation is a rule on the
two maps (`Multigraph.Performs`). The rules leave open which number a new edge gets, as long as no
edge has it.

* **`Multigraph.Runs.arc?_of_spares`**: a number keeps standing for its edge until that edge, or
  one of its ends, is removed.
-/

namespace Dataflow

open Relation

/-- An edge without its number. -/
structure Arc where
  source : ElementId
  target : ElementId
  edge : Edge

namespace Arc

/-- The edge under a number. -/
def link (i : EdgeId) (a : Arc) : Link := ⟨i, a.source, a.target, a.edge⟩

/-- One of the ends is `v`. -/
def touches (a : Arc) (v : ElementId) : Bool := a.source = v || a.target = v

end Arc

/-- An operation on vertices and edges. -/
inductive Operation where
  | addVertex (e : Element)
  | removeVertex (v : ElementId)
  | addEdge (s t : ElementId) (e : Edge)
  | connect (s t : ElementId)
  | removeEdge (i : EdgeId)
  | removeEdgeBetween (s t : ElementId)
  | modifyEdge (i : EdgeId) (f : Edge → Edge)

/-- What an operation answers. -/
inductive Reply where
  /-- Whether the vertex is a new one. -/
  | added (new : Bool)
  /-- The element that was removed. -/
  | vertex (e : Option Element)
  /-- The number of a new edge, or why there is none. -/
  | number (i : Except Failure EdgeId)
  /-- The value of the edge that was removed, or is to be modified. -/
  | value (e : Option Edge)
  /-- The edge that was removed. -/
  | taken (e : Option (EdgeId × Edge))

/-- Performs operations one after the other, with what each answers. -/
def Operation.performAll {σ : Type} (perform : σ → Operation → Reply × σ) :
    σ → List Operation → List Reply × σ
  | s, [] => ([], s)
  | s, op :: ops =>
    let rest := performAll perform (perform s op).2 ops
    ((perform s op).1 :: rest.1, rest.2)

/-- Elements by id, and edges by number. -/
structure Multigraph where
  element? : ElementId → Option Element
  arc? : EdgeId → Option Arc

namespace Multigraph

variable {g g' g'' : Multigraph}

theorem ext_iff_some {g h : Multigraph}
    (helement : ∀ v e, g.element? v = some e ↔ h.element? v = some e)
    (harc : ∀ i a, g.arc? i = some a ↔ h.arc? i = some a) : g = h := by
  obtain ⟨elements, arcs⟩ := g
  obtain ⟨elements', arcs'⟩ := h
  obtain rfl : elements = elements' := funext fun v => Option.ext (helement v)
  obtain rfl : arcs = arcs' := funext fun i => Option.ext (harc i)
  rfl

/-- No vertices and no edges. -/
def empty : Multigraph := ⟨fun _ => none, fun _ => none⟩

/-- The id is a vertex. -/
def Has (g : Multigraph) (v : ElementId) : Prop := ∃ e, g.element? v = some e

/-- Some edge leads from `a` to `b`. -/
def Step (g : Multigraph) (a b : ElementId) : Prop := ∃ i e, g.arc? i = some ⟨a, b, e⟩

/-- The multigraph with an element under its id. -/
def withVertex (g : Multigraph) (e : Element) : Multigraph :=
  { g with element? := Function.update g.element? e.id (some e) }

/-- The multigraph without a vertex and the edges that touch it. -/
def withoutVertex (g : Multigraph) (v : ElementId) : Multigraph where
  element? := Function.update g.element? v none
  arc? i := (g.arc? i).filter fun a => !a.touches v

/-- The multigraph with another edge under a number, or with none. -/
def setArc (g : Multigraph) (i : EdgeId) (a : Option Arc) : Multigraph :=
  { g with arc? := Function.update g.arc? i a }

/-! ### Operations -/

/-- What an operation may answer, and the multigraph after it. -/
inductive Performs (g : Multigraph) : Operation → Reply → Multigraph → Prop
  | vertexAdded {e : Element} : ¬ g.Has e.id →
      Performs g (.addVertex e) (.added true) (g.withVertex e)
  | vertexKept {e : Element} : g.Has e.id → Performs g (.addVertex e) (.added false) g
  | vertexRemoved {v : ElementId} {e : Element} : g.element? v = some e →
      Performs g (.removeVertex v) (.vertex (some e)) (g.withoutVertex v)
  | vertexMissing {v : ElementId} : ¬ g.Has v → Performs g (.removeVertex v) (.vertex none) g
  | sourceMissing {s t : ElementId} {e : Edge} : ¬ g.Has s →
      Performs g (.addEdge s t e) (.number (.error (.notAVertex s))) g
  | targetMissing {s t : ElementId} {e : Edge} : g.Has s → ¬ g.Has t →
      Performs g (.addEdge s t e) (.number (.error (.notAVertex t))) g
  | cycleClosed {s t : ElementId} {e : Edge} : g.Has s → g.Has t →
      s = t ∨ TransGen g.Step t s →
      Performs g (.addEdge s t e) (.number (.error (.closesCycle s t))) g
  | edgeAdded {s t : ElementId} {e : Edge} {i : EdgeId} : g.Has s → g.Has t →
      ¬ (s = t ∨ TransGen g.Step t s) → g.arc? i = none →
      Performs g (.addEdge s t e) (.number (.ok i)) (g.setArc i (some ⟨s, t, e⟩))
  | nothingConnected {s t : ElementId} : ¬ g.Has s →
      Performs g (.connect s t) (.number (.error (.notAVertex s))) g
  | connected {s t : ElementId} {e : Element} {r : Reply} {g' : Multigraph} :
      g.element? s = some e → Performs g (.addEdge s t (.named e.name)) r g' →
      Performs g (.connect s t) r g'
  | edgeRemoved {i : EdgeId} :
      Performs g (.removeEdge i) (.value ((g.arc? i).map (·.edge))) (g.setArc i none)
  | noneBetween {s t : ElementId} : (∀ i e, g.arc? i ≠ some ⟨s, t, e⟩) →
      Performs g (.removeEdgeBetween s t) (.taken none) g
  | lowestRemoved {s t : ElementId} {i : EdgeId} {e : Edge} : g.arc? i = some ⟨s, t, e⟩ →
      (∀ j e', g.arc? j = some ⟨s, t, e'⟩ → i ≤ j) →
      Performs g (.removeEdgeBetween s t) (.taken (some (i, e))) (g.setArc i none)
  | edgeModified {i : EdgeId} {f : Edge → Edge} :
      Performs g (.modifyEdge i f) (.value ((g.arc? i).map (·.edge)))
        (g.setArc i ((g.arc? i).map fun a => { a with edge := f a.edge }))

/-- Operations one after the other, with what each answers. -/
inductive Runs : Multigraph → List Operation → List Reply → Multigraph → Prop
  | nil (g : Multigraph) : Runs g [] [] g
  | cons {g g' g'' : Multigraph} {op : Operation} {r : Reply} {ops : List Operation}
      {rs : List Reply} : g.Performs op r g' → Runs g' ops rs g'' →
      Runs g (op :: ops) (r :: rs) g''

/-! ### What a number stands for -/

/-- The operation removes neither the edge of a number nor one of its ends. -/
def Spares (i : EdgeId) (a : Arc) : Operation → Reply → Prop
  | .removeVertex v, _ => a.touches v = false
  | .removeEdge j, _ => j ≠ i
  | .removeEdgeBetween _ _, .taken (some (j, _)) => j ≠ i
  | _, _ => True

/-- The value of the edge of a number after an operation. -/
def revise (i : EdgeId) (e : Edge) : Operation → Edge
  | .modifyEdge j f => if j = i then f e else e
  | _ => e

theorem setArc_of_ne {i j : EdgeId} (h : j ≠ i) (b : Option Arc) :
    (g.setArc j b).arc? i = g.arc? i := by
  show Function.update g.arc? j b i = g.arc? i
  rw [Function.update_of_ne h.symm]

/-- **An operation that spares an edge leaves it under its number.** -/
theorem Performs.arc?_of_spares {op : Operation} {r : Reply} (h : g.Performs op r g') {i : EdgeId}
    {a : Arc} (ha : g.arc? i = some a) (hs : Spares i a op r) :
    g'.arc? i = some { a with edge := revise i a.edge op } := by
  induction h with
  | vertexAdded | vertexKept | vertexMissing | sourceMissing | targetMissing | cycleClosed
  | nothingConnected | noneBetween => exact ha
  | vertexRemoved _ =>
    have hs : a.touches _ = false := hs
    show (g.arc? i).filter _ = _
    rw [ha, Option.filter_some, hs]
    rfl
  | edgeAdded _ _ _ hnew =>
    rw [setArc_of_ne (by rintro rfl; rw [hnew] at ha; cases ha), ha]
    rfl
  | connected _ _ ih => exact ih trivial
  | edgeRemoved | lowestRemoved =>
    rw [setArc_of_ne hs, ha]
    rfl
  | @edgeModified j f =>
    by_cases hji : j = i
    · subst hji
      show Function.update g.arc? j _ j = _
      rw [Function.update_self, ha, revise, if_pos rfl]
      rfl
    · rw [setArc_of_ne hji, ha, revise, if_neg hji]

/-- **A number keeps standing for its edge** over operations that spare the edge; only what modifies
it changes its value. -/
theorem Runs.arc?_of_spares {ops : List Operation} {rs : List Reply} (h : Runs g ops rs g')
    {i : EdgeId} {a : Arc} (ha : g.arc? i = some a)
    (hs : ∀ x ∈ ops.zip rs, Spares i a x.1 x.2) :
    g'.arc? i = some { a with edge := ops.foldl (revise i) a.edge } := by
  induction h generalizing a with
  | nil => exact ha
  | @cons _ _ _ op _ _ _ hop _ ih =>
    obtain ⟨hfirst, hrest⟩ := List.forall_mem_cons.mp hs
    -- to spare an edge means the same for every value of it
    have hsame : ∀ e x r, Spares i a x r → Spares i { a with edge := e } x r := by
      intro e x r
      cases x <;> exact id
    exact ih (hop.arc?_of_spares ha hfirst) fun x hx => hsame _ _ _ (hrest x hx)

/-! ### Queries -/

/-- Every query is answered from the two maps. -/
structure Shows (g : Multigraph) (a : Answers) : Prop where
  ids_nodup : a.ids.Nodup
  mem_ids : ∀ v, v ∈ a.ids ↔ g.Has v
  element?_eq : ∀ v, a.element? v = g.element? v
  element_id : ∀ v e, a.element? v = some e → e.id = v
  contains_iff : ∀ v, a.contains v = true ↔ g.Has v
  links_ascending : a.links.Pairwise fun k l => k.id < l.id
  mem_links : ∀ l, l ∈ a.links ↔ g.arc? l.id = some ⟨l.source, l.target, l.edge⟩
  link?_eq : ∀ i, a.link? i = (g.arc? i).map (·.link i)
  incoming_eq : ∀ v, a.incoming v = a.links.filter fun l => l.target = v
  outgoing_eq : ∀ v, a.outgoing v = a.links.filter fun l => l.source = v
  ends_mem : ∀ l ∈ a.links, l.source ∈ a.ids ∧ l.target ∈ a.ids
  vertexCount_eq : a.vertexCount = a.ids.length
  edgeCount_eq : a.edgeCount = a.links.length

end Multigraph

end Dataflow
