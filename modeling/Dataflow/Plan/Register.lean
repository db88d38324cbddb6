import Mathlib.Logic.Function.Basic
import Dataflow.Data.Sweep
import Dataflow.Failure
import Dataflow.Network.Answers
import Dataflow.Plan.Store

/-!
# The register of a plan

Vertices and edges in slots once more, as they are laid out: an edge knows the slots of its ends and
not their ids, and beside the slots an index leads from an id to the slot of its vertex. The index
and the slots have to keep in step, for a slot that is given up goes to another vertex.

Model of `FlowGraph` function by function: `add_vertex`, `remove_vertex`, `add_edge`, `connect`,
`remove_edge`, `remove_edge_between`, `edge_mut`, and of its queries, with `entry` and
`entries_directed`, as an `ElementGraph`. Of the library that its graph comes from this is assumed,
beside the slots and what `remove_node` does (`Slots`, `Store`):
* `has_path_connecting` finds a path from one slot to another exactly where there is one
  (`leads_iff`); it is asked only of two different slots, so a path without edges does not count;
* `edges_directed` yields each of the edges on that side of a slot once, in whatever order, for what
  it yields is sorted by number or searched for the least one.

* **`Register.leads_iff`**: what the check for cycles finds.
-/

namespace Dataflow

/-- An edge between two slots. -/
structure Strand where
  source : Nat
  target : Nat
  edge : Edge
  /-- Later edges have larger serials. -/
  serial : Nat

/-- Vertices, edges between their slots, and the slot of every id. -/
structure Register where
  vertices : Slots Element
  strands : Slots Strand
  /-- The serial of the next edge. -/
  clock : Nat
  index : ElementId → Option Nat
  tags : Option Tags

namespace Register

/-- Nothing. -/
def empty : Register := ⟨.empty, .empty, 0, fun _ => none, none⟩

/-- The element of an id, found by its slot. -/
def element? (r : Register) (v : ElementId) : Option Element := (r.index v).bind r.vertices.get?

/-! ### Vertices -/

/-- Adds an element as a vertex unless the index has its id, and says whether it did. -/
def addVertex (r : Register) (e : Element) : Bool × Register :=
  if (r.index e.id).isSome then (false, r)
  else
    (true, { r with
      vertices := r.vertices.insert e
      index := Function.update r.index e.id (some r.vertices.next) })

/-- The numbers of edges, the youngest first. -/
def youngestFirst (ws : List (Nat × Strand)) : List EdgeId :=
  (ws.mergeSort fun a b => b.2.serial ≤ a.2.serial).map (·.1)

/-- The edges with one end in a slot, the youngest first. -/
def strandsAt (r : Register) (atEnd : Strand → Nat) (slot : Nat) : List EdgeId :=
  youngestFirst (r.strands.items.filter fun p => atEnd p.2 = slot)

/-- Removes a vertex: its entry in the index, its tags, its edges and its slot. -/
def removeVertex (r : Register) (v : ElementId) : Option Element × Register :=
  match r.index v with
  | none => (none, r)
  | some slot =>
    (r.vertices.get? slot, { r with
      index := Function.update r.index v none
      tags := r.tags.map (·.remove v)
      strands := r.strands.eraseAll (r.strandsAt Strand.source slot ++ r.strandsAt Strand.target slot)
      vertices := r.vertices.erase slot })

/-! ### Edges -/

/-- The slots that edges lead to from a slot. -/
def next (r : Register) (slot : Nat) : List Nat :=
  (r.strands.items.filter fun p => p.2.source = slot).map fun p => p.2.target

/-- Edges lead from one slot to another. -/
def leads (r : Register) (i j : Nat) : Bool :=
  (sweep r.next (r.vertices.items.map (·.1)) [i]).contains j

/-- **The check for cycles finds every walk** of at least one edge, and only those. -/
theorem leads_iff {r : Register} {i j : Nat} :
    r.leads i j = true ↔ Via r.next (r.vertices.items.map (·.1)) i j := by
  unfold leads
  rw [List.contains_iff_mem, mem_sweep]
  simp

/-- Adds an edge between two vertices and gives its number. Fails where the index lacks an end, and
where the edge would close a cycle. -/
def addEdge (r : Register) (s t : ElementId) (e : Edge) : Except Failure EdgeId × Register :=
  match r.index s with
  | none => (.error (.notAVertex s), r)
  | some i =>
    match r.index t with
    | none => (.error (.notAVertex t), r)
    | some j =>
      if i = j ∨ r.leads j i then (.error (.closesCycle s t), r)
      else
        (.ok r.strands.next, { r with
          strands := r.strands.insert ⟨i, j, e, r.clock⟩
          clock := r.clock + 1 })

/-- Adds an edge named after its source. -/
def connect (r : Register) (s t : ElementId) : Except Failure EdgeId × Register :=
  match r.element? s with
  | none => (.error (.notAVertex s), r)
  | some e => r.addEdge s t (.named e.name)

/-- Removes an edge and gives its value. -/
def removeEdge (r : Register) (i : EdgeId) : Option Edge × Register :=
  ((r.strands.get? i).map (·.edge), { r with strands := r.strands.erase i })

/-- The lowest number of an edge from one slot to another. -/
def lowestBetween? (r : Register) (i j : Nat) : Option EdgeId :=
  ((r.strands.items.filter fun p => p.2.source = i ∧ p.2.target = j).map (·.1)).min?

/-- Removes the edge of the lowest number between two vertices, if there is one. -/
def removeEdgeBetween (r : Register) (s t : ElementId) : Option (EdgeId × Edge) × Register :=
  match (r.index s).bind fun i => (r.index t).bind (r.lowestBetween? i) with
  | none => (none, r)
  | some k => ((r.removeEdge k).1.map (k, ·), (r.removeEdge k).2)

/-- Changes the value of an edge. -/
def modifyEdge (r : Register) (k : EdgeId) (f : Edge → Edge) : Register :=
  { r with strands := r.strands.modify k fun w => { w with edge := f w.edge } }

/-! ### Queries -/

/-- The edge of a number, with the ids of the vertices in the slots of its ends. -/
def link? (r : Register) (k : EdgeId) : Option Link :=
  (r.strands.get? k).bind fun w =>
    (r.vertices.get? w.source).bind fun s =>
      (r.vertices.get? w.target).map fun t => ⟨k, s.id, t.id, w.edge⟩

/-- The edges with one end at `v` in the order of their numbers; none where the index lacks `v`. -/
def linksAt (r : Register) (atEnd : Strand → Nat) (v : ElementId) : List Link :=
  match r.index v with
  | none => []
  | some slot => ((r.strandsAt atEnd slot).mergeSort fun i j => i ≤ j).filterMap r.link?

/-- What is answered from the register. -/
def answers (r : Register) : Answers where
  ids := r.vertices.items.map (·.2.id)
  element? := r.element?
  contains v := (r.index v).isSome
  links := r.strands.items.filterMap fun p => r.link? p.1
  link? := r.link?
  incoming := r.linksAt Strand.target
  outgoing := r.linksAt Strand.source
  tags := r.tags
  vertexCount := r.vertices.items.length
  edgeCount := r.strands.items.length

end Register

end Dataflow
