import Dataflow.Network.Order

/-!
# Looking elements up

Elements by name and kind in topological order, the boundaries at either end of a network, and the
edges by which these are registered.

Model of `find_named` with `find_first_transform_named` and `find_last_transform_named`,
`find_sources`, `find_sinks`, `boundaries_among`, `find_all_groupings`, `find_all_joins`,
`vertices_of_matches`, `register_sources` and `register_sinks` (`traversal`). What a `StepRegistrar`
is told is the list of the calls it gets.
-/

namespace Dataflow.Network

/-- The element is a transform of that name. -/
def isTransformNamed (name : String) (e : Element) : Bool := e.isTransform && e.name = name

theorem isTransformNamed_iff {name : String} {e : Element} :
    isTransformNamed name e = true ↔ ∃ node, e = .transform node ∧ node.name = name := by
  rw [isTransformNamed, Bool.and_eq_true, decide_eq_true_eq]
  cases e <;> simp [Element.isTransform, Element.name]

/-- The first transform of that name in topological order. -/
def firstTransformNamed (n : Network) (name : String) : Option Element :=
  (n.order.filterMap n.element?).find? (isTransformNamed name)

/-- The transform of that name met first from the sinks. -/
def lastTransformNamed (n : Network) (name : String) : Option Element :=
  (n.reverseOrder.filterMap n.element?).find? (isTransformNamed name)

/-- The boundaries in a list, each where it stands first. -/
def boundariesAmong (n : Network) (vs : List ElementId) : List ElementId :=
  (vs.filter (n.isVertexWith Element.isBoundary)).eraseDups

/-- The boundaries that feed the network: those after the entry, or without an entry those that no
edge enters. -/
def sources (n : Network) : List ElementId :=
  n.boundariesAmong <|
    if n.contains .head then n.successors .head else n.order.filter fun v => n.inDegree v = 0

/-- The boundaries that the network feeds: those before the exit, or without an exit those that no
edge leaves. -/
def sinks (n : Network) : List ElementId :=
  n.boundariesAmong <|
    if n.contains .tail then n.predecessors .tail
    else n.reverseOrder.filter fun v => n.outDegree v = 0

/-- The groupings in topological order. -/
def groupings (n : Network) : List ElementId :=
  n.order.filter (n.isVertexWith Element.isGrouping)

/-- The joins and merges in topological order. -/
def joins (n : Network) : List ElementId :=
  n.order.filter (n.isVertexWith Element.isMultiInput)

/-- The vertices of any of several networks. -/
def verticesOf (matched : List Network) : SortedSet ElementId := .ofList (matched.flatMap ids)

/-- A boundary is registered under the name of an edge. -/
structure Registration where
  edgeName : String
  boundary : Element

/-- One registration for each edge that `side` gives for each boundary, up to the first id that is
no vertex. -/
def registrations (n : Network) (side : ElementId → List Link) :
    List ElementId → List Registration × Option Failure
  | [] => ([], none)
  | v :: vs =>
    match n.element? v with
    | none => ([], some (.notAVertex v))
    | some e =>
      let rest := n.registrations side vs
      ((side v).map (fun l => ⟨l.edge.name, e⟩) ++ rest.1, rest.2)

/-- Registers sources by their outgoing edges. -/
def registerSources (n : Network) (vs : List ElementId) : List Registration × Option Failure :=
  n.registrations n.outgoing vs

/-- Registers sinks by their incoming edges. -/
def registerSinks (n : Network) (vs : List ElementId) : List Registration × Option Failure :=
  n.registrations n.incoming vs

end Dataflow.Network
