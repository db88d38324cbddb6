import Dataflow.Network.View

/-!
# Answers

What a graph answers when it is asked. A stored plan, a mask and a restriction each have their own
way: a plan looks into its store, and a layer asks what is below it and leaves out what it hides. The
questions that all of them answer alike are functions of the other answers, and the counts and the
decoration have an answer for those that give none.

Model of `ElementGraph` with the queries that it answers by default (`element_graph`), and of how
`ElementSubGraph` and `ElementMaskSubGraph` (`sub_graph`) answer it.
-/

namespace Dataflow

/-- What a graph answers to each question that it may answer in its own way. -/
@[ext] structure Answers where
  /-- The vertices in storage order. -/
  ids : List ElementId
  element? : ElementId → Option Element
  contains : ElementId → Bool
  /-- The edges in storage order. -/
  links : List Link
  link? : EdgeId → Option Link
  /-- The edges that end at a vertex. -/
  incoming : ElementId → List Link
  /-- The edges that start at a vertex. -/
  outgoing : ElementId → List Link
  tags : Option Tags := none
  vertexCount : Nat := ids.length
  edgeCount : Nat := links.length

namespace Answers

variable (a : Answers)

/-! ### What all answer alike -/

/-- Some vertex carries a tag. -/
def hasTags : Bool := a.tags.any (!·.isEmpty)

/-- The number of edges that end at `v`. -/
def inDegree (v : ElementId) : Nat := (a.incoming v).length

/-- The number of edges that start at `v`. -/
def outDegree (v : ElementId) : Nat := (a.outgoing v).length

/-- Where the edges that end at `v` start, one for each edge. -/
def predecessors (v : ElementId) : List ElementId := (a.incoming v).map (·.source)

/-- Where the edges that start at `v` end, one for each edge. -/
def successors (v : ElementId) : List ElementId := (a.outgoing v).map (·.target)

/-- The elements in storage order. -/
def elements : List Element := a.ids.filterMap a.element?

/-! ### Layers -/

/-- The answers with the sentinels hidden. -/
def mask : Answers where
  ids := a.ids.filter fun v => !v.isSentinel
  element? v := if v.isSentinel then none else a.element? v
  contains v := !v.isSentinel && a.contains v
  links := a.links.filter fun l => !l.touchesSentinel
  link? i := (a.link? i).filter fun l => !l.touchesSentinel
  incoming v := if v.isSentinel then [] else (a.incoming v).filter fun l => !l.touchesSentinel
  outgoing v := if v.isSentinel then [] else (a.outgoing v).filter fun l => !l.touchesSentinel
  tags := a.tags

/-- The vertices of a list that a restriction keeps: those that are there, each once. -/
def kept (vertices : List ElementId) : List ElementId := (vertices.filter a.contains).eraseDups

/-- A restriction shows the edge: it keeps both ends, and the edge set has it if there is one. -/
def admits (vertices : List ElementId) (edges : Option (List EdgeId)) (l : Link) : Bool :=
  (a.kept vertices).contains l.source && (a.kept vertices).contains l.target &&
    edges.all (·.contains l.id)

/-- The answers restricted to vertices and, if they are given, to edges. The vertices are counted as
they were asked for, less those that are not there. -/
def restrict (vertices : List ElementId) (edges : Option (List EdgeId)) : Answers where
  ids := a.ids.filter (a.kept vertices).contains
  element? v := if (a.kept vertices).contains v then a.element? v else none
  contains := (a.kept vertices).contains
  links := a.links.filter (a.admits vertices edges)
  link? i := (a.link? i).filter (a.admits vertices edges)
  incoming v :=
    if (a.kept vertices).contains v then (a.incoming v).filter (a.admits vertices edges) else []
  outgoing v :=
    if (a.kept vertices).contains v then (a.outgoing v).filter (a.admits vertices edges) else []
  vertexCount := (a.kept vertices).length

end Answers

/-- The answers through a layer. -/
def Layer.answers : Layer → Answers → Answers
  | mask, a => a.mask
  | restrict vs es, a => a.restrict vs es

/-- The answers through layers, the first one next to what is asked. -/
def Answers.through (a : Answers) (layers : List Layer) : Answers :=
  layers.foldl (fun a layer => layer.answers a) a

/-- The answers that are read of a network. -/
def Network.answers (n : Network) : Answers where
  ids := n.ids
  element? := n.element?
  contains := n.contains
  links := n.links
  link? := n.link?
  incoming := n.incoming
  outgoing := n.outgoing
  tags := n.tags
  vertexCount := n.vertexCount
  edgeCount := n.edgeCount

end Dataflow
