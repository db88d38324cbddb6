/-!
# Elements

The vertices of a dataflow network. An element is the vertex its id names, whatever else it
carries: `Element.id` decides identity, and the same id may stand in several networks.

Model of `ElementId` with `allocate` (`element_id`), and of `NamedNode`, `JoinNode` and
`FlowElement` (`flow_element`).
-/

namespace Dataflow

/-- The identity of an element. -/
structure ElementId where
  value : UInt64
deriving DecidableEq, Repr

namespace ElementId

/-- The entry of every bounded network. -/
def head : ElementId := ⟨0⟩

/-- The exit of every bounded network. -/
def tail : ElementId := ⟨1⟩

/-- The id is the entry's or the exit's. -/
def isSentinel (i : ElementId) : Bool := i = head || i = tail

/-- The id as messages show it. -/
def text (i : ElementId) : String :=
  if i = head then "head" else if i = tail then "tail" else "#" ++ toString i.value.toNat

instance : ToString ElementId := ⟨text⟩

/-- Ids are ordered by value. -/
instance : Ord ElementId := ⟨fun i j => compare i.value j.value⟩

theorem compare_def (i j : ElementId) : compare i j = compare i.value j.value := rfl

instance : Std.TransOrd ElementId where
  eq_swap {i j} := by rw [compare_def, compare_def]; exact Std.OrientedCmp.eq_swap
  isLE_trans {i j k} := by
    rw [compare_def, compare_def, compare_def]; exact Std.TransCmp.isLE_trans

instance : Std.LawfulEqOrd ElementId where
  compare_self {i} := by rw [compare_def]; exact Std.compare_self
  eq_of_compare {i j} h := by
    rw [compare_def] at h
    have : i.value = j.value := Std.LawfulEqOrd.eq_of_compare h
    cases i; cases j; cases this; rfl

/-- An id larger by `n`, starting again from 0 after the largest. -/
def advance (i : ElementId) (n : Nat) : ElementId := ⟨i.value + n.toUInt64⟩

end ElementId

/-- Hands out ids in ascending order, none twice. -/
structure IdSupply where
  /-- The id handed out next. -/
  next : ElementId
deriving DecidableEq, Repr

namespace IdSupply

/-- A supply that has handed out the two sentinels. -/
def start : IdSupply := ⟨⟨2⟩⟩

/-- A new id, and the supply after it. -/
def fresh (s : IdSupply) : ElementId × IdSupply := (s.next, ⟨s.next.advance 1⟩)

end IdSupply

/-- An element that carries a name. -/
structure Label where
  id : ElementId
  name : String
deriving DecidableEq, Repr

/-- An element with several inputs. -/
structure Junction where
  id : ElementId
  name : String
  /-- The branches that feed the inputs, in the order of their ordinals. Ordinal 0 is the streamed
  input, and every other one is accumulated. -/
  branches : List String
  /-- The inputs are joined, not only merged. -/
  performsJoin : Bool
deriving DecidableEq, Repr

namespace Junction

/-- The ordinal declared for a branch: where its name stands first. -/
def ordinalOf (j : Junction) (branch : String) : Option Nat := j.branches.idxOf? branch

end Junction

/-- A vertex of a dataflow network. -/
inductive Element where
  /-- The entry sentinel. -/
  | head
  /-- The exit sentinel. -/
  | tail
  /-- An ordinary step. -/
  | transform (node : Label)
  /-- An external source or sink. -/
  | boundary (node : Label)
  /-- An aggregation of a single input. -/
  | grouping (node : Label)
  /-- A join or merge of several inputs. -/
  | join (node : Junction)
deriving DecidableEq, Repr

namespace Element

/-- The vertex the element is. -/
def id : Element → ElementId
  | head => .head
  | tail => .tail
  | transform n | boundary n | grouping n => n.id
  | join j => j.id

/-- The name shown for the element. -/
def name : Element → String
  | head => "head"
  | tail => "tail"
  | transform n | boundary n | grouping n => n.name
  | join j => j.name

/-- The element is the entry or the exit. -/
def isSentinel : Element → Bool
  | head | tail => true
  | _ => false

/-- The element is an ordinary step. -/
def isTransform : Element → Bool
  | transform _ => true
  | _ => false

/-- The element is an external source or sink. -/
def isBoundary : Element → Bool
  | boundary _ => true
  | _ => false

/-- The element aggregates a single input. -/
def isGrouping : Element → Bool
  | grouping _ => true
  | _ => false

/-- Joins and merges take several inputs. -/
def isMultiInput : Element → Bool
  | join _ => true
  | _ => false

/-- A splice is an element whose inputs have meaningful ordinals. -/
def isSplice (e : Element) : Bool := e.isGrouping || e.isMultiInput

/-- The element joins its inputs; merges do not. -/
def performsJoin : Element → Bool
  | join j => j.performsJoin
  | _ => false

/-- The several inputs of a join or merge. -/
def join? : Element → Option Junction
  | join j => some j
  | _ => none

/-- The ordinal of the input that a branch feeds. A grouping has one input for every branch, and
elements that are no splice have none. -/
def ordinalOf (branch : String) : Element → Option Nat
  | grouping _ => some 0
  | join j => j.ordinalOf branch
  | _ => none

/-- The element as it is shown: its kind around its name. -/
def display : Element → String
  | head => "[head]"
  | tail => "[tail]"
  | transform n => "Transform(" ++ n.name ++ ")"
  | boundary n => "Boundary(" ++ n.name ++ ")"
  | grouping n => "Grouping(" ++ n.name ++ ")"
  | join j => (if j.performsJoin then "Join(" else "Merge(") ++ j.name ++ ")"

end Element

end Dataflow
