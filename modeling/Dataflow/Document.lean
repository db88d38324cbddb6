import Dataflow.Edge
import Dataflow.Json
import Dataflow.Settings
import Dataflow.Tag

/-!
# Documents of planner values

How elements, edges, decorations and settings are read from documents, and written to them.

A record is an object of named fields or the array of its fields in order. A choice is the text of
its name, or an object of one member whose name is the choice; a choice that carries nothing
carries null there. Settings may lack fields and admit no others; everywhere else fields are
required, and unknown ones are passed over.

Model of how `ElementId`, `NamedNode`, `JoinNode`, `FlowElement`, `FlowEdge`, `Annotation`,
`Annotations`, `ClosureAlgorithm`, `ContractionMode` and `PlannerConfig` are read and written, and
of `from_json` (`config`).
-/

namespace Dataflow

namespace Json

/-! ### Reading -/

/-- The last value of a name among members. -/
def lookup? (name : String) (ms : List (Option String × Json)) : Option Json :=
  (ms.reverse.find? fun m => m.1 = some name).map (·.2)

/-- The members' names are texts, and none of the fields is named twice. -/
def isRecord (names : List String) (ms : List (Option String × Json)) : Bool :=
  ms.all (·.1.isSome) && names.all fun name => (ms.filter fun m => m.1 = some name).length ≤ 1

/-- The fields of a record in order. -/
def fields (names : List String) : Json → Option (List Json)
  | object ms => if isRecord names ms then names.mapM fun name => lookup? name ms else none
  | array vs => if vs.length = names.length then some vs else none
  | _ => none

/-- The fields of a record in order; fields may be missing, in an array those at its end. -/
def partialFields (names : List String) : Json → Option (List (Option Json))
  | object ms =>
    if isRecord names ms && ms.all fun m => names.any fun name => m.1 = some name then
      some (names.map fun name => lookup? name ms)
    else none
  | array vs =>
    if vs.length ≤ names.length then
      some (vs.map some ++ List.replicate (names.length - vs.length) none)
    else none
  | _ => none

/-- The name of a choice, and what it carries. -/
def choice? : Json → Option (String × Option Json)
  | text (some s) => some (s, none)
  | object [(some s, v)] => some (s, some v)
  | _ => none

/-- The name of a choice that carries nothing. -/
def word? (j : Json) : Option String :=
  match j.choice? with
  | some (s, none) | some (s, some null) => some s
  | _ => none

/-- The truth value a document is. -/
def bool? : Json → Option Bool
  | bool b => some b
  | _ => none

/-- The text a document is. -/
def text? : Json → Option String
  | text s => s
  | _ => none

/-- The number a document is. -/
def number? : Json → Option Numeral
  | number n => some n
  | _ => none

/-- Every item of an array, read by `item`. -/
def list? {α : Type} (item : Json → Option α) : Json → Option (List α)
  | array vs => vs.mapM item
  | _ => none

/-- The members of an object whose names `key` reads, with their values. -/
def table? {κ α : Type} (key : String → Option κ) (item : Json → Option α) :
    Json → Option (List (κ × α))
  | object ms => ms.mapM fun m => do return (← key (← m.1), ← item m.2)
  | _ => none

/-! ### Writing -/

/-- An object of named values. -/
def ofFields (fields : List (String × Json)) : Json := object (fields.map fun f => (some f.1, f.2))

/-- A text. -/
def ofText (s : String) : Json := text (some s)

/-- A number of 64 bits. -/
def ofWord (n : UInt64) : Json := number (.ofNat n.toNat)

end Json

namespace ElementId

/-- An id is read from a number of 64 bits. -/
def ofJson? (j : Json) : Option ElementId := do return ⟨← (← j.number?).word?⟩

/-- The number of an id. -/
def toJson (v : ElementId) : Json := .ofWord v.value

end ElementId

namespace Label

/-- A label is read from a record of id and name. -/
def ofJson? (j : Json) : Option Label := do
  let [id, name] ← j.fields ["id", "name"] | none
  return ⟨← ElementId.ofJson? id, ← name.text?⟩

/-- The record of a label. -/
def toJson (n : Label) : Json := .ofFields [("id", n.id.toJson), ("name", .ofText n.name)]

end Label

namespace Junction

/-- A junction is read from a record of its fields. -/
def ofJson? (j : Json) : Option Junction := do
  let [id, name, branches, performs] ← j.fields ["id", "name", "branches", "performs_join"] | none
  return ⟨← ElementId.ofJson? id, ← name.text?, ← branches.list? Json.text?, ← performs.bool?⟩

/-- The record of a junction. -/
def toJson (n : Junction) : Json :=
  .ofFields [("id", n.id.toJson), ("name", .ofText n.name),
    ("branches", .array (n.branches.map .ofText)), ("performs_join", .bool n.performsJoin)]

end Junction

namespace Element

/-- An element is read from a choice of its kind; the sentinels carry nothing. -/
def ofJson? (j : Json) : Option Element := do
  match ← j.choice? with
  | ("Head", none) | ("Head", some .null) => return head
  | ("Tail", none) | ("Tail", some .null) => return tail
  | ("Transform", some v) => return transform (← Label.ofJson? v)
  | ("Boundary", some v) => return boundary (← Label.ofJson? v)
  | ("Grouping", some v) => return grouping (← Label.ofJson? v)
  | ("Join", some v) => return join (← Junction.ofJson? v)
  | _ => none

/-- The choice that an element is. -/
def toJson : Element → Json
  | head => .ofText "Head"
  | tail => .ofText "Tail"
  | transform n => .ofFields [("Transform", n.toJson)]
  | boundary n => .ofFields [("Boundary", n.toJson)]
  | grouping n => .ofFields [("Grouping", n.toJson)]
  | join n => .ofFields [("Join", n.toJson)]

end Element

namespace Edge

/-- An edge is read from a record of its fields; prior names come in any order and may repeat. -/
def ofJson? (j : Json) : Option Edge := do
  let [name, ordinal, nonBlocking, weight, priorNames] ←
    j.fields ["name", "ordinal", "non_blocking", "weight", "prior_names"] | none
  return {
    name := ← name.text?
    ordinal := ← (← ordinal.number?).word?
    nonBlocking := ← nonBlocking.bool?
    weight := ← (← weight.number?).weight?
    priorNames := .ofList (← priorNames.list? Json.text?) }

end Edge

namespace Tag

/-- A tag is read from a choice of its name. -/
def ofJson? (j : Json) : Option Tag := do ofText? (← j.word?)

/-- The name of a tag. -/
def toJson (t : Tag) : Json := .ofText t.text

end Tag

namespace Tags

/-- The decoration with the given entries, a later one for a tag in place of an earlier one. -/
def ofEntries (entries : List (Tag × SortedSet ElementId)) : Tags :=
  entries.foldl (fun ts e => ts.setEntry e.1 (some e.2)) ∅

/-- The entries of a decoration, in the order of tags. -/
def entries (ts : Tags) : List (Tag × SortedSet ElementId) :=
  Tag.all.filterMap fun t => (ts.get? t).map (t, ·)

/-- A decoration is read from a record of one object, which names tags. -/
def ofJson? (j : Json) : Option Tags := do
  let [keys] ← j.fields ["keys"] | none
  let entries ← keys.table? Tag.ofText? fun v => do return .ofList (← v.list? ElementId.ofJson?)
  return ofEntries entries

/-- The record of a decoration. -/
def toJson (ts : Tags) : Json :=
  .ofFields [("keys", .ofFields (ts.entries.map fun e =>
    (e.1.text, .array (e.2.toList.map ElementId.toJson))))]

end Tags

namespace ClosureAlgorithm

/-- An algorithm is read from a choice of its word. -/
def ofJson? (j : Json) : Option ClosureAlgorithm := do ofText? (← j.word?)

/-- The word of an algorithm. -/
def toJson (a : ClosureAlgorithm) : Json := .ofText a.text

end ClosureAlgorithm

namespace ContractionMode

/-- A mode is read from a choice of its word. -/
def ofJson? (j : Json) : Option ContractionMode := do ofText? (← j.word?)

/-- The word of a mode. -/
def toJson (m : ContractionMode) : Json := .ofText m.text

end ContractionMode

namespace Settings

/-- Settings are read from a record whose fields may be missing: the usual value stands in. -/
def ofJson? (j : Json) : Option Settings := do
  let [algorithm, mode] ← j.partialFields ["closure_algorithm", "contraction_mode"] | none
  let read {α : Type} (decode : Json → Option α) (other : α) : Option Json → Option α
    | some v => decode v
    | none => some other
  return ⟨← read ClosureAlgorithm.ofJson? default.closureAlgorithm algorithm,
    ← read ContractionMode.ofJson? default.contractionMode mode⟩

/-- The record of settings. -/
def toJson (s : Settings) : Json :=
  .ofFields [("closure_algorithm", s.closureAlgorithm.toJson),
    ("contraction_mode", s.contractionMode.toJson)]

/-- Reads settings from the text of a document. -/
def ofDocument (text : String) : Except Failure Settings :=
  match (Json.parse text).bind ofJson? with
  | some s => .ok s
  | none => .error .malformedDocument

end Settings

namespace Tags

/-- Reads a decoration from the text of a document. -/
def ofDocument (text : String) : Except Failure Tags :=
  match (Json.parse text).bind ofJson? with
  | some ts => .ok ts
  | none => .error .malformedDocument

end Tags

end Dataflow
