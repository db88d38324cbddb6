import Dataflow.Failure
import Dataflow.Text.Blank

/-!
# Settings

How closures are computed and how strict contraction is. A setting is named by a word; words are
read without the blanks around them and with ASCII capitals made small. Variables may override the
settings.

Model of `ClosureAlgorithm`, `ContractionMode` and `PlannerConfig` with `with_overrides_from`
(`config`). The variables of the environment are a function from names.
-/

namespace Dataflow

/-- How the closure of a contracted network is computed. -/
inductive ClosureAlgorithm where
  /-- From the biconnected components that hold contracted edges. -/
  | byComponents
  /-- From the walks inside the region, with leaking edges pruned. -/
  | byWalks
  /-- From every path of each contracted edge. -/
  | byPaths
deriving DecidableEq, Repr

namespace ClosureAlgorithm

/-- Every algorithm. -/
def all : List ClosureAlgorithm := [byComponents, byWalks, byPaths]

/-- The word for an algorithm. -/
def text : ClosureAlgorithm → String
  | byComponents => "biconnected"
  | byWalks => "all_pairs"
  | byPaths => "k_shortest"

/-- The algorithm of exactly that word. -/
def ofText? (s : String) : Option ClosureAlgorithm := all.find? (·.text = s)

/-- Reads a word for an algorithm; the one by walks has a second word. -/
def parse (s : String) : Except Failure ClosureAlgorithm :=
  let word := Text.lowerAscii (Text.trim s)
  if word = "floyd_warshall" then .ok byWalks
  else
    match ofText? word with
    | some a => .ok a
    | none => .error (.unknownSetting s!"unknown closure algorithm '{word}'")

end ClosureAlgorithm

/-- What contraction makes of an element with several inbound edges. -/
inductive ContractionMode where
  /-- Each inbound edge is led on to each target. -/
  | anyInbound
  /-- Only an element with exactly one inbound edge is contracted. -/
  | singleInbound
deriving DecidableEq, Repr

namespace ContractionMode

/-- Every mode. -/
def all : List ContractionMode := [anyInbound, singleInbound]

/-- The word for a mode. -/
def text : ContractionMode → String
  | anyInbound => "allow_multiple_inbound"
  | singleInbound => "require_single_inbound"

/-- The mode of exactly that word. -/
def ofText? (s : String) : Option ContractionMode := all.find? (·.text = s)

/-- Reads a word for a mode. -/
def parse (s : String) : Except Failure ContractionMode :=
  let word := Text.lowerAscii (Text.trim s)
  match ofText? word with
  | some m => .ok m
  | none => .error (.unknownSetting s!"unknown contraction mode '{word}'")

end ContractionMode

/-- The settings of a planner. -/
structure Settings where
  closureAlgorithm : ClosureAlgorithm
  contractionMode : ContractionMode
deriving DecidableEq, Repr

namespace Settings

/-- The settings where nothing is said. -/
def default : Settings := ⟨.byWalks, .anyInbound⟩

instance : Inhabited Settings := ⟨default⟩

/-- The variable that overrides the algorithm. -/
def closureAlgorithmVariable : String := "FLOWGRAPH_CLOSURE_ALGORITHM"

/-- The variable that overrides the mode. -/
def contractionModeVariable : String := "FLOWGRAPH_CONTRACTION_MODE"

/-- The value of a variable that reads `parse` gives, or `current` where the variable is unset or
blank. -/
def override {α : Type} (parse : String → Except Failure α) (value : Option String) (current : α) :
    Except Failure α :=
  match value.filter fun v => Text.trim v ≠ "" with
  | some v => parse v
  | none => .ok current

/-- The settings with the variables that are set in place of theirs. -/
def withOverrides (s : Settings) (lookup : String → Option String) : Except Failure Settings := do
  let algorithm ← override ClosureAlgorithm.parse (lookup closureAlgorithmVariable)
    s.closureAlgorithm
  let mode ← override ContractionMode.parse (lookup contractionModeVariable) s.contractionMode
  return ⟨algorithm, mode⟩

end Settings

end Dataflow
