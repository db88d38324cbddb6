import Dataflow.Json.Token

/-!
# Documents

Values in the JSON format, kept as they are written: numbers by their digits, and the members of an
object in their order with every repetition.

Model of the documents that `from_json` (`config`) and the readers of the other records take in,
which a library parses.
-/

namespace Dataflow

/-- A value of a document. A text or name whose escapes name no characters is none. -/
inductive Json where
  | null
  | bool (value : Bool)
  | number (numeral : Json.Numeral)
  | text (value : Option String)
  | array (items : List Json)
  | object (members : List (Option String × Json))

namespace Json

/-- Something read from the front of a list of tokens, and the shorter list after it. -/
abbrev Front (α : Type) (ts : List Token) :=
  Option (α × { rest : List Token // rest.length < ts.length })

mutual

/-- The value that tokens start with. -/
def value (ts : List Token) : Front Json ts :=
  match ts with
  | .null :: rest => some (.null, ⟨rest, Nat.lt_succ_self _⟩)
  | .bool b :: rest => some (.bool b, ⟨rest, Nat.lt_succ_self _⟩)
  | .number n :: rest => some (.number n, ⟨rest, Nat.lt_succ_self _⟩)
  | .text s :: rest => some (.text s, ⟨rest, Nat.lt_succ_self _⟩)
  | .openArray :: .closeArray :: rest =>
    some (.array [], ⟨rest, Nat.lt_succ_of_lt (Nat.lt_succ_self _)⟩)
  | .openArray :: rest =>
    match items rest with
    | some (vs, ⟨rest', h⟩) => some (.array vs, ⟨rest', Nat.lt_succ_of_lt h⟩)
    | none => none
  | .openObject :: .closeObject :: rest =>
    some (.object [], ⟨rest, Nat.lt_succ_of_lt (Nat.lt_succ_self _)⟩)
  | .openObject :: rest =>
    match members rest with
    | some (vs, ⟨rest', h⟩) => some (.object vs, ⟨rest', Nat.lt_succ_of_lt h⟩)
    | none => none
  | _ => none
termination_by 2 * ts.length

/-- One or more values with commas between them, and the end of their array. -/
def items (ts : List Token) : Front (List Json) ts :=
  match value ts with
  | some (v, ⟨.closeArray :: rest, h⟩) => some ([v], ⟨rest, Nat.lt_of_succ_lt h⟩)
  | some (v, ⟨.comma :: rest, h⟩) =>
    match items rest with
    | some (vs, ⟨rest', h'⟩) => some (v :: vs, ⟨rest', Nat.lt_trans h' (Nat.lt_of_succ_lt h)⟩)
    | none => none
  | _ => none
termination_by 2 * ts.length + 1
decreasing_by
  · omega
  · simp only [List.length_cons] at h
    omega

/-- One or more named values with commas between them, and the end of their object. -/
def members (ts : List Token) : Front (List (Option String × Json)) ts :=
  match ts with
  | .text name :: .colon :: ts' =>
    match value ts' with
    | some (v, ⟨.closeObject :: rest, h⟩) =>
      some ([(name, v)], ⟨rest, by simp only [List.length_cons] at h ⊢; omega⟩)
    | some (v, ⟨.comma :: rest, h⟩) =>
      match members rest with
      | some (vs, ⟨rest', h'⟩) =>
        some ((name, v) :: vs, ⟨rest', by simp only [List.length_cons] at h ⊢; omega⟩)
      | none => none
    | _ => none
  | _ => none
termination_by 2 * ts.length + 1
decreasing_by
  · simp only [List.length_cons]
    omega
  · simp only [List.length_cons] at h ⊢
    omega

end

/-- The value of a whole document. -/
def parse (s : String) : Option Json := do
  let ts ← tokens s.toList
  match value ts with
  | some (v, ⟨[], _⟩) => some v
  | _ => none

end Json

end Dataflow
