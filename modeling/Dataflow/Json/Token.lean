import Dataflow.Json.Numeral

/-!
# Tokens of documents

The marks, words, numbers and texts that a document consists of. Only the four blanks of the format
stand between tokens. A text may name half of a surrogate pair by an escape; it is a token all the
same, but one without characters.

Model of how a library reads a document, character by character.

* **`scanText_length`, `scanNumeral_length`**: what is left after a token is shorter.
-/

namespace Dataflow.Json

/-- A token. -/
inductive Token where
  | openArray
  | closeArray
  | openObject
  | closeObject
  | comma
  | colon
  | null
  | bool (value : Bool)
  | number (numeral : Numeral)
  /-- A text, or none if its escapes name no characters. -/
  | text (value : Option String)
deriving DecidableEq, Repr

/-- The blanks between tokens. -/
def isSpace (c : Char) : Bool := c = ' ' || c = '\t' || c = '\n' || c = '\r'

/-! ### Texts -/

/-- The value of a hexadecimal digit. -/
def hexDigit? (c : Char) : Option Nat :=
  if '0' ≤ c && c ≤ '9' then some (c.toNat - '0'.toNat)
  else if 'a' ≤ c && c ≤ 'f' then some (c.toNat - 'a'.toNat + 10)
  else if 'A' ≤ c && c ≤ 'F' then some (c.toNat - 'A'.toNat + 10)
  else none

/-- The number of four hexadecimal digits. -/
def hexWord? (a b c d : Char) : Option Nat := do
  return ((← hexDigit? a) * 16 + (← hexDigit? b)) * 256 + ((← hexDigit? c) * 16 + (← hexDigit? d))

/-- The code point that a letter stands for after a backslash. -/
def escape? (c : Char) : Option Nat :=
  if c = '"' || c = '\\' || c = '/' then some c.toNat
  else if c = 'b' then some 8
  else if c = 'f' then some 12
  else if c = 'n' then some 10
  else if c = 'r' then some 13
  else if c = 't' then some 9
  else none

/-- The rest of a text after its opening quote, as code points and halves of surrogate pairs, and
what follows the closing quote. -/
def scanText : List Char → Option (List Nat × List Char)
  | [] => none
  | '\\' :: 'u' :: a :: b :: c :: d :: rest =>
    match hexWord? a b c d, scanText rest with
    | some u, some (us, rest) => some (u :: us, rest)
    | _, _ => none
  | '\\' :: c :: rest =>
    match escape? c, scanText rest with
    | some u, some (us, rest) => some (u :: us, rest)
    | _, _ => none
  | c :: rest =>
    if c = '"' then some ([], rest)
    else if c < ' ' || c = '\\' then none
    else
      match scanText rest with
      | some (us, rest) => some (c.toNat :: us, rest)
      | none => none

theorem scanText_length (s : List Char) : ∀ {us rest}, scanText s = some (us, rest) →
    rest.length < s.length := by
  fun_induction scanText s with
  | case1 => intro us rest h; cases h
  | case2 a b c d rest u us rest' hu hs ih =>
    intro us' rest'' h
    cases h
    have := ih hu
    simp only [List.length_cons]
    omega
  | case3 => intro us rest h; cases h
  | case4 c rest hc u us rest' hu hs ih =>
    intro us' rest'' h
    cases h
    have := ih hu
    simp only [List.length_cons]
    omega
  | case5 => intro us rest h; cases h
  | case6 => intro us rest h; cases h; exact Nat.lt_succ_self _
  | case7 => intro us rest h; cases h
  | case8 c rest _ _ _ _ us rest' hs ih =>
    intro us' rest'' h
    cases h
    have := ih hs
    simp only [List.length_cons]
    omega
  | case9 => intro us rest h; cases h

/-- The unit is the first half of a surrogate pair. -/
def isLeading (u : Nat) : Bool := 0xd800 ≤ u && u < 0xdc00

/-- The unit is the second half of a surrogate pair. -/
def isTrailing (u : Nat) : Bool := 0xdc00 ≤ u && u < 0xe000

/-- The characters of code points and surrogate pairs; a half without the other is none. -/
def characters : List Nat → Option (List Char)
  | [] => some []
  | u :: us =>
    if isLeading u then
      match us with
      | [] => none
      | v :: vs =>
        if isTrailing v then
          (characters vs).map (Char.ofNat (0x10000 + (u - 0xd800) * 0x400 + (v - 0xdc00)) :: ·)
        else none
    else if isTrailing u then none
    else (characters us).map (Char.ofNat u :: ·)

/-! ### Numbers -/

/-- The digits a text starts with, and what follows. -/
def scanDigits : List Char → List Nat × List Char
  | [] => ([], [])
  | c :: rest =>
    if c.isDigit then
      let (ds, rest) := scanDigits rest
      ((c.toNat - '0'.toNat) :: ds, rest)
    else ([], c :: rest)

theorem scanDigits_length : ∀ s, (scanDigits s).2.length + (scanDigits s).1.length = s.length
  | [] => rfl
  | c :: rest => by
    unfold scanDigits
    split
    · have := scanDigits_length rest
      simp only [List.length_cons]
      omega
    · rfl

/-- Digits after a point, if there is one; a point without digits is a fault. -/
def scanFraction : List Char → Option (List Nat × List Char)
  | '.' :: rest =>
    let (ds, rest) := scanDigits rest
    if ds.isEmpty then none else some (ds, rest)
  | s => some ([], s)

/-- A sign, and whether it is a minus. -/
def scanSign : List Char → Bool × List Char
  | '-' :: rest => (true, rest)
  | '+' :: rest => (false, rest)
  | s => (false, s)

/-- An exponent, if there is one; one without digits is a fault. -/
def scanExponent : List Char → Option (Option (Bool × List Nat) × List Char)
  | [] => some (none, [])
  | c :: rest =>
    if c = 'e' || c = 'E' then
      let (negative, rest) := scanSign rest
      let (ds, rest) := scanDigits rest
      if ds.isEmpty then none else some (some (negative, ds), rest)
    else some (none, c :: rest)

/-- The minus sign before a number. -/
def scanMinus : List Char → Bool × List Char
  | '-' :: rest => (true, rest)
  | s => (false, s)

/-- A number, and what follows. Its whole part starts with 0 only if it is 0. -/
def scanNumeral (s : List Char) : Option (Numeral × List Char) :=
  let (negative, s) := scanMinus s
  let (whole, s) := scanDigits s
  if whole.isEmpty || (whole.head? = some 0 && 1 < whole.length) then none
  else
    match scanFraction s with
    | none => none
    | some (fraction, s) =>
      match scanExponent s with
      | none => none
      | some (exponent, s) => some (⟨negative, whole, fraction, exponent⟩, s)

theorem scanMinus_length (s : List Char) : (scanMinus s).2.length ≤ s.length := by
  unfold scanMinus
  split
  · exact Nat.le_succ _
  · exact Nat.le_refl _

theorem scanSign_length (s : List Char) : (scanSign s).2.length ≤ s.length := by
  unfold scanSign
  split
  · exact Nat.le_succ _
  · exact Nat.le_succ _
  · exact Nat.le_refl _

theorem scanFraction_length {s : List Char} {ds rest} (h : scanFraction s = some (ds, rest)) :
    rest.length ≤ s.length := by
  unfold scanFraction at h
  split at h
  · rename_i r
    have := scanDigits_length r
    simp only at h
    split at h
    · cases h
    · cases h
      simp only [List.length_cons]
      omega
  · cases h
    exact Nat.le_refl _

theorem scanExponent_length {s : List Char} {e rest} (h : scanExponent s = some (e, rest)) :
    rest.length ≤ s.length := by
  unfold scanExponent at h
  split at h
  · cases h
    exact Nat.le_refl _
  · rename_i c r
    split at h
    · have h1 := scanSign_length r
      have h2 := scanDigits_length (scanSign r).2
      simp only at h
      split at h
      · cases h
      · cases h
        simp only [List.length_cons]
        omega
    · cases h
      exact Nat.le_refl _

theorem scanNumeral_length {s : List Char} {n rest} (h : scanNumeral s = some (n, rest)) :
    rest.length < s.length := by
  unfold scanNumeral at h
  have h1 := scanMinus_length s
  have h2 := scanDigits_length (scanMinus s).2
  simp only at h
  split at h
  · cases h
  · rename_i hw
    have hpos : 0 < (scanDigits (scanMinus s).2).1.length := by
      cases hd : (scanDigits (scanMinus s).2).1 with
      | nil => simp [hd] at hw
      | cons => exact Nat.succ_pos _
    split at h
    · cases h
    · rename_i fraction r hf
      have h3 := scanFraction_length hf
      split at h
      · cases h
      · rename_i e r' he
        have h4 := scanExponent_length he
        cases h
        omega

/-! ### Tokens -/

/-- The token of a mark. -/
def mark? (c : Char) : Option Token :=
  if c = '[' then some .openArray
  else if c = ']' then some .closeArray
  else if c = '\x7b' then some .openObject
  else if c = '\x7d' then some .closeObject
  else if c = ',' then some .comma
  else if c = ':' then some .colon
  else none

/-- The tokens of a document, unless something in it is no token. -/
def tokens (s : List Char) : Option (List Token) :=
  match s with
  | [] => some []
  | 'n' :: 'u' :: 'l' :: 'l' :: rest => (tokens rest).map (.null :: ·)
  | 't' :: 'r' :: 'u' :: 'e' :: rest => (tokens rest).map (.bool true :: ·)
  | 'f' :: 'a' :: 'l' :: 's' :: 'e' :: rest => (tokens rest).map (.bool false :: ·)
  | c :: rest =>
    if isSpace c then tokens rest
    else if c = '"' then
      match _h : scanText rest with
      | none => none
      | some (us, rest') => (tokens rest').map (.text ((characters us).map String.ofList) :: ·)
    else
      match mark? c with
      | some t => (tokens rest).map (t :: ·)
      | none =>
        match _h : scanNumeral (c :: rest) with
        | none => none
        | some (n, rest') => (tokens rest').map (.number n :: ·)
termination_by s.length
decreasing_by
  · simp only [List.length_cons]
    omega
  · simp only [List.length_cons]
    omega
  · simp only [List.length_cons]
    omega
  · exact Nat.lt_succ_self _
  · exact Nat.lt_succ_of_lt (scanText_length rest _h)
  · exact Nat.lt_succ_self _
  · exact scanNumeral_length _h

end Dataflow.Json
