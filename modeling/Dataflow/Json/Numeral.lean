import Dataflow.Edge.Weight

/-!
# Numerals

Numbers as a document writes them, digit by digit, and what they stand for: a natural number, or a
weight. A weight is read from as many leading digits as fit into 64 bits, and scaled by a power of
ten in one rounded step.

Model of how a library reads the numbers of a document.
-/

namespace Dataflow.Json

/-- A written number. -/
structure Numeral where
  /-- A minus sign stands before it. -/
  negative : Bool
  /-- The digits before the point. -/
  whole : List Nat
  /-- The digits after the point; none if there is no point. -/
  fraction : List Nat
  /-- The sign (negative or not) and the digits of the exponent. -/
  exponent : Option (Bool × List Nat)
deriving DecidableEq, Repr

namespace Numeral

/-- The number that decimal digits write. -/
def ofDigits (ds : List Nat) : Nat := ds.foldl (fun n d => 10 * n + d) 0

/-- The decimal digits of a number. -/
def digits (n : Nat) : List Nat := (Nat.toDigits 10 n).map fun c => c.toNat - '0'.toNat

/-- A natural number as it is written. -/
def ofNat (n : Nat) : Numeral := ⟨false, digits n, [], none⟩

/-- The value of a numeral without sign, point and exponent, if it fits into 64 bits. -/
def word? (n : Numeral) : Option UInt64 :=
  if n.negative || !n.fraction.isEmpty || n.exponent.isSome then none
  else
    let value := ofDigits n.whole
    if value < UInt64.size then some value.toUInt64 else none

/-- Reads digits on to `n` as long as the number fits into 64 bits, and gives the digits left. -/
def gather (n : Nat) : List Nat → Nat × List Nat
  | [] => (n, [])
  | d :: ds => if 10 * n + d < UInt64.size then gather (10 * n + d) ds else (n, d :: ds)

/-- The leading digits as a number, and the power of ten they are to be scaled by. Digits before
the point that do not fit count as places; those after it are dropped from the first on that does
not fit. -/
def significand (n : Numeral) : Nat × Int :=
  let (w, left) := gather 0 n.whole
  let (m, dropped) := gather w n.fraction
  (m, (left.length : Int) - ((n.fraction.length : Int) - dropped.length))

/-- The written exponent. -/
def power (n : Numeral) : Int :=
  match n.exponent with
  | none => 0
  | some (negative, ds) => if negative then -(ofDigits ds : Int) else ofDigits ds

/-- The nearest binary64 number to a power of ten up to the 308th. -/
def tenTo (k : Nat) : Float := Float.ofScientific 1 false k

/-- Divides by 10³⁰⁸ the given number of times, or until nothing is left. -/
def divideDown : Nat → Float → Float
  | 0, f => f
  | k + 1, f => if f == 0 then f else divideDown k (f / tenTo 308)

/-- Scales by a power of ten. There is no answer where the number would be too large. -/
def scale (f : Float) (power : Int) : Option Float :=
  match power with
  | .ofNat k =>
    if k ≤ 308 then
      let g := f * tenTo k
      if g.isInf then none else some g
    else if f == 0 then some f else none
  | .negSucc k =>
    let k := k + 1
    let times := if k ≤ 308 then 0 else (k - 309) / 308 + 1
    let g := divideDown times f
    some (if g == 0 then g else g / tenTo (k - 308 * times))

/-- The weight a numeral stands for; there is none beyond the finite ones. -/
def weight? (n : Numeral) : Option Weight := do
  let (m, places) := n.significand
  let size ← scale (Float.ofNat m) (places + n.power)
  return ⟨(if n.negative then -size else size).toBits⟩

end Numeral

end Dataflow.Json
