/-!
# Edge weights

A weight is a binary64 number given by its sixty-four bits. A finite weight is a whole number of
units of 2⁻¹⁰⁷⁴ (`Weight.units?`), so comparing and truncating weights is integer arithmetic.

Model of the comparison with `WEIGHT_TOLERANCE` in `equals_ignoring_annotations`, and of the
truncation in `folded_weight` (`equivalence`).

* **`Weight.near_iff`**: near weights are finite and less than `Weight.resolution` apart.
  **`Weight.near_of_le`, `Weight.lt_of_near`**: that is a bound of 10⁻⁶ on the difference, up to its
  rounding.
* **`Weight.near_comm`, `Weight.near_self_iff`**: being near is symmetric, and exactly the finite
  weights are near themselves.
-/

namespace Dataflow

/-- A weight: the bits of a binary64 number. -/
structure Weight where
  bits : UInt64
deriving DecidableEq, Repr

namespace Weight

/-- The weight of an edge that is given none: 1. -/
def default : Weight := ⟨0x3ff0000000000000⟩

instance : Inhabited Weight := ⟨default⟩

/-- The sign bit is set. -/
def isNegative (w : Weight) : Bool := w.bits.toNat >>> 63 = 1

/-- The biased exponent, of eleven bits. -/
def exponent (w : Weight) : Nat := w.bits.toNat >>> 52 % 2048

/-- The fraction, of fifty-two bits. -/
def fraction (w : Weight) : Nat := w.bits.toNat % 0x10000000000000

/-- The largest exponent stands for what is no finite number. -/
def isFinite (w : Weight) : Bool := w.exponent ≠ 2047

/-- Not a number: the largest exponent with a fraction. -/
def isNaN (w : Weight) : Bool := !w.isFinite && w.fraction ≠ 0

/-- The size of a finite weight in units of 2⁻¹⁰⁷⁴. -/
def magnitude (w : Weight) : Nat :=
  if w.exponent = 0 then w.fraction else (0x10000000000000 + w.fraction) <<< (w.exponent - 1)

/-- A finite weight in units of 2⁻¹⁰⁷⁴. -/
def units? (w : Weight) : Option Int :=
  if w.isFinite then some (if w.isNegative then -(w.magnitude : Int) else w.magnitude) else none

/-- Twice the midpoint between the numbers m · 2ᵉ and (m + 1) · 2ᵉ. -/
def midpoint (m e : Nat) : Nat := (2 * m + 1) <<< e

/-- The least difference, in units of 2⁻¹⁰⁷⁴, that tells weights apart.

The tolerance is the binary64 number nearest to 10⁻⁶, which is m · 2⁻⁷² for the odd
m = 0x10c6f7a0b5ed8d. A difference rounds to the tolerance or below exactly when it lies below the
midpoint to the next number, (2m + 1) · 2⁻⁷³; the midpoint itself goes to the even neighbour
above. -/
def resolution : Nat := midpoint 0x10c6f7a0b5ed8d 1001

/-- Both weights are finite, and their rounded difference is at most the tolerance. -/
def near (a b : Weight) : Bool :=
  match a.units?, b.units? with
  | some x, some y => (x - y).natAbs < resolution
  | _, _ => false

/-- The weight without its fractional digits. What lies outside the 64-bit integers becomes the
end of their range on its side, and what is not a number becomes 0. -/
def truncated (w : Weight) : Int64 :=
  match w.units? with
  | some u =>
    let n := u.tdiv ((1 <<< 1074 : Nat) : Int)
    if n < Int64.minValue.toInt then Int64.minValue
    else if Int64.maxValue.toInt < n then Int64.maxValue
    else Int64.ofInt n
  | none => if w.isNaN then 0 else if w.isNegative then Int64.minValue else Int64.maxValue

/-- The nearest weight to an integer. -/
def ofInt (n : Int) : Weight := ⟨(Float.ofInt n).toBits⟩

/-! ### Nearness -/

theorem isFinite_iff {w : Weight} : w.isFinite = true ↔ ∃ x, w.units? = some x := by
  unfold units?
  split <;> simp_all

/-- **Near weights are finite, and no further apart than the tolerance allows.** -/
theorem near_iff {a b : Weight} : near a b = true ↔
    ∃ x y, a.units? = some x ∧ b.units? = some y ∧ (x - y).natAbs < resolution := by
  unfold near
  cases a.units? <;> cases b.units? <;> simp

/-- What tells weights apart exceeds 10⁻⁶, but by less than half of a step: a step is 2⁻⁷², that from
the tolerance to the next number. -/
theorem resolution_bounds : 1 <<< 1074 < 1000000 * resolution ∧
    1000000 * resolution < (1 <<< 1074) + 1000000 * (1 <<< 1001) := by
  decide +kernel

/-- **Weights that differ by at most 10⁻⁶ are near.** -/
theorem near_of_le {a b : Weight} {x y : Int} (ha : a.units? = some x) (hb : b.units? = some y)
    (h : 1000000 * (x - y).natAbs ≤ 1 <<< 1074) : near a b = true :=
  near_iff.mpr ⟨x, y, ha, hb,
    Nat.lt_of_mul_lt_mul_left (Nat.lt_of_le_of_lt h resolution_bounds.1)⟩

/-- **Near weights differ by less than 10⁻⁶ and half of a step.** -/
theorem lt_of_near {a b : Weight} {x y : Int} (ha : a.units? = some x) (hb : b.units? = some y)
    (h : near a b = true) :
    1000000 * (x - y).natAbs < (1 <<< 1074) + 1000000 * (1 <<< 1001) := by
  obtain ⟨x', y', ha', hb', hlt⟩ := near_iff.mp h
  cases ha.symm.trans ha'
  cases hb.symm.trans hb'
  exact Nat.lt_trans (Nat.mul_lt_mul_of_pos_left hlt (by decide)) resolution_bounds.2

theorem near_comm (a b : Weight) : near a b = near b a := by
  have hswap : ∀ {a b : Weight}, near a b = true → near b a = true := by
    intro a b h
    obtain ⟨x, y, hx, hy, hlt⟩ := near_iff.mp h
    rw [← Int.natAbs_neg, Int.neg_sub] at hlt
    exact near_iff.mpr ⟨y, x, hy, hx, hlt⟩
  exact Bool.eq_iff_iff.mpr ⟨hswap, hswap⟩

theorem midpoint_pos (m e : Nat) : 0 < midpoint m e := by
  rw [midpoint, Nat.shiftLeft_eq]
  exact Nat.mul_pos (Nat.succ_pos _) (Nat.two_pow_pos _)

theorem near_self_iff {w : Weight} : near w w = true ↔ w.isFinite = true := by
  rw [near_iff, isFinite_iff]
  constructor
  · rintro ⟨x, _, hx, -⟩
    exact ⟨x, hx⟩
  · rintro ⟨x, hx⟩
    refine ⟨x, x, hx, hx, ?_⟩
    rw [Int.sub_self, Int.natAbs_zero]
    exact midpoint_pos _ _

end Weight

end Dataflow
