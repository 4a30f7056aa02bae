import Mathlib

/-!
# Lib — IEEE-754 binary64 as bits

A `double` is its 64 bits; nothing here does arithmetic. The comparisons of C
(`==`, `<`) are read off the sign and the magnitude bits: away from NaN the
bits below the sign, as a number and with the sign of the double, order the
doubles as their values do, and the two zeros come out equal.
-/

/-- The bits of a `double`. -/
structure Double where
  bits : BitVec 64
deriving DecidableEq

namespace Double

/-- The bits below the sign: exponent, then fraction. -/
def magnitude (d : Double) : Nat := d.bits.toNat % 2 ^ 63

/-- The magnitude bits of an infinity: exponent all ones, fraction zero. -/
def infMagnitude : Nat := 2047 * 2 ^ 52

/-- The double with a sign and with bits below it. -/
def ofMagnitude (neg : Bool) (mag : Nat) : Double :=
  ⟨BitVec.ofNat 64 ((if neg then 2 ^ 63 else 0) + mag)⟩

/-- `isnan`. -/
def isnan (d : Double) : Bool := decide (infMagnitude < d.magnitude)

/-- The position of a double among the numbers; `0.0` and `-0.0` share one. -/
def key (d : Double) : Int := if d.bits.msb then -(d.magnitude : Int) else d.magnitude

/-- The `==` of C. -/
def eq (a b : Double) : Bool := !a.isnan && !b.isnan && decide (a.key = b.key)

/-- The `<` of C. -/
def lt (a b : Double) : Bool := !a.isnan && !b.isnan && decide (a.key < b.key)

variable {a b c : Double} {neg : Bool} {mag : Nat}

theorem toNat_ofMagnitude (h : mag < 2 ^ 63) :
    (ofMagnitude neg mag).bits.toNat = (if neg then 2 ^ 63 else 0) + mag := by
  rw [ofMagnitude, BitVec.toNat_ofNat]
  split <;> omega

@[simp] theorem magnitude_ofMagnitude (h : mag < 2 ^ 63) : (ofMagnitude neg mag).magnitude = mag := by
  rw [magnitude, toNat_ofMagnitude h]
  split <;> omega

@[simp] theorem msb_ofMagnitude (h : mag < 2 ^ 63) : (ofMagnitude neg mag).bits.msb = neg := by
  rw [BitVec.msb_eq_decide, toNat_ofMagnitude h]
  cases neg with
  | false => exact decide_eq_false (by simpa using h)
  | true => exact decide_eq_true (by simp)

/-- A double is its sign and the bits below. -/
theorem ext_magnitude (hs : a.bits.msb = b.bits.msb) (hm : a.magnitude = b.magnitude) : a = b := by
  have heq : a.bits.toNat = b.bits.toNat := by
    rw [BitVec.msb_eq_decide, BitVec.msb_eq_decide, decide_eq_decide] at hs
    rw [magnitude, magnitude] at hm
    have := a.bits.isLt
    have := b.bits.isLt
    omega
  cases a
  cases b
  exact congrArg Double.mk (BitVec.eq_of_toNat_eq heq)

theorem eq_iff (ha : a.isnan = false) (hb : b.isnan = false) : a.eq b = true ↔ a.key = b.key := by
  simp [eq, ha, hb]

theorem lt_iff (ha : a.isnan = false) (hb : b.isnan = false) : a.lt b = true ↔ a.key < b.key := by
  simp [lt, ha, hb]

example : eq ⟨0x8000000000000000⟩ ⟨0⟩ = true := by decide

example : lt ⟨0xbff0000000000000⟩ ⟨0x3ff0000000000000⟩ = true := by decide

end Double
