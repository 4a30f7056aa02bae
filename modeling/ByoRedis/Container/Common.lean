import Mathlib

/-!
# Container — addresses, bytes and the string hash

What every container uses: `container/common.h`, and the representation of
addresses and byte strings.
-/

namespace ByoRedis

/-- Address of an object; distinct allocations have distinct addresses. -/
abbrev Ptr := Nat

/-- A `std::string`, or a buffer of `uint8_t`. -/
abbrev Bytes := List UInt8

/-- `str_hash`: FNV in a `uint32_t`, returned as a `uint64_t`. -/
def strHash (data : Bytes) : Nat :=
  data.foldl (fun h b => ((h + b.toNat) % 2 ^ 32 * 0x01000193) % 2 ^ 32) 0x811C9DC5

/-- An unsigned number converted to `int32_t`. -/
def toInt32 (n : Nat) : Int := Int.bmod n (2 ^ 32)

theorem toInt32_of_lt {n : Nat} (h : n < 2 ^ 31) : toInt32 n = n := by
  have hmod : (n : Int) % ((2 ^ 32 : Nat) : Int) = n := by omega
  show Int.bmod (n : Int) (2 ^ 32) = n
  rw [Int.bmod_def, hmod, if_pos (by omega)]

theorem toInt32_of_ge {n : Nat} (h : 2 ^ 31 ≤ n) (h' : n < 2 ^ 32) :
    toInt32 n = (n : Int) - 2 ^ 32 := by
  have hmod : (n : Int) % ((2 ^ 32 : Nat) : Int) = n := by omega
  show Int.bmod (n : Int) (2 ^ 32) = (n : Int) - 2 ^ 32
  rw [Int.bmod_def, hmod, if_neg (by omega)]
  rfl

end ByoRedis
