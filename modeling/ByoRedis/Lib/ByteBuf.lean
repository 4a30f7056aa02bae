import Mathlib

/-!
# Lib — byte buffers and little-endian numbers

Fixed-width little-endian numbers and their reader, and the two bounded
accesses of a buffer: reading `n` bytes at a position, and overwriting the
bytes at a position. Both answer `none` outside of the buffer.
-/

namespace ByteBuf

/-! ## Little endian -/

/-- The low `k` bytes of `n`. -/
def le : Nat → Nat → List UInt8
  | 0, _ => []
  | k + 1, n => UInt8.ofNat (n % 256) :: le k (n / 256)

/-- The number that bytes stand for. -/
def ofLe : List UInt8 → Nat
  | [] => 0
  | b :: bs => b.toNat + 256 * ofLe bs

@[simp] theorem length_le (k n : Nat) : (le k n).length = k := by
  induction k generalizing n with
  | zero => rfl
  | succ k ih => simp [le, ih]

theorem ofLe_le (k n : Nat) : ofLe (le k n) = n % 256 ^ k := by
  induction k generalizing n with
  | zero => simp [le, ofLe, Nat.mod_one]
  | succ k ih =>
    have hb : (UInt8.ofNat (n % 256)).toNat = n % 256 := by
      rw [UInt8.toNat_ofNat']
      omega
    rw [le, ofLe, ih, hb, Nat.pow_succ, Nat.mul_comm (256 ^ k) 256, Nat.mod_mul]

theorem ofLe_le_of_lt {k n : Nat} (h : n < 256 ^ k) : ofLe (le k n) = n := by
  rw [ofLe_le, Nat.mod_eq_of_lt h]

theorem le_ofLe {k : Nat} {bs : List UInt8} (h : bs.length = k) : le k (ofLe bs) = bs := by
  induction k generalizing bs with
  | zero =>
    rw [List.eq_nil_of_length_eq_zero h]
    rfl
  | succ k ih =>
    cases bs with
    | nil => cases h
    | cons b bs =>
      have hb := b.toNat_lt
      have h1 : (b.toNat + 256 * ofLe bs) % 256 = b.toNat := by omega
      have h2 : (b.toNat + 256 * ofLe bs) / 256 = ofLe bs := by omega
      rw [ofLe, le, h1, h2, ih (by simpa using h), UInt8.ofNat_toNat]

theorem ofLe_lt (bs : List UInt8) : ofLe bs < 256 ^ bs.length := by
  induction bs with
  | nil => simp [ofLe]
  | cons b bs ih =>
    have hb := b.toNat_lt
    rw [ofLe, List.length_cons, Nat.pow_succ]
    omega

/-- Any `k` bytes are a number. -/
theorem exists_le_append {d : List UInt8} (k : Nat) (h : k ≤ d.length) :
    ∃ n r, n < 256 ^ k ∧ d = le k n ++ r := by
  have hlen : (d.take k).length = k := by
    rw [List.length_take]
    omega
  refine ⟨ofLe (d.take k), d.drop k, ?_, ?_⟩
  · have := ofLe_lt (d.take k)
    rwa [hlen] at this
  · rw [le_ofLe hlen, List.take_append_drop]

/-! ## Bounded accesses -/

/-- Read the `n` bytes at `pos`. -/
def slice? (d : List UInt8) (pos n : Nat) : Option (List UInt8) :=
  if pos + n ≤ d.length then some ((d.drop pos).take n) else none

/-- Overwrite the bytes at `pos`. -/
def patch? (d : List UInt8) (pos : Nat) (src : List UInt8) : Option (List UInt8) :=
  if pos + src.length ≤ d.length then some (d.take pos ++ src ++ d.drop (pos + src.length))
  else none

theorem slice?_append {d a b c : List UInt8} {pos n : Nat} (hd : d = a ++ b ++ c)
    (hpos : pos = a.length) (hn : n = b.length) : slice? d pos n = some b := by
  subst hd hpos hn
  rw [slice?, if_pos (by simp only [List.length_append]; omega)]
  simp

/-- A slice in range splits the buffer. -/
theorem slice?_split (d : List UInt8) (pos n : Nat) (h : pos + n ≤ d.length) :
    ∃ a b c, d = a ++ b ++ c ∧ a.length = pos ∧ b.length = n ∧ slice? d pos n = some b := by
  refine ⟨d.take pos, (d.drop pos).take n, (d.drop pos).drop n, ?_, ?_, ?_, ?_⟩
  · simp
  · simp only [List.length_take]
    omega
  · simp only [List.length_take, List.length_drop]
    omega
  · rw [slice?, if_pos h]

theorem patch?_append {d a b c src : List UInt8} {pos : Nat} (hd : d = a ++ b ++ c)
    (hpos : pos = a.length) (hsrc : src.length = b.length) :
    patch? d pos src = some (a ++ src ++ c) := by
  subst hd hpos
  rw [patch?, if_pos (by simp only [List.length_append]; omega), hsrc]
  simp

end ByteBuf
