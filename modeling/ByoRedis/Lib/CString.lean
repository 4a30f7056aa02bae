import Mathlib

/-!
# Lib — byte strings of C

`memcmp`, and the order it gives to byte strings of any length when the
shorter string of two that agree counts as the smaller one. That order is the
lexicographic order of the bytes read as numbers.
-/

namespace CString

/-- `memcmp(a, b, n)`: `lt`, `eq` or `gt` for a negative, zero or positive
answer. -/
def memcmp : List UInt8 → List UInt8 → Nat → Ordering
  | a :: as, b :: bs, n + 1 =>
    match compare a.toNat b.toNat with
    | .lt => .lt
    | .gt => .gt
    | .eq => memcmp as bs n
  | _, _, _ => .eq

/-- The bytes as numbers. -/
def codes (s : List UInt8) : List Nat := s.map UInt8.toNat

theorem codes_injective : Function.Injective codes := by
  intro a b h
  exact List.map_injective_iff.mpr (fun x y hxy => UInt8.toNat_inj.mp hxy) h

/-- Bytewise first, then by length. -/
theorem memcmp_lt_iff (a b : List UInt8) :
    (memcmp a b (min a.length b.length) = .lt ∨
      (memcmp a b (min a.length b.length) = .eq ∧ a.length < b.length)) ↔ codes a < codes b := by
  induction a generalizing b with
  | nil =>
    cases b with
    | nil => simp [memcmp, codes]
    | cons y b => simp [memcmp, codes]
  | cons x a ih =>
    cases b with
    | nil => simp [memcmp, codes]
    | cons y b =>
      have hmin : min (x :: a).length (y :: b).length = min a.length b.length + 1 := by
        simp only [List.length_cons]
        omega
      have hcodes : codes (x :: a) < codes (y :: b) ↔
          x.toNat < y.toNat ∨ x.toNat = y.toNat ∧ codes a < codes b := List.cons_lt_cons_iff
      rw [hmin, hcodes, memcmp]
      rcases Nat.lt_trichotomy x.toNat y.toNat with hlt | heq | hgt
      · simp [Nat.compare_eq_lt.mpr hlt, hlt]
      · simp only [Nat.compare_eq_eq.mpr heq]
        simp only [heq, lt_self_iff_false, false_or, true_and, ← ih b, List.length_cons,
          Nat.add_lt_add_iff_right]
      · have h1 : ¬ x.toNat < y.toNat := by omega
        have h2 : x.toNat ≠ y.toNat := by omega
        simp [Nat.compare_eq_gt.mpr hgt, h1, h2]

/-- Equal lengths and equal bytes. -/
theorem memcmp_eq_iff {a b : List UInt8} (h : a.length = b.length) :
    memcmp a b a.length = .eq ↔ a = b := by
  induction a generalizing b with
  | nil =>
    have hb : b = [] := List.eq_nil_of_length_eq_zero h.symm
    simp [memcmp, hb]
  | cons x a ih =>
    cases b with
    | nil => simp at h
    | cons y b =>
      have hlen : a.length = b.length := by simpa using h
      rw [List.length_cons, memcmp]
      rcases Nat.lt_trichotomy x.toNat y.toNat with hlt | heq | hgt
      · have hne : x ≠ y := by
          rintro rfl
          omega
        simp [Nat.compare_eq_lt.mpr hlt, hne]
      · simp only [Nat.compare_eq_eq.mpr heq]
        simp [ih hlen, UInt8.toNat_inj.mp heq]
      · have hne : x ≠ y := by
          rintro rfl
          omega
        simp [Nat.compare_eq_gt.mpr hgt, hne]

end CString
