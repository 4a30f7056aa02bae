import ByoRedis.Lib.CNumber

/-!
# Lib — the double nearest to a number

Rounding to nearest, ties to even. The doubles of one sign, in their order, are
the values of a strictly increasing sequence, and the even members of the
sequence are those with an even significand; so the nearest member is defined
for any such sequence. An infinity takes part with the value that would come
next, a power of two, as IEEE 754 rounds: what is at least half a unit above
the largest double goes to infinity.
-/

/-! ## The nearest member of a sequence -/

section Nearest

variable {K : Type*} [Field K] [LinearOrder K]

/-- The member of a sequence, up to the `N`-th, that is nearest to a number; of
two that are equally near, the even one. -/
structure Nearest (f : ℕ → K) (N : ℕ) (x : K) (k : ℕ) : Prop where
  le : k ≤ N
  near : ∀ j ≤ N, |x - f k| ≤ |x - f j|
  even : ∀ j ≤ N, j ≠ k → |x - f k| = |x - f j| → Even k

variable [IsStrictOrderedRing K] {f : ℕ → K} {N k : ℕ} {a b x : K}

/-- Which of two numbers is nearer is told by their midpoint. -/
theorem abs_sub_le_iff_of_lt (h : a < b) : |x - b| ≤ |x - a| ↔ a + b ≤ 2 * x := by
  rw [← sq_le_sq]
  constructor
  · intro hle
    nlinarith
  · intro hle
    nlinarith

theorem abs_sub_le_iff_of_lt' (h : a < b) : |x - a| ≤ |x - b| ↔ 2 * x ≤ a + b := by
  rw [← sq_le_sq]
  constructor
  · intro hle
    nlinarith
  · intro hle
    nlinarith

/-- Only the midpoints to the two neighbours matter. -/
theorem Nearest.of_midpoints (hf : StrictMono f) (hk : k ≤ N)
    (hlo : ∀ j, j + 1 = k → f j + f k ≤ 2 * x ∧ (f j + f k = 2 * x → Even k))
    (hhi : k < N → 2 * x ≤ f k + f (k + 1) ∧ (2 * x = f k + f (k + 1) → Even k)) :
    Nearest f N x k := by
  have hbelow : ∀ j < k, f j + f k ≤ 2 * x ∧ (f j + f k = 2 * x → Even k) := by
    intro j hj
    obtain ⟨i, rfl⟩ := Nat.exists_eq_add_one_of_ne_zero (by omega : k ≠ 0)
    obtain ⟨hle, heven⟩ := hlo i rfl
    have hji : f j ≤ f i := hf.monotone (by omega)
    exact ⟨by linarith, fun he => heven (by linarith)⟩
  have habove : ∀ j, k < j → j ≤ N → 2 * x ≤ f k + f j ∧ (2 * x = f k + f j → Even k) := by
    intro j hj hjN
    obtain ⟨hle, heven⟩ := hhi (by omega)
    have hji : f (k + 1) ≤ f j := hf.monotone hj
    exact ⟨by linarith, fun he => heven (by linarith)⟩
  refine ⟨hk, ?_, ?_⟩
  · intro j hj
    rcases lt_trichotomy j k with hjk | rfl | hjk
    · exact (abs_sub_le_iff_of_lt (hf hjk)).mpr (hbelow j hjk).1
    · exact le_refl _
    · exact (abs_sub_le_iff_of_lt' (hf hjk)).mpr (habove j hjk hj).1
  · intro j hj hne he
    rcases Nat.lt_or_gt_of_ne hne with hjk | hjk
    · have hle := (abs_sub_le_iff_of_lt' (hf hjk)).mp he.ge
      exact (hbelow j hjk).2 (le_antisymm (hbelow j hjk).1 hle)
    · have hle := (abs_sub_le_iff_of_lt (hf hjk)).mp he.ge
      exact (habove j hjk hj).2 (le_antisymm (habove j hjk hj).1 hle)

/-- There is one nearest member. -/
theorem Nearest.unique (hf : StrictMono f) {k' : ℕ} (h : Nearest f N x k) (h' : Nearest f N x k') :
    k = k' := by
  -- two of them are neighbours, and both even
  have hno : ∀ k k', Nearest f N x k → Nearest f N x k' → ¬ k < k' := by
    intro k k' h h' hlt
    have heq : |x - f k| = |x - f k'| := le_antisymm (h.near k' h'.le) (h'.near k h.le)
    have heven := h.even k' h'.le (by omega) heq
    have heven' := h'.even k h.le (by omega) heq.symm
    have hnext : k + 1 < k' := by
      rcases Nat.lt_or_eq_of_le (Nat.succ_le_of_lt hlt) with hlt' | rfl
      · exact hlt'
      · exact absurd heven' (Nat.not_even_iff_odd.mpr heven.add_one)
    have hmid := (abs_sub_le_iff_of_lt (hf hlt)).mp heq.ge
    have hmid' := (abs_sub_le_iff_of_lt' (hf (Nat.lt_succ_self k))).mp
      (h.near (k + 1) (by have := h'.le; omega))
    have := hf hnext
    linarith
  rcases lt_trichotomy k k' with hlt | rfl | hlt
  · exact absurd hlt (hno k k' h h')
  · rfl
  · exact absurd hlt (hno k' k h' h)

/-- What is not below the last member goes to it. -/
theorem Nearest.last (hf : StrictMono f) (hx : f N ≤ x) : Nearest f N x N := by
  refine .of_midpoints hf (le_refl N) ?_ (fun hlt => absurd hlt (lt_irrefl N))
  rintro j rfl
  have := hf (Nat.lt_succ_self j)
  exact ⟨by linarith, fun he => absurd he (by linarith)⟩

/-- What is below the first midpoint goes to the first member. -/
theorem Nearest.first (hf : StrictMono f) (hx : 2 * x < f 0 + f 1) : Nearest f N x 0 :=
  .of_midpoints hf (Nat.zero_le N) (fun j hj => absurd hj (Nat.succ_ne_zero j))
    (fun _ => ⟨hx.le, fun _ => ⟨0, rfl⟩⟩)

end Nearest

/-! ## The values of the doubles -/

namespace Double

/-- The number that bits below the sign stand for. -/
def magValue (k : Nat) : ℚ :=
  if k < 2 ^ 52 then k * 2 ^ (-1074 : ℤ)
  else (2 ^ 52 + k % 2 ^ 52 : Nat) * 2 ^ ((k / 2 ^ 52 : Nat) - 1075 : ℤ)

/-- A significand of at most 53 bits, and the exponent of its last bit. -/
theorem magValue_eq {e m : Nat} (hm : m ≤ 2 ^ 53) (he : e = 0 ∨ 2 ^ 52 ≤ m) :
    magValue (e * 2 ^ 52 + m) = m * 2 ^ ((e : ℤ) - 1074) := by
  by_cases hsub : m < 2 ^ 52
  · obtain rfl : e = 0 := by omega
    rw [magValue, Nat.zero_mul, Nat.zero_add, if_pos hsub]
    rfl
  · rw [magValue, if_neg (by omega)]
    by_cases hcarry : m = 2 ^ 53
    · -- the carry makes the next power of two
      have hmod : (e * 2 ^ 52 + m) % 2 ^ 52 = 0 := by omega
      have hdiv : (e * 2 ^ 52 + m) / 2 ^ 52 = e + 2 := by omega
      rw [hmod, hdiv, hcarry]
      have hexp : (((e + 2 : Nat) : ℤ) - 1075) = ((e : ℤ) - 1074) + 1 := by
        push_cast
        ring
      rw [hexp, zpow_add_one₀ (by norm_num)]
      push_cast
      ring
    · have hmod : (e * 2 ^ 52 + m) % 2 ^ 52 = m - 2 ^ 52 := by omega
      have hdiv : (e * 2 ^ 52 + m) / 2 ^ 52 = e + 1 := by omega
      have hexp : (((e + 1 : Nat) : ℤ) - 1075) = (e : ℤ) - 1074 := by
        push_cast
        ring
      rw [hmod, hdiv, hexp, Nat.add_sub_cancel' (by omega)]

theorem exists_significand (k : Nat) :
    ∃ e m, k = e * 2 ^ 52 + m ∧ m < 2 ^ 53 ∧ (e = 0 ∨ 2 ^ 52 ≤ m) := by
  by_cases hsub : k < 2 ^ 52
  · exact ⟨0, k, by omega, by omega, .inl rfl⟩
  · exact ⟨k / 2 ^ 52 - 1, 2 ^ 52 + k % 2 ^ 52, by omega, by omega, .inr (by omega)⟩

theorem magValue_strictMono : StrictMono magValue := by
  refine strictMono_nat_of_lt_succ ?_
  intro k
  obtain ⟨e, m, rfl, hm, he⟩ := exists_significand k
  rw [magValue_eq hm.le he, Nat.add_assoc, magValue_eq (by omega) (by omega)]
  have hpos : (0 : ℚ) < 2 ^ ((e : ℤ) - 1074) := by positivity
  push_cast
  linarith

theorem magValue_zero : magValue 0 = 0 := by
  have h : magValue (0 * 2 ^ 52 + 0) = (0 : Nat) * 2 ^ ((0 : ℤ) - 1074) :=
    magValue_eq (by omega) (.inl rfl)
  simpa using h

theorem magValue_one : magValue 1 = 2 ^ (-1074 : ℤ) := by
  have h : magValue (0 * 2 ^ 52 + 1) = (1 : Nat) * 2 ^ ((0 : ℤ) - 1074) :=
    magValue_eq (by omega) (.inl rfl)
  simpa using h

theorem magValue_inf : magValue infMagnitude = 2 ^ (1024 : ℤ) := by
  have h : magValue (2046 * 2 ^ 52 + 2 ^ 52) = (2 ^ 52 : Nat) * 2 ^ ((2046 : ℤ) - 1074) :=
    magValue_eq (by omega) (.inr (le_refl _))
  have hexp : (1024 : ℤ) = 52 + (2046 - 1074) := by norm_num
  rw [hexp, zpow_add₀ (by norm_num)]
  exact_mod_cast h

/-- The bits below the sign of the double nearest to a number. -/
abbrev NearestMag (x : ℚ) (k : Nat) : Prop := Nearest magValue infMagnitude x k

end Double

/-! ## Rounding -/

namespace CNumber

open Double

variable {num den : Nat}

/-- A half at most is lost or added, and where it is a half the result is even. -/
theorem roundHalfEven_bounds (num : Nat) (hden : 0 < den) :
    2 * (den * roundHalfEven num den) ≤ 2 * num + den ∧
    2 * num ≤ 2 * (den * roundHalfEven num den) + den ∧
    (2 * (den * roundHalfEven num den) = 2 * num + den ∨
      2 * num = 2 * (den * roundHalfEven num den) + den → Even (roundHalfEven num den)) := by
  have hdiv := Nat.div_add_mod num den
  have hmod := Nat.mod_lt num hden
  have hup := Nat.mul_add_one den (num / den)
  rw [Nat.even_iff]
  simp only [roundHalfEven]
  split
  · refine ⟨by omega, by omega, ?_⟩
    intro htie
    omega
  · refine ⟨by omega, by omega, ?_⟩
    intro htie
    omega

theorem roundHalfEven_spec (num : Nat) (hden : 0 < den) :
    (2 * roundHalfEven num den : ℚ) - 1 ≤ 2 * (num / den) ∧
    2 * (num / den) ≤ (2 * roundHalfEven num den : ℚ) + 1 ∧
    ((2 * roundHalfEven num den : ℚ) - 1 = 2 * (num / den) ∨
      2 * (num / den) = (2 * roundHalfEven num den : ℚ) + 1 → Even (roundHalfEven num den)) := by
  obtain ⟨hlo, hhi, heven⟩ := roundHalfEven_bounds num hden
  generalize roundHalfEven num den = m at hlo hhi heven ⊢
  have hq : (0 : ℚ) < den := by exact_mod_cast hden
  have hx : (num : ℚ) / den * den = num := div_mul_cancel₀ _ hq.ne'
  generalize (num : ℚ) / den = x at hx ⊢
  have hlo' : 2 * ((den : ℚ) * m) ≤ 2 * num + den := by exact_mod_cast hlo
  have hhi' : (2 : ℚ) * num ≤ 2 * (den * m) + den := by exact_mod_cast hhi
  refine ⟨by nlinarith, by nlinarith, ?_⟩
  rintro (htie | htie)
  · refine heven (.inl ?_)
    have : 2 * ((den : ℚ) * m) = 2 * num + den := by rw [← hx]; linear_combination den * htie
    exact_mod_cast this
  · refine heven (.inr ?_)
    have : (2 : ℚ) * num = 2 * (den * m) + den := by rw [← hx]; linear_combination den * htie
    exact_mod_cast this

/-- `2^(floorLog2 num den)` is the power of two just below. -/
theorem floorLog2_spec (hnum : 0 < num) (hden : 0 < den) :
    (2 : ℚ) ^ floorLog2 num den ≤ num / den ∧ (num : ℚ) / den < 2 ^ (floorLog2 num den + 1) := by
  have hn : (0 : ℚ) < num := by exact_mod_cast hnum
  have hd : (0 : ℚ) < den := by exact_mod_cast hden
  have hlog : ∀ n : Nat, 0 < n → (2 : ℚ) ^ (Nat.log2 n : ℤ) ≤ n ∧
      (n : ℚ) < 2 ^ ((Nat.log2 n : ℤ) + 1) := by
    intro n hpos
    have hle := Nat.log2_self_le hpos.ne'
    have hlt := Nat.lt_log2_self (n := n)
    constructor
    · exact_mod_cast hle
    · exact_mod_cast hlt
  obtain ⟨hnlo, hnhi⟩ := hlog num hnum
  obtain ⟨hdlo, hdhi⟩ := hlog den hden
  generalize ha : (Nat.log2 num : ℤ) = a at hnlo hnhi
  generalize hb : (Nat.log2 den : ℤ) = b at hdlo hdhi
  have hcmp : (if 0 ≤ a - b then num < den * 2 ^ (a - b).toNat else num * 2 ^ (-(a - b)).toNat < den) ↔
      (num : ℚ) / den < 2 ^ (a - b) := by
    rw [div_lt_iff₀ hd]
    split
    · rename_i hpos
      obtain ⟨n, hn'⟩ := Int.eq_ofNat_of_zero_le hpos
      rw [hn', Int.toNat_natCast, zpow_natCast, mul_comm]
      exact_mod_cast Iff.rfl
    · rename_i hneg
      obtain ⟨n, hn'⟩ := Int.eq_ofNat_of_zero_le (by omega : 0 ≤ -(a - b))
      have hexp : a - b = -(n : ℤ) := by omega
      rw [hn', Int.toNat_natCast, hexp, zpow_neg, zpow_natCast, ← div_eq_inv_mul,
        lt_div_iff₀ (by positivity)]
      exact_mod_cast Iff.rfl
  have hupper : (num : ℚ) / den < 2 ^ (a - b + 1) := by
    rw [div_lt_iff₀ hd]
    calc (num : ℚ) < 2 ^ (a + 1) := hnhi
      _ = 2 ^ (a - b + 1) * 2 ^ b := by rw [← zpow_add₀ two_ne_zero]; congr 1; ring
      _ ≤ 2 ^ (a - b + 1) * den := by gcongr
  have hlower : (2 : ℚ) ^ (a - b - 1) ≤ num / den := by
    rw [le_div_iff₀ hd]
    calc (2 : ℚ) ^ (a - b - 1) * den ≤ 2 ^ (a - b - 1) * 2 ^ (b + 1) := by gcongr
      _ = 2 ^ a := by rw [← zpow_add₀ two_ne_zero]; congr 1; ring
      _ ≤ num := hnlo
  rw [floorLog2, ha, hb]
  simp only [hcmp]
  split
  · rename_i hlt
    rw [sub_add_cancel]
    exact ⟨hlower, hlt⟩
  · rename_i hge
    exact ⟨not_lt.mp hge, hupper⟩

/-- A number is rounded as a multiple of the last bit of its significand. -/
theorem nearestMag_of_scaled {x X : ℚ} {e m : Nat} (hX : x = X * 2 ^ ((e : ℤ) - 1074))
    (hlo : e = 0 ∨ 2 ^ 52 ≤ X) (hhi : X < 2 ^ 53) (hmlo : (2 * m : ℚ) - 1 ≤ 2 * X)
    (hmhi : 2 * X ≤ (2 * m : ℚ) + 1)
    (hmeven : (2 * m : ℚ) - 1 = 2 * X ∨ 2 * X = (2 * m : ℚ) + 1 → Even m) :
    NearestMag x (min (e * 2 ^ 52 + m) infMagnitude) := by
  have hw : (0 : ℚ) < 2 ^ ((e : ℤ) - 1074) := by positivity
  have hmle : m ≤ 2 ^ 53 := by
    have : (2 * m : ℚ) < 2 ^ 54 + 1 := by linarith
    have : 2 * m < 2 ^ 54 + 1 := by exact_mod_cast this
    omega
  have hnorm : e = 0 ∨ 2 ^ 52 ≤ m := by
    refine hlo.imp_right (fun hle => ?_)
    have : (2 ^ 53 : ℚ) ≤ 2 * m + 1 := by linarith
    have : 2 ^ 53 ≤ 2 * m + 1 := by exact_mod_cast this
    omega
  have hk := magValue_eq hmle hnorm
  have heven : Even m → Even (e * 2 ^ 52 + m) := fun h => (Even.mul_left (by decide) e).add h
  -- the midpoint to the double before
  have hbelow : ∀ j, j + 1 = e * 2 ^ 52 + m →
      magValue j + magValue (e * 2 ^ 52 + m) ≤ 2 * x ∧
      (magValue j + magValue (e * 2 ^ 52 + m) = 2 * x → Even (e * 2 ^ 52 + m)) := by
    intro j hj
    have hlt := magValue_strictMono (by omega : j < e * 2 ^ 52 + m)
    by_cases hsame : e = 0 ∨ 2 ^ 52 ≤ m - 1
    · have hpos : 1 ≤ m := by omega
      have hj' : j = e * 2 ^ 52 + (m - 1) := by omega
      rw [hj', hk, magValue_eq (by omega) hsame, hX]
      push_cast [hpos]
      refine ⟨by nlinarith, fun he => heven (hmeven (.inl ?_))⟩
      exact mul_right_cancel₀ hw.ne' (by linear_combination he)
    · have hmX : (m : ℚ) ≤ X := by
        have hm : m = 2 ^ 52 := by omega
        rw [hm]
        exact_mod_cast hlo.resolve_left (fun he => hsame (.inl he))
      have hle : magValue (e * 2 ^ 52 + m) ≤ x := by
        rw [hk, hX]
        gcongr
      exact ⟨by linarith, fun he => absurd he (by linarith)⟩
  -- and the one behind
  have habove : 2 * x ≤ magValue (e * 2 ^ 52 + m) + magValue (e * 2 ^ 52 + m + 1) ∧
      (2 * x = magValue (e * 2 ^ 52 + m) + magValue (e * 2 ^ 52 + m + 1) →
        Even (e * 2 ^ 52 + m)) := by
    have hlt := magValue_strictMono (Nat.lt_succ_self (e * 2 ^ 52 + m))
    by_cases hcarry : m = 2 ^ 53
    · have hXm : X ≤ m := by
        rw [hcarry]
        exact_mod_cast hhi.le
      have hle : x ≤ magValue (e * 2 ^ 52 + m) := by
        rw [hk, hX]
        gcongr
      exact ⟨by linarith, fun he => absurd he (by linarith)⟩
    · rw [hk, Nat.add_assoc, magValue_eq (by omega) (by omega), hX]
      push_cast
      refine ⟨by nlinarith, fun he => heven (hmeven (.inr ?_))⟩
      exact mul_right_cancel₀ hw.ne' (by linear_combination he)
  by_cases hfinite : e * 2 ^ 52 + m ≤ infMagnitude
  · rw [Nat.min_eq_left hfinite]
    exact .of_midpoints magValue_strictMono hfinite hbelow (fun _ => habove)
  · rw [Nat.min_eq_right (by omega)]
    refine .last magValue_strictMono ?_
    have hmono : magValue infMagnitude ≤ magValue (e * 2 ^ 52 + m - 1) :=
      magValue_strictMono.monotone (by omega)
    have hlt := magValue_strictMono (by omega : e * 2 ^ 52 + m - 1 < e * 2 ^ 52 + m)
    have := (hbelow (e * 2 ^ 52 + m - 1) (by omega)).1
    linarith

/-- **`roundMag`** gives the nearest double. -/
theorem roundMag_nearest (num : Nat) (hden : 0 < den) :
    NearestMag (num / den) (roundMag num den) := by
  rcases Nat.eq_zero_or_pos num with rfl | hnum
  · refine .first magValue_strictMono ?_
    rw [magValue_zero, magValue_one]
    simp
  · obtain ⟨hlog, hlog'⟩ := floorLog2_spec hnum hden
    have hd : (0 : ℚ) < den := by exact_mod_cast hden
    rw [roundMag, if_neg hnum.ne']
    simp only
    generalize hq : max (floorLog2 num den) (-1022) - 52 = q
    obtain ⟨e, he⟩ := Int.eq_ofNat_of_zero_le (by omega : 0 ≤ q + 1074)
    have hqe : (e : ℤ) - 1074 = q := by omega
    have hw : (0 : ℚ) < 2 ^ q := by positivity
    have hsplit : ∀ n : Nat, (2 : ℚ) ^ n * 2 ^ q = 2 ^ (q + n) := by
      intro n
      rw [mul_comm, zpow_add₀ two_ne_zero, zpow_natCast]
    have hX : (num : ℚ) / den = num / den / 2 ^ q * 2 ^ ((e : ℤ) - 1074) := by
      rw [hqe, div_mul_cancel₀ _ hw.ne']
    have hlo : e = 0 ∨ 2 ^ 52 ≤ (num : ℚ) / den / 2 ^ q := by
      rcases Nat.eq_zero_or_pos e with h0 | hpos
      · exact .inl h0
      · right
        rw [le_div_iff₀ hw, hsplit, show q + (52 : Nat) = floorLog2 num den by omega]
        exact hlog
    have hhi : (num : ℚ) / den / 2 ^ q < 2 ^ 53 := by
      rw [div_lt_iff₀ hw, hsplit]
      refine hlog'.trans_le (zpow_le_zpow_right₀ one_le_two ?_)
      push_cast
      omega
    rw [he, Int.toNat_natCast]
    by_cases hpos : 0 ≤ q
    · obtain ⟨n, hn⟩ := Int.eq_ofNat_of_zero_le hpos
      have hquot : (num : ℚ) / den / 2 ^ q = num / (den * 2 ^ n : Nat) := by
        rw [hn, zpow_natCast, div_div]
        push_cast
        rfl
      obtain ⟨h₁, h₂, h₃⟩ := roundHalfEven_spec num (by positivity : 0 < den * 2 ^ n)
      rw [if_pos hpos, hn, Int.toNat_natCast]
      rw [← hquot] at h₁ h₂ h₃
      exact nearestMag_of_scaled hX hlo hhi h₁ h₂ h₃
    · obtain ⟨n, hn⟩ := Int.eq_ofNat_of_zero_le (by omega : 0 ≤ -q)
      have hquot : (num : ℚ) / den / 2 ^ q = (num * 2 ^ n : Nat) / den := by
        rw [show q = -(n : ℤ) by omega, zpow_neg, zpow_natCast, div_inv_eq_mul, div_mul_eq_mul_div]
        push_cast
        rfl
      obtain ⟨h₁, h₂, h₃⟩ := roundHalfEven_spec (num * 2 ^ n) hden
      rw [if_neg hpos, hn, Int.toNat_natCast]
      rw [← hquot] at h₁ h₂ h₃
      exact nearestMag_of_scaled hX hlo hhi h₁ h₂ h₃

/-- **`scaleMag`** gives the nearest double, of a number of any size. -/
theorem scaleMag_nearest {m n base : Nat} (hm : m < 16 ^ n) (hbase : 2 ≤ base) (e : Int) :
    NearestMag (m * (base : ℚ) ^ e) (scaleMag m n base e) := by
  have hb : (2 : ℚ) ≤ base := by exact_mod_cast hbase
  have hb0 : (0 : ℚ) < base := by linarith
  rw [scaleMag]
  split_ifs with h0 hbig hsmall hpos
  · refine .first magValue_strictMono ?_
    rw [h0, magValue_zero, magValue_one]
    simp
  · refine .last magValue_strictMono ?_
    have hm1 : (1 : ℚ) ≤ m := by exact_mod_cast Nat.one_le_iff_ne_zero.mpr h0
    have he : (2 : ℚ) ^ (1024 : ℤ) ≤ base ^ e :=
      calc (2 : ℚ) ^ (1024 : ℤ) ≤ 2 ^ e := zpow_le_zpow_right₀ one_le_two (by omega)
        _ ≤ base ^ e := zpow_le_zpow_left₀ (by omega) (by norm_num) hb
    rw [magValue_inf]
    calc (2 : ℚ) ^ (1024 : ℤ) ≤ base ^ e := he
      _ = 1 * base ^ e := (one_mul _).symm
      _ ≤ m * base ^ e := by gcongr
  · refine .first magValue_strictMono ?_
    have hpow : (base : ℚ) ^ e ≤ 2 ^ e := by
      obtain ⟨k, hk⟩ := Int.eq_ofNat_of_zero_le (by omega : 0 ≤ -e)
      have hek : e = -(k : ℤ) := by omega
      rw [hek, zpow_neg, zpow_neg, zpow_natCast, zpow_natCast]
      gcongr
    have hlt : (m : ℚ) * base ^ e < 2 ^ (-1200 : ℤ) :=
      calc (m : ℚ) * base ^ e ≤ m * 2 ^ e := by gcongr
        _ < 16 ^ n * 2 ^ e := by
          have : (m : ℚ) < 16 ^ n := by exact_mod_cast hm
          gcongr
        _ = 2 ^ (e + 4 * n) := by
          rw [show (16 : ℚ) = 2 ^ 4 by norm_num, ← pow_mul, mul_comm, zpow_add₀ two_ne_zero]
          norm_cast
        _ ≤ 2 ^ (-1200 : ℤ) := zpow_le_zpow_right₀ one_le_two (by omega)
    rw [magValue_zero, magValue_one]
    have hbit : (2 : ℚ) ^ (-1200 : ℤ) < 2 ^ (-1075 : ℤ) := zpow_lt_zpow_right₀ one_lt_two (by norm_num)
    have hhalf : (2 : ℚ) ^ (-1074 : ℤ) = 2 * 2 ^ (-1075 : ℤ) := by
      rw [← zpow_one_add₀ two_ne_zero]
      norm_num
    linarith
  · obtain ⟨k, hk⟩ := Int.eq_ofNat_of_zero_le hpos
    have h := roundMag_nearest (m * base ^ k) Nat.one_pos
    rw [hk, Int.toNat_natCast, zpow_natCast]
    simpa using h
  · obtain ⟨k, hk⟩ := Int.eq_ofNat_of_zero_le (by omega : 0 ≤ -e)
    have hek : e = -(k : ℤ) := by omega
    have hden : 0 < base ^ k := by positivity
    have h := roundMag_nearest m hden
    rw [hk, Int.toNat_natCast, hek, zpow_neg, zpow_natCast, ← div_eq_mul_inv]
    exact_mod_cast h

end CNumber
