import ByoRedis.Lib.Rounding

/-!
# Lib — the texts that `strtod` reads

The numbers that C strings stand for: infinities, and digits with an optional
point and exponent part, in decimal or, behind `0x`, in hexadecimal. `strtod`
reads a string to its end without finding a NaN if and only if it is the text of
such a number, or empty, and its value is the nearest double.
-/

namespace CNumber

open Double

/-! ## Texts -/

/-- An optional sign, and whether it is a minus. -/
def SignText (sgn : List UInt8) (neg : Bool) : Prop :=
  (sgn = [] ∨ sgn = [43]) ∧ neg = false ∨ sgn = [45] ∧ neg = true

/-- An optional exponent part, and its value. -/
def ExponentText (marker : UInt8) (s : List UInt8) (e : Int) : Prop :=
  s = [] ∧ e = 0 ∨
    ∃ c sgn neg ds, s = c :: (sgn ++ ds) ∧ tolower c = marker ∧ SignText sgn neg ∧ ds ≠ [] ∧
      (∀ b ∈ ds, isdigit b = true) ∧ e = if neg then -(digitsVal 10 ds : Int) else digitsVal 10 ds

/-- The digits `ip`, an optional point, the digits `fp` behind it, and an exponent
part of value `e`. Some digit has to be there. -/
def SignificandText (isDig : UInt8 → Bool) (marker : UInt8) (s ip fp : List UInt8) (e : Int) :
    Prop :=
  ∃ pt ex, s = ip ++ (pt ++ (fp ++ ex)) ∧ (∀ b ∈ ip, isDig b = true) ∧ (∀ b ∈ fp, isDig b = true) ∧
    (pt = [46] ∨ pt = [] ∧ fp = []) ∧ ¬(ip = [] ∧ fp = []) ∧ ExponentText marker ex e

/-- What stands behind the sign, and its value, which is none for an infinity. -/
inductive UnsignedText : List UInt8 → Option ℚ → Prop
  | inf {s} (h : s.map tolower = [105, 110, 102]) : UnsignedText s none
  | infinity {s} (h : s.map tolower = [105, 110, 102, 105, 110, 105, 116, 121]) :
    UnsignedText s none
  | decimal {s ip fp e} (h : SignificandText isdigit 101 s ip fp e) :
    UnsignedText s (some (digitsVal 10 (ip ++ fp) * 10 ^ (e - fp.length)))
  | hex {s ip fp c e} (hc : tolower c = 120) (h : SignificandText isxdigit 112 s ip fp e) :
    UnsignedText (48 :: c :: s) (some (digitsVal 16 (ip ++ fp) * 2 ^ (e - 4 * fp.length)))

/-- The magnitude of the double for such a value. -/
def MagnitudeOf : Option ℚ → Nat → Prop
  | none, k => k = infMagnitude
  | some x, k => NearestMag x k

/-- The whole string is the text of a number whose nearest double is `d`: white
space, a sign, and the number. -/
def DenotesDouble (s : List UInt8) (d : Double) : Prop :=
  ∃ space sgn body x, s = space ++ (sgn ++ body) ∧ (∀ b ∈ space, isspace b = true) ∧
    SignText sgn d.bits.msb ∧ UnsignedText body x ∧ MagnitudeOf x d.magnitude

/-! ## Exponents -/

variable {s sgn ds ip fp ex : List UInt8} {neg : Bool} {marker : UInt8} {e : Int}

/-- The sign in front of something that does not start with one. -/
theorem sign_of_text (h : SignText sgn neg) (hs : ∀ b ∈ s.head?, b ≠ 43 ∧ b ≠ 45) :
    sign (sgn ++ s) = (neg, sgn.length) := by
  rcases h with ⟨rfl | rfl, rfl⟩ | ⟨rfl, rfl⟩
  · cases s with
    | nil => rfl
    | cons b s =>
      have hb := hs b rfl
      rw [List.nil_append, sign]
      · rfl
      · rintro s' h'
        exact hb.1 (List.cons.inj h').1
      · rintro s' h'
        exact hb.2 (List.cons.inj h').1
  · rfl
  · rfl

theorem isdigit_ne {b : UInt8} (h : isdigit b = true) : b ≠ 43 ∧ b ≠ 45 ∧ b ≠ 46 := by
  refine ⟨?_, ?_, ?_⟩
  all_goals
    rintro rfl
    exact absurd h (by decide)

theorem exponent_of_text (h : ExponentText marker s e) : exponent marker s = (e, s.length) := by
  rcases h with ⟨rfl, rfl⟩ | ⟨c, sgn, neg, ds, rfl, hc, hsgn, hne, hds, rfl⟩
  · rfl
  · have hsign : sign (sgn ++ ds) = (neg, sgn.length) := by
      refine sign_of_text hsgn ?_
      intro b hb
      have := isdigit_ne (hds b (List.mem_of_head? hb))
      exact ⟨this.1, this.2.1⟩
    have hscan : ds.takeWhile isdigit = ds := List.takeWhile_eq_self_iff.mpr hds
    rw [exponent, if_pos hc]
    simp only [hsign, List.drop_left, hscan, if_neg hne]
    simp only [List.length_cons, List.length_append]
    congr 1
    omega

theorem exponent_text (h : (exponent marker s).2 = s.length) :
    ExponentText marker s (exponent marker s).1 := by
  cases s with
  | nil => exact .inl ⟨rfl, rfl⟩
  | cons c rest =>
    rw [exponent] at h ⊢
    split at h
    · rename_i hc
      obtain ⟨sgn, ds, neg, rfl, hsign, hsgn⟩ := sign_spec rest
      simp only [hsign, List.drop_left] at h ⊢
      split at h
      · cases h
      · rename_i hne
        have hall : ds.takeWhile isdigit = ds := by
          refine (List.takeWhile_prefix isdigit).eq_of_length ?_
          simp only [List.length_cons, List.length_append] at h
          omega
        rw [hall] at hne
        rw [if_pos hc, hall, if_neg hne]
        exact .inr ⟨c, sgn, neg, ds, rfl, hc, hsgn, hne, List.takeWhile_eq_self_iff.mp hall, rfl⟩
    · cases h

/-! ## Significands -/

variable {isDig : UInt8 → Bool}

/-- The point and the digits behind it, and what they are in front of. -/
theorem fraction_spec (isDig : UInt8 → Bool) (s : List UInt8) : ∃ pt fp ex, s = pt ++ (fp ++ ex) ∧
    fraction isDig s = (fp, pt.length) ∧ (∀ b ∈ fp, isDig b = true) ∧
    (pt = [46] ∨ pt = [] ∧ fp = []) := by
  unfold fraction
  split
  · rename_i rest
    refine ⟨[46], rest.takeWhile isDig, rest.dropWhile isDig, ?_, rfl, ?_, .inl rfl⟩
    · rw [List.takeWhile_append_dropWhile]
      rfl
    · intro b hb
      exact List.mem_takeWhile_imp hb
  · exact ⟨[], [], s, rfl, rfl, by simp, .inr ⟨rfl, rfl⟩⟩

theorem fraction_of_text {pt : List UInt8} (hpt : pt = [46] ∨ pt = [] ∧ fp = [])
    (hfp : ∀ b ∈ fp, isDig b = true) (hex : ∀ b ∈ ex.head?, isDig b = false ∧ b ≠ 46) :
    fraction isDig (pt ++ (fp ++ ex)) = (fp, pt.length) := by
  rcases hpt with rfl | ⟨rfl, rfl⟩
  · rw [List.singleton_append, fraction, takeWhile_append_stop hfp (fun b hb => (hex b hb).1)]
    rfl
  · unfold fraction
    split
    · rename_i rest hrest
      obtain rfl : ex = 46 :: rest := hrest
      exact absurd rfl (hex 46 rfl).2
    · rfl

/-- A significand is read to its end, if the point and the marker are no digits. -/
theorem significand_of_text (neg : Bool) (base expBase shift : Nat) (hpoint : isDig 46 = false)
    (hmarker : ∀ c, tolower c = marker → isDig c = false ∧ c ≠ 46)
    (h : SignificandText isDig marker s ip fp e) :
    significand neg base expBase shift isDig marker s =
      some (.ofMagnitude neg (scaleMag (digitsVal base (ip ++ fp)) (ip.length + fp.length) expBase
        (e - shift * fp.length)), s.length) := by
  obtain ⟨pt, ex, rfl, hip, hfp, hpt, hne, hex⟩ := h
  have hstop : ∀ b ∈ ex.head?, isDig b = false ∧ b ≠ 46 := by
    intro b hb
    rcases hex with ⟨rfl, -⟩ | ⟨c, sgn, neg, ds, rfl, hc, -⟩
    · cases hb
    · cases hb
      exact hmarker b hc
  have hscan : (ip ++ (pt ++ (fp ++ ex))).takeWhile isDig = ip := by
    refine takeWhile_append_stop hip ?_
    intro b hb
    rcases hpt with rfl | ⟨rfl, rfl⟩
    · cases hb
      exact hpoint
    · exact (hstop b hb).1
  have hfrac := fraction_of_text hpt hfp hstop
  have hdrop : (ip ++ (pt ++ (fp ++ ex))).drop (ip.length + pt.length + fp.length) = ex := by
    rw [← List.drop_drop, ← List.drop_drop, List.drop_left, List.drop_left, List.drop_left]
  simp only [significand, hscan, List.drop_left, hfrac, if_neg hne, hdrop, exponent_of_text hex]
  simp only [List.length_append, Nat.add_assoc]

/-- What is read to its end is a significand. -/
theorem significand_text {d : Double} {base expBase shift : Nat}
    (h : significand neg base expBase shift isDig marker s = some (d, s.length)) :
    ∃ ip fp e, SignificandText isDig marker s ip fp e ∧
      d = .ofMagnitude neg (scaleMag (digitsVal base (ip ++ fp)) (ip.length + fp.length) expBase
        (e - shift * fp.length)) := by
  have hsplit := List.takeWhile_append_dropWhile (p := isDig) (l := s)
  have hip : ∀ b ∈ s.takeWhile isDig, isDig b = true := fun b hb => List.mem_takeWhile_imp hb
  rw [significand] at h
  generalize s.takeWhile isDig = ip at h hsplit hip
  obtain ⟨pt, fp, ex, hrest, hfrac, hfp, hpt⟩ := fraction_spec isDig (s.dropWhile isDig)
  obtain rfl : s = ip ++ (pt ++ (fp ++ ex)) := by rw [← hsplit, hrest]
  have hdrop : (ip ++ (pt ++ (fp ++ ex))).drop (ip.length + pt.length + fp.length) = ex := by
    rw [← List.drop_drop, ← List.drop_drop, List.drop_left, List.drop_left, List.drop_left]
  rw [hrest] at hfrac
  simp only [List.drop_left, hfrac, hdrop] at h
  split at h
  · cases h
  · rename_i hne
    obtain ⟨hd, hlen⟩ := Prod.mk.inj (Option.some.inj h)
    have hex : (exponent marker ex).2 = ex.length := by
      simp only [List.length_append] at hlen
      omega
    exact ⟨ip, fp, _, ⟨pt, ex, rfl, hip, hfp, hpt, hne, exponent_text hex⟩, hd.symm⟩

/-! ## Values -/

theorem MagnitudeOf.le {x : Option ℚ} {k : Nat} (h : MagnitudeOf x k) : k ≤ infMagnitude := by
  cases x with
  | none => exact le_of_eq h
  | some x => exact Nearest.le h

theorem MagnitudeOf.unique {x : Option ℚ} {k k' : Nat} (h : MagnitudeOf x k)
    (h' : MagnitudeOf x k') : k = k' := by
  cases x with
  | none => exact Eq.trans h (Eq.symm h')
  | some x => exact Nearest.unique magValue_strictMono h h'

theorem digitVal_lt_of_isxdigit {b : UInt8} (h : isxdigit b = true) : digitVal b < 16 := by
  simp only [isxdigit, isdigit, digitVal, Bool.or_eq_true, Bool.and_eq_true, decide_eq_true_iff,
    UInt8.le_iff_toNat_le] at h ⊢
  have h48 : (48 : UInt8).toNat = 48 := rfl
  have h57 : (57 : UInt8).toNat = 57 := rfl
  have h65 : (65 : UInt8).toNat = 65 := rfl
  have h70 : (70 : UInt8).toNat = 70 := rfl
  have h97 : (97 : UInt8).toNat = 97 := rfl
  have h102 : (102 : UInt8).toNat = 102 := rfl
  split_ifs <;> omega

theorem isxdigit_of_isdigit {b : UInt8} (h : isdigit b = true) : isxdigit b = true := by
  rw [isxdigit, h]
  rfl

/-- Digits in a base up to 16 are below a power of 16. -/
theorem digitsVal_lt {base : Nat} (hbase : base ≤ 16) (hds : ∀ b ∈ ds, isxdigit b = true) :
    digitsVal base ds < 16 ^ ds.length := by
  induction ds using List.reverseRecOn with
  | nil => exact Nat.one_pos
  | append_singleton ds d ih =>
    have hd := digitVal_lt_of_isxdigit (hds d (by simp))
    have hlt := ih (fun b hb => hds b (List.mem_append_left _ hb))
    have hmul : digitsVal base ds * base ≤ digitsVal base ds * 16 := Nat.mul_le_mul_left _ hbase
    rw [digitsVal, List.foldl_append, ← digitsVal, List.length_append, pow_add]
    simp only [List.foldl_cons, List.foldl_nil, List.length_cons, List.length_nil]
    omega

/-- The value of a significand is the nearest double. -/
theorem SignificandText.nearest (h : SignificandText isDig marker s ip fp e)
    (hdig : ∀ b, isDig b = true → isxdigit b = true) {base expBase : Nat} (hbase : base ≤ 16)
    (hexp : 2 ≤ expBase) (shift : Nat) :
    NearestMag (digitsVal base (ip ++ fp) * (expBase : ℚ) ^ (e - shift * fp.length))
      (scaleMag (digitsVal base (ip ++ fp)) (ip.length + fp.length) expBase
        (e - shift * fp.length)) := by
  obtain ⟨-, -, -, hip, hfp, -⟩ := h
  refine scaleMag_nearest ?_ hexp _
  rw [← List.length_append]
  refine digitsVal_lt hbase ?_
  intro b hb
  rcases List.mem_append.mp hb with hb | hb
  · exact hdig b (hip b hb)
  · exact hdig b (hfp b hb)

/-! ## Behind the sign -/

theorem startsWith_iff {word : List UInt8} :
    startsWith word s = true ↔ word <+: s.map tolower := List.isPrefixOf_iff_prefix

theorem startsWith_eq_false {a b : UInt8} {word rest : List UInt8} (h : tolower b ≠ a) :
    startsWith (a :: word) (b :: rest) = false := by
  rw [← Bool.not_eq_true, startsWith_iff, List.map_cons]
  intro hpre
  exact h (List.cons_prefix_cons.mp hpre).1.symm

theorem tolower_of_isdigit {b : UInt8} (h : isdigit b = true ∨ b = 46) :
    tolower b = b ∧ b ≠ 105 ∧ b ≠ 110 ∧ b ≠ 120 := by
  simp only [isdigit, tolower, Bool.and_eq_true, decide_eq_true_iff] at h ⊢
  grind

/-- The first byte of a significand. -/
theorem SignificandText.head (h : SignificandText isDig marker s ip fp e) :
    ∃ b rest, s = b :: rest ∧ (isDig b = true ∨ b = 46) := by
  obtain ⟨pt, ex, rfl, hip, hfp, hpt, hne, -⟩ := h
  cases ip with
  | cons b ip => exact ⟨b, _, rfl, .inl (hip b List.mem_cons_self)⟩
  | nil =>
    rcases hpt with rfl | ⟨rfl, rfl⟩
    · exact ⟨46, _, rfl, .inr rfl⟩
    · exact absurd ⟨rfl, rfl⟩ hne

/-- A decimal significand does not start as a hexadecimal one. -/
theorem SignificandText.not_hex (h : SignificandText isdigit 101 s ip fp e) :
    startsWith [48, 120] s = false := by
  rw [← Bool.not_eq_true, startsWith_iff]
  obtain ⟨pt, ex, rfl, hip, hfp, hpt, hne, hex⟩ := h
  have hno : ∀ (c : UInt8) rest, (isdigit c = true ∨ c = 46) ∨ tolower c = 101 →
      ¬ [120] <+: (c :: rest : List UInt8).map tolower := by
    intro c rest hc hpre
    have h120 : tolower c = 120 := by
      rw [List.map_cons] at hpre
      exact (List.cons_prefix_cons.mp hpre).1.symm
    rcases hc with hc | hc
    · have := tolower_of_isdigit hc
      exact this.2.2.2 (this.1 ▸ h120)
    · rw [h120] at hc
      exact absurd hc (by decide)
  intro hpre
  -- what stands behind a first digit 0
  cases ip with
  | nil =>
    rcases hpt with rfl | ⟨rfl, rfl⟩
    · exact absurd (List.cons_prefix_cons.mp hpre).1 (by decide)
    · exact hne ⟨rfl, rfl⟩
  | cons b ip =>
    rw [List.cons_append, List.map_cons, List.cons_prefix_cons] at hpre
    cases ip with
    | cons c ip => exact hno c _ (.inl (.inl (hip c (by simp)))) hpre.2
    | nil =>
      rcases hpt with rfl | ⟨rfl, rfl⟩
      · exact hno 46 _ (.inl (.inr rfl)) hpre.2
      · rcases hex with ⟨rfl, -⟩ | ⟨c, sgn, neg, ds, rfl, hc, -⟩
        · exact absurd hpre.2 (by decide)
        · exact hno c _ (.inr hc) hpre.2

theorem unsignedDouble_of_text {x : Option ℚ} (neg : Bool) (h : UnsignedText s x) :
    ∃ mag, unsignedDouble neg s = some (.ofMagnitude neg mag, s.length) ∧ MagnitudeOf x mag := by
  cases h with
  | inf h =>
    have hlen : s.length = 3 := by simpa using congrArg List.length h
    refine ⟨infMagnitude, ?_, rfl⟩
    simp only [unsignedDouble, startsWith, h, hlen]
    rfl
  | infinity h =>
    have hlen : s.length = 8 := by simpa using congrArg List.length h
    refine ⟨infMagnitude, ?_, rfl⟩
    simp only [unsignedDouble, startsWith, h, hlen]
    rfl
  | @decimal _ ip fp e h =>
    have hmarker : ∀ c, tolower c = 101 → isdigit c = false ∧ c ≠ 46 := by
      intro c hc
      constructor
      · rw [← Bool.not_eq_true]
        intro hd
        have := tolower_of_isdigit (.inl hd)
        rw [this.1] at hc
        rw [hc] at hd
        exact absurd hd (by decide)
      · rintro rfl
        exact absurd hc (by decide)
    obtain ⟨b, rest, hs, hb⟩ := h.head
    obtain ⟨hlow, hi, hn, -⟩ := tolower_of_isdigit hb
    have hrun : unsignedDouble neg s = significand neg 10 10 1 isdigit 101 s := by
      rw [unsignedDouble, h.not_hex, hs, startsWith_eq_false (by rwa [hlow]),
        startsWith_eq_false (by rwa [hlow]), startsWith_eq_false (by rwa [hlow])]
      rfl
    have hnear : NearestMag (digitsVal 10 (ip ++ fp) * ((10 : Nat) : ℚ) ^ (e - (1 : Nat) * fp.length)) _ :=
      h.nearest (fun b hb => isxdigit_of_isdigit hb) (by decide) (by decide) 1
    refine ⟨_, hrun.trans (significand_of_text neg 10 10 1 (by decide) hmarker h), ?_⟩
    simpa [MagnitudeOf] using hnear
  | @hex s ip fp c e hc h =>
    have hmarker : ∀ c, tolower c = 112 → isxdigit c = false ∧ c ≠ 46 := by
      intro c hc
      simp only [isxdigit, isdigit, tolower] at hc ⊢
      grind
    have hhex : startsWith [48, 120] (48 :: c :: s) = true := by
      rw [startsWith_iff, List.map_cons, List.map_cons, hc]
      exact ⟨s.map tolower, rfl⟩
    have hread := significand_of_text neg 16 2 4 (by decide) hmarker h
    have hrun : unsignedDouble neg (48 :: c :: s) =
        some (.ofMagnitude neg (scaleMag (digitsVal 16 (ip ++ fp)) (ip.length + fp.length) 2
          (e - (4 : Nat) * fp.length)), (48 :: c :: s).length) := by
      rw [unsignedDouble, startsWith_eq_false (by decide), startsWith_eq_false (by decide),
        startsWith_eq_false (by decide), hhex]
      simp only [List.drop_succ_cons, List.drop_zero, hread, Nat.add_comm 2]
      rfl
    have hnear : NearestMag (digitsVal 16 (ip ++ fp) * ((2 : Nat) : ℚ) ^ (e - (4 : Nat) * fp.length)) _ :=
      h.nearest (fun b hb => hb) (by decide) (by decide) 4
    refine ⟨_, hrun, ?_⟩
    simpa [MagnitudeOf] using hnear

/-- A NaN is read as one. -/
theorem isnan_ofMagnitude (neg : Bool) : (ofMagnitude neg (infMagnitude + 2 ^ 51)).isnan = true := by
  cases neg <;> decide

theorem map_tolower_of_length {word : List UInt8} (h : startsWith word s = true)
    (hlen : word.length = s.length) : s.map tolower = word := by
  have hpre := startsWith_iff.mp h
  exact (hpre.eq_of_length (by rw [List.length_map, hlen])).symm

/-- What is read to its end, and is no NaN, is the text of a number. -/
theorem unsignedDouble_text {d : Double} (h : unsignedDouble neg s = some (d, s.length))
    (hnum : d.isnan = false) : ∃ x, UnsignedText s x := by
  have hnan : ∀ n, some (ofMagnitude neg (infMagnitude + 2 ^ 51), n) ≠ some (d, s.length) := by
    intro n he
    rw [← (Prod.mk.inj (Option.some.inj he)).1, isnan_ofMagnitude] at hnum
    cases hnum
  rw [unsignedDouble] at h
  split at h
  · rename_i hword
    obtain ⟨-, hlen⟩ := Prod.mk.inj (Option.some.inj h)
    exact ⟨_, .infinity (map_tolower_of_length hword hlen)⟩
  · split at h
    · rename_i hword
      obtain ⟨-, hlen⟩ := Prod.mk.inj (Option.some.inj h)
      exact ⟨_, .inf (map_tolower_of_length hword hlen)⟩
    · split at h
      · -- the texts of NaNs
        simp only at h
        split at h
        · split at h
          · exact absurd h (hnan _)
          · exact absurd h (hnan _)
        · exact absurd h (hnan _)
      · split at h
        · rename_i hword
          obtain ⟨b, c, rest, rfl, hb, hc⟩ : ∃ b c rest, s = b :: c :: rest ∧ tolower b = 48 ∧
              tolower c = 120 := by
            obtain ⟨rest', hrest'⟩ := startsWith_iff.mp hword
            rcases s with _ | ⟨b, _ | ⟨c, rest⟩⟩
            · simp at hrest'
            · simp at hrest'
            · simp only [List.map_cons, List.cons_append, List.cons.injEq] at hrest'
              exact ⟨b, c, rest, rfl, hrest'.1.symm, hrest'.2.1.symm⟩
          have hb0 : b = 48 := by
            simp only [tolower] at hb
            grind
          subst hb0
          simp only [List.drop_succ_cons, List.drop_zero] at h
          split at h
          · rename_i d' len hread
            obtain ⟨rfl, hlen⟩ := Prod.mk.inj (Option.some.inj h)
            have hfull : len = rest.length := by
              simp only [List.length_cons] at hlen
              omega
            rw [hfull] at hread
            obtain ⟨ip, fp, e, htext, -⟩ := significand_text hread
            exact ⟨_, .hex hc htext⟩
          · obtain ⟨-, hlen⟩ := Prod.mk.inj (Option.some.inj h)
            simp only [List.length_cons] at hlen
            omega
        · obtain ⟨ip, fp, e, htext, -⟩ := significand_text h
          exact ⟨_, .decimal htext⟩

/-! ## `strtod` -/

/-- The first byte behind a sign. -/
theorem UnsignedText.head {x : Option ℚ} (h : UnsignedText s x) :
    ∃ b rest, s = b :: rest ∧ isspace b = false ∧ b ≠ 43 ∧ b ≠ 45 := by
  have hletter : ∀ {b : UInt8}, tolower b = 105 → isspace b = false ∧ b ≠ 43 ∧ b ≠ 45 := by
    intro b hb
    simp only [tolower, isspace] at hb ⊢
    grind
  have hdigit : ∀ {b : UInt8}, isdigit b = true ∨ b = 46 →
      isspace b = false ∧ b ≠ 43 ∧ b ≠ 45 := by
    intro b hb
    simp only [isdigit, isspace, Bool.and_eq_true, decide_eq_true_iff] at hb ⊢
    grind
  cases h with
  | inf h =>
    obtain ⟨b, rest, rfl, hb, -⟩ := List.map_eq_cons_iff.mp h
    exact ⟨b, rest, rfl, hletter hb⟩
  | infinity h =>
    obtain ⟨b, rest, rfl, hb, -⟩ := List.map_eq_cons_iff.mp h
    exact ⟨b, rest, rfl, hletter hb⟩
  | decimal h =>
    obtain ⟨b, rest, hs, hb⟩ := h.head
    exact ⟨b, rest, hs, hdigit hb⟩
  | hex hc h => exact ⟨48, _, rfl, hdigit (.inl (by decide))⟩

theorem DenotesDouble.nonempty {d : Double} (h : DenotesDouble s d) : s ≠ [] := by
  rintro rfl
  obtain ⟨space, sgn, body, x, hs, -, -, hbody, -⟩ := h
  obtain ⟨b, rest, rfl, -⟩ := hbody.head
  simp at hs

/-- `strtod` reads the text of a number to its end, and gives the nearest double. -/
theorem DenotesDouble.strtod_eq {d : Double} (h : DenotesDouble s d) :
    strtod s = (d, s.length) ∧ d.isnan = false := by
  obtain ⟨space, sgn, body, x, rfl, hspace, hsgn, hbody, hmag⟩ := h
  obtain ⟨b, rest, hb, hsp, hplus, hminus⟩ := hbody.head
  have hscan : (space ++ (sgn ++ body)).takeWhile isspace = space := by
    refine takeWhile_append_stop hspace ?_
    intro c hc
    rcases hsgn with ⟨rfl | rfl, -⟩ | ⟨rfl, -⟩
    · rw [List.nil_append, hb] at hc
      cases hc
      exact hsp
    · cases hc
      decide
    · cases hc
      decide
  have hsign : sign (sgn ++ body) = (d.bits.msb, sgn.length) := by
    refine sign_of_text hsgn ?_
    intro c hc
    rw [hb] at hc
    cases hc
    exact ⟨hplus, hminus⟩
  have hdrop : (space ++ (sgn ++ body)).drop (space.length + sgn.length) = body := by
    rw [← List.drop_drop, List.drop_left, List.drop_left]
  obtain ⟨mag, hrun, hmag'⟩ := unsignedDouble_of_text d.bits.msb hbody
  have hle := hmag.le
  obtain rfl := hmag.unique hmag'
  have hinf : infMagnitude < 2 ^ 63 := by decide
  have hd : ofMagnitude d.bits.msb d.magnitude = d :=
    ext_magnitude (msb_ofMagnitude (by omega)) (magnitude_ofMagnitude (by omega))
  constructor
  · simp only [strtod, hscan, List.drop_left, hsign, hdrop, hrun, hd]
    rw [List.length_append, List.length_append, Nat.add_assoc]
  · exact decide_eq_false (by omega)

/-- **`strtod`** reads a string to its end, without finding a NaN, if and only if the
string is empty or the text of a number, and its value is the nearest double. -/
theorem strtod_iff (s : List UInt8) (d : Double) :
    ((strtod s).2 = s.length ∧ (strtod s).1.isnan = false) ∧ (strtod s).1 = d ↔
      s = [] ∧ d = ⟨0⟩ ∨ DenotesDouble s d := by
  constructor
  · rintro ⟨⟨hlen, hnum⟩, rfl⟩
    have hsplit := List.takeWhile_append_dropWhile (p := isspace) (l := s)
    have hspace : ∀ b ∈ s.takeWhile isspace, isspace b = true :=
      fun b hb => List.mem_takeWhile_imp hb
    generalize hsp : s.takeWhile isspace = space at hsplit hspace
    obtain ⟨sgn, body, neg, hbody, hsign, hsgn⟩ := sign_spec (s.dropWhile isspace)
    obtain rfl : s = space ++ (sgn ++ body) := by rw [← hsplit, hbody]
    rw [hbody] at hsign
    have hdrop : (space ++ (sgn ++ body)).drop (space.length + sgn.length) = body := by
      rw [← List.drop_drop, List.drop_left, List.drop_left]
    cases hrun : unsignedDouble neg body with
    | none =>
      simp only [strtod, hsp, List.drop_left, hsign, hdrop, hrun] at hlen ⊢
      exact .inl ⟨List.length_eq_zero_iff.mp hlen.symm, trivial⟩
    | some r =>
      obtain ⟨d, len⟩ := r
      simp only [strtod, hsp, List.drop_left, hsign, hdrop, hrun] at hlen hnum ⊢
      have hfull : len = body.length := by
        simp only [List.length_append] at hlen
        omega
      rw [hfull] at hrun
      obtain ⟨x, hx⟩ := unsignedDouble_text hrun hnum
      obtain ⟨mag, hrun', hmag⟩ := unsignedDouble_of_text neg hx
      rw [hrun'] at hrun
      obtain ⟨rfl, -⟩ := Prod.mk.inj (Option.some.inj hrun)
      have hinf : infMagnitude < 2 ^ 63 := by decide
      have hle := hmag.le
      refine .inr ⟨space, sgn, body, x, rfl, hspace, ?_, hx, ?_⟩
      · rw [msb_ofMagnitude (by omega)]
        exact hsgn
      · rw [magnitude_ofMagnitude (by omega)]
        exact hmag
  · rintro (⟨rfl, rfl⟩ | h)
    · decide
    · obtain ⟨hrun, hnum⟩ := h.strtod_eq
      rw [hrun]
      exact ⟨⟨rfl, hnum⟩, rfl⟩

/-- The byte 16 is not the digit 0, which differs from it in the bit that tells capital
letters from small ones. -/
example : strtod [16, 120, 49] = (⟨0⟩, 0) := by decide

end CNumber
