import ByoRedis.Lib.Double

/-!
# Lib — numbers in C strings

`strtoll` in base 10 and `strtod`, as the C standard specifies them in the
"C" locale: the value, and how many bytes of the string were read (the
distance from the string to `*endp`). The bytes of the string end where its
terminating NUL is, and a NUL among them stops the scan like any other byte
that does not belong to a number.
-/

namespace CNumber

/-- `isspace`. -/
def isspace (b : UInt8) : Bool := b == 32 || (9 ≤ b && b ≤ 13)

/-- `tolower`. -/
def tolower (b : UInt8) : UInt8 := if 65 ≤ b && b ≤ 90 then b + 32 else b

/-- `isdigit`. -/
def isdigit (b : UInt8) : Bool := 48 ≤ b && b ≤ 57

/-- The value of a digit in a base up to 16. -/
def digitVal (b : UInt8) : Nat :=
  if isdigit b then b.toNat - 48 else if 97 ≤ b then b.toNat - 87 else b.toNat - 55

/-- `isxdigit`. -/
def isxdigit (b : UInt8) : Bool := isdigit b || (65 ≤ b && b ≤ 70) || (97 ≤ b && b ≤ 102)

/-- The number that digits stand for. -/
def digitsVal (base : Nat) (ds : List UInt8) : Nat :=
  ds.foldl (fun n d => n * base + digitVal d) 0

/-- An optional sign: whether it is a minus, and how many bytes it takes. -/
def sign : List UInt8 → Bool × Nat
  | 43 :: _ => (false, 1)
  | 45 :: _ => (true, 1)
  | _ => (false, 0)

/-! ## Integers -/

/-- `LLONG_MAX`. -/
def llongMax : Int := 2 ^ 63 - 1

/-- `LLONG_MIN`. -/
def llongMin : Int := -2 ^ 63

/-- The nearest `long long`. -/
def llong (n : Int) : Int := max llongMin (min llongMax n)

/-- `strtoll(s, &endp, 10)`: without a digit nothing is converted; a value out
of range is replaced by the nearest end of the range. -/
def strtoll (s : List UInt8) : Int × Nat :=
  let space := (s.takeWhile isspace).length
  let (neg, signLen) := sign (s.drop space)
  let ds := (s.drop (space + signLen)).takeWhile isdigit
  if ds = [] then (0, 0)
  else
    let n : Int := if neg then -(digitsVal 10 ds : Int) else digitsVal 10 ds
    (llong n, space + signLen + ds.length)

theorem llong_range (n : Int) : -2 ^ 63 ≤ llong n ∧ llong n < 2 ^ 63 := by
  have h1 : llongMin = -2 ^ 63 := rfl
  have h2 : llongMax = 2 ^ 63 - 1 := rfl
  unfold llong
  omega

theorem strtoll_range (s : List UInt8) : -2 ^ 63 ≤ (strtoll s).1 ∧ (strtoll s).1 < 2 ^ 63 := by
  unfold strtoll
  simp only
  split
  · decide
  · exact llong_range _

/-- The whole string is the text of an integer in base 10: white space, a sign,
and digits, of which only the digits have to be there. -/
def Denotes (s : List UInt8) (n : Int) : Prop :=
  ∃ space sgn ds, s = space ++ (sgn ++ ds) ∧ (∀ b ∈ space, isspace b = true) ∧ ds ≠ [] ∧
    (∀ b ∈ ds, isdigit b = true) ∧
    ((sgn = [] ∨ sgn = [43]) ∧ n = digitsVal 10 ds ∨ sgn = [45] ∧ n = -(digitsVal 10 ds : Int))

theorem isspace_eq_false_of_isdigit {b : UInt8} (h : isdigit b = true) : isspace b = false := by
  simp only [isdigit, isspace, Bool.and_eq_true, decide_eq_true_iff] at h ⊢
  grind

/-- Digits are no sign. -/
theorem sign_of_digits {ds : List UInt8} (h : ∀ b ∈ ds, isdigit b = true) :
    sign ds = (false, 0) := by
  unfold sign
  split
  · exact absurd (h 43 List.mem_cons_self) (by decide)
  · exact absurd (h 45 List.mem_cons_self) (by decide)
  · rfl

/-- The sign, and what it is in front of. -/
theorem sign_spec (s : List UInt8) : ∃ sgn rest neg, s = sgn ++ rest ∧ sign s = (neg, sgn.length) ∧
    ((sgn = [] ∨ sgn = [43]) ∧ neg = false ∨ sgn = [45] ∧ neg = true) := by
  unfold sign
  split
  · exact ⟨[43], _, false, rfl, rfl, .inl ⟨.inr rfl, rfl⟩⟩
  · exact ⟨[45], _, true, rfl, rfl, .inr ⟨rfl, rfl⟩⟩
  · exact ⟨[], s, false, rfl, rfl, .inl ⟨.inl rfl, rfl⟩⟩

/-- A scan stops at the first byte that does not belong. -/
theorem takeWhile_append_stop {p : UInt8 → Bool} {xs ys : List UInt8} (hx : ∀ b ∈ xs, p b = true)
    (hy : ∀ b ∈ ys.head?, p b = false) : (xs ++ ys).takeWhile p = xs := by
  rw [List.takeWhile_append_of_pos hx]
  cases ys with
  | nil => simp
  | cons y ys => simp [hy y rfl]

/-- The scans of `strtoll` take the text of an integer apart. -/
theorem Denotes.scan {s : List UInt8} {n : Int} (h : Denotes s n) :
    ∃ neg signLen ds, sign (s.drop (s.takeWhile isspace).length) = (neg, signLen) ∧
      (s.drop ((s.takeWhile isspace).length + signLen)).takeWhile isdigit = ds ∧ ds ≠ [] ∧
      n = (if neg then -(digitsVal 10 ds : Int) else digitsVal 10 ds) ∧
      (s.takeWhile isspace).length + signLen + ds.length = s.length := by
  obtain ⟨space, sgn, ds, rfl, hspace, hne, hds, hn⟩ := h
  obtain ⟨d, rest, rfl⟩ := List.exists_cons_of_ne_nil hne
  have hd : isspace d = false := isspace_eq_false_of_isdigit (hds d List.mem_cons_self)
  have hscan : (space ++ (sgn ++ d :: rest)).takeWhile isspace = space := by
    apply takeWhile_append_stop hspace
    intro b hb
    rcases hn with ⟨rfl | rfl, -⟩ | ⟨rfl, -⟩
    · cases hb
      exact hd
    · cases hb
      decide
    · cases hb
      decide
  have hdrop : (space ++ (sgn ++ d :: rest)).drop (space.length + sgn.length) = d :: rest := by
    rw [← List.drop_drop, List.drop_left, List.drop_left]
  have hlen : space.length + sgn.length + (d :: rest).length =
      (space ++ (sgn ++ d :: rest)).length := by
    rw [List.length_append, List.length_append, Nat.add_assoc]
  obtain ⟨neg, hsign, hval⟩ : ∃ neg, sign (sgn ++ d :: rest) = (neg, sgn.length) ∧
      n = if neg then -(digitsVal 10 (d :: rest) : Int) else digitsVal 10 (d :: rest) := by
    rcases hn with ⟨rfl | rfl, rfl⟩ | ⟨rfl, rfl⟩
    · exact ⟨false, sign_of_digits hds, rfl⟩
    · exact ⟨false, rfl, rfl⟩
    · exact ⟨true, rfl, rfl⟩
  refine ⟨neg, sgn.length, d :: rest, ?_, ?_, hne, hval, ?_⟩
  · rw [hscan, List.drop_left]
    exact hsign
  · rw [hscan, hdrop]
    exact List.takeWhile_eq_self_iff.mpr hds
  · rw [hscan]
    exact hlen

/-- `strtoll` reads the text of an integer to its end. -/
theorem Denotes.strtoll_eq {s : List UInt8} {n : Int} (h : Denotes s n) :
    strtoll s = (llong n, s.length) := by
  obtain ⟨neg, signLen, ds, hsign, hds, hne, hn, hlen⟩ := h.scan
  simp only [strtoll, hsign, hds, if_neg hne, hlen]
  rw [hn]

/-- A text stands for one integer. -/
theorem Denotes.unique {s : List UInt8} {n k : Int} (hn : Denotes s n) (hk : Denotes s k) :
    n = k := by
  obtain ⟨neg, signLen, ds, hsign, hds, -, rfl, -⟩ := hn.scan
  obtain ⟨neg', signLen', ds', hsign', hds', -, rfl, -⟩ := hk.scan
  obtain ⟨rfl, rfl⟩ := Prod.mk.inj (hsign.symm.trans hsign')
  rw [← hds, ← hds']

/-- What `strtoll` reads to its end is the text of an integer, or empty. -/
theorem denotes_of_strtoll {s : List UInt8} (h : (strtoll s).2 = s.length) :
    s = [] ∨ ∃ n, Denotes s n := by
  have hsplit := List.takeWhile_append_dropWhile (p := isspace) (l := s)
  have hspace : ∀ b ∈ s.takeWhile isspace, isspace b = true := fun b hb => List.mem_takeWhile_imp hb
  generalize hsp : s.takeWhile isspace = space at hsplit hspace
  obtain ⟨sgn, rest, neg, hrest, hsign, hneg⟩ := sign_spec (s.dropWhile isspace)
  rw [hrest] at hsplit hsign
  have hdrop : s.drop space.length = sgn ++ rest := by rw [← hsplit, List.drop_left]
  have hdrop' : s.drop (space.length + sgn.length) = rest := by
    rw [← List.drop_drop, hdrop, List.drop_left]
  simp only [strtoll, hsp, hdrop, hsign, hdrop'] at h
  split at h
  · exact .inl (List.length_eq_zero_iff.mp h.symm)
  · rename_i hne
    right
    -- the digits reach to the end
    have hlen : (rest.takeWhile isdigit).length = rest.length := by
      rw [← hsplit, List.length_append, List.length_append] at h
      omega
    have hall : rest.takeWhile isdigit = rest :=
      (List.takeWhile_prefix isdigit).eq_of_length hlen
    rw [hall] at hne
    have hds := List.takeWhile_eq_self_iff.mp hall
    rcases hneg with ⟨hs, rfl⟩ | ⟨hs, rfl⟩
    · exact ⟨_, space, sgn, rest, hsplit.symm, hspace, hne, hds, .inl ⟨hs, rfl⟩⟩
    · exact ⟨_, space, sgn, rest, hsplit.symm, hspace, hne, hds, .inr ⟨hs, rfl⟩⟩

/-! ## Floating point -/

/-- `num / den`, rounded to the nearest integer, ties to even. -/
def roundHalfEven (num den : Nat) : Nat :=
  let q := num / den
  let r := num % den
  if den < 2 * r ∨ (2 * r = den ∧ q % 2 = 1) then q + 1 else q

/-- The exponent `e` with `2^e ≤ num / den < 2^(e+1)`. -/
def floorLog2 (num den : Nat) : Int :=
  let e : Int := (Nat.log2 num : Int) - Nat.log2 den
  if (if 0 ≤ e then num < den * 2 ^ e.toNat else num * 2 ^ (-e).toNat < den) then e - 1 else e

/-- The magnitude of the double nearest to `num / den`. `q` is the weight of the
last bit of the significand; a significand that rounds up to `2^53` carries into
the exponent, and past the largest exponent the result is an infinity. -/
def roundMag (num den : Nat) : Nat :=
  if num = 0 then 0
  else
    let q := max (floorLog2 num den) (-1022) - 52
    let m :=
      if 0 ≤ q then roundHalfEven num (den * 2 ^ q.toNat)
      else roundHalfEven (num * 2 ^ (-q).toNat) den
    min ((q + 1074).toNat * 2 ^ 52 + m) Double.infMagnitude

/-- The magnitude of the double nearest to `m * base^e`, for an `m` of `n`
digits. A number that is out of reach of every double is not multiplied out. -/
def scaleMag (m n : Nat) (base : Nat) (e : Int) : Nat :=
  if m = 0 then 0
  else if 1100 < e then Double.infMagnitude
  else if e + 4 * n < -1200 then 0
  else if 0 ≤ e then roundMag (m * base ^ e.toNat) 1
  else roundMag m (base ^ (-e).toNat)

/-- An exponent part (`e` or `p`, optional sign, digits): its value and
length, nothing when a digit is missing. -/
def exponent (marker : UInt8) : List UInt8 → Int × Nat
  | c :: rest =>
    if tolower c = marker then
      let (neg, signLen) := sign rest
      let ds := (rest.drop signLen).takeWhile isdigit
      if ds = [] then (0, 0)
      else
        (if neg then -(digitsVal 10 ds : Int) else digitsVal 10 ds, 1 + signLen + ds.length)
    else (0, 0)
  | [] => (0, 0)

/-- The digits behind an optional point, and the length of the point. -/
def fraction (isDig : UInt8 → Bool) : List UInt8 → List UInt8 × Nat
  | 46 :: rest => (rest.takeWhile isDig, 1)
  | _ => ([], 0)

/-- Digits with an optional point and exponent part; `expBase` is what the
exponent is a power of, and `pointShift` how much of it a digit behind the
point is worth. Nothing when there is no digit at all. -/
def significand (neg : Bool) (base expBase : Nat) (pointShift : Nat) (isDig : UInt8 → Bool)
    (marker : UInt8) (s : List UInt8) : Option (Double × Nat) :=
  let ip := s.takeWhile isDig
  let (fp, pointLen) := fraction isDig (s.drop ip.length)
  if ip = [] ∧ fp = [] then none
  else
    let len := ip.length + pointLen + fp.length
    let (e, expLen) := exponent marker (s.drop len)
    let mag := scaleMag (digitsVal base (ip ++ fp)) (ip.length + fp.length) expBase
      (e - pointShift * fp.length)
    some (.ofMagnitude neg mag, len + expLen)

/-- Whether the string starts with a lower-case word, whose letters may be in
any case. -/
def startsWith (word s : List UInt8) : Bool := word.isPrefixOf (s.map tolower)

/-- The characters allowed between the parentheses of a NaN. -/
def isNanChar (b : UInt8) : Bool :=
  isdigit b || (65 ≤ b && b ≤ 90) || (97 ≤ b && b ≤ 122) || b == 95

/-- What follows the sign: the value and the length, nothing when there is no
number. -/
def unsignedDouble (neg : Bool) (s : List UInt8) : Option (Double × Nat) :=
  -- "infinity", "inf"
  if startsWith [105, 110, 102, 105, 110, 105, 116, 121] s then
    some (.ofMagnitude neg Double.infMagnitude, 8)
  else if startsWith [105, 110, 102] s then
    some (.ofMagnitude neg Double.infMagnitude, 3)
  -- "nan", "nan(...)"
  else if startsWith [110, 97, 110] s then
    let nan := Double.ofMagnitude neg (Double.infMagnitude + 2 ^ 51)
    match s.drop 3 with
    | 40 :: rest =>
      let chars := rest.takeWhile isNanChar
      if rest[chars.length]? = some 41 then some (nan, 5 + chars.length) else some (nan, 3)
    | _ => some (nan, 3)
  -- hexadecimal
  else if startsWith [48, 120] s then
    match significand neg 16 2 4 isxdigit 112 (s.drop 2) with
    | some (d, len) => some (d, 2 + len)
    | none => some (.ofMagnitude neg 0, 1)
  else significand neg 10 10 1 isdigit 101 s

/-- `strtod(s, &endp)`. -/
def strtod (s : List UInt8) : Double × Nat :=
  let space := (s.takeWhile isspace).length
  let (neg, signLen) := sign (s.drop space)
  match unsignedDouble neg (s.drop (space + signLen)) with
  | none => (⟨0⟩, 0)
  | some (d, len) => (d, space + signLen + len)

end CNumber
