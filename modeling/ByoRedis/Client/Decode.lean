import ByoRedis.Client.ResponseFrame

/-!
# Client — what the decoder accepts

`print_response` checks every length that the peer has chosen against the size
of the data, but the sums in these checks are `uint32_t`: a string whose length
is within 5 of `2^32`, or an error within 9, passes as a short one. Its text is
then printed with a negative precision, that is up to a NUL, and the decoder
goes on at the wrapped sum. `Behind` says what stands in the data behind whole
frames; as long as no such length does, the decoder is right. `Past` and `Reached`
say where it comes to in any case.
-/

namespace ByoRedis.Client

open ByteBuf

/-- The decoder does what it should on `data`: it reads nothing outside of it,
returns -1 or a positive number, and the number `n` exactly if the first `n`
bytes are one frame. -/
def Decodes (data : Bytes) : Prop :=
  ∃ rv lines, printResponse data = some (rv, lines) ∧ (rv = -1 ∨ 0 < rv) ∧
    ∀ n : Nat, 0 < n → (rv = n ↔ n ≤ data.length ∧ IsFrame (data.take n))

/-- A string or an error whose length makes the sum of its check wrap: to `j`,
with `text` behind the length. -/
inductive WrapsTo : Bytes → Nat → Bytes → Prop
  | string {len : Nat} (text : Bytes) (h : 2 ^ 32 - 5 ≤ len) (h' : len < 2 ^ 32) :
      WrapsTo (Tag.string.byte :: (le 4 len ++ text)) (len - (2 ^ 32 - 5)) text
  | error {code : Bytes} {len : Nat} (text : Bytes) (hc : code.length = 4)
      (h : 2 ^ 32 - 9 ≤ len) (h' : len < 2 ^ 32) :
      WrapsTo (Tag.error.byte :: (code ++ le 4 len ++ text)) (len - (2 ^ 32 - 9)) text

/-- The bytes begin with a length that wraps. -/
def Wrapped (s : Bytes) : Prop := ∃ j text, WrapsTo s j text

/-- They do, and no NUL stops the printing of the text. -/
def Overread (s : Bytes) : Prop := ∃ j text, WrapsTo s j text ∧ 0 ∉ text

/-- `s` stands in the data behind whole frames: at its front, or as an element of an
array that has only frames before it. -/
inductive Behind : Bytes → Bytes → Prop
  | front (data : Bytes) : Behind data data
  | elem {n : Nat} {fs : List Bytes} {r s : Bytes} (hn : n < 2 ^ 32) (hi : fs.length < n)
      (hfs : ∀ f ∈ fs, IsFrame f) (h : Behind r s) :
      Behind (Tag.array.byte :: (le 4 n ++ (fs.flatten ++ r))) s

/-- `n` elements of the first bytes are gone past, which leaves the second: each
one a frame, or a length that wraps, or an array of such. -/
inductive Past : Nat → Bytes → Bytes → Prop
  | zero (s : Bytes) : Past 0 s s
  | frame {n : Nat} {f s rest : Bytes} (hf : IsFrame f) (h : Past n s rest) :
      Past (n + 1) (f ++ s) rest
  | wrapped {n j : Nat} {s text rest : Bytes} (hw : WrapsTo s j text) (h0 : 0 ∈ text)
      (h : Past n (s.drop j) rest) : Past (n + 1) s rest
  | array {m n : Nat} {elems s rest : Bytes} (hm : m < 2 ^ 32) (he : Past m elems s)
      (h : Past n s rest) : Past (n + 1) (Tag.array.byte :: (le 4 m ++ elems)) rest

/-- `s` is where the decoder comes to in `data`. -/
inductive Reached : Bytes → Bytes → Prop
  | here (data : Bytes) : Reached data data
  | elem {n i : Nat} {elems r s : Bytes} (hn : n < 2 ^ 32) (hi : i < n) (hp : Past i elems r)
      (h : Reached r s) : Reached (Tag.array.byte :: (le 4 n ++ elems)) s

variable {data : Bytes}

/-! ## A length that wraps -/

theorem printfStr_negative {len : Nat} (text : Bytes) (h : 2 ^ 31 ≤ len) :
    printfStr text len = if 0 ∈ text then some (text.takeWhile (· ≠ 0)) else none := by
  rw [printfStr, if_neg (by omega)]

/-- The sum `k + len` of the check, returned as an `int32_t`. -/
theorem toInt32_wrap {k len : Nat} (hk : k < 2 ^ 31) (h : 2 ^ 32 - k ≤ len) (h' : len < 2 ^ 32) :
    toInt32 (k + len) = ((len - (2 ^ 32 - k) : Nat) : Int) := by
  have hsum : ((k + len : Nat) : Int) =
      ((len - (2 ^ 32 - k) : Nat) : Int) + ((2 ^ 32 : Nat) : Int) := by omega
  rw [← toInt32_of_lt (show len - (2 ^ 32 - k) < 2 ^ 31 by omega)]
  show Int.bmod _ _ = Int.bmod _ _
  rw [hsum, Int.add_bmod_right]

theorem WrapsTo.le_length {j : Nat} {text : Bytes} (h : WrapsTo data j text) :
    j ≤ data.length := by
  cases h with
  | string text h h' =>
    simp
    omega
  | error text hc h h' =>
    simp [hc]
    omega

/-- The decoder takes it for `j` bytes, if a NUL stops the printing. -/
theorem printResponse_wrapsTo {j : Nat} {text : Bytes} (h : WrapsTo data j text) :
    ∃ lines, printResponse data = if 0 ∈ text then some ((j : Int), lines) else none := by
  cases h with
  | @string len _ h h' =>
    refine ⟨[.str (text.takeWhile (· ≠ 0))], ?_⟩
    rw [printResponse_string_eq h' rfl, if_neg (by simp; omega), printfStr_negative text (by omega),
      toInt32_wrap (by omega) h h']
    split
    · rfl
    · rfl
  | @error code len _ hc h h' =>
    refine ⟨[.err (toInt32 (ofLe code)) (text.takeWhile (· ≠ 0))], ?_⟩
    rw [printResponse_error_eq hc h' rfl, if_neg (by simp [hc]; omega),
      printfStr_negative text (by omega), toInt32_wrap (by omega) h h']
    split
    · rfl
    · rfl

/-! ## Going past elements -/

theorem Past.suffix {n : Nat} {s rest : Bytes} (h : Past n s rest) : rest <:+ s := by
  induction h with
  | zero s => exact List.suffix_refl s
  | frame hf h ih => exact ih.trans (List.suffix_append ..)
  | wrapped hw h0 h ih => exact ih.trans (List.drop_suffix ..)
  | array hm he h ihe ih =>
    exact ih.trans (ihe.trans ((List.suffix_append ..).trans (List.suffix_cons ..)))

/-- One element after the others. -/
theorem Past.trans {m n : Nat} {s r rest : Bytes} (h : Past m s r) (h' : Past n r rest) :
    Past (m + n) s rest := by
  induction h with
  | zero s =>
    rw [Nat.zero_add]
    exact h'
  | frame hf h ih =>
    rw [Nat.add_right_comm]
    exact .frame hf (ih h')
  | wrapped hw h0 h ih =>
    rw [Nat.add_right_comm]
    exact .wrapped hw h0 (ih h')
  | array hm he h ihe ih =>
    rw [Nat.add_right_comm]
    exact .array hm he (ih h')

/-- One turn of the loop over the elements. -/
theorem printElems_step {lines : List Line} {s : Bytes} (n k : Nat) (hs : s <:+ data)
    (hrun : printResponse data = some (((data.length - s.length : Nat) : Int), lines)) :
    printElems (n + 1) data k =
      (printElems n s (k + (data.length - s.length))).map fun x => (x.1, lines ++ x.2) := by
  rw [printElems.eq_def]
  simp only [hrun, Option.bind_eq_bind, Option.bind_some, Int.toNat_natCast]
  rw [if_neg (by omega), if_neg (by omega), ← List.suffix_iff_eq_drop.mp hs, Option.map_eq_bind]
  rfl

/-- `i` turns of the loop over the elements lead from `s` to `r`. -/
def Skips (i : Nat) (s r : Bytes) (k : Nat) : Prop :=
  ∃ lines, ∀ m, printElems (i + m) s k =
    (printElems m r (k + (s.length - r.length))).map fun x => (x.1, lines ++ x.2)

theorem Skips.cons {n k : Nat} {lines : List Line} {s rest : Bytes} (hs : s <:+ data)
    (hrest : rest <:+ s)
    (hrun : printResponse data = some (((data.length - s.length : Nat) : Int), lines))
    (h : Skips n s rest (k + (data.length - s.length))) : Skips (n + 1) data rest k := by
  obtain ⟨lines', h⟩ := h
  refine ⟨lines ++ lines', fun m => ?_⟩
  have h1 := hs.length_le
  have h2 := hrest.length_le
  rw [Nat.add_right_comm, printElems_step (n + m) k hs hrun, h m, Option.map_map,
    show k + (data.length - s.length) + (s.length - rest.length) =
      k + (data.length - rest.length) by omega]
  congr 1
  funext x
  simp

/-- A whole array, once its elements are skipped. -/
theorem printResponse_skips {n : Nat} {elems s : Bytes} (hn : n < 2 ^ 32)
    (hsize : (Tag.array.byte :: (le 4 n ++ elems)).length ≤ 4096) (hs : s <:+ elems)
    (h : Skips n elems s (1 + 4)) :
    ∃ lines, printResponse (Tag.array.byte :: (le 4 n ++ elems)) =
      some ((((Tag.array.byte :: (le 4 n ++ elems)).length - s.length : Nat) : Int), lines) := by
  obtain ⟨lines, h⟩ := h
  have hle := hs.length_le
  rw [List.length_cons, List.length_append, length_le] at hsize ⊢
  have h0 := h 0
  rw [Nat.add_zero, printElems.eq_def 0, Option.map_some,
    toInt32_of_lt (show 1 + 4 + (elems.length - s.length) < 2 ^ 31 by omega)] at h0
  rw [show 4 + elems.length + 1 - s.length = 1 + 4 + (elems.length - s.length) by omega]
  exact ⟨_, printResponse_array hn rfl h0⟩

/-- **What is gone past, the loop goes past.** -/
theorem Past.skips {i : Nat} {s r : Bytes} (h : Past i s r) :
    ∀ k, k + s.length ≤ 4096 → Skips i s r k := by
  -- by induction on the elements; an array is itself a run of the loop, to its end
  induction h with
  | zero s =>
    intro k hk
    refine ⟨[], fun m => ?_⟩
    simp
  | @frame n f s rest hf h ih =>
    intro k hk
    obtain ⟨lines, hrun⟩ := printResponse_frame hf s (by omega)
    have hlen : (f ++ s).length - s.length = f.length := by simp
    apply Skips.cons (List.suffix_append f s) h.suffix (by rw [hlen]; exact hrun)
    apply ih
    rw [hlen, Nat.add_assoc, ← List.length_append]
    exact hk
  | @wrapped n j s text rest hw h0 h ih =>
    intro k hk
    have hj := hw.le_length
    obtain ⟨lines, hrun⟩ := printResponse_wrapsTo hw
    rw [if_pos h0] at hrun
    have hlen : s.length - (s.drop j).length = j := by
      rw [List.length_drop]
      omega
    apply Skips.cons (List.drop_suffix j s) h.suffix (by rw [hlen]; exact hrun)
    apply ih
    rw [hlen, List.length_drop]
    omega
  | @array m n elems s rest hm he h ihe ih =>
    intro k hk
    have hle := he.suffix.length_le
    have hsize : (Tag.array.byte :: (le 4 m ++ elems)).length ≤ 4096 := by omega
    have hl : (Tag.array.byte :: (le 4 m ++ elems)).length = 1 + 4 + elems.length := by
      simp
      omega
    have hsuf : s <:+ Tag.array.byte :: (le 4 m ++ elems) :=
      he.suffix.trans ((List.suffix_append ..).trans (List.suffix_cons ..))
    obtain ⟨lines, hrun⟩ := printResponse_skips hm hsize he.suffix (ihe (1 + 4) (by omega))
    apply Skips.cons hsuf h.suffix hrun
    apply ih
    omega

/-- A single element that is gone past. -/
theorem Past.run {s rest : Bytes} (h : Past 1 s rest) (hsize : s.length ≤ 4096) :
    ∃ lines, printResponse s = some (((s.length - rest.length : Nat) : Int), lines) := by
  obtain ⟨lines, hskip⟩ := h.skips 0 (by omega)
  have h0 := hskip 0
  rw [Nat.add_zero, printElems.eq_def 0, Option.map_some, Nat.zero_add,
    toInt32_of_lt (show s.length - rest.length < 2 ^ 31 by omega), printElems.eq_def] at h0
  simp only [Option.bind_eq_bind, Option.bind_eq_some_iff] at h0
  obtain ⟨⟨rv, lines'⟩, hrun, h0⟩ := h0
  refine ⟨lines', hrun.trans ?_⟩
  simp only at h0
  split at h0
  · have := congrArg Prod.fst (Option.some.inj h0)
    simp only at this
    omega
  · split at h0
    · cases h0
    · rw [printElems.eq_def] at h0
      have := congrArg Prod.fst (Option.some.inj h0)
      simp only [Nat.zero_add] at this
      rw [toInt32_of_lt (by omega)] at this
      rw [show rv = ((s.length - rest.length : Nat) : Int) by omega]

/-- Where a text is read beyond the data, so is the whole response. -/
theorem Reached.run_none {s : Bytes} (h : Reached data s) (hs : Overread s)
    (hsize : data.length ≤ 4096) : printResponse data = none := by
  induction h with
  | here data =>
    obtain ⟨j, text, hw, h0⟩ := hs
    obtain ⟨lines, hrun⟩ := printResponse_wrapsTo hw
    rw [hrun, if_neg h0]
  | @elem n i elems r s hn hi hp h ih =>
    have hle := hp.suffix.length_le
    have hl : (Tag.array.byte :: (le 4 n ++ elems)).length = 1 + 4 + elems.length := by
      simp
      omega
    obtain ⟨lines, hskip⟩ := hp.skips (1 + 4) (by omega)
    have hstop := hskip (n - i - 1 + 1)
    rw [show i + (n - i - 1 + 1) = n by omega, printElems.eq_def (n - i - 1 + 1),
      ih hs (by omega)] at hstop
    rw [printResponse_array_eq hn rfl, hstop]
    rfl

/-! ## The three outcomes -/

/-- The data is bad, or an element of it is gone past, or a text is read beyond
it. `Past.run` and `Reached.run_none` say what is returned in the last two. -/
def Outcome (data : Bytes) : Prop :=
  (∃ lines, printResponse data = some (-1, lines)) ∨ (∃ rest, Past 1 data rest) ∨
    ∃ s, Reached data s ∧ Overread s

theorem outcome_of_bad (lines : List Line) (h : printResponse data = some (-1, lines)) :
    Outcome data := .inl ⟨lines, h⟩

theorem outcome_of_frame (f rest : Bytes) (hd : data = f ++ rest) (hf : IsFrame f) :
    Outcome data :=
  .inr (.inl ⟨rest, hd ▸ .frame hf (.zero rest)⟩)

theorem outcome_of_wrapsTo {j : Nat} {text : Bytes} (h : WrapsTo data j text) : Outcome data := by
  by_cases h0 : 0 ∈ text
  · exact .inr (.inl ⟨data.drop j, .wrapped h h0 (.zero _)⟩)
  · exact .inr (.inr ⟨data, .here data, j, text, h, h0⟩)

theorem tagOf_some {b : UInt8} {t : Tag} (h : tagOf b = some t) : b = t.byte := by
  unfold tagOf at h
  split at h
  all_goals cases h
  all_goals exact UInt8.toNat_inj.mp ‹_›

/-- The bytes that the decoder asks for before it reads what is behind the tag. -/
def headerSize : Tag → Nat
  | .nil => 1
  | .error => 1 + 8
  | .string => 1 + 4
  | .int64 => 1 + 8
  | .double => 1 + 8
  | .array => 1 + 4

/-- Without them the data is bad, whatever the tag. -/
theorem outcome_short {t : Tag} {d : Bytes} (hd : data = t.byte :: d)
    (hshort : data.length < headerSize t) : Outcome data := by
  have hhead : data.head? = some t.byte := by rw [hd]; rfl
  have hpos : 0 < data.length := by simp [hd]
  apply outcome_of_bad [.badResponse]
  rw [printResponse.eq_def, hhead]
  cases t with
  | nil => exact absurd hpos (by simp only [headerSize] at hshort; omega)
  | error => exact if_pos hshort
  | string => exact if_pos hshort
  | int64 => exact if_pos hshort
  | double => exact if_pos hshort
  | array => exact if_pos hshort

theorem outcome_string {d : Bytes} (hd : data = Tag.string.byte :: d)
    (hsize : data.length ≤ 4096) : Outcome data := by
  have hl : data.length = 1 + d.length := by rw [hd, List.length_cons, Nat.add_comm]
  by_cases hshort : data.length < 1 + 4
  · exact outcome_short hd hshort
  · obtain ⟨len, r, hlt, rfl⟩ := exists_le_append 4 (show 4 ≤ d.length by omega)
    rw [List.length_append, length_le] at hl
    by_cases hwrap : 2 ^ 32 - 5 ≤ len
    · exact outcome_of_wrapsTo (hd ▸ WrapsTo.string r hwrap (by omega))
    by_cases hlong : r.length < len
    · apply outcome_of_bad [.badResponse]
      rw [printResponse_string_eq (by omega) hd, if_pos (by omega)]
    · have htake : (r.take len).length = len := by
        rw [List.length_take]
        omega
      have hframe : IsFrame (Tag.string.byte :: (le 4 len ++ r.take len)) := by
        have := IsFrame.string (r.take len) (by omega)
        rwa [htake] at this
      refine outcome_of_frame _ (r.drop len) ?_ hframe
      rw [hd]
      simp

theorem outcome_error {d : Bytes} (hd : data = Tag.error.byte :: d) (hsize : data.length ≤ 4096) :
    Outcome data := by
  have hl : data.length = 1 + d.length := by rw [hd, List.length_cons, Nat.add_comm]
  by_cases hshort : data.length < 1 + 8
  · exact outcome_short hd hshort
  · obtain ⟨code, r', -, rfl⟩ := exists_le_append 4 (show 4 ≤ d.length by omega)
    rw [List.length_append, length_le] at hl
    obtain ⟨len, r, hlt, rfl⟩ := exists_le_append 4 (show 4 ≤ r'.length by omega)
    rw [List.length_append, length_le] at hl
    rw [← List.append_assoc] at hd
    have hc := length_le 4 code
    by_cases hwrap : 2 ^ 32 - 9 ≤ len
    · exact outcome_of_wrapsTo (hd ▸ WrapsTo.error r hc hwrap (by omega))
    by_cases hlong : r.length < len
    · apply outcome_of_bad [.badResponse]
      rw [printResponse_error_eq hc (by omega) hd, if_pos (by omega)]
    · have htake : (r.take len).length = len := by
        rw [List.length_take]
        omega
      have hframe : IsFrame (Tag.error.byte :: (le 4 code ++ le 4 len ++ r.take len)) := by
        have := IsFrame.error (le 4 code) (r.take len) hc (by omega)
        rwa [htake] at this
      refine outcome_of_frame _ (r.drop len) ?_ hframe
      rw [hd]
      simp

/-- The two kinds of frame with a value of eight bytes. -/
theorem outcome_value {t : Tag} {d : Bytes} (ht : t = .int64 ∨ t = .double)
    (hd : data = t.byte :: d) : Outcome data := by
  have hl : data.length = 1 + d.length := by rw [hd, List.length_cons, Nat.add_comm]
  have hheader : headerSize t = 1 + 8 := by
    rcases ht with rfl | rfl
    · rfl
    · rfl
  by_cases hshort : data.length < headerSize t
  · exact outcome_short hd hshort
  · have htake : (d.take 8).length = 8 := by
      rw [List.length_take]
      omega
    have hframe : IsFrame (t.byte :: d.take 8) := by
      rcases ht with rfl | rfl
      · exact .int64 _ htake
      · exact .double _ htake
    exact outcome_of_frame _ (d.drop 8) (by simp [hd]) hframe

/-- The loop over the elements has the same outcomes, given those of an element. -/
theorem printElems_outcome (n : Nat) {k : Nat} (hsize : k + data.length ≤ 4096)
    (hout : ∀ d : Bytes, d.length ≤ data.length → Outcome d) :
    (∃ lines, printElems n data k = some (-1, lines)) ∨ (∃ rest, Past n data rest) ∨
      ∃ i r s, i < n ∧ Past i data r ∧ Reached r s ∧ Overread s := by
  induction n generalizing data k with
  | zero => exact .inr (.inl ⟨data, .zero data⟩)
  | succ n ih =>
    rcases hout data (Nat.le_refl _) with ⟨lines, hrun⟩ | ⟨r, hp⟩ | ⟨s, hr, hs⟩
    · refine .inl ⟨lines, ?_⟩
      rw [printElems.eq_def]
      simp [hrun]
    · have hle := hp.suffix.length_le
      obtain ⟨lines, hrun⟩ := hp.run (by omega)
      have hrest := ih (k := k + (data.length - r.length)) (by omega)
        (fun d hd => hout d (hd.trans hle))
      rcases hrest with ⟨lines', h⟩ | ⟨rest, h⟩ | ⟨i, r', s, hi, h, hr, hs⟩
      · refine .inl ⟨lines ++ lines', ?_⟩
        rw [printElems_step n k hp.suffix hrun, h]
        rfl
      · rw [Nat.add_comm n 1]
        exact .inr (.inl ⟨rest, hp.trans h⟩)
      · exact .inr (.inr ⟨1 + i, r', s, by omega, hp.trans h, hr, hs⟩)
    · exact .inr (.inr ⟨0, data, s, by omega, .zero data, hr, hs⟩)

theorem outcome_array {d : Bytes} (hd : data = Tag.array.byte :: d) (hsize : data.length ≤ 4096)
    (hout : ∀ s : Bytes, s.length < data.length → Outcome s) : Outcome data := by
  have hl : data.length = 1 + d.length := by rw [hd, List.length_cons, Nat.add_comm]
  by_cases hshort : data.length < 1 + 4
  · exact outcome_short hd hshort
  · obtain ⟨n, elems, hn, rfl⟩ := exists_le_append 4 (show 4 ≤ d.length by omega)
    rw [List.length_append, length_le] at hl
    have helems := printElems_outcome n (k := 1 + 4) (show 1 + 4 + elems.length ≤ 4096 by omega)
      (fun s hs => hout s (by omega))
    rcases helems with ⟨lines, h⟩ | ⟨rest, h⟩ | ⟨i, r, s, hi, h, hr, hs⟩
    · exact outcome_of_bad _ (printResponse_array hn hd h)
    · exact .inr (.inl ⟨rest, hd ▸ .array hn h (.zero rest)⟩)
    · exact .inr (.inr ⟨s, hd ▸ .elem hn hi h hr, hs⟩)

theorem outcome (data : Bytes) (hsize : data.length ≤ 4096) : Outcome data := by
  -- the elements of an array are shorter than the array
  induction hl : data.length using Nat.strongRecOn generalizing data with
  | ind l ih =>
    subst hl
    cases hd : data with
    | nil => exact outcome_of_bad [.badResponse] (by rw [printResponse.eq_def]; rfl)
    | cons b d =>
      rw [← hd]
      cases htag : tagOf b with
      | none =>
        apply outcome_of_bad [.badResponse]
        rw [printResponse.eq_def, hd]
        simp only [List.head?_cons, htag]
      | some t =>
        obtain rfl := tagOf_some htag
        cases t with
        | nil => exact outcome_of_frame [Tag.nil.byte] d hd .nil
        | error => exact outcome_error hd hsize
        | string => exact outcome_string hd hsize
        | int64 => exact outcome_value (.inl rfl) hd
        | double => exact outcome_value (.inr rfl) hd
        | array => exact outcome_array hd hsize fun s hs => ih s.length hs s (by omega) rfl

/-! ## Frames among them -/

theorem le_append_inj {m n : Nat} {a b : Bytes} (hm : m < 2 ^ 32) (hn : n < 2 ^ 32)
    (h : le 4 m ++ a = le 4 n ++ b) : m = n ∧ a = b := by
  obtain ⟨hle, hab⟩ := List.append_inj h (by simp)
  have hof := congrArg ofLe hle
  rw [ofLe_le_of_lt hm, ofLe_le_of_lt hn] at hof
  exact ⟨hof, hab⟩

/-- No frame is the beginning of another. -/
theorem isFrame_append_inj {f f' s s' : Bytes} (hf : IsFrame f) (hf' : IsFrame f')
    (h : f ++ s = f' ++ s') (hsize : (f ++ s).length ≤ 4096) : s = s' := by
  obtain ⟨lines, hrun⟩ := printResponse_frame hf s (by omega)
  obtain ⟨lines', hrun'⟩ := printResponse_frame hf' s' (by rw [← h]; omega)
  rw [← h, hrun] at hrun'
  have hlen := congrArg Prod.fst (Option.some.inj hrun')
  exact (List.append_inj h (by simpa using hlen)).2

theorem isFrame_array {f s elems : Bytes} {n : Nat} (hf : IsFrame f) (hn : n < 2 ^ 32)
    (h : Tag.array.byte :: (le 4 n ++ elems) = f ++ s) :
    ∃ fs : List Bytes, fs.length = n ∧ (∀ x ∈ fs, IsFrame x) ∧ elems = fs.flatten ++ s := by
  cases hf with
  | array fs hm hfs =>
    rw [List.cons_append, List.append_assoc] at h
    obtain ⟨hlen, he⟩ := le_append_inj hn hm (List.cons.inj h).2
    exact ⟨fs, hlen.symm, hfs, he⟩
  | _ => exact absurd (List.cons.inj h).1 (by decide)

/-- The length of a frame does not wrap: that many bytes are not there. -/
theorem isFrame_not_wrapped {f s : Bytes} (hf : IsFrame f) (hsize : (f ++ s).length ≤ 4096) :
    ¬ Wrapped (f ++ s) := by
  rintro ⟨j, text, hw⟩
  generalize hd : f ++ s = d at hw hsize
  have hl := congrArg List.length hd
  cases hw with
  | string text h h' =>
    cases hf with
    | string x hx =>
      rw [List.cons_append, List.append_assoc] at hd
      have := (le_append_inj hx h' (List.cons.inj hd).2).1
      simp only [List.length_append, List.length_cons] at hl hsize
      omega
    | _ => exact absurd (List.cons.inj hd).1 (by decide)
  | error text hc h h' =>
    cases hf with
    | error code msg hc' hm =>
      rw [List.cons_append, List.append_assoc, List.append_assoc, List.append_assoc] at hd
      have hrest := (List.append_inj (List.cons.inj hd).2 (hc'.trans hc.symm)).2
      have := (le_append_inj hm h' hrest).1
      simp only [List.length_append, List.length_cons] at hl hsize
      omega
    | _ => exact absurd (List.cons.inj hd).1 (by decide)

/-- Along frames, frames are gone past. -/
theorem Past.along {i : Nat} {s r : Bytes} (h : Past i s r) :
    ∀ (fs : List Bytes) (rest : Bytes), s = fs.flatten ++ rest → (∀ f ∈ fs, IsFrame f) →
      i ≤ fs.length → s.length ≤ 4096 → r = (fs.drop i).flatten ++ rest := by
  -- by induction on what is gone past: the next element is the next frame
  induction h with
  | zero s =>
    intro fs rest hs _ _ _
    rw [hs, List.drop_zero]
  | @frame n f s r hf h ih =>
    intro fs rest hs hfs hi hsize
    obtain ⟨f', fs, rfl⟩ := List.exists_cons_of_length_pos (show 0 < fs.length by omega)
    rw [List.forall_mem_cons] at hfs
    rw [List.flatten_cons, List.append_assoc] at hs
    have hnext := isFrame_append_inj hf hfs.1 hs hsize
    rw [List.length_append] at hsize
    exact ih fs rest hnext hfs.2 (by simpa using hi) (by omega)
  | @wrapped n j s text r hw h0 h ih =>
    intro fs rest hs hfs hi hsize
    obtain ⟨f', fs, rfl⟩ := List.exists_cons_of_length_pos (show 0 < fs.length by omega)
    rw [List.forall_mem_cons] at hfs
    rw [List.flatten_cons, List.append_assoc] at hs
    subst hs
    exact absurd ⟨j, text, hw⟩ (isFrame_not_wrapped hfs.1 hsize)
  | @array m n elems s r hm he h ihe ih =>
    intro fs rest hs hfs hi hsize
    obtain ⟨f', fs, rfl⟩ := List.exists_cons_of_length_pos (show 0 < fs.length by omega)
    rw [List.forall_mem_cons] at hfs
    rw [List.flatten_cons, List.append_assoc] at hs
    obtain ⟨es, hlen, hes, helems⟩ := isFrame_array hfs.1 hm hs
    have hle := he.suffix.length_le
    rw [List.length_cons, List.length_append] at hsize
    have hnext := ihe es _ helems hes (by omega) (by omega)
    rw [← hlen, List.drop_length, List.flatten_nil, List.nil_append] at hnext
    exact ih fs rest hnext hfs.2 (by simpa using hi) (by omega)

/-- So no length in a frame wraps, at any depth. -/
theorem Reached.not_wrapped {s : Bytes} (h : Reached data s) :
    ∀ f rest : Bytes, data = f ++ rest → IsFrame f → data.length ≤ 4096 → ¬ Wrapped s := by
  induction h with
  | here data =>
    intro f rest hd hf hsize
    subst hd
    exact isFrame_not_wrapped hf hsize
  | @elem n i elems r s hn hi hp h ih =>
    intro f rest hd hf hsize
    obtain ⟨fs, hlen, hfs, helems⟩ := isFrame_array hf hn hd
    have hle := hp.suffix.length_le
    rw [List.length_cons, List.length_append] at hsize
    have hr := hp.along fs rest helems hfs (by omega) (by omega)
    rw [List.drop_eq_getElem_cons (show i < fs.length by omega), List.flatten_cons,
      List.append_assoc] at hr
    exact ih _ _ hr (hfs _ (List.getElem_mem _)) (by omega)

/-- The other way round: what is gone past without a length that wraps are frames. -/
theorem Past.frames {n : Nat} {s rest : Bytes} (h : Past n s rest)
    (hok : ∀ i r, i < n → Past i s r → ∀ x, Reached r x → ¬ Wrapped x) :
    ∃ fs : List Bytes, fs.length = n ∧ (∀ f ∈ fs, IsFrame f) ∧ s = fs.flatten ++ rest := by
  induction h with
  | zero s => exact ⟨[], rfl, by simp, rfl⟩
  | @frame n f s rest hf h ih =>
    obtain ⟨fs, hlen, hfs, hs⟩ := ih fun i r hi hp =>
      hok (i + 1) r (by omega) (.frame hf hp)
    exact ⟨f :: fs, by simp [hlen], List.forall_mem_cons.mpr ⟨hf, hfs⟩, by simp [hs]⟩
  | @wrapped n j s text rest hw h0 h ih =>
    exact absurd ⟨j, text, hw⟩ (hok 0 s (by omega) (.zero s) s (.here s))
  | @array m n elems s rest hm he h ihe ih =>
    obtain ⟨es, hlen, hes, helems⟩ := ihe fun i r hi hp x hx =>
      hok 0 _ (by omega) (.zero _) x (.elem hm hi hp hx)
    obtain ⟨fs, hlen', hfs, hs⟩ := ih fun i r hi hp =>
      hok (i + 1) r (by omega) (.array hm he hp)
    subst hlen
    refine ⟨_ :: fs, by simp [hlen'], List.forall_mem_cons.mpr ⟨.array es hm hes, hfs⟩, ?_⟩
    simp [helems, hs]

/-! ## When the decoder does what it should -/

/-- What the decoder returns is settled, if it is -1 or a frame. -/
theorem decodes_of_frames {rv : Int} {lines : List Line} (hsize : data.length ≤ 4096)
    (hrun : printResponse data = some (rv, lines))
    (hrv : rv = -1 ∨ ∃ f rest, data = f ++ rest ∧ IsFrame f ∧ rv = f.length) : Decodes data := by
  refine ⟨rv, lines, hrun, ?_, fun n hn => ⟨?_, ?_⟩⟩
  · rcases hrv with rfl | ⟨f, rest, -, hf, rfl⟩
    · exact .inl rfl
    · have := hf.length_pos
      exact .inr (by omega)
  · intro he
    rcases hrv with rfl | ⟨f, rest, rfl, hf, hrv⟩
    · omega
    · have hnf : n = f.length := by omega
      subst hnf
      rw [List.take_left, List.length_append]
      exact ⟨by omega, hf⟩
  · rintro ⟨hle, hf⟩
    obtain ⟨lines', hrun'⟩ := printResponse_frame hf (data.drop n) (by
      rw [List.take_append_drop]
      omega)
    rw [List.take_append_drop, hrun, List.length_take, Nat.min_eq_left hle] at hrun'
    exact congrArg Prod.fst (Option.some.inj hrun')

/-- Nothing that wraps is come to: the frames are decoded, the rest is bad. -/
theorem decodes_of_not_wrapped (hsize : data.length ≤ 4096)
    (hok : ∀ s, Reached data s → ¬ Wrapped s) : Decodes data := by
  rcases outcome data hsize with ⟨lines, hrun⟩ | ⟨rest, hp⟩ | ⟨s, hr, j, text, hw, -⟩
  · exact decodes_of_frames hsize hrun (.inl rfl)
  · obtain ⟨lines, hrun⟩ := hp.run hsize
    obtain ⟨fs, hlen, hfs, hs⟩ := hp.frames (by
      intro i r hi hpi x hx
      obtain rfl : i = 0 := by omega
      cases hpi with
      | zero => exact hok x hx)
    obtain ⟨f, rfl⟩ := List.length_eq_one_iff.mp hlen
    rw [List.flatten_singleton] at hs
    refine decodes_of_frames hsize hrun (.inr ⟨f, rest, hs, hfs f (by simp), ?_⟩)
    rw [hs, List.length_append, Nat.add_sub_cancel]
  · exact absurd ⟨j, text, hw⟩ (hok s hr)

/-- Every text ends at a NUL and the data is bad further on: then it is refused. -/
theorem decodes_of_bad (hsize : data.length ≤ 4096) (hread : ∀ s, Reached data s → ¬ Overread s)
    (hbad : ∀ rest, ¬ Past 1 data rest) : Decodes data := by
  rcases outcome data hsize with ⟨lines, hrun⟩ | ⟨rest, hp⟩ | ⟨s, hr, hs⟩
  · exact decodes_of_frames hsize hrun (.inl rfl)
  · exact absurd hp (hbad rest)
  · exact absurd hs (hread s hr)

/-- What is gone past are frames, or behind some frames stands a length that wraps. -/
theorem Past.first_wrapped {i : Nat} {s r : Bytes} (h : Past i s r) :
    (∃ fs : List Bytes, fs.length = i ∧ (∀ f ∈ fs, IsFrame f) ∧ s = fs.flatten ++ r) ∨
      ∃ (fs : List Bytes) (r' x : Bytes), fs.length < i ∧ (∀ f ∈ fs, IsFrame f) ∧
        s = fs.flatten ++ r' ∧ Behind r' x ∧ Wrapped x := by
  -- a frame in front of what the induction hypothesis says of the rest
  have hcons : ∀ {n : Nat} {f s r : Bytes}, IsFrame f →
      ((∃ fs : List Bytes, fs.length = n ∧ (∀ f ∈ fs, IsFrame f) ∧ s = fs.flatten ++ r) ∨
        ∃ (fs : List Bytes) (r' x : Bytes), fs.length < n ∧ (∀ f ∈ fs, IsFrame f) ∧
          s = fs.flatten ++ r' ∧ Behind r' x ∧ Wrapped x) →
      (∃ fs : List Bytes, fs.length = n + 1 ∧ (∀ f ∈ fs, IsFrame f) ∧ f ++ s = fs.flatten ++ r) ∨
        ∃ (fs : List Bytes) (r' x : Bytes), fs.length < n + 1 ∧ (∀ f ∈ fs, IsFrame f) ∧
          f ++ s = fs.flatten ++ r' ∧ Behind r' x ∧ Wrapped x := by
    rintro n f s r hf (⟨fs, hlen, hfs, rfl⟩ | ⟨fs, r', x, hlen, hfs, rfl, hx⟩)
    · exact .inl ⟨f :: fs, by simp [hlen], List.forall_mem_cons.mpr ⟨hf, hfs⟩, by simp⟩
    · exact .inr ⟨f :: fs, r', x, by simp [hlen], List.forall_mem_cons.mpr ⟨hf, hfs⟩, by simp, hx⟩
  induction h with
  | zero s => exact .inl ⟨[], rfl, by simp, rfl⟩
  | frame hf h ih => exact hcons hf ih
  | @wrapped n j s text rest hw h0 h ih =>
    exact .inr ⟨[], s, s, Nat.succ_pos n, by simp, rfl, .front s, j, text, hw⟩
  | @array m n elems s rest hm he h ihe ih =>
    rcases ihe with ⟨es, rfl, hes, rfl⟩ | ⟨es, r', x, hlen, hes, rfl, hb, hx⟩
    · have hframe : IsFrame (Tag.array.byte :: (le 4 es.length ++ es.flatten)) := .array es hm hes
      simpa using hcons hframe ih
    · exact .inr ⟨[], _, x, Nat.succ_pos n, by simp, rfl, .elem hm hlen hes hb, hx⟩

/-- The first length that wraps stands behind whole frames. -/
theorem Reached.first_wrapped {s : Bytes} (h : Reached data s) (hw : Wrapped s) :
    ∃ x, Behind data x ∧ Wrapped x := by
  induction h with
  | here data => exact ⟨data, .front data, hw⟩
  | @elem n i elems r s hn hi hp h ih =>
    rcases hp.first_wrapped with ⟨fs, rfl, hfs, rfl⟩ | ⟨fs, r', x, hlen, hfs, rfl, hb, hx⟩
    · obtain ⟨x, hb, hx⟩ := ih hw
      exact ⟨x, .elem hn hi hfs hb, hx⟩
    · exact ⟨x, .elem hn (hlen.trans hi) hfs hb, hx⟩

/-- **The decoder and the grammar.** On data of the size that `read_res` admits,
`print_response` does what it should if behind whole frames there stands no length
that wraps. -/
theorem print_response_decodes (data : Bytes) (hsize : data.length ≤ 4096)
    (hok : ∀ s, Behind data s → ¬ Wrapped s) : Decodes data := by
  apply decodes_of_not_wrapped hsize
  intro s hr hw
  obtain ⟨x, hb, hx⟩ := hr.first_wrapped hw
  exact hok x hb hx

theorem print_response_decodes_hi : Decodes (Tag.string.byte :: (le 4 2 ++ [104, 105])) := by
  apply print_response_decodes _ (by decide)
  intro s hb hw
  cases hb with
  | front =>
    have hf : IsFrame (Tag.string.byte :: (le 4 2 ++ [104, 105])) := .string [104, 105] (by decide)
    exact isFrame_not_wrapped (s := []) hf (by decide) ((List.append_nil _).symm ▸ hw)

/-- What is left over: the inputs with such a length on which the decoder does what it
should by luck. Each of these lengths has a NUL behind it, and the data is bad further
on. -/
theorem decodes_iff (hsize : data.length ≤ 4096) :
    Decodes data ↔ (∀ s, Reached data s → ¬ Wrapped s) ∨
      ((∀ s, Reached data s → ¬ Overread s) ∧ ∀ rest, ¬ Past 1 data rest) := by
  constructor
  · intro hdec
    obtain ⟨rv, lines, hrun, hrv, hframe⟩ := hdec
    by_cases hok : ∀ s, Reached data s → ¬ Wrapped s
    · exact .inl hok
    · refine .inr ⟨fun s hr hs => ?_, fun rest hp => hok fun s hr => ?_⟩
      · rw [hr.run_none hs hsize] at hrun
        cases hrun
      · -- the element gone past is a frame, which leaves no room for a length that wraps
        obtain ⟨lines', hrun'⟩ := hp.run hsize
        rw [hrun] at hrun'
        have hret : rv = ((data.length - rest.length : Nat) : Int) :=
          congrArg Prod.fst (Option.some.inj hrun')
        obtain ⟨-, hf⟩ := (hframe (data.length - rest.length) (by omega)).mp hret
        exact hr.not_wrapped _ _ (List.take_append_drop _ _).symm hf hsize
  · rintro (hok | ⟨hread, hbad⟩)
    · exact decodes_of_not_wrapped hsize hok
    · exact decodes_of_bad hsize hread hbad

/-- In front of the data such a length always does harm. -/
theorem not_decodes_of_wrapped (hsize : data.length ≤ 4096) (hw : Wrapped data) :
    ¬ Decodes data := by
  rw [decodes_iff hsize]
  rintro (hok | ⟨hread, hbad⟩)
  · exact hok data (.here data) hw
  · obtain ⟨j, text, hw⟩ := hw
    by_cases h0 : 0 ∈ text
    · exact hbad _ (.wrapped hw h0 (.zero _))
    · exact hread data (.here data) ⟨j, text, hw, h0⟩

/-- A string of the length `2^32 - 5`: its sum wraps to 0, which is returned if
there is a NUL to stop at; if not, the bytes after the data are printed. -/
theorem print_response_wraps :
    ¬ Decodes [2, 0xfb, 0xff, 0xff, 0xff, 0] ∧
      (∃ lines, printResponse [2, 0xfb, 0xff, 0xff, 0xff, 0] = some (0, lines)) ∧
      printResponse [2, 0xfb, 0xff, 0xff, 0xff] = none := by
  have hlen : le 4 4294967291 = [0xfb, 0xff, 0xff, 0xff] := by decide
  have hstring (text : Bytes) : WrapsTo (2 :: ([0xfb, 0xff, 0xff, 0xff] ++ text)) 0 text := by
    rw [← hlen]
    exact .string text (by omega) (by omega)
  obtain ⟨lines, hrun⟩ := printResponse_wrapsTo (hstring [0])
  obtain ⟨lines', hrun'⟩ := printResponse_wrapsTo (hstring [])
  refine ⟨?_, ⟨lines, hrun⟩, hrun'⟩
  rintro ⟨rv, lines'', h, hrv, -⟩
  have hzero : (0 : Int) = rv := congrArg Prod.fst (Option.some.inj (hrun.symm.trans h))
  omega

end ByoRedis.Client
