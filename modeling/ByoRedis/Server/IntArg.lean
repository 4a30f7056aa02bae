import ByoRedis.Server.Keyspace

/-!
# Server — integer arguments

`str2int` accepts what `strtoll` reads to its end. That refuses trailing bytes
and embedded NULs, but not the empty string, of which nothing is to be read,
nor a number out of range, which `strtoll` reads as the nearest end of the
range.
-/

namespace ByoRedis

open CNumber

/-- The string is the text of an `int64_t`. -/
def IsInt64 (s : Bytes) (n : Int) : Prop := Denotes s n ∧ -2 ^ 63 ≤ n ∧ n < 2 ^ 63

theorem llong_of_range {n : Int} (hlo : -2 ^ 63 ≤ n) (hhi : n < 2 ^ 63) : llong n = n := by
  have h1 : llongMin = -2 ^ 63 := rfl
  have h2 : llongMax = 2 ^ 63 - 1 := rfl
  unfold llong
  omega

/-- What `str2int` accepts, and with which value. -/
theorem str2int_iff (s : Bytes) (n : Int) :
    str2int s = some n ↔ (s = [] ∧ n = 0) ∨ ∃ k, Denotes s k ∧ n = llong k := by
  unfold str2int
  constructor
  · intro h
    split at h
    · rename_i hend
      have hval : (strtoll s).1 = n := Option.some.inj h
      rcases denotes_of_strtoll hend with rfl | ⟨k, hk⟩
      · exact .inl ⟨rfl, hval.symm⟩
      · rw [hk.strtoll_eq] at hval
        exact .inr ⟨k, hk, hval.symm⟩
    · cases h
  · rintro (⟨rfl, rfl⟩ | ⟨k, hk, rfl⟩)
    · rfl
    · rw [hk.strtoll_eq, if_pos rfl]

/-- What the callers of `str2int` count on, for one string: it is accepted if
and only if it is the text of an `int64_t`, with its value; and as the TTL of a
`pexpire`, whatever the state, any other string is an error that leaves the
state alone. -/
structure IntArgChecked (s : Bytes) : Prop where
  accepts : ∀ n, str2int s = some n ↔ IsInt64 s n
  refuses : (∀ n, ¬ IsInt64 s n) → ∀ g, Db.Reachable g → ∀ now key out,
    doRequest now g [lit "pexpire", key, s] out =
      some (g, out ++ (Scalar.err .badArg "expect int64").encode)

/-- A `pexpire` with a TTL that `str2int` refuses. -/
theorem doRequest_pexpire_refused {s : Bytes} (h : str2int s = none) (now : Nat) (g : Db)
    (key : Bytes) (out : Buffer) :
    doRequest now g [lit "pexpire", key, s] out =
      some (g, out ++ (Scalar.err .badArg "expect int64").encode) := by
  have h1 : lit "pexpire" ≠ lit "set" := by decide
  simp only [doRequest, if_neg h1, if_pos, doExpire, h, writeErr, writeErr_eq]

theorem IntArgChecked.nonempty {s : Bytes} (h : IntArgChecked s) : s ≠ [] := by
  rintro rfl
  obtain ⟨⟨space, sgn, ds, hs, -, hne, -⟩, -⟩ :=
    (h.accepts 0).mp ((str2int_iff [] 0).mpr (.inl ⟨rfl, rfl⟩))
  have hnil : sgn ++ ds = [] := (List.append_eq_nil_iff.mp hs.symm).2
  exact hne (List.append_eq_nil_iff.mp hnil).2

/-- The value that is accepted is the one denoted. -/
theorem IntArgChecked.range {s : Bytes} (h : IntArgChecked s) {n : Int} (hn : Denotes s n) :
    -2 ^ 63 ≤ n ∧ n < 2 ^ 63 := by
  obtain ⟨hk, hlo, hhi⟩ :=
    (h.accepts (llong n)).mp ((str2int_iff s _).mpr (.inr ⟨n, hn, rfl⟩))
  rw [hn.unique hk]
  exact ⟨hlo, hhi⟩

/-- **Integer arguments are checked** except for two kinds of strings: the
empty one, and the texts of integers out of range. -/
theorem int_argument_checked_iff (s : Bytes) :
    IntArgChecked s ↔ s ≠ [] ∧ ∀ n, Denotes s n → -2 ^ 63 ≤ n ∧ n < 2 ^ 63 := by
  constructor
  · intro h
    exact ⟨h.nonempty, fun n hn => h.range hn⟩
  · rintro ⟨hne, hrange⟩
    have haccepts : ∀ n, str2int s = some n ↔ IsInt64 s n := by
      intro n
      rw [str2int_iff, or_iff_right (fun h => hne h.1)]
      constructor
      · rintro ⟨k, hk, rfl⟩
        obtain ⟨hlo, hhi⟩ := hrange k hk
        rw [llong_of_range hlo hhi]
        exact ⟨hk, hlo, hhi⟩
      · rintro ⟨hn, hlo, hhi⟩
        exact ⟨n, hn, (llong_of_range hlo hhi).symm⟩
    refine ⟨haccepts, ?_⟩
    intro hno g _ now key out
    apply doRequest_pexpire_refused
    cases hs : str2int s with
    | none => rfl
    | some n => exact absurd ((haccepts n).mp hs) (hno n)

/-- In a state in which `k` has no TTL, an empty string sets one, and the key is
due a millisecond later; and 2^63 is taken for 2^63 - 1. -/
theorem int_argument_accepted :
    ¬ IntArgChecked [] ∧ ¬ IntArgChecked (lit "9223372036854775808") ∧
    str2int (lit "9223372036854775808") = some (2 ^ 63 - 1) ∧
    ∃ g S g' S', g.Reachable ∧
      g.Abs S ((∅ : Store).insert (lit "k") ⟨.str (lit "v"), none⟩) ∧
      doRequest 7 g [lit "pexpire", lit "k", []] [] = some (g', (Scalar.int 1).encode) ∧
      g'.Abs S' ((∅ : Store).insert (lit "k") ⟨.str (lit "v"), some 7⟩) := by
  have hbig : Denotes (lit "9223372036854775808") (2 ^ 63) :=
    ⟨[], [], lit "9223372036854775808", rfl, by simp, by decide +kernel, by decide +kernel,
      .inl ⟨.inl rfl, by decide +kernel⟩⟩
  refine ⟨fun h => h.nonempty rfl, ?_, ?_, ?_⟩
  · intro h
    exact absurd (h.range hbig).2 (by decide)
  · rw [str2int_iff]
    exact .inr ⟨_, hbig, by decide⟩
  · obtain ⟨g₀, hnew, h₀, -⟩ := Db.new_abs 4
    have hnum : str2int [] = some 0 := rfl
    obtain ⟨g₁, S₁, hrun₁, h₁⟩ := doRequest_set_new h₀ 0 (lit "k") (lit "v") (Finmap.lookup_empty _)
    obtain ⟨g₂, S₂, hrun₂, h₂⟩ := doRequest_pexpire_present h₁ 7 (lit "k") (Finmap.lookup_insert _) hnum
    have hstep : g₀.step (.request 0 [lit "set", lit "k", lit "v"] []) = some (g₁, _) := hrun₁ []
    rw [Finmap.insert_insert] at h₂
    exact ⟨g₁, S₁, g₂, S₂, (Db.new_reachable hnew).step hstep, h₁, hrun₂ [], h₂⟩

end ByoRedis
