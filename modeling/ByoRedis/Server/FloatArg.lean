import ByoRedis.Lib.Strtod
import ByoRedis.Server.Store

/-!
# Server — floating point arguments

`str2dbl` accepts what `strtod` reads to its end, other than a NaN: the texts of
numbers, infinities among them, each with the nearest double. As `str2int`, it
also accepts the empty string.
-/

namespace ByoRedis

open CNumber

/-- What `str2dbl` accepts, and with which value. -/
theorem str2dbl_iff (s : Bytes) (d : Double) :
    str2dbl s = some d ↔ s = [] ∧ d = ⟨0⟩ ∨ DenotesDouble s d := by
  rw [← strtod_iff, str2dbl]
  split
  · rename_i h
    rw [Option.some.injEq, and_iff_right h]
  · rename_i h
    simp [h]

example : str2dbl (lit " -0.1e1") = some ⟨0xbff0000000000000⟩ := by decide +kernel

example : str2dbl [16, 120, 49] = none := by decide +kernel

/-- What the callers of `str2dbl` count on, for one string: it is accepted if and
only if it is the text of a number, with the nearest double; and as the score of a
`zadd` or a `zquery`, whatever the state, any other string is an error that leaves
the state alone. -/
structure FloatArgChecked (s : Bytes) : Prop where
  accepts : ∀ d, str2dbl s = some d ↔ DenotesDouble s d
  refuses : (∀ d, ¬ DenotesDouble s d) → ∀ g now key name out,
    doRequest now g [lit "zadd", key, s, name] out =
      some (g, out ++ (Scalar.err .badArg "expect float").encode) ∧
    ∀ off lim, doRequest now g [lit "zquery", key, s, name, off, lim] out =
      some (g, out ++ (Scalar.err .badArg "expect fp number").encode)

/-- **Floating point arguments are checked** except for the empty string. -/
theorem float_argument_checked_iff (s : Bytes) : FloatArgChecked s ↔ s ≠ [] := by
  constructor
  · rintro h rfl
    exact ((h.accepts ⟨0⟩).mp ((str2dbl_iff [] _).mpr (.inl ⟨rfl, rfl⟩))).nonempty rfl
  · intro hne
    have haccepts : ∀ d, str2dbl s = some d ↔ DenotesDouble s d := by
      intro d
      rw [str2dbl_iff, or_iff_right (fun h => hne h.1)]
    refine ⟨haccepts, ?_⟩
    intro hno g now key name out
    have hs : str2dbl s = none := by
      rw [Option.eq_none_iff_forall_ne_some]
      exact fun d hd => hno d ((haccepts d).mp hd)
    constructor
    · simp [doRequest, doZadd, hs, writeErr]
    · intro off lim
      simp [doRequest, doZquery, hs, writeErr]

end ByoRedis
