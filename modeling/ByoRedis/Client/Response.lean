import ByoRedis.Server.Buffer
import ByoRedis.Client.Request

/-!
# Client — printing a response

`print_response` of `client/main.cc`, on the `size` bytes it is given. What it
prints is a list of lines. `none` is a read outside of these bytes.
-/

namespace ByoRedis.Client

open ByteBuf

/-- The client's own numbering of the tags. -/
def tagOf (b : UInt8) : Option Tag :=
  match b.toNat with
  | 0 => some .nil
  | 1 => some .error
  | 2 => some .string
  | 3 => some .int64
  | 4 => some .double
  | 5 => some .array
  | _ => none

/-- What a `printf` or `msg` puts out. -/
inductive Line where
  | badResponse
  | nil
  | err (code : Int) (msg : Bytes)
  | str (s : Bytes)
  | int (val : Int)
  | dbl (val : Double)
  | arr (len : Nat)
  | arrEnd
deriving DecidableEq

/-- The text of `%.*s`: at most `len` characters, up to a NUL. The precision is
an `int`; a negative one counts as none. -/
def printfStr (p : Bytes) (len : Nat) : Option Bytes :=
  if len < 2 ^ 31 ∧ len ≤ p.length then some ((p.take len).takeWhile (· ≠ 0))
  else if 0 ∈ p then some (p.takeWhile (· ≠ 0))
  else none

mutual

/-- `print_response`: the number of bytes of the response, or -1. -/
def printResponse (data : Bytes) : Option (Int × List Line) :=
  match data.head? with
  | none => some (-1, [.badResponse])
  | some tag =>
    match tagOf tag with
    | some .nil => some (1, [.nil])
    | some .error =>
      if data.length < 1 + 8 then some (-1, [.badResponse])
      else do
        let code ← slice? data 1 4
        let len ← slice? data (1 + 4) 4
        -- a sum of `uint32_t`
        if data.length < (1 + 8 + ofLe len) % 2 ^ 32 then some (-1, [.badResponse])
        else do
          let text ← printfStr (data.drop (1 + 8)) (ofLe len)
          some (toInt32 (1 + 8 + ofLe len), [.err (toInt32 (ofLe code)) text])
    | some .string =>
      if data.length < 1 + 4 then some (-1, [.badResponse])
      else do
        let len ← slice? data 1 4
        if data.length < (1 + 4 + ofLe len) % 2 ^ 32 then some (-1, [.badResponse])
        else do
          let text ← printfStr (data.drop (1 + 4)) (ofLe len)
          some (toInt32 (1 + 4 + ofLe len), [.str text])
    | some .int64 =>
      if data.length < 1 + 8 then some (-1, [.badResponse])
      else do
        let val ← slice? data 1 8
        some (1 + 8, [.int (Int.bmod (ofLe val) (2 ^ 64))])
    | some .double =>
      if data.length < 1 + 8 then some (-1, [.badResponse])
      else do
        let val ← slice? data 1 8
        some (1 + 8, [.dbl ⟨BitVec.ofNat 64 (ofLe val)⟩])
    | some .array =>
      if data.length < 1 + 4 then some (-1, [.badResponse])
      else do
        let len ← slice? data 1 4
        let (rv, lines) ← printElems (ofLe len) (data.drop (1 + 4)) (1 + 4)
        some (rv, .arr (ofLe len) :: lines)
    | none => some (-1, [.badResponse])
termination_by (data.length, 0)
decreasing_by
  apply Prod.Lex.left
  simp only [List.length_drop]
  omega

/-- The loop over the `n` elements still to come, at `arr_bytes`. -/
def printElems (n : Nat) (data : Bytes) (arrBytes : Nat) : Option (Int × List Line) :=
  match n with
  | 0 => some (toInt32 arrBytes, [.arrEnd])
  | n + 1 => do
    let (rv, lines) ← printResponse data
    if rv < 0 then some (rv, lines)
    else if data.length < rv.toNat then none
    else do
      let (res, rest) ← printElems n (data.drop rv.toNat) (arrBytes + rv.toNat)
      some (res, lines ++ rest)
termination_by (data.length, n + 1)
decreasing_by
  · apply Prod.Lex.right
    omega
  · rw [Prod.lex_def]
    simp only [List.length_drop]
    omega

end

end ByoRedis.Client
