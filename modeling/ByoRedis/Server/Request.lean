import ByoRedis.Server.Buffer

/-!
# Server — the request parser

`read_u32`, `read_str` and `parse_req` of `server/main.cc`. The cursor is an
offset into the bytes of the request and `end` their number; the cursor plus
a 32-bit length stays far below the end of the address space, so the
comparison `cur + n > end` is one of numbers. A read outside of the request
is the outer `none`; the inner one is the `false` of the helpers.
-/

namespace ByoRedis

open ByteBuf

/-- `k_max_msg` of the server. -/
def kMaxMsg : Nat := 32 <<< 20

/-- `k_max_args`. -/
def kMaxArgs : Nat := 200 * 1000

/-- `read_u32`: the number and the cursor behind it. -/
def readU32 (data : Bytes) (cur endp : Nat) : Option (Option (Nat × Nat)) :=
  if endp < cur + 4 then some none
  else
    match slice? data cur 4 with
    | none => none
    | some b => some (some (ofLe b, cur + 4))

/-- `read_str`: the string and the cursor behind it. -/
def readStr (data : Bytes) (cur endp n : Nat) : Option (Option (Bytes × Nat)) :=
  if endp < cur + n then some none
  else
    match slice? data cur n with
    | none => none
    | some b => some (some (b, cur + n))

/-- The loop of `parse_req`: the cursor behind the last string, or nothing
when a string does not fit, and what has been pushed to `out`. -/
def parseLoop (data : Bytes) (endp nstr cur : Nat) (out : List Bytes) :
    Option (Option Nat × List Bytes) :=
  if out.length < nstr then
    match readU32 data cur endp with
    | none => none
    | some none => some (none, out)
    | some (some (len, cur)) =>
      match readStr data cur endp len with
      | none => none
      | some none => some (none, out ++ [[]])
      | some (some (s, cur)) => parseLoop data endp nstr cur (out ++ [s])
  else some (some cur, out)
termination_by nstr - out.length
decreasing_by
  simp only [List.length_append, List.length_cons, List.length_nil]
  omega

/-- `parse_req`: its return value and `out`. -/
def parseReq (data : Bytes) (out : List Bytes) : Option (Int × List Bytes) :=
  let endp := data.length
  match readU32 data 0 endp with
  | none => none
  | some none => some (-1, out)
  | some (some (nstr, cur)) =>
    -- safety limit
    if kMaxArgs < nstr then some (-1, out)
    else
      match parseLoop data endp nstr cur out with
      | none => none
      | some (none, out) => some (-1, out)
      | some (some cur, out) =>
        -- trailing garbage
        if cur ≠ endp then some (-1, out) else some (0, out)

end ByoRedis
