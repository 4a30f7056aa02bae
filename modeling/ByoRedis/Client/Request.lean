import ByoRedis.Lib.ByteBuf
import ByoRedis.Container.Common

/-!
# Client — sending a request

`send_req` of `client/main.cc`. `wbuf` is the (uninitialised) array on the
stack; a store outside of it is the outer `none`.
-/

namespace ByoRedis.Client

open ByteBuf

/-- `k_max_msg` of the client. -/
def kMaxMsg : Nat := 4096

/-- The first loop of `send_req`: the length in a `uint32_t`. -/
def reqLen (cmd : List Bytes) : Nat :=
  cmd.foldl (fun len s => (len + (4 + s.length)) % 2 ^ 32) 4

/-- The second loop of `send_req`, storing the strings from `cur` on. -/
def storeArgs (wbuf : Bytes) (cur : Nat) : List Bytes → Option (Bytes × Nat)
  | [] => some (wbuf, cur)
  | s :: rest => do
    let wbuf ← patch? wbuf cur (le 4 s.length)
    let wbuf ← patch? wbuf (cur + 4) s
    storeArgs wbuf (cur + (4 + s.length)) rest

/-- The stores of `send_req` behind its check: the array, and `cur` at the end. -/
def fillReq (wbuf : Bytes) (cmd : List Bytes) : Option (Bytes × Nat) := do
  let wbuf ← patch? wbuf 0 (le 4 (reqLen cmd))
  let wbuf ← patch? wbuf 4 (le 4 cmd.length)
  storeArgs wbuf 8 cmd

/-- `send_req`: the bytes handed to `write_all`, or nothing when it returns
-1 before. -/
def sendReq (wbuf : Bytes) (cmd : List Bytes) : Option (Option Bytes) :=
  let len := reqLen cmd
  if kMaxMsg < len then some none
  else do
    let wbuf ← patch? wbuf 0 (le 4 len)
    let wbuf ← patch? wbuf 4 (le 4 cmd.length)
    let (wbuf, _) ← storeArgs wbuf 8 cmd
    let bytes ← slice? wbuf 0 (4 + len)
    some (some bytes)

theorem sendReq_eq (wbuf : Bytes) (cmd : List Bytes) :
    sendReq wbuf cmd = if kMaxMsg < reqLen cmd then some none
      else (fillReq wbuf cmd).bind (fun r => (slice? r.1 0 (4 + reqLen cmd)).map some) := by
  simp only [sendReq, fillReq, Option.bind_eq_bind, Option.bind_assoc]
  split
  · rfl
  · congr 1
    funext w₁
    congr 1
    funext w₂
    congr 1
    funext r
    cases slice? r.1 0 (4 + reqLen cmd) <;> rfl

end ByoRedis.Client
