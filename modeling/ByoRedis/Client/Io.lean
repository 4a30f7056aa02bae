import ByoRedis.Client.Response
import ByoRedis.Server.Conn

/-!
# Client — reading and writing in full

`read_full`, `write_all`, `read_res` and the part of `main` behind `connect` of
`client/main.cc`. The socket is a blocking one: `read` waits until there is
something, and gives as much of it as is there and asked for. How much that is,
and what `write` does, is laid down for every call in advance. `none` is a
store or a read outside of the array on the stack, or a failed `assert`.
-/

namespace ByoRedis.Client

open ByteBuf

/-- A connected socket: what comes in before the stream ends, whether it ends
with an error, how many bytes beyond the first one are there at the next calls
of `read`, what the next calls of `write` do, what was sent, and `errno != 0`. -/
structure Socket where
  incoming : Bytes
  broken : Bool := false
  there : Stream' Nat
  room : Stream' WriteResult
  sent : Bytes := []
  errno : Bool := false

namespace Socket

/-- `read(fd, buf, n)`. -/
def read (s : Socket) (n : Nat) : ReadResult × Socket :=
  if s.incoming = [] then
    if s.broken then (.error, { s with errno := true }) else (.got [], s)
  else
    let rv := min n (s.there.head + 1)
    (.got (s.incoming.take rv),
      { s with incoming := s.incoming.drop rv, there := s.there.tail })

/-- `write(fd, buf, n)`: what it returns. -/
def write (s : Socket) (buf : Bytes) : Int × Socket :=
  match s.room.head with
  | .room n =>
    let rv := min n buf.length
    ((rv : Int), { s with sent := s.sent ++ buf.take rv, room := s.room.tail })
  | _ => (-1, { s with errno := true, room := s.room.tail })

/-- `read_full`, into the array from `pos` on: what it returns, and the array. -/
def readFull (s : Socket) (buf : Bytes) (pos n : Nat) : Option (Int × Bytes × Socket) :=
  if n = 0 then some (0, buf, s)
  else
    match s.read n with
    | (.got bytes, s) =>
      if _hrv : bytes.length = 0 then some (-1, buf, s) -- unexpected EOF
      else if n < bytes.length then none
      else do
        let buf ← patch? buf pos bytes
        s.readFull buf (pos + bytes.length) (n - bytes.length)
    | (_, s) => some (-1, buf, s) -- error
termination_by n

/-- `write_all`. -/
def writeAll (s : Socket) (buf : Bytes) : Option (Int × Socket) :=
  if _hn : buf.length = 0 then some (0, s)
  else
    match s.write buf with
    | (rv, s) =>
      if _hrv : rv ≤ 0 then some (-1, s) -- error
      else if (buf.length : Int) < rv then none
      else s.writeAll (buf.drop rv.toNat)
termination_by buf.length
decreasing_by
  simp only [List.length_drop]
  omega

end Socket

/-- What `read_res` puts out: its own messages, and the lines of
`print_response`. -/
inductive Note where
  | eof
  | readError
  | tooLong
  | line (l : Line)
deriving DecidableEq

namespace Socket

/-- `read_res` behind the check of the length. -/
def readBody (s : Socket) (rbuf : Bytes) (len : Nat) : Option (Int × List Note × Socket) := do
  let (err, rbuf, s) ← s.readFull rbuf 4 len
  if err ≠ 0 then some (err, [.readError], s)
  else
    -- print the result
    let body ← slice? rbuf 4 len
    let (rv, lines) ← printResponse body
    if 0 < rv ∧ rv.toNat ≠ len then some (-1, lines.map .line ++ [.line .badResponse], s)
    else some (rv, lines.map .line, s)

/-- `read_res`, with `rbuf` as it is on the stack. -/
def readRes (s : Socket) (rbuf : Bytes) : Option (Int × List Note × Socket) := do
  -- 4 bytes header
  let (err, rbuf, s) ← readFull { s with errno := false } rbuf 0 4
  if err ≠ 0 then some (err, [if s.errno then .readError else .eof], s)
  else
    let header ← slice? rbuf 0 4
    if kMaxMsg < ofLe header then some (-1, [.tooLong], s)
    else s.readBody rbuf (ofLe header)

/-- `main` behind `connect`: the request is sent, and its response printed. -/
def main (s : Socket) (wbuf rbuf : Bytes) (cmd : List Bytes) : Option (List Note × Socket) := do
  match ← sendReq wbuf cmd with
  | none => some ([], s)
  | some bytes =>
    let (err, s) ← s.writeAll bytes
    if err ≠ 0 then some ([], s)
    else
      let (_, notes, s) ← s.readRes rbuf
      some (notes, s)

end Socket

end ByoRedis.Client
