import ByoRedis.Server.Request

/-!
# Server — one connection

`struct Conn`, `try_one_request`, `handle_read` and `handle_write` of
`server/main.cc`. What the kernel answers to `read` and `write` is an
argument. `do_request` is a parameter here: a function of the clock value it
reads, the server state and the command, which appends to the buffer it is
given. `none` is undefined behaviour or a failed `assert`.
-/

namespace ByoRedis

open ByteBuf

/-- The codes of `TAG_ERR`. -/
inductive ErrCode where
  | unknown
  | tooBig
  | badTyp
  | badArg
deriving DecidableEq

/-- `ERR_UNKNOWN` to `ERR_BAD_ARG`. -/
def ErrCode.code : ErrCode → Nat
  | .unknown => 1
  | .tooBig => 2
  | .badTyp => 3
  | .badArg => 4

/-- The bytes of a (plain ASCII) string literal. -/
def lit (s : String) : Bytes := s.toList.map (fun c => UInt8.ofNat c.toNat)

/-- `struct Conn`; its `idle_node` is a node of the ring of idle timers. -/
structure Conn where
  fd : Nat
  wantRead : Bool := false
  wantWrite : Bool := false
  wantClose : Bool := false
  incoming : Buffer := []
  outgoing : Buffer := []
  lastActiveMs : Nat := 0
deriving DecidableEq

/-- `do_request` at a clock value. -/
abbrev Handler (σ : Type) := Nat → σ → List Bytes → Buffer → Option (σ × Buffer)

/-! ## Responses -/

/-- `response_begin`: the buffer with a header to fill in, and its position. -/
def responseBegin (out : Buffer) : Buffer × Nat := (out.writeU32 0, out.length)

/-- `response_size`. -/
def responseSize (out : Buffer) (header : Nat) : Nat := out.length - header - 4

/-- `response_end`: a body that is too long is replaced by an error. -/
def responseEnd (out : Buffer) (header : Nat) : Option Buffer :=
  let out :=
    if kMaxMsg < responseSize out header then
      Buffer.writeFrameError (out.take (header + 4)) ErrCode.tooBig.code
        (lit "response is too big.")
    else out
  patch? out header (le 4 (responseSize out header))

/-! ## Requests -/

variable {σ : Type}

/-- `try_one_request`: whether a request was processed. -/
def tryOneRequest (h : Handler σ) (now : Nat) (g : σ) (conn : Conn) :
    Option (σ × Conn × Bool) :=
  if conn.incoming.length < 4 then some (g, conn, false) -- want read
  else do
    let header ← slice? conn.incoming 0 4
    let len := ofLe header
    if kMaxMsg < len then some (g, { conn with wantClose := true }, false) -- too long
    else if conn.incoming.length < 4 + len then some (g, conn, false) -- want read
    else do
      let request ← slice? conn.incoming 4 len
      let (rc, cmd) ← parseReq request []
      if rc < 0 then some (g, { conn with wantClose := true }, false) -- bad request
      else do
        let (out, headerPos) := responseBegin conn.outgoing
        let (g, out) ← h now g cmd out
        let out ← responseEnd out headerPos
        -- remove the request message
        let incoming ← conn.incoming.consume (4 + len)
        some (g, { conn with incoming := incoming, outgoing := out }, true)

/-- A processed request is gone from the buffer. -/
theorem tryOneRequest_shorter {h : Handler σ} {now : Nat} {g g' : σ} {conn conn' : Conn}
    (hrun : tryOneRequest h now g conn = some (g', conn', true)) :
    conn'.incoming.length < conn.incoming.length := by
  unfold tryOneRequest at hrun
  split at hrun
  · cases hrun
  · rename_i hlen
    simp only [Option.bind_eq_bind, Option.bind_eq_some_iff] at hrun
    obtain ⟨header, -, hrun⟩ := hrun
    split at hrun
    · cases hrun
    · split at hrun
      · cases hrun
      · simp only [Option.bind_eq_some_iff] at hrun
        obtain ⟨request, -, ⟨rc, cmd⟩, -, hrun⟩ := hrun
        split at hrun
        · cases hrun
        · simp only [Option.bind_eq_some_iff] at hrun
          obtain ⟨⟨g₁, out⟩, -, out', -, incoming, hin, hrun⟩ := hrun
          cases hrun
          unfold Buffer.consume at hin
          split at hin
          · cases hin
            simp only [List.length_drop]
            omega
          · cases hin

/-- `while (try_one_request(conn)) {}`; the `i`-th request executed reads the
clock value `clock i`. -/
def requestLoop (h : Handler σ) (clock : Nat → Nat) (i : Nat) (g : σ) (conn : Conn) :
    Option (σ × Conn) :=
  match _hrun : tryOneRequest h (clock i) g conn with
  | none => none
  | some (g', conn', true) => requestLoop h clock (i + 1) g' conn'
  | some (g', conn', false) => some (g', conn')
termination_by conn.incoming.length
decreasing_by exact tryOneRequest_shorter _hrun

/-! ## Reading and writing -/

/-- What `write` does: `EAGAIN`, another error, or it takes as many bytes as
the socket has room for. -/
inductive WriteResult where
  | again
  | error
  | room (n : Nat)
deriving DecidableEq

/-- What `read` answers: `EAGAIN`, another error, or bytes (none at the end of
the stream). -/
inductive ReadResult where
  | again
  | error
  | got (bytes : Bytes)
deriving DecidableEq

/-- `handle_write`, with its assertion that there is something to write; also
the bytes that `write` took. -/
def handleWrite (conn : Conn) (w : WriteResult) : Option (Conn × Bytes) :=
  if conn.outgoing.length = 0 then none
  else
    match w with
    | .again => some (conn, []) -- actually not ready
    | .error => some ({ conn with wantClose := true }, [])
    | .room n => do
      let rv := min n conn.outgoing.length
      -- remove written data from `outgoing`
      let outgoing ← conn.outgoing.consume rv
      let sent := conn.outgoing.take rv
      -- update the readiness intention
      if outgoing.length = 0 then
        some ({ conn with outgoing := outgoing, wantRead := true, wantWrite := false }, sent)
      else some ({ conn with outgoing := outgoing }, sent)

/-- `handle_read`; `w` is what `write` does if it is tried at once. Also the
bytes that `write` took. -/
def handleRead (h : Handler σ) (clock : Nat → Nat) (g : σ) (conn : Conn) (r : ReadResult)
    (w : WriteResult) : Option (σ × Conn × Bytes) :=
  match r with
  | .again => some (g, conn, [])
  | .error => some (g, { conn with wantClose := true }, [])
  | .got bytes =>
    if bytes.length = 0 then some (g, { conn with wantClose := true }, []) -- end of the stream
    else do
      let conn := { conn with incoming := conn.incoming.write bytes }
      let (g, conn) ← requestLoop h clock 0 g conn
      if 0 < conn.outgoing.length then do
        -- the socket is likely ready to write
        let (conn, sent) ← handleWrite { conn with wantRead := false, wantWrite := true } w
        some (g, conn, sent)
      else some (g, conn, [])

end ByoRedis
