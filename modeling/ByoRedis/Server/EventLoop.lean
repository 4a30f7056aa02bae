import ByoRedis.Container.List
import ByoRedis.Server.Db

/-!
# Server — the event loop

`main` of `server/main.cc` from the first `poll` on, with `handle_accept`,
`conn_destroy`, `next_timer_ms` and `process_timers`. One round of the loop is
a function of the state and of everything that the kernel and the clock
answer in it. A `poll` that fails for another reason than `EINTR`, and a
descriptor that cannot be set to nonblocking mode, abort the process: such
rounds have no next state and are left out.

`none` is a failed `assert`, a null or dangling pointer that is dereferenced,
an index out of range, or a loop that does not end.
-/

namespace ByoRedis

/-- The nodes of the ring of idle timers: `idle_head` and the `idle_node` of
each connection. -/
inductive IdleNode where
  | head
  | conn (p : Ptr)
deriving DecidableEq

/-- `g_data`, with the memory of the `Conn` objects and of the ring. `openFds`
are the descriptors of accepted sockets that the kernel has open; no function
reads it. -/
structure Server where
  db : Db
  fd2conn : List (Option Ptr) := []
  conn : Ptr → Conn
  live : Ptr → Bool := fun _ => false
  next : Ptr := 0
  idle : ListMem IdleNode
  openFds : Nat → Bool := fun _ => false

/-- `g_data` before the first event. -/
def Server.new (cores : Nat) : Option Server := do
  let db ← Db.new cores
  some { db := db
         conn := fun _ => { fd := 0 }
         idle := ListMem.init (fun n => { prev := n, next := n }) .head }

/-- The connection at a pointer, unless it was deleted. -/
def Server.deref (s : Server) (p : Ptr) : Option Conn := if s.live p then some (s.conn p) else none

/-! ## Accept and close -/

/-- `fd2conn.resize(n)` for a larger `n`. -/
def resizeFds (fds : List (Option Ptr)) (n : Nat) : List (Option Ptr) :=
  fds ++ List.replicate (n - fds.length) none

/-- `handle_accept`, by what `accept` answers and the clock. -/
def handleAccept (s : Server) (connfd : Option Nat) (now : Nat) : Option Server :=
  match connfd with
  | none => some s -- accept() error
  | some fd =>
    -- create a `struct Conn`
    let p := s.next
    let s := { s with
      conn := Function.update s.conn p { fd := fd, wantRead := true, lastActiveMs := now }
      live := Function.update s.live p true
      next := s.next + 1
      idle := (s.idle.init (.conn p)).insertBack .head (.conn p)
      openFds := Function.update s.openFds fd true }
    -- put it into the map
    let fds := if s.fd2conn.length ≤ fd then resizeFds s.fd2conn (fd + 1) else s.fd2conn
    if fds[fd]? = some none then some { s with fd2conn := fds.set fd (some p) }
    else none

/-- `conn_destroy`. -/
def connDestroy (s : Server) (p : Ptr) : Option Server := do
  let conn ← s.deref p
  if s.fd2conn.length ≤ conn.fd then none
  else
    some { s with
      openFds := Function.update s.openFds conn.fd false
      fd2conn := s.fd2conn.set conn.fd none
      idle := s.idle.detach (.conn p)
      live := Function.update s.live p false }

/-! ## Timers -/

/-- `k_idle_timeout_ms`. -/
def kIdleTimeoutMs : Nat := 5 * 1000

/-- The connection behind the first node of the ring. -/
def Server.firstIdle (s : Server) : Option Ptr :=
  match (s.idle .head).next with
  | .head => none
  | .conn p => some p

/-- The first part of `next_timer_ms`: `next_ms`. -/
def nextMs (s : Server) : Option Nat := do
  -- idle timers using a linked list
  let next ←
    if s.idle.empty .head then some (2 ^ 64 - 1)
    else do
      let p ← s.firstIdle
      let conn ← s.deref p
      some ((conn.lastActiveMs + kIdleTimeoutMs) % 2 ^ 64)
  -- TTL timers using a heap
  some (if 0 < s.db.heapSize ∧ (s.db.heap.h 0).val < next then (s.db.heap.h 0).val else next)

/-- `next_timer_ms`, a `uint32_t`. -/
def nextTimerMs (s : Server) (now : Nat) : Option Nat := do
  let next ← nextMs s
  if next = 2 ^ 64 - 1 then some (2 ^ 32 - 1) -- no timers, no timeouts
  else if next ≤ now then some 0 -- missed?
  else some ((next - now) % 2 ^ 32)

/-- `int32_t timeout_ms = next_timer_ms();` -/
def Server.timeoutMs (s : Server) (now : Nat) : Option Int := (nextTimerMs s now).map toInt32

/-- The loop of `process_timers` over the idle connections. -/
def Server.idleLoop (now : Nat) (s : Server) : Option Server :=
  if s.idle.empty .head then some s
  else do
    let p ← s.firstIdle
    let conn ← s.deref p
    if now ≤ (conn.lastActiveMs + kIdleTimeoutMs) % 2 ^ 64 then some s -- not expired
    else do
      let s ← connDestroy s p
      s |>.idleLoop now
partial_fixpoint

/-- `process_timers`. -/
def processTimers (now : Nat) (s : Server) : Option Server := do
  let s ← s.idleLoop now
  let db ← processTtls now s.db
  some { s with db := db }

/-! ## One round -/

/-- A `struct pollfd` of a connection: the descriptor and what is asked for. -/
structure PollFd where
  fd : Nat
  pollIn : Bool
  pollOut : Bool
deriving DecidableEq

/-- The arguments of `poll`, behind the one for the listening socket. -/
def Server.pollArgs (s : Server) : Option (List PollFd) :=
  (s.fd2conn.filterMap id).mapM (fun p => do
    let conn ← s.deref p
    some { fd := conn.fd, pollIn := conn.wantRead, pollOut := conn.wantWrite })

/-- What happens at a connection that `poll` reports: the events (other ones
than these may stand alone), the clock, and what `read`, `write` and the clock
answer while it is handled. -/
structure Ready where
  pollIn : Bool := false
  pollOut : Bool := false
  pollErr : Bool := false
  now : Nat
  read : ReadResult := .again
  clock : Nat → Nat := fun _ => 0
  readWrite : WriteResult := .again
  write : WriteResult := .again

/-- `if (ready & POLLIN)`, with its assertion. -/
def onPollIn (db : Db) (conn : Conn) (r : Ready) : Option (Db × Conn) :=
  if r.pollIn then
    if conn.wantRead then
      (handleRead doRequest r.clock db conn r.read r.readWrite).map
        (fun (db, conn, _) => (db, conn))
    else none
  else some (db, conn)

/-- `if (ready & POLLOUT)`, with its assertion. -/
def onPollOut (conn : Conn) (r : Ready) : Option Conn :=
  if r.pollOut then
    if conn.wantWrite then (handleWrite conn r.write).map Prod.fst else none
  else some conn

/-- One connection socket. -/
def handleReady (s : Server) (fd : Nat) (r : Ready) : Option Server :=
  match s.fd2conn[fd]? with
  | some (some p) => do
    let conn ← s.deref p
    -- update the idle timer by moving conn to the end of the list
    let s := { s with idle := (s.idle.detach (.conn p)).insertBack .head (.conn p) }
    let conn := { conn with lastActiveMs := r.now }
    -- handle IO
    let (db, conn) ← onPollIn s.db conn r
    let conn ← onPollOut conn r
    let s := { s with db := db, conn := Function.update s.conn p conn }
    -- close the socket from socket error or application logic
    if r.pollErr || conn.wantClose then connDestroy s p else some s
  | _ => none

/-- The loop over the connection sockets; a descriptor without `Ready` has no
`revents`. -/
def handleConns (ready : Nat → Option Ready) (s : Server) : List PollFd → Option Server
  | [] => some s
  | a :: args =>
    match ready a.fd with
    | none => handleConns ready s args
    | some r => do
      let s ← handleReady s a.fd r
      handleConns ready s args

/-- What the kernel and the clock answer in one round. `accepted` is there
when the listening socket is reported: what `accept` answers, and the clock. -/
structure Round where
  pollNow : Nat
  eintr : Bool := false
  accepted : Option (Option Nat × Nat) := none
  ready : Nat → Option Ready := fun _ => none
  timersNow : Nat

/-- The listening socket: `if (poll_args[0].revents)`. -/
def onListening (s : Server) (r : Round) : Option Server :=
  match r.accepted with
  | none => some s
  | some (connfd, now) => handleAccept s connfd now

/-- One round of the event loop. -/
def Server.round (s : Server) (r : Round) : Option Server := do
  let args ← s.pollArgs
  let _ ← s.timeoutMs r.pollNow
  if r.eintr then some s -- not an error
  else do
    let s ← onListening s r
    let s ← handleConns r.ready s args
    processTimers r.timersNow s

end ByoRedis
