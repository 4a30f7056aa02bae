import ByoRedis.Server.EventLoopRun

/-!
# Server — what passes through the sockets

The event loop with a log beside it: the bytes that `read` has given to each
connection, the bytes that `write` has taken from it, and what was done to the
keyspace, in order. The log reads the state and changes nothing in it.

`Serves` is what the log should say: the requests, the expiry steps and the
tasks, one at a time on the finite map, each response behind the others of its
connection.
-/

namespace ByoRedis

open Framing Run

/-! ## The log -/

/-- Something done to the keyspace; the `conn` of a request is the pointer to
its connection. -/
inductive Action where
  | request (r : Request)
  | timers (now : Nat)
  | worker

/-- The command of an action, if it is a request of the connection. -/
def Action.cmdOf (p : Ptr) : Action → Option (List Bytes)
  | .request r => if r.conn = p then some r.cmd else none
  | _ => none

/-- The log of a run. -/
structure Log where
  actions : List Action := []
  got : Ptr → Bytes := fun _ => []
  sent : Ptr → Bytes := fun _ => []

/-- The commands of a connection, in order. -/
def Log.commands (L : Log) (p : Ptr) : List (List Bytes) := L.actions.filterMap (Action.cmdOf p)

/-- The bytes that `write` takes in the course of `handle_read`. -/
def readSent (db : Db) (conn : Conn) (r : Ready) : Bytes :=
  match handleRead doRequest r.clock db conn r.read r.readWrite with
  | some (_, _, sent) => sent
  | none => []

/-- The bytes that `write` takes in `handle_write`. -/
def writeSent (conn : Conn) (r : Ready) : Bytes :=
  match handleWrite conn r.write with
  | some (_, sent) => sent
  | none => []

/-- Bytes that are read: the requests completed by them, and what is sent. -/
def Log.read (L : Log) (p : Ptr) (bytes : Bytes) (clock : Nat → Nat) (sent : Bytes) : Log where
  actions := L.actions ++
    (stamp p clock 0 ((requests (L.got p ++ bytes)).items.drop
      (requests (L.got p)).items.length)).map .request
  got := Function.update L.got p (L.got p ++ bytes)
  sent := Function.update L.sent p (L.sent p ++ sent)

/-- Bytes that are written. -/
def Log.write (L : Log) (p : Ptr) (sent : Bytes) : Log :=
  { L with sent := Function.update L.sent p (L.sent p ++ sent) }

/-- `if (ready & POLLIN)`. -/
def Log.onPollIn (L : Log) (p : Ptr) (db : Db) (conn : Conn) (r : Ready) : Log :=
  if r.pollIn then
    match r.read with
    | .got bytes => L.read p bytes r.clock (readSent db conn r)
    | _ => L
  else L

/-- `if (ready & POLLOUT)`. -/
def Log.onPollOut (L : Log) (p : Ptr) (conn : Conn) (r : Ready) : Log :=
  if r.pollOut then L.write p (writeSent conn r) else L

/-- One connection socket. -/
def Log.handleReady (L : Log) (s : Server) (fd : Nat) (r : Ready) : Log :=
  match s.fd2conn[fd]? with
  | some (some p) =>
    let conn := { s.conn p with lastActiveMs := r.now }
    match ByoRedis.onPollIn s.db conn r with
    | some (_, conn') => (L.onPollIn p s.db conn r).onPollOut p conn' r
    | none => L
  | _ => L

/-- The loop over the connection sockets. -/
def Log.handleConns (ready : Nat → Option Ready) (L : Log) (s : Server) : List PollFd → Log
  | [] => L
  | a :: args =>
    match ready a.fd with
    | none => Log.handleConns ready L s args
    | some r =>
      match ByoRedis.handleReady s a.fd r with
      | some s' => Log.handleConns ready (L.handleReady s a.fd r) s' args
      | none => L

/-- One round of the event loop. -/
def Log.round (L : Log) (s : Server) (r : Round) : Log :=
  if r.eintr then L
  else
    match s.pollArgs, onListening s r with
    | some args, some s' =>
      let L := Log.handleConns r.ready L s' args
      { L with actions := L.actions ++ [.timers r.timersNow] }
    | _, _ => L

/-- One event. -/
def Log.event (L : Log) (s : Server) : LoopEvent → Log
  | .round r => L.round s r
  | .worker _ => { L with actions := L.actions ++ [.worker] }

/-- The server and its log. -/
structure Logged where
  server : Server
  log : Log

/-- One event of the server, logged. -/
def Logged.step (t : Logged) (ev : LoopEvent) : Option Logged :=
  (t.server.step ev).map fun s => { server := s, log := t.log.event t.server ev }

/-- The kernel keeps its promises. -/
def Logged.Allowed (t : Logged) (ev : LoopEvent) : Prop := t.server.Allowed ev

/-! ## What it should say -/

/-- The actions one at a time, on the map; `gen` are the bytes generated for
each connection. -/
inductive Serves : Store → (Ptr → Bytes) → List Action → Store → (Ptr → Bytes) → Prop
  | nil (st : Store) (gen : Ptr → Bytes) : Serves st gen [] st gen
  | request {st st₁ st' : Store} {gen gen' : Ptr → Bytes} {r : Request} {reply : Reply}
      {as : List Action} (h : RefCommand addU64 r.now st (Command.ofRequest r.cmd) reply st₁)
      (hrest : Serves st₁ (Function.update gen r.conn (gen r.conn ++ response reply.encode)) as
        st' gen') : Serves st gen (.request r :: as) st' gen'
  | timers {st st₁ st' : Store} {gen gen' : Ptr → Bytes} {now : Nat} {as : List Action}
      (h : Expires 2001 now st st₁) (hrest : Serves st₁ gen as st' gen') :
      Serves st gen (.timers now :: as) st' gen'
  | worker {st st' : Store} {gen gen' : Ptr → Bytes} {as : List Action}
      (hrest : Serves st gen as st' gen') : Serves st gen (.worker :: as) st' gen'

variable {st st₁ st' : Store} {gen gen₁ gen' : Ptr → Bytes} {as bs : List Action}

theorem Serves.append (h : Serves st gen as st₁ gen₁) (h' : Serves st₁ gen₁ bs st' gen') :
    Serves st gen (as ++ bs) st' gen' := by
  induction h with
  | nil => exact h'
  | request hr _ ih => exact .request hr (ih h')
  | timers he _ ih => exact .timers he (ih h')
  | worker _ ih => exact .worker (ih h')

theorem Serves.append_inv (h : Serves st gen (as ++ bs) st' gen') :
    ∃ st₁ gen₁, Serves st gen as st₁ gen₁ ∧ Serves st₁ gen₁ bs st' gen' := by
  induction as generalizing st gen with
  | nil => exact ⟨st, gen, .nil st gen, h⟩
  | cons a as ih =>
    cases h with
    | request hr hrest =>
      obtain ⟨st₁, gen₁, h₁, h₂⟩ := ih hrest
      exact ⟨st₁, gen₁, .request hr h₁, h₂⟩
    | timers he hrest =>
      obtain ⟨st₁, gen₁, h₁, h₂⟩ := ih hrest
      exact ⟨st₁, gen₁, .timers he h₁, h₂⟩
    | worker hrest =>
      obtain ⟨st₁, gen₁, h₁, h₂⟩ := ih hrest
      exact ⟨st₁, gen₁, .worker h₁, h₂⟩

/-- The requests that a buffer is found to hold, served. -/
theorem executeAll_serves {g g' : Db} {S : Finset Ptr} {out : Bytes} {p : Ptr} {clock : Nat → Nat}
    {i : Nat} {cmds : List (List Bytes)} (h : g.Abs S st)
    (hall : executeAll doRequest clock i g cmds = some (g', out)) (gen : Ptr → Bytes) :
    ∃ st' S', g'.Abs S' st' ∧
      Serves st gen ((stamp p clock i cmds).map .request) st'
        (Function.update gen p (gen p ++ out)) := by
  induction cmds generalizing i g S st out gen with
  | nil =>
    cases hall
    refine ⟨st, S, h, ?_⟩
    rw [List.append_nil, Function.update_eq_self]
    exact .nil st gen
  | cons cmd cmds ih =>
    obtain ⟨g₁, S₁, r, st₁, hrun, href, h₁⟩ := doRequest_answered h (clock i) cmd
    simp only [executeAll, hrun, List.nil_append, Option.bind_eq_bind, Option.bind_some,
      Option.bind_eq_some_iff] at hall
    obtain ⟨⟨g₂, out₂⟩, hall, he⟩ := hall
    cases he
    obtain ⟨st', S', h', hserves⟩ := ih h₁ hall (Function.update gen p (gen p ++ response r.encode))
    refine ⟨st', S', h', .request href ?_⟩
    rw [Function.update_idem, Function.update_self, List.append_assoc] at hserves
    exact hserves

end ByoRedis
