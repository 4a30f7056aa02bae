import ByoRedis.Lib.Run
import ByoRedis.Server.EventLoopInv

/-!
# Server — runs of the event loop

Rounds of the event loop and steps of the thread pool's workers, in any order from
the start of the server on. First what holds of every connection at the top of the
loop, then, under a clock that does not go back, what the timers do.
-/

namespace ByoRedis

open ByteBuf Framing Run

/-- A round of the event loop, or a step of a worker of the thread pool. -/
inductive LoopEvent where
  | round (r : Round)
  | worker (w : Nat)

/-- One event. -/
def Server.step (s : Server) : LoopEvent → Option Server
  | .round r => s.round r
  | .worker w => (workerStep s.db w).map (fun db => { s with db := db })

/-- The kernel keeps its promises. -/
def Server.Allowed (s : Server) : LoopEvent → Prop
  | .round r => r.Promised s
  | .worker _ => True

variable {s s₀ : Server} {l : List Ptr} {cores : Nat}

theorem Server.new_inv (cores : Nat) :
    ∃ s, Server.new cores = some s ∧ s.Inv [] ∧ (∀ fd, s.openFds fd = false) ∧ s.db.Abs ∅ ∅ := by
  obtain ⟨g, hnew, habs, -⟩ := Db.new_abs cores
  let s : Server := { db := g
                      conn := fun _ => { fd := 0 }
                      idle := ListMem.init (fun n => { prev := n, next := n }) .head }
  have hs : Server.new cores = some s := by simp [Server.new, hnew, s]
  exact ⟨s, hs, ⟨⟨∅, ∅, habs⟩, ⟨by simp [s], by simp [s], by simp, by simp, by simp⟩,
    ListMem.init_ring _ _, by simp⟩, fun _ => rfl, habs⟩

theorem Server.inv_of_new (hnew : Server.new cores = some s) : s.Inv [] := by
  obtain ⟨s₁, hnew', h₁, -⟩ := Server.new_inv cores
  obtain rfl : s = s₁ := Option.some.inj (hnew.symm.trans hnew')
  exact h₁

theorem workerStep_inv (h : s.Inv l) (w : Nat) :
    ∃ db, workerStep s.db w = some db ∧ Server.Inv { s with db := db } l := by
  obtain ⟨st, S, habs⟩ := h.db
  obtain ⟨g', hrun, habs', -⟩ := workerStep_spec habs w
  exact ⟨g', hrun, ⟨st, S, habs'⟩,
    ⟨h.table.mem, h.table.slot, h.table.live, h.table.fds, h.table.fresh⟩, h.ring, h.settled⟩

/-- One event of a server in order. -/
theorem step_inv (s : Server) (ev : LoopEvent) (h : ∃ l, s.Inv l) (hok : s.Allowed ev) :
    ∃ s', s.step ev = some s' ∧ ∃ l, s'.Inv l := by
  obtain ⟨l, h⟩ := h
  cases ev with
  | round r =>
    obtain ⟨s', l', hrun, h', -⟩ := round_spec h hok
    exact ⟨s', hrun, l', h'⟩
  | worker w =>
    obtain ⟨db, hrun, h'⟩ := workerStep_inv h w
    exact ⟨{ s with db := db }, by simp only [Server.step, hrun, Option.map_some], l, h'⟩

/-! ## Rounds at clock 0 -/

/-- A connection is accepted. -/
def acceptOn (fd : Nat) : Round := { pollNow := 0, accepted := some (some fd, 0), timersNow := 0 }

/-- A connection is accepted as descriptor 5. -/
def acceptRound : Round := acceptOn 5

/-- The connections are ready. -/
def readyRound (ready : Ready) : Round :=
  { pollNow := 0, ready := fun _ => some ready, timersNow := 0 }

variable {p : Ptr} {fd : Nat}

theorem acceptOn_promised (hfd : s.openFds fd = false) : (acceptOn fd).Promised s := by
  refine Round.Promised.mk ?_ ?_
  · intro _ _ _ _ rd hrd
    cases hrd
  · intro fd' now hacc
    cases hacc
    exact hfd

/-- The new connection is there, behind the others, and nothing else has changed. -/
theorem acceptOn_spec (h : s.Inv l) (hfd : s.openFds fd = false) :
    ∃ s₁ s', handleAccept s (some fd) 0 = some s₁ ∧ s.round (acceptOn fd) = some s' ∧
      s'.Inv (l ++ [s.next]) ∧ s.next ∉ l ∧ s'.conn s.next = { fd := fd, wantRead := true } ∧
      (∀ q ≠ s.next, s'.conn q = s.conn q) ∧
      ∀ S st, s.db.Abs S st → ∃ S', s'.db.Abs S' st := by
  obtain ⟨s₁, haccept, h₁, hnew, hconn₁, hother₁, hdb₁, -⟩ := handleAccept_some h hfd 0
  obtain ⟨st, S, habs⟩ := h₁.db
  obtain ⟨s₂, S₂, htimers, h₂, hconn₂, habs₂⟩ := processTimers_zero h₁ habs
  obtain ⟨args, hargs, -⟩ := pollArgs_spec h
  obtain ⟨n, hn⟩ := timeoutMs_isSome h 0
  refine ⟨s₁, s₂, haccept, ?_, h₂, hnew, by rw [hconn₂, hconn₁], ?_, ?_⟩
  · rw [Server.round, hargs]
    simp [acceptOn, hn, onListening, haccept, handleConns_none, htimers]
  · intro q hq
    rw [hconn₂, hother₁ q hq]
  · intro S' st' habs'
    rw [← hdb₁] at habs'
    obtain ⟨s₃, S₃, htimers₃, -, -, habs₃⟩ := processTimers_zero h₁ habs'
    cases htimers.symm.trans htimers₃
    exact ⟨S₃, habs₃⟩

/-- The first round, from the start of the server on. -/
theorem acceptRound_spec (cores : Nat) : ∃ s₀ s p S, Server.new cores = some s₀ ∧
    acceptRound.Promised s₀ ∧ s₀.pollArgs = some [] ∧ s₀.round acceptRound = some s ∧
    s.Inv [p] ∧ s.conn p = { fd := 5, wantRead := true } ∧ s.db.Abs S ∅ := by
  obtain ⟨s₀, hnew, h₀, hfds, habs₀⟩ := Server.new_inv cores
  have hargs : s₀.pollArgs = some [] := by
    rw [Server.new, Option.bind_eq_bind, Option.bind_eq_some_iff] at hnew
    obtain ⟨g, -, hs₀⟩ := hnew
    cases hs₀
    rfl
  obtain ⟨-, s, -, hround, h, -, hconn, -, hdb⟩ := acceptOn_spec h₀ (hfds 5)
  obtain ⟨S, habs'⟩ := hdb ∅ ∅ habs₀
  exact ⟨s₀, s, s₀.next, S, hnew, acceptOn_promised (hfds 5), hargs, hround, h, hconn, habs'⟩

theorem readyRound_promised (h : s.Inv [p]) {ready : Ready}
    (hin : ready.pollIn = true → (s.conn p).wantRead = true)
    (hout : ready.pollOut = true → (s.conn p).wantWrite = true) : (readyRound ready).Promised s := by
  refine ⟨?_, fun _ _ hacc => by cases hacc⟩
  intro args hargs a ha rd hrd
  cases (pollArgs_singleton h).symm.trans hargs
  cases hrd
  rw [List.mem_singleton.mp ha]
  exact ⟨hin, hout⟩

/-- The only connection is handled, and is not to be closed. -/
theorem readyRound_open (h : s.Inv [p]) {r : Ready} {db : Db} {conn₁ conn₂ : Conn}
    (hin : r.pollIn = true → (s.conn p).wantRead = true)
    (hout : r.pollOut = true → (s.conn p).wantWrite = true) (herr : r.pollErr = false)
    (hread : onPollIn s.db { s.conn p with lastActiveMs := r.now } r = some (db, conn₁))
    (hwrite : onPollOut conn₁ r = some conn₂) (hopen : conn₂.wantClose = false) :
    ∃ s', s.round (readyRound r) = some s' ∧ s'.Inv [p] ∧ s'.conn p = conn₂ := by
  have hslot := h.table.slot_of_mem (List.mem_singleton_self p)
  obtain ⟨s₁, hready, h₁, -, -, hconn₁⟩ :=
    handleReady_open h hslot hin hout herr hread hwrite hopen
  rw [List.erase_cons_head, List.nil_append] at h₁
  obtain ⟨st, S, habs⟩ := h₁.db
  obtain ⟨s₂, -, htimers, h₂, hconn₂, -⟩ := processTimers_zero h₁ habs
  obtain ⟨n, hn⟩ := timeoutMs_isSome h 0
  refine ⟨s₂, ?_, h₂, by rw [hconn₂, hconn₁, Function.update_self]⟩
  rw [Server.round, pollArgs_singleton h]
  simp [readyRound, hn, onListening, handleConns, Conn.pollFd, hready, htimers]

/-! ## Connections -/

/-- A connection at the top of the event loop. -/
structure Conn.AtTop (conn : Conn) (fd : Nat) : Prop where
  /-- it is the one of its descriptor -/
  fd : conn.fd = fd
  notClosing : conn.wantClose = false
  /-- exactly one of the intentions -/
  one : conn.wantRead = !conn.wantWrite
  write : conn.wantWrite = true ↔ conn.outgoing ≠ []
  /-- no message is there to its end -/
  answered : ∀ body rest : Bytes, body.length < 2 ^ 32 →
    conn.incoming ≠ le 4 body.length ++ body ++ rest

/-- A stream that starts with a whole message is not incomplete. -/
theorem nextMessage_ne_incomplete {incoming body rest : Bytes} (hlen : body.length < 2 ^ 32)
    (hin : incoming = le 4 body.length ++ body ++ rest) : nextMessage incoming ≠ .incomplete := by
  have hl : incoming.length = 4 + body.length + rest.length := by simp [hin, Nat.add_assoc]
  have hof : ofLe (incoming.take 4) = body.length := by
    rw [hin, List.append_assoc, List.take_left' (length_le 4 _)]
    exact ofLe_le_of_lt (by omega)
  rw [nextMessage, hof, if_neg (by omega)]
  split
  · simp
  · rw [if_neg (by omega)]
    split <;> simp

theorem Conn.Settled.atTop {conn : Conn} (h : conn.Settled) : conn.AtTop conn.fd := by
  refine ⟨rfl, h.notClosing, ?_, h.tuned.write, ?_⟩
  · by_cases hout : conn.outgoing = []
    · have hw : conn.wantWrite = false := by simpa [hout] using h.tuned.write
      rw [h.tuned.read.mpr hout, hw]
      rfl
    · have hr : conn.wantRead = false := by simpa [hout] using h.tuned.read
      rw [h.tuned.write.mpr hout, hr]
      rfl
  · intro body rest hlen hin
    exact nextMessage_ne_incomplete hlen hin h.answered

/-- **The connection state machine.** In every state that the event loop can
reach while the kernel keeps its promises, every connection is in order, and
whatever happens next goes through: no assertion fails and no null or dangling
pointer is dereferenced. -/
theorem connection_state_machine (evs : List LoopEvent) (s₀ s : Server)
    (hnew : Server.new cores = some s₀) (hrun : Guarded Server.step Server.Allowed s₀ evs s) :
    (∀ (fd : Nat) p, s.fd2conn[fd]? = some (some p) →
      s.live p = true ∧ (s.conn p).AtTop fd) ∧
    ∀ ev, s.Allowed ev → ∃ s', s.step ev = some s' := by
  obtain ⟨l, h⟩ := hrun.invariant step_inv ⟨[], Server.inv_of_new hnew⟩
  constructor
  · intro fd p hp
    have hmem := (h.table.mem p).mpr ⟨fd, hp⟩
    refine ⟨h.table.live p hmem, ?_⟩
    have hfd := h.table.slot fd p hp
    rw [← hfd]
    exact (h.settled p hmem).atTop
  · intro ev hok
    obtain ⟨s', hstep, -⟩ := step_inv s ev ⟨l, h⟩ hok
    exact ⟨s', hstep⟩

/-- A key that is not there is asked for. -/
theorem handleRead_get {g : Db} {S : Finset Ptr} (h : g.Abs S ∅) (clock : Nat → Nat)
    (w : WriteResult) : ∃ g', handleRead doRequest clock g { fd := 5, wantRead := true }
      (.got (message [lit "get", lit "k"])) w =
        (handleWrite { fd := 5, wantWrite := true, outgoing := [1, 0, 0, 0, 0] } w).map
          (fun (conn, sent) => (g', conn, sent)) := by
  have hparse : requests (message [lit "get", lit "k"]) = ⟨[[lit "get", lit "k"]], [], false⟩ :=
    requests_single (by decide) (by decide)
  obtain ⟨g', out, -, hall, hloop⟩ := requestLoop_spec doRequest_appendsOn clock 0 ⟨∅, S, h⟩
    { fd := 5, wantRead := true, incoming := message [lit "get", lit "k"] }
  obtain ⟨g₁, S₁, r, st₁, hrun, href, -⟩ := doRequest_answered h (clock 0) [lit "get", lit "k"]
  have hnil : r = .one .nil := href.2
  simp only [hparse, executeAll, hrun, hnil, Option.bind_eq_bind, Option.bind_some, Option.some.injEq,
    Prod.mk.injEq] at hall
  obtain ⟨rfl, rfl⟩ := hall
  rw [hparse] at hloop
  refine ⟨g₁, ?_⟩
  have hlen : ¬ (message [lit "get", lit "k"]).length = 0 := by decide
  rw [handleRead, if_neg hlen]
  have hresp : response (Reply.one .nil).encode ++ [] = [1, 0, 0, 0, 0] := by decide
  simp only [Buffer.write, List.nil_append, hloop, hresp, Option.bind_eq_bind, Option.bind_some]
  rw [if_pos (by decide), Bool.or_self, Option.map_eq_bind]
  rfl

/-- A request is read, and the socket has room for three bytes of the answer. -/
def partialReady : Ready where
  pollIn := true
  now := 0
  read := .got (message [lit "get", lit "k"])
  readWrite := .room 3

/-- The socket has room again. -/
def restReady : Ready where
  pollOut := true
  now := 0
  write := .room 100

/-- A connection is accepted, the answer to its request is written in part, and the rest
of it in the next round. -/
theorem connection_state_machine_partial : ∃ s₀ s₁ s₂ s₃ p,
    Server.new 4 = some s₀ ∧
    Guarded Server.step Server.Allowed s₀ [.round acceptRound] s₁ ∧
    s₁.conn p = { fd := 5, wantRead := true } ∧
    Guarded Server.step Server.Allowed s₁ [.round (readyRound partialReady)] s₂ ∧
    s₂.conn p = { fd := 5, wantWrite := true, outgoing := [0, 0] } ∧
    Guarded Server.step Server.Allowed s₂ [.round (readyRound restReady)] s₃ ∧
    s₃.fd2conn[5]? = some (some p) ∧ s₃.conn p = { fd := 5, wantRead := true } ∧
    (∀ (fd : Nat) p, s₃.fd2conn[fd]? = some (some p) →
      s₃.live p = true ∧ (s₃.conn p).AtTop fd) ∧
    ∀ ev, s₃.Allowed ev → ∃ s', s₃.step ev = some s' := by
  obtain ⟨s₀, s₁, p, S, hnew, hok₁, -, hround₁, h₁, hconn₁, habs₁⟩ := acceptRound_spec 4
  -- the request
  obtain ⟨g, hread⟩ := handleRead_get habs₁ (fun _ => 0) (.room 3)
  have hin₂ : partialReady.pollIn = true → (s₁.conn p).wantRead = true := fun _ => by rw [hconn₁]
  have hout₂ : partialReady.pollOut = true → (s₁.conn p).wantWrite = true := fun h => by cases h
  have hpoll₂ : onPollIn s₁.db { s₁.conn p with lastActiveMs := 0 } partialReady =
      some (g, { fd := 5, wantWrite := true, outgoing := [0, 0] }) := by
    rw [hconn₁]
    simp only [onPollIn, partialReady, hread]
    rfl
  obtain ⟨s₂, hround₂, h₂, hconn₂⟩ := readyRound_open h₁ hin₂ hout₂ rfl hpoll₂ rfl rfl
  -- the rest of the answer
  have hin₃ : restReady.pollIn = true → (s₂.conn p).wantRead = true := fun h => by cases h
  have hout₃ : restReady.pollOut = true → (s₂.conn p).wantWrite = true := fun _ => by rw [hconn₂]
  have hpoll₃ : onPollOut { s₂.conn p with lastActiveMs := 0 } restReady =
      some { fd := 5, wantRead := true } := by
    rw [hconn₂]
    decide
  obtain ⟨s₃, hround₃, h₃, hconn₃⟩ := readyRound_open h₂ hin₃ hout₃ rfl rfl hpoll₃ rfl
  have hrun₁ : Guarded Server.step Server.Allowed s₀ [.round acceptRound] s₁ :=
    .cons hok₁ hround₁ (.nil s₁)
  have hrun₂ : Guarded Server.step Server.Allowed s₁ [.round (readyRound partialReady)] s₂ :=
    .cons (readyRound_promised h₁ hin₂ hout₂) hround₂ (.nil s₂)
  have hrun₃ : Guarded Server.step Server.Allowed s₂ [.round (readyRound restReady)] s₃ :=
    .cons (readyRound_promised h₂ hin₃ hout₃) hround₃ (.nil s₃)
  have hslot := h₃.table.slot_of_mem (List.mem_singleton_self p)
  rw [hconn₃] at hslot
  exact ⟨s₀, s₁, s₂, s₃, p, hnew, hrun₁, hconn₁, hrun₂, hconn₂, hrun₃, hslot, hconn₃,
    connection_state_machine _ s₀ s₃ hnew (hrun₁.append (hrun₂.append hrun₃))⟩

/-! ## Timers -/

/-- The server and the last reading of its clock. -/
structure Timed where
  server : Server
  clock : Nat

/-- One event. -/
def Timed.step (t : Timed) (ev : LoopEvent) : Option Timed :=
  (t.server.step ev).map (fun s =>
    { server := s
      clock := match ev with
        | .round r => r.lastNow
        | .worker _ => t.clock })

/-- The kernel keeps its promises, and the clock does not go back; as a
`uint64_t` it stays clear of its end by the idle timeout. -/
def Timed.Allowed (t : Timed) (ev : LoopEvent) : Prop :=
  t.server.Allowed ev ∧
    match ev with
    | .round r => (t.clock :: r.readings t.server).IsChain (· ≤ ·) ∧
        r.lastNow + kIdleTimeoutMs < 2 ^ 64
    | .worker _ => True

/-- The server is in order, and its ring sorted by activity. -/
structure Timed.Inv (t : Timed) (l : List Ptr) : Prop where
  inv : t.server.Inv l
  ordered : t.server.Ordered l t.clock
  clock : t.clock + kIdleTimeoutMs < 2 ^ 64

theorem timed_step_inv (t : Timed) (ev : LoopEvent) (h : ∃ l, t.Inv l) (hok : t.Allowed ev) :
    ∃ t', t.step ev = some t' ∧ ∃ l, t'.Inv l := by
  obtain ⟨l, h⟩ := h
  cases ev with
  | round r =>
    obtain ⟨hok, hchain, hbound⟩ := hok
    obtain ⟨s', l', hrun, h', ho'⟩ := round_spec h.inv hok
    refine ⟨⟨s', r.lastNow⟩, ?_, l', h', ho' t.clock h.ordered hchain, hbound⟩
    rw [Timed.step, Server.step, hrun, Option.map_some]
  | worker w =>
    obtain ⟨db, hrun, h'⟩ := workerStep_inv h.inv w
    refine ⟨⟨{ t.server with db := db }, t.clock⟩, ?_, l, h',
      h.ordered.of_conn (fun _ _ => rfl), h.clock⟩
    simp only [Timed.step, Server.step, hrun, Option.map_some]

theorem Timed.start_inv (h : Server.new cores = some s₀) :
    ∃ l, Timed.Inv { server := s₀, clock := 0 } l :=
  ⟨[], Server.inv_of_new h, ⟨List.Pairwise.nil, by simp⟩, by simp [kIdleTimeoutMs]⟩

/-- The expiry test, when nothing wraps. -/
theorem Timed.Inv.expired_iff {t : Timed} (h : t.Inv l) {p : Ptr} (hp : p ∈ l) (now : Nat) :
    t.server.expired now p = true ↔ (t.server.conn p).lastActiveMs + 5000 < now := by
  have hbound := h.ordered.bound p hp
  have hclock := h.clock
  rw [Server.expired, decide_eq_true_iff]
  simp only [kIdleTimeoutMs] at *
  omega

/-- A test that fails behind the first failure drops what it filters out. -/
theorem dropWhile_eq_filter {e : Ptr → Bool}
    (h : l.Pairwise (fun p q => e q = true → e p = true)) :
    l.dropWhile e = l.filter (fun p => !e p) := by
  induction l with
  | nil => rfl
  | cons p l ih =>
    obtain ⟨hp, hl⟩ := List.pairwise_cons.mp h
    by_cases he : e p = true
    · rw [List.dropWhile_cons_of_pos he, List.filter_cons_of_neg (by simp [he]), ih hl]
    · rw [List.dropWhile_cons_of_neg he, List.filter_cons_of_pos (by simpa using he),
        List.filter_eq_self.mpr]
      intro q hq
      by_cases heq : e q = true
      · exact absurd (hp q hq heq) he
      · simpa using heq

/-- In the sorted ring the expired connections are the first ones. -/
theorem Timed.Inv.dropWhile_expired {t : Timed} (h : t.Inv l) (now : Nat) :
    l.dropWhile (t.server.expired now) = l.filter (fun p => !t.server.expired now p) := by
  apply dropWhile_eq_filter
  refine h.ordered.sorted.imp_of_mem ?_
  intro p q hp hq hle
  rw [h.expired_iff hp, h.expired_iff hq]
  omega

/-- **`process_timers`** under a sane clock: the connections that are expired are
closed, and of the keys that are due the earliest are removed. -/
theorem Timed.Inv.fires {t : Timed} (h : t.Inv l) (now : Nat) : ∃ s' S st S' st',
    processTimers now t.server = some s' ∧
    (∀ (fd : Nat) p, s'.fd2conn[fd]? = some (some p) ↔
      t.server.fd2conn[fd]? = some (some p) ∧
        ¬ (t.server.conn p).lastActiveMs + 5000 < now) ∧
    s'.conn = t.server.conn ∧
    t.server.db.Abs S st ∧ s'.db.Abs S' st' ∧ Expires 2001 now st st' := by
  obtain ⟨s', hproc, h', hconn, hdb⟩ := processTimers_spec h.inv now
  obtain ⟨st, S, habs⟩ := h.inv.db
  obtain ⟨st', S', habs', hexp⟩ := hdb st S habs
  refine ⟨s', S, st, S', st', hproc, ?_, hconn, habs, habs', hexp⟩
  intro fd p
  rw [h.dropWhile_expired now] at h'
  rw [h'.table.slot_iff, h.inv.table.slot_iff, hconn, List.mem_filter]
  constructor
  · rintro ⟨⟨hp, hnot⟩, hfd⟩
    refine ⟨⟨hp, hfd⟩, ?_⟩
    rw [← h.expired_iff hp]
    simpa using hnot
  · rintro ⟨⟨hp, hfd⟩, hnot⟩
    refine ⟨⟨hp, ?_⟩, hfd⟩
    rw [← h.expired_iff hp] at hnot
    simpa using hnot

/-- **Timers fire exactly for what is due.** Under a clock that does not go
back, the ring holds the connections of `fd2conn`, each once and in the order
of their last activity. `process_timers` at a clock value that is not below
earlier ones closes exactly the connections idle for more than five seconds,
and of the keys that are due it removes the earliest, at most 2001. -/
theorem timers_fire_when_due (evs : List LoopEvent) (s₀ : Server) (t : Timed)
    (hnew : Server.new cores = some s₀)
    (hrun : Guarded Timed.step Timed.Allowed { server := s₀, clock := 0 } evs t) :
    (∃ l : List Ptr, t.server.idle.Ring .head (l.map .conn) ∧ l.Nodup ∧
      (∀ p, p ∈ l ↔ ∃ fd : Nat, t.server.fd2conn[fd]? = some (some p)) ∧
      l.Pairwise (fun p q =>
        (t.server.conn p).lastActiveMs ≤ (t.server.conn q).lastActiveMs)) ∧
    ∀ now, t.clock ≤ now → ∃ s' S st S' st',
      processTimers now t.server = some s' ∧
      (∀ (fd : Nat) p, s'.fd2conn[fd]? = some (some p) ↔
        t.server.fd2conn[fd]? = some (some p) ∧
          ¬ (t.server.conn p).lastActiveMs + 5000 < now) ∧
      s'.conn = t.server.conn ∧
      t.server.db.Abs S st ∧ s'.db.Abs S' st' ∧ Expires 2001 now st st' := by
  obtain ⟨l, h⟩ := hrun.invariant timed_step_inv (Timed.start_inv hnew)
  refine ⟨⟨l, h.inv.ring, h.inv.nodup, h.inv.table.mem, h.ordered.sorted⟩, ?_⟩
  exact fun now _ => h.fires now

/-- A connection accepted at clock 7, and the timers at clock 6000. -/
theorem timers_fire_when_due_idle : ∃ s₀ t s' S st S' st',
    Server.new 4 = some s₀ ∧
    Guarded Timed.step Timed.Allowed { server := s₀, clock := 0 }
      [.round { pollNow := 5, accepted := some (some 5, 7), timersNow := 8 }] t ∧
    processTimers 6000 t.server = some s' ∧
    (∀ (fd : Nat) p, s'.fd2conn[fd]? = some (some p) ↔
      t.server.fd2conn[fd]? = some (some p) ∧
        ¬ (t.server.conn p).lastActiveMs + 5000 < 6000) ∧
    t.server.db.Abs S st ∧ s'.db.Abs S' st' ∧ Expires 2001 6000 st st' := by
  obtain ⟨s₀, hnew, h₀, hfds, -⟩ := Server.new_inv 4
  have hok : Timed.Allowed { server := s₀, clock := 0 }
      (.round { pollNow := 5, accepted := some (some 5, 7), timersNow := 8 }) := by
    refine ⟨Round.Promised.mk ?_ ?_, ?_, by decide⟩
    · intro _ _ _ _ rd hrd
      cases hrd
    · intro fd _ _
      exact hfds fd
    · simp [Round.readings, readyNows]
  obtain ⟨t, hstep, -⟩ := timed_step_inv _ _ (Timed.start_inv hnew) hok
  have hclock : t.clock = 8 := by
    rw [Timed.step, Option.map_eq_some_iff] at hstep
    obtain ⟨s', -, rfl⟩ := hstep
    rfl
  have hrun := Guarded.cons hok hstep (.nil t)
  obtain ⟨s', S, st, S', st', hproc, hclosed, -, hrest⟩ :=
    (timers_fire_when_due _ s₀ t hnew hrun).2 6000 (by omega)
  exact ⟨s₀, t, s', S, st, S', st', hnew, hrun, hproc, hclosed, hrest⟩

end ByoRedis
