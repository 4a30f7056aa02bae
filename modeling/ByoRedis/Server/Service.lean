import ByoRedis.Server.LogInv
import ByoRedis.Server.PollTimeout

/-!
# Server — the service as a whole

The event loop, with its connections, pipelining, partial writes, timers and
threads, is a finite map that is served one request at a time.
-/

namespace ByoRedis

open Run

/-- Every run of the server has its log. -/
theorem guarded_logged {s s' : Server} {evs : List LoopEvent}
    (h : Guarded Server.step Server.Allowed s evs s') (L : Log) :
    ∃ L', Guarded Logged.step Logged.Allowed ⟨s, L⟩ evs ⟨s', L'⟩ := by
  induction h generalizing L with
  | nil s => exact ⟨L, .nil _⟩
  | @cons s s₁ s' ev evs hok hstep _ ih =>
    obtain ⟨L', hrest⟩ := ih (L.event s ev)
    refine ⟨L', .cons hok ?_ hrest⟩
    rw [Logged.step, hstep]
    rfl

/-- **The event loop serves a finite map.** In every run from the start of the
server on, with any number of connections that come and go, the keyspace shows
the map to which the logged actions lead, done one at a time in that order. The
commands of a connection are those of the bytes read from it, each once and in
order; the bytes sent to it are its responses from the front on, and what is
missing is in its buffer. -/
theorem event_loop_serves {cores : Nat} (evs : List LoopEvent) (s₀ s : Server)
    (hnew : Server.new cores = some s₀)
    (hrun : Guarded Server.step Server.Allowed s₀ evs s) :
    ∃ L st gen S, Guarded Logged.step Logged.Allowed ⟨s₀, {}⟩ evs ⟨s, L⟩ ∧
      s.db.Abs S st ∧ Serves ∅ (fun _ => []) L.actions st gen ∧
      (∀ p, L.commands p = (requests (L.got p)).items ∧ L.sent p <+: gen p) ∧
      ∀ (fd : Nat) p, s.fd2conn[fd]? = some (some p) →
        gen p = L.sent p ++ (s.conn p).outgoing ∧
        (s.conn p).incoming = (requests (L.got p)).rest := by
  obtain ⟨L, hlogged⟩ := guarded_logged hrun {}
  obtain ⟨l, st, gen, hi, h⟩ := hlogged.invariant logged_step_right (Logged.start_right hnew)
  obtain ⟨S, habs⟩ := h.accounts.abs
  refine ⟨L, st, gen, S, hlogged, habs, h.accounts.serves,
    fun p => ⟨h.accounts.commands p, h.accounts.sent p⟩, ?_⟩
  intro fd p hp
  have hf := h.conns p ((hi.table.mem p).mpr ⟨fd, hp⟩)
  exact ⟨hf.outgoing, hf.incoming⟩

/-- A connection is accepted, sends two requests in one piece, and breaks. -/
theorem event_loop_serves_two : ∃ s₀ s L st gen S, Server.new 4 = some s₀ ∧
    Guarded Server.step Server.Allowed s₀ [.round acceptRound, .round farTtlRound] s ∧
    Guarded Logged.step Logged.Allowed ⟨s₀, {}⟩ [.round acceptRound, .round farTtlRound] ⟨s, L⟩ ∧
    s.db.Abs S st ∧ Serves ∅ (fun _ => []) L.actions st gen := by
  obtain ⟨s₀, s₁, p, S₁, hnew, hok₁, -, hround₁, h₁, hconn, habs₁⟩ := acceptRound_spec 4
  obtain ⟨hok₂, s₂, S₂, hround₂, -, -⟩ := farTtlRound_spec h₁ hconn habs₁
  have hrun : Guarded Server.step Server.Allowed s₀ [.round acceptRound, .round farTtlRound] s₂ :=
    .cons hok₁ hround₁ (.cons hok₂ hround₂ (.nil s₂))
  obtain ⟨L, st, gen, S, hlogged, habs, hserves, -⟩ := event_loop_serves _ s₀ s₂ hnew hrun
  exact ⟨s₀, s₂, L, st, gen, S, hnew, hrun, hlogged, habs, hserves⟩

/-! ## A round with one connection -/

variable {s s' : Server} {l : List Ptr} {L : Log} {fd : Nat} {p : Ptr} {ready : Ready}
  {bytes : Bytes}

/-- What is read at a connection. -/
theorem Log.handleReady_read (h : s.Inv l) (hslot : s.fd2conn[fd]? = some (some p))
    (hin : ready.pollIn = true) (hout : ready.pollOut = false) (hread : ready.read = .got bytes)
    (hready : ByoRedis.handleReady s fd ready = some s') :
    L.handleReady s fd ready = L.read p bytes ready.clock
      (readSent s.db { s.conn p with lastActiveMs := ready.now } ready) := by
  obtain ⟨conn₁, conn₂, honp, -⟩ := handleReady_ran h hslot hready
  simp only [Log.handleReady, hslot, honp, Log.onPollIn, hin, hread, Log.onPollOut, hout, if_true,
    Bool.false_eq_true, if_false]

/-- What is read in a round with one connection. -/
theorem Log.readyRound_eq (h : s.Inv [p]) (hin : ready.pollIn = true)
    (hout : ready.pollOut = false) (hread : ready.read = .got bytes)
    (hrun : s.round (readyRound ready) = some s') :
    let L₁ := L.read p bytes ready.clock
      (readSent s.db { s.conn p with lastActiveMs := ready.now } ready)
    L.round s (readyRound ready) = { L₁ with actions := L₁.actions ++ [.timers 0] } := by
  have hargs := pollArgs_singleton h
  have hslot : s.fd2conn[(s.conn p).pollFd.fd]? = some (some p) :=
    h.table.slot_of_mem (List.mem_singleton_self p)
  -- the round has got as far as the handlers of the connection
  cases hready : ByoRedis.handleReady s (s.conn p).pollFd.fd ready with
  | none =>
    rw [Server.round, hargs] at hrun
    simp [readyRound, onListening, ByoRedis.handleConns, hready] at hrun
  | some s₁ =>
    rw [Log.round, hargs]
    simp only [readyRound, onListening, Log.handleConns, hready, Bool.false_eq_true, if_false,
      Log.handleReady_read h hslot hin hout hread hready]

theorem Log.handleConns_none (L : Log) (s : Server) (args : List PollFd) :
    Log.handleConns (fun _ => none) L s args = L := by
  induction args with
  | nil => rfl
  | cons a args ih => rw [Log.handleConns, ih]

/-- A connection is accepted. -/
theorem accept_round (h : s.Inv l) (hfd : s.openFds fd = false) (L : Log) :
    ∃ s', Guarded Logged.step Logged.Allowed ⟨s, L⟩ [.round (acceptOn fd)]
        ⟨s', { L with actions := L.actions ++ [.timers 0] }⟩ ∧
      s'.Inv (l ++ [s.next]) ∧ s.next ∉ l ∧ s'.conn s.next = { fd := fd, wantRead := true } ∧
      (∀ q ≠ s.next, s'.conn q = s.conn q) ∧ ∀ S st, s.db.Abs S st → ∃ S', s'.db.Abs S' st := by
  obtain ⟨s₁, s₂, haccept, hround, h₂, hnew, hconn, hother, hdb⟩ := acceptOn_spec h hfd
  obtain ⟨args, hargs, -⟩ := pollArgs_spec h
  have hok : Logged.Allowed ⟨s, L⟩ (.round (acceptOn fd)) := acceptOn_promised hfd
  have hlisten : onListening s (acceptOn fd) = some s₁ := haccept
  refine ⟨s₂, .cons hok ?_ (.nil _), h₂, hnew, hconn, hother, hdb⟩
  rw [Logged.step, Server.step, hround, Log.event]
  simp only [Log.round, hargs, hlisten, Option.map_some]
  simp only [acceptOn, Log.handleConns_none, Bool.false_eq_true, if_false]

theorem logged_accept (cores : Nat) : ∃ s₀ s L p S, Server.new cores = some s₀ ∧
    Guarded Logged.step Logged.Allowed ⟨s₀, {}⟩ [.round acceptRound] ⟨s, L⟩ ∧
    s.Inv [p] ∧ s.conn p = { fd := 5, wantRead := true } ∧ s.db.Abs S ∅ ∧
    L.got p = [] ∧ L.sent p = [] ∧ L.actions = [.timers 0] := by
  obtain ⟨s₀, hnew, h₀, hfds, habs₀⟩ := Server.new_inv cores
  obtain ⟨s, hrun, h, -, hconn, -, hdb⟩ := accept_round h₀ (hfds 5) {}
  obtain ⟨S, habs⟩ := hdb ∅ ∅ habs₀
  exact ⟨s₀, s, _, s₀.next, S, hnew, hrun, h, hconn, habs, rfl, rfl, rfl⟩

/-- A connection is accepted, and bytes are read from it. -/
theorem logged_two_rounds (cores : Nat) (ready : Ready) (hin : ready.pollIn = true)
    (hout : ready.pollOut = false)
    (hread : ready.read = .got bytes) : ∃ s₀ s L p g S, Server.new cores = some s₀ ∧
      Guarded Logged.step Logged.Allowed ⟨s₀, {}⟩
        [.round acceptRound, .round (readyRound ready)] ⟨s, L⟩ ∧
      L.got p = bytes ∧
      L.actions = .timers 0 ::
        ((stamp p ready.clock 0 (requests bytes).items).map .request ++ [.timers 0]) ∧
      Db.Abs g S ∅ ∧
      L.sent p = readSent g { fd := 5, wantRead := true, lastActiveMs := ready.now } ready := by
  obtain ⟨s₀, s₁, L₁, p, S, hnew, hrun, h₁, hconn, habs, hgot₁, hsent₁, hactions₁⟩ :=
    logged_accept cores
  have hok : Logged.Allowed ⟨s₁, L₁⟩ (.round (readyRound ready)) :=
    readyRound_promised h₁ (fun _ => by rw [hconn]) (fun ho => by rw [hout] at ho; cases ho)
  have hright := hrun.invariant logged_step_right (Logged.start_right hnew)
  obtain ⟨⟨s₂, L₂⟩, hstep, -⟩ := logged_step_right ⟨s₁, L₁⟩ _ hright hok
  refine ⟨s₀, s₂, L₂, p, s₁.db, S, hnew, hrun.concat hok hstep, ?_⟩
  simp only [Logged.step, Option.map_eq_some_iff] at hstep
  obtain ⟨s', hround, he⟩ := hstep
  cases he
  rw [Log.event, Log.readyRound_eq h₁ hin hout hread hround]
  simp [Log.read, hgot₁, hsent₁, hactions₁, requests_nil, habs, hconn]

end ByoRedis
