import ByoRedis.Server.Service

/-!
# Server — responses get out

While a connection has something to send, its socket is not read from; so what
there is to send only gets less. Each round in which the socket takes something
makes it less by as much, whatever the other connections do, until all the
responses are sent, or the connection is closed.
-/

namespace ByoRedis

open Framing Run

variable {s s' : Server} {l l' : List Ptr} {p : Ptr} {cores fd : Nat} {conn conn' : Conn}

/-- The bytes that `write` would take. -/
def WriteResult.taken : WriteResult → Nat
  | .room n => n
  | _ => 0

/-- The bytes that `handle_write` could get rid of, if `poll` reports `POLLOUT`. -/
def Ready.room (r : Ready) : Nat := if r.pollOut then r.write.taken else 0

/-- The bytes that the socket of a descriptor takes in a round, if there are as many. -/
def Round.room (r : Round) (fd : Nat) : Nat :=
  match r.ready fd with
  | some rd => rd.room
  | none => 0

/-- The bytes that the socket of a descriptor takes in an event, if there are as many. -/
def LoopEvent.room (fd : Nat) : LoopEvent → Nat
  | .round r => if r.eintr then 0 else r.room fd
  | .worker _ => 0

/-- **`handle_write`** makes the output no longer, and shorter by what `write` takes. -/
theorem handleWrite_length (hne : conn.outgoing ≠ []) {w : WriteResult} {sent : Bytes}
    (h : handleWrite conn w = some (conn', sent)) :
    conn'.outgoing.length ≤ conn.outgoing.length - w.taken := by
  have hpos := List.length_pos_iff.mpr hne
  unfold handleWrite at h
  rw [if_neg (Nat.pos_iff_ne_zero.mp hpos)] at h
  cases w with
  | again =>
    cases h
    exact Nat.le_refl _
  | error =>
    cases h
    exact Nat.le_refl _
  | room n =>
    have hconsume : conn.outgoing.consume (min n conn.outgoing.length) =
        some (conn.outgoing.drop (min n conn.outgoing.length)) := by
      rw [Buffer.consume, if_pos (Nat.min_le_right _ _)]
    have hlen : (conn.outgoing.drop (min n conn.outgoing.length)).length ≤
        conn.outgoing.length - n := by
      rw [List.length_drop]
      omega
    simp only [hconsume, Option.bind_eq_bind, Option.bind_some] at h
    split at h
    · cases h
      exact hlen
    · cases h
      exact hlen

theorem onPollOut_length (hne : conn.outgoing ≠ []) {r : Ready}
    (h : onPollOut conn r = some conn') :
    conn'.outgoing.length ≤ conn.outgoing.length - r.room := by
  unfold onPollOut at h
  rw [Ready.room]
  by_cases hout : r.pollOut = true
  · rw [if_pos hout] at h
    split at h
    · obtain ⟨⟨conn₁, sent⟩, hw, rfl⟩ := Option.map_eq_some_iff.mp h
      rw [if_pos hout]
      exact handleWrite_length hne hw
    · cases h
  · rw [if_neg hout] at h ⊢
    cases h
    exact Nat.le_refl _

/-- A connection with output, when it is reported. -/
theorem handleReady_length (h : s.Inv l) (hp : s.fd2conn[fd]? = some (some p))
    (hne : (s.conn p).outgoing ≠ []) {r : Ready}
    (hin : r.pollIn = true → (s.conn p).wantRead = true) (hrun : handleReady s fd r = some s') :
    (s'.conn p).outgoing.length ≤ (s.conn p).outgoing.length - r.room := by
  obtain ⟨conn₁, conn₂, hread, hwrite, hconn, -⟩ := handleReady_ran h hp hrun
  have hwant := (h.settled p ((h.table.mem p).mpr ⟨fd, hp⟩)).tuned.read
  -- it is not read from
  have hnot : r.pollIn ≠ true := fun hi => hne (hwant.mp (hin hi))
  rw [onPollIn, if_neg hnot] at hread
  obtain ⟨-, rfl⟩ := Prod.mk.inj (Option.some.inj hread)
  have htouched : ({ s.conn p with lastActiveMs := r.now } : Conn).outgoing ≠ [] := hne
  rw [hconn, Function.update_self]
  exact onPollOut_length htouched hwrite

/-- A connection that is not among the arguments. -/
theorem handleConns_other {ready : Nat → Option Ready} {args : List PollFd} (hi : s.Inv l)
    (hargs : s.Polled ready args) (hne : ∀ a ∈ args, s.fd2conn[a.fd]? ≠ some (some p))
    (hrun : handleConns ready s args = some s') : s'.conn p = s.conn p := by
  induction args generalizing s l with
  | nil =>
    cases hrun
    rfl
  | cons a args ih =>
    rw [handleConns] at hrun
    cases hr : ready a.fd with
    | none =>
      rw [hr] at hrun
      exact ih hi hargs.tail (fun b hb => hne b (List.mem_cons_of_mem _ hb)) hrun
    | some r =>
      obtain ⟨q, s₁, l₁, hq, -, -, hrun₁, hi₁, -, hconn, hfds, hargs₁⟩ := hargs.turn hi hr
      have hpq : p ≠ q := by
        rintro rfl
        exact hne a List.mem_cons_self hq
      rw [hr] at hrun
      simp only [hrun₁, Option.bind_eq_bind, Option.bind_some] at hrun
      rw [ih hi₁ hargs₁ ?_ hrun, hconn p hpq]
      intro b hb
      have hfd : b.fd ≠ a.fd :=
        fun he => (List.nodup_cons.mp hargs.nodup).1 (he ▸ List.mem_map_of_mem hb)
      rw [hfds b.fd hfd]
      exact hne b (List.mem_cons_of_mem _ hb)

/-- **The loop over the connection sockets**, for one of them that has output. -/
theorem handleConns_length {r : Round} {args : List PollFd} (hi : s.Inv l)
    (hargs : s.Polled r.ready args) (hp : s.fd2conn[fd]? = some (some p))
    (hmem : (s.conn p).pollFd ∈ args) (hne : (s.conn p).outgoing ≠ [])
    (hrun : handleConns r.ready s args = some s') :
    (s'.conn p).outgoing.length ≤ (s.conn p).outgoing.length - r.room fd := by
  induction args generalizing s l with
  | nil => cases hmem
  | cons a args ih =>
    have hslot : (s.conn p).fd = fd := hi.table.slot fd p hp
    rw [handleConns] at hrun
    by_cases hfd : a.fd = fd
    · -- it comes now, and not again
      have hrest : ∀ b ∈ args, b.fd ≠ fd := fun b hb he =>
        (List.nodup_cons.mp hargs.nodup).1 (hfd.trans he.symm ▸ List.mem_map_of_mem hb)
      cases hr : r.ready a.fd with
      | none =>
        rw [hr] at hrun
        have hsame := handleConns_other hi hargs.tail (fun b hb hbp =>
          hrest b hb ((hi.table.slot _ _ hbp).symm.trans hslot)) hrun
        rw [hfd] at hr
        rw [Round.room, hr, hsame]
        exact Nat.le_refl _
      | some rd =>
        obtain ⟨q, s₁, l₁, hq, hin, -, hrun₁, hi₁, -, -, hfds, hargs₁⟩ := hargs.turn hi hr
        rw [hfd] at hr hq hrun₁
        cases hp.symm.trans hq
        rw [hfd, hr] at hrun
        simp only [hrun₁, Option.bind_eq_bind, Option.bind_some] at hrun
        have hsame : s'.conn p = s₁.conn p := by
          refine handleConns_other hi₁ hargs₁ (fun b hb hbp => ?_) hrun
          rw [hfds b.fd (hfd ▸ hrest b hb)] at hbp
          exact hrest b hb ((hi.table.slot _ _ hbp).symm.trans hslot)
        rw [Round.room, hr, hsame]
        exact handleReady_length hi hp hne hin hrun₁
    · have hmem' : (s.conn p).pollFd ∈ args := by
        rcases List.mem_cons.mp hmem with he | hmem
        · exact absurd ((congrArg PollFd.fd he).symm.trans hslot) hfd
        · exact hmem
      cases hr : r.ready a.fd with
      | none =>
        rw [hr] at hrun
        exact ih hi hargs.tail hp hmem' hne hrun
      | some rd =>
        obtain ⟨q, s₁, l₁, hq, -, -, hrun₁, hi₁, -, hconn, hfds, hargs₁⟩ := hargs.turn hi hr
        rw [hr] at hrun
        simp only [hrun₁, Option.bind_eq_bind, Option.bind_some] at hrun
        have hpq : p ≠ q := by
          rintro rfl
          exact hfd ((hi.table.slot _ _ hq).symm.trans hslot)
        have hsame := hconn p hpq
        rw [← hsame] at hmem' hne ⊢
        exact ih hi₁ hargs₁ ((hfds fd (Ne.symm hfd)).trans hp) hmem' hne hrun

/-- **One event**, for a connection that has output. -/
theorem step_length (hi : s.Inv l) {ev : LoopEvent} (hok : s.Allowed ev)
    (hp : s.fd2conn[fd]? = some (some p)) (hne : (s.conn p).outgoing ≠ [])
    (hstep : s.step ev = some s') :
    (s'.conn p).outgoing.length ≤ (s.conn p).outgoing.length - ev.room fd := by
  cases ev with
  | worker w =>
    obtain ⟨db, -, he⟩ := Option.map_eq_some_iff.mp hstep
    cases he
    exact Nat.le_refl _
  | round r =>
    obtain ⟨args, s₁, l₁, -, -, hi₁, hpolled, hall, hkept, hround⟩ := round_polled hi hok
    have hstep : s.round r = some s' := hstep
    by_cases hint : r.eintr = true
    · rw [Server.round] at hstep
      simp only [Option.bind_eq_bind, Option.bind_eq_some_iff, if_pos hint] at hstep
      obtain ⟨-, -, -, -, he⟩ := hstep
      cases he
      rw [LoopEvent.room, if_pos hint]
      exact Nat.le_refl _
    · rw [hround hint, Option.bind_eq_some_iff] at hstep
      obtain ⟨s₂, hrun₂, htimers⟩ := hstep
      obtain ⟨hp₁, hconn₁⟩ := hkept fd p hp
      have hmem := hall p ((hi.table.mem p).mpr ⟨fd, hp⟩)
      rw [← hconn₁] at hmem hne ⊢
      have hle := handleConns_length hi₁ hpolled hp₁ hmem hne hrun₂
      -- the timers only close
      obtain ⟨s₃, l₂, hrun₃, hi₂, -⟩ :=
        handleConns_spec hi₁ hpolled.nodup hpolled.conns hpolled.asked
      cases hrun₂.symm.trans hrun₃
      obtain ⟨s₃, htimers', -, hconn₃, -⟩ := processTimers_spec hi₂ r.timersNow
      cases htimers.symm.trans htimers'
      rw [hconn₃, LoopEvent.room, if_neg hint]
      exact hle

/-! ## A stretch of a run -/

/-- If the socket has room for all bytes: some time the connection is gone, or all is
sent. -/
theorem Logged.Right.drains {t t' : Logged} {evs : List LoopEvent} (hright : t.Right)
    (hrun : Guarded Logged.step Logged.Allowed t evs t')
    (hmany : (t.server.conn p).outgoing.length ≤ (evs.map (LoopEvent.room fd)).sum) :
    ∃ evs₁ evs₂ u, evs = evs₁ ++ evs₂ ∧ Guarded Logged.step Logged.Allowed t evs₁ u ∧
      Guarded Logged.step Logged.Allowed u evs₂ t' ∧
      (u.server.fd2conn[fd]? ≠ some (some p) ∨ (u.server.conn p).outgoing = []) := by
  induction hrun with
  | nil t =>
    exact ⟨[], [], t, rfl, .nil t, .nil t, .inr (List.eq_nil_of_length_eq_zero (by simpa using hmany))⟩
  | @cons t t₁ t' ev evs hok hstep hrest ih =>
    by_cases hdone : t.server.fd2conn[fd]? ≠ some (some p) ∨ (t.server.conn p).outgoing = []
    · exact ⟨[], ev :: evs, t, rfl, .nil t, .cons hok hstep hrest, hdone⟩
    · rw [not_or, not_not] at hdone
      obtain ⟨hp, hne⟩ := hdone
      obtain ⟨t₂, hstep', hright₁⟩ := logged_step_right t ev hright hok
      cases hstep.symm.trans hstep'
      obtain ⟨l, st, gen, hi, -⟩ := hright
      obtain ⟨s₁, hs₁, he⟩ := Option.map_eq_some_iff.mp hstep
      cases he
      have hless := step_length hi hok hp hne hs₁
      rw [List.map_cons, List.sum_cons] at hmany
      obtain ⟨evs₁, evs₂, u, hevs, hrun₁, hrun₂, hend⟩ := ih hright₁ (by
        show (s₁.conn p).outgoing.length ≤ _
        omega)
      exact ⟨ev :: evs₁, evs₂, u, by rw [hevs, List.cons_append], .cons hok hstep hrun₁, hrun₂, hend⟩

/-- **Responses get out.** From any state that the event loop can reach, over any
stretch in which the socket of a connection takes, in any pieces and with anything
in between, as many bytes as there are in its buffer: at some time in it the
connection is closed, or every response to every request read from it so far has
been sent in full, and it is read from again. -/
theorem responses_get_out (evs₁ evs₂ : List LoopEvent) (s₀ : Server) (t t' : Logged)
    (hnew : Server.new cores = some s₀)
    (h₁ : Guarded Logged.step Logged.Allowed ⟨s₀, {}⟩ evs₁ t)
    (h₂ : Guarded Logged.step Logged.Allowed t evs₂ t') (fd : Nat) (p : Ptr)
    (hmany : (t.server.conn p).outgoing.length ≤ (evs₂.map (LoopEvent.room fd)).sum) :
    ∃ evs rest u, evs₂ = evs ++ rest ∧ Guarded Logged.step Logged.Allowed t evs u ∧
      Guarded Logged.step Logged.Allowed u rest t' ∧
      (u.server.fd2conn[fd]? ≠ some (some p) ∨
        (u.server.conn p).wantRead = true ∧
        ∃ st gen, Serves ∅ (fun _ => []) u.log.actions st gen ∧
          u.log.commands p = (requests (u.log.got p)).items ∧ u.log.sent p = gen p) := by
  have hright := h₁.invariant logged_step_right (Logged.start_right hnew)
  obtain ⟨evs, rest, u, hevs, hrun, hrest, hend⟩ := hright.drains h₂ hmany
  refine ⟨evs, rest, u, hevs, hrun, hrest, ?_⟩
  by_cases hp : u.server.fd2conn[fd]? = some (some p)
  · obtain ⟨l, st, gen, hi, h⟩ := hrun.invariant logged_step_right hright
    have hempty := hend.resolve_left (not_not.mpr hp)
    have hmem := (hi.table.mem p).mpr ⟨fd, hp⟩
    have hgen := (h.conns p hmem).outgoing
    rw [hempty, List.append_nil] at hgen
    exact .inr ⟨(hi.settled p hmem).tuned.read.mpr hempty, st, gen, h.accounts.serves,
      h.accounts.commands p, hgen.symm⟩
  · exact .inl hp

/-! ## A connection that has output -/

/-- A key is asked for, and the socket has no room for the answer. -/
def stuckReady : Ready where
  pollIn := true
  now := 0
  read := .got (message [lit "get", lit "k"])

/-- The connection is there after the round. -/
theorem stuckRound_spec {S : Finset Ptr} (h : s.Inv [p])
    (hconn : s.conn p = { fd := 5, wantRead := true }) (habs : s.db.Abs S ∅) :
    (readyRound stuckReady).Promised s ∧ ∃ s', s.round (readyRound stuckReady) = some s' ∧
      s'.fd2conn[5]? = some (some p) := by
  have hin : stuckReady.pollIn = true → (s.conn p).wantRead = true := fun _ => by rw [hconn]
  have hout : stuckReady.pollOut = true → (s.conn p).wantWrite = true := fun ho => by cases ho
  obtain ⟨g, hread⟩ := handleRead_get habs (fun _ => 0) .again
  have hpoll : onPollIn s.db { s.conn p with lastActiveMs := 0 } stuckReady =
      some (g, { fd := 5, wantWrite := true, outgoing := [1, 0, 0, 0, 0] }) := by
    rw [hconn]
    simp only [onPollIn, stuckReady, hread]
    rfl
  obtain ⟨s', hround, h', hconn'⟩ := readyRound_open h hin hout rfl hpoll rfl rfl
  have hslot := h'.table.slot_of_mem (List.mem_singleton_self p)
  rw [hconn'] at hslot
  exact ⟨readyRound_promised h hin hout, s', hround, hslot⟩

/-- A round in which each socket that `poll` is asked about has room for the output. -/
def flushRound (s : Server) : Round where
  pollNow := 0
  ready := fun fd =>
    match s.fd2conn[fd]? with
    | some (some p) =>
      if (s.conn p).wantWrite then
        some { pollOut := true, now := 0, write := .room (s.conn p).outgoing.length }
      else none
    | _ => none
  timersNow := 0

theorem flushRound_promised (h : s.Inv l) : (flushRound s).Promised s := by
  refine ⟨?_, fun _ _ hacc => (by cases hacc)⟩
  intro args hargs a ha rd hrd
  obtain ⟨args', hargs', -, hmatch, -⟩ := pollArgs_spec h
  cases hargs.symm.trans hargs'
  obtain ⟨p, hp, rfl⟩ := hmatch a ha
  simp only [flushRound, hp] at hrd
  split at hrd
  · rename_i hwant
    cases hrd
    exact ⟨fun hin => (by cases hin), fun _ => hwant⟩
  · cases hrd

theorem flushRound_room (h : s.Inv l) (hp : s.fd2conn[fd]? = some (some p)) :
    (s.conn p).outgoing.length ≤ ((LoopEvent.round (flushRound s)).room fd) := by
  have htuned := (h.settled p ((h.table.mem p).mpr ⟨fd, hp⟩)).tuned
  by_cases hout : (s.conn p).outgoing = []
  · rw [hout]
    exact Nat.zero_le _
  · have hwant := htuned.write.mpr hout
    simp [LoopEvent.room, Round.room, flushRound, hp, hwant, Ready.room, WriteResult.taken]

/-- The answer to a request does not fit into the socket; there is room later. -/
theorem responses_get_out_late : ∃ s₀ t t' p evs rest u, Server.new 4 = some s₀ ∧
    Guarded Logged.step Logged.Allowed ⟨s₀, {}⟩
      [.round acceptRound, .round (readyRound stuckReady)] t ∧
    t.server.fd2conn[5]? = some (some p) ∧
    Guarded Logged.step Logged.Allowed t [.round (flushRound t.server)] t' ∧
    [.round (flushRound t.server)] = evs ++ rest ∧
    Guarded Logged.step Logged.Allowed t evs u ∧
    (u.server.fd2conn[5]? ≠ some (some p) ∨
      (u.server.conn p).wantRead = true ∧
      ∃ st gen, Serves ∅ (fun _ => []) u.log.actions st gen ∧
        u.log.commands p = (requests (u.log.got p)).items ∧ u.log.sent p = gen p) := by
  obtain ⟨s₀, s₁, p, S₁, hnew, hok₁, -, hround₁, h₁, hconn, habs₁⟩ := acceptRound_spec 4
  obtain ⟨hok₂, s₂, hround₂, hslot⟩ := stuckRound_spec h₁ hconn habs₁
  have hserver : Guarded Server.step Server.Allowed s₀
      [.round acceptRound, .round (readyRound stuckReady)] s₂ :=
    .cons hok₁ hround₁ (.cons hok₂ hround₂ (.nil s₂))
  obtain ⟨L, hrun⟩ := guarded_logged hserver {}
  have hright := hrun.invariant logged_step_right (Logged.start_right hnew)
  obtain ⟨l, -, -, hi, -⟩ := id hright
  have hok : Logged.Allowed ⟨s₂, L⟩ (.round (flushRound s₂)) := flushRound_promised hi
  obtain ⟨t', hstep, -⟩ := logged_step_right ⟨s₂, L⟩ _ hright hok
  have hlast := Guarded.cons hok hstep (.nil t')
  obtain ⟨evs, rest, u, hevs, hu, -, hend⟩ := responses_get_out _ _ s₀ ⟨s₂, L⟩ t' hnew hrun hlast 5 p
    (by simpa using flushRound_room hi hslot)
  exact ⟨s₀, ⟨s₂, L⟩, t', p, evs, rest, u, hnew, hrun, hslot, hlast, hevs, hu, hend⟩

end ByoRedis
