import ByoRedis.Server.LogInv
import ByoRedis.Server.PollTimeout

/-!
# Server — nothing is leaked

`Server.Owned`: every connection that is allocated, and every descriptor that is
open, can be found in `fd2conn`. Together with the converse, which is part of
`Server.Inv`, the table is an exact account of both at the top of the loop,
whatever has happened before; and the entries are accounted for by `db`, the queue
of the thread pool and the hands of its workers.
-/

namespace ByoRedis

open Run

variable {s s' : Server} {l : List Ptr} {p q : Ptr} {cores fd now : Nat}

/-- Everything that is allocated or open is in the table. -/
structure Server.Owned (s : Server) : Prop where
  conns : ∀ p, s.live p = true → s.fd2conn[(s.conn p).fd]? = some (some p)
  fds : ∀ fd, s.openFds fd = true → ∃ p, s.fd2conn[fd]? = some (some p)

/-! ## Accept and close -/

/-- A table that is made larger has the same connections. -/
theorem getElem?_grown (fds : List (Option Ptr)) (fd fd' : Nat) (q : Ptr) :
    (if fds.length ≤ fd then resizeFds fds (fd + 1) else fds)[fd']? = some (some q) ↔
      fds[fd']? = some (some q) := by
  by_cases hlen : fds.length ≤ fd
  · rw [if_pos hlen, getElem?_resizeFds]
    by_cases hlt : fd' < fds.length
    · rw [if_pos hlt]
    · rw [if_neg hlt, List.getElem?_eq_none (Nat.le_of_not_lt hlt)]
      split <;> simp
  · rw [if_neg hlen]

theorem Server.Owned.accept (h : s.Owned) (hrun : handleAccept s (some fd) now = some s') :
    s'.Owned := by
  have hgrown := getElem?_grown s.fd2conn fd
  simp only [handleAccept] at hrun
  generalize (if s.fd2conn.length ≤ fd then resizeFds s.fd2conn (fd + 1) else s.fd2conn) = fds
    at hrun hgrown
  split at hrun
  · rename_i hslot
    have hlt := (List.getElem?_eq_some_iff.mp hslot).1
    cases hrun
    constructor
    · intro q hq
      by_cases hqn : q = s.next
      · subst hqn
        simp only [Function.update_self]
        exact List.getElem?_set_self hlt
      · simp only [Function.update_of_ne hqn] at hq ⊢
        have hold := (hgrown _ q).mpr (h.conns q hq)
        -- the slot of the new connection was free
        have hne : fd ≠ (s.conn q).fd := by
          intro he
          rw [he, hold] at hslot
          cases hslot
        rw [List.getElem?_set_ne hne]
        exact hold
    · intro fd' hopen
      by_cases he : fd' = fd
      · subst he
        exact ⟨s.next, List.getElem?_set_self hlt⟩
      · simp only [Function.update_of_ne he] at hopen
        obtain ⟨q, hq⟩ := h.fds fd' hopen
        refine ⟨q, ?_⟩
        rw [List.getElem?_set_ne (Ne.symm he)]
        exact (hgrown fd' q).mpr hq
  · cases hrun

theorem Server.Owned.destroy (h : s.Owned) (hrun : connDestroy s p = some s') : s'.Owned := by
  rw [connDestroy, Option.bind_eq_bind, Option.bind_eq_some_iff] at hrun
  obtain ⟨conn, hderef, hrun⟩ := hrun
  rw [Server.deref] at hderef
  split at hderef
  · rename_i hlive
    cases hderef
    have hp := h.conns p hlive
    split at hrun
    · cases hrun
    · cases hrun
      constructor
      · intro q hq
        by_cases hqp : q = p
        · subst hqp
          simp only [Function.update_self] at hq
          cases hq
        · simp only [Function.update_of_ne hqp] at hq
          have hq' := h.conns q hq
          have hne : (s.conn p).fd ≠ (s.conn q).fd := by
            intro he
            rw [← he, hp] at hq'
            exact hqp (Option.some.inj (Option.some.inj hq')).symm
          rw [List.getElem?_set_ne hne]
          exact hq'
      · intro fd' hopen
        by_cases he : fd' = (s.conn p).fd
        · subst he
          simp only [Function.update_self] at hopen
          cases hopen
        · simp only [Function.update_of_ne he] at hopen
          obtain ⟨q, hq⟩ := h.fds fd' hopen
          exact ⟨q, by rw [List.getElem?_set_ne (Ne.symm he)]; exact hq⟩
  · cases hderef

/-! ## One round -/

/-- The connection at `p` changes, but for its descriptor. -/
theorem Server.Owned.update (h : s.Owned) {db : Db} {idle : ListMem IdleNode} {conn : Conn}
    (hfd : conn.fd = (s.conn p).fd) :
    Server.Owned { s with db := db, idle := idle, conn := Function.update s.conn p conn } := by
  refine ⟨fun q hq => ?_, h.fds⟩
  by_cases hqp : q = p
  · subst hqp
    simp only [Function.update_self, hfd]
    exact h.conns q hq
  · simp only [Function.update_of_ne hqp]
    exact h.conns q hq

theorem Server.Owned.ready (h : s.Owned) (hi : s.Inv l) (hfd : s.fd2conn[fd]? = some (some p))
    {r : Ready} (hin : r.pollIn = true → (s.conn p).wantRead = true)
    (hout : r.pollOut = true → (s.conn p).wantWrite = true)
    (hrun : handleReady s fd r = some s') : s'.Owned := by
  have hp : p ∈ l := (hi.table.mem p).mpr ⟨fd, hfd⟩
  have hc := (hi.settled p hp).touch r.now
  obtain ⟨db, conn₁, hread, -, hh₁, hsame⟩ := onPollIn_spec hi.db hc r hin
  have hout₁ : r.pollOut = true → conn₁ = { s.conn p with lastActiveMs := r.now } := by
    intro ho
    exact hsame fun hi' => (hi.settled p hp).not_both (hin hi') (hout ho)
  obtain ⟨conn₂, hwrite, hh₂⟩ := onPollOut_spec hc hh₁ r hout₁ hout
  have hfd₂ : conn₂.fd = (s.conn p).fd := hh₂.fd
  rw [handleReady, hfd] at hrun
  simp only [hi.table.deref hp, Option.bind_eq_bind, Option.bind_some, hread, hwrite] at hrun
  split at hrun
  · exact (h.update hfd₂).destroy hrun
  · cases hrun
    exact h.update hfd₂

theorem Server.Owned.conns_loop {ready : Nat → Option Ready} {args : List PollFd} (h : s.Owned)
    (hi : s.Inv l) (hargs : s.Polled ready args) (hrun : handleConns ready s args = some s') :
    s'.Owned ∧ ∃ l', s'.Inv l' := by
  induction args generalizing s l with
  | nil =>
    cases hrun
    exact ⟨h, l, hi⟩
  | cons a args ih =>
    rw [handleConns] at hrun
    cases hr : ready a.fd with
    | none =>
      rw [hr] at hrun
      exact ih h hi hargs.tail hrun
    | some r =>
      obtain ⟨p, s₁, l₁, hp, hin, hout, hrun₁, hi₁, -, -, -, hargs₁⟩ := hargs.turn hi hr
      simp only [hr, hrun₁, Option.bind_eq_bind, Option.bind_some] at hrun
      exact ih (h.ready hi hp hin hout hrun₁) hi₁ hargs₁ hrun

theorem Server.Owned.idle (h : s.Owned) (hi : s.Inv l) (hrun : s.idleLoop now = some s') :
    s'.Owned := by
  induction l generalizing s with
  | nil =>
    rw [Server.idleLoop, if_pos (hi.empty_iff.mpr rfl)] at hrun
    cases hrun
    exact h
  | cons p l ih =>
    have hp : p ∈ p :: l := List.mem_cons_self
    have hne : ¬ s.idle.empty .head = true := by
      rw [hi.empty_iff]
      exact List.cons_ne_nil _ _
    rw [Server.idleLoop, if_neg hne, hi.firstIdle] at hrun
    simp only [Option.bind_eq_bind, Option.bind_some, hi.table.deref hp] at hrun
    obtain ⟨s₁, hdes, ht, hr, hdb, hconn, -⟩ := connDestroy_spec hi.table hi.ring hp
    rw [List.erase_cons_head] at ht hr
    split at hrun
    · cases hrun
      exact h
    · rw [hdes] at hrun
      have hi₁ := hi.of_conn_eq ht hr hdb hconn (fun q hq => List.mem_cons_of_mem _ hq)
      exact ih (h.destroy hdes) hi₁ hrun

theorem Server.Owned.listening (h : s.Owned) {r : Round} (hrun : onListening s r = some s') :
    s'.Owned := by
  unfold onListening at hrun
  split at hrun
  · cases hrun
    exact h
  · rename_i connfd now _
    cases connfd with
    | none =>
      cases hrun
      exact h
    | some fd => exact h.accept hrun

theorem Server.Owned.round (h : s.Owned) (hi : s.Inv l) {r : Round} (hr : r.Promised s)
    (hrun : s.round r = some s') : s'.Owned := by
  obtain ⟨args, s₁, l₁, hargs, hrun₁, hi₁, hpolled, -, -, hround⟩ := round_polled hi hr
  by_cases hint : r.eintr = true
  · obtain ⟨t, ht⟩ := timeoutMs_isSome hi r.pollNow
    rw [Server.round, hargs, ht] at hrun
    simp only [Option.bind_eq_bind, Option.bind_some] at hrun
    rw [if_pos hint] at hrun
    cases hrun
    exact h
  · rw [hround hint] at hrun
    obtain ⟨s₂, hconns, htimers⟩ := Option.bind_eq_some_iff.mp hrun
    obtain ⟨h₂, l₂, hi₂⟩ := (h.listening hrun₁).conns_loop hi₁ hpolled hconns
    rw [processTimers, Option.bind_eq_bind, Option.bind_eq_some_iff] at htimers
    obtain ⟨s₃, hidle, hrest⟩ := htimers
    obtain ⟨db, -, he⟩ := Option.bind_eq_some_iff.mp hrest
    cases he
    have h₃ := h₂.idle hi₂ hidle
    exact ⟨h₃.conns, h₃.fds⟩

/-! ## Every run -/

theorem Server.new_owned (hnew : Server.new cores = some s) : s.Owned := by
  simp only [Server.new, Option.bind_eq_bind, Option.bind_eq_some_iff] at hnew
  obtain ⟨g, -, he⟩ := hnew
  cases he
  exact ⟨fun p hp => (by cases hp), fun fd hfd => (by cases hfd)⟩

/-- One event of a server in order. -/
theorem step_owned (s : Server) (ev : LoopEvent) (h : (∃ l, s.Inv l) ∧ s.Owned)
    (hok : s.Allowed ev) : ∃ s', s.step ev = some s' ∧ (∃ l, s'.Inv l) ∧ s'.Owned := by
  obtain ⟨⟨l, hi⟩, h⟩ := h
  obtain ⟨s', hstep, hi'⟩ := step_inv s ev ⟨l, hi⟩ hok
  refine ⟨s', hstep, hi', ?_⟩
  cases ev with
  | round r => exact h.round hi hok hstep
  | worker w =>
    obtain ⟨db, -, he⟩ := Option.map_eq_some_iff.mp hstep
    cases he
    exact ⟨h.conns, h.fds⟩

/-- One linked entry for each key. -/
theorem Db.Abs.card_keys {g : Db} {S : Finset Ptr} {st : Store} (h : g.Abs S st) :
    S.card = st.keys.card := by
  have himage : S.image g.keyOf = st.keys := by
    ext key
    rw [Finset.mem_image, Finmap.mem_keys]
    constructor
    · rintro ⟨p, hp, rfl⟩
      obtain ⟨v, hv, -⟩ := h.item p hp
      exact Finmap.mem_of_lookup_eq_some hv
    · intro hkey
      obtain ⟨p, hp, hk⟩ := h.keys key hkey
      exact ⟨p, hp, hk⟩
  rw [← himage, Finset.card_image_of_injOn]
  intro p hp q hq hpq
  exact h.inv.key_inj hp hq hpq

/-- **Nothing is leaked.** In every state that the event loop can reach, the
connections that are allocated are those of the table, each descriptor that is
open belongs to one of them, and the entries that are allocated are the linked
ones, one for each key, and those that the thread pool has in its queue or in the
hands of a worker. -/
theorem resources_accounted (evs : List LoopEvent) (s₀ s : Server) (hnew : Server.new cores = some s₀)
    (hrun : Guarded Server.step Server.Allowed s₀ evs s) :
    (∀ p, s.live p = true ↔ ∃ fd : Nat, s.fd2conn[fd]? = some (some p)) ∧
    (∀ fd, s.openFds fd = true ↔ ∃ p, s.fd2conn[fd]? = some (some p)) ∧
    ∃ st S, s.db.Abs S st ∧ S.card = st.keys.card ∧
      ∀ ent, s.db.live ent = true ↔ ent ∈ S ∨ ent ∈ s.db.pool.pending := by
  obtain ⟨⟨l, hi⟩, h⟩ :=
    hrun.invariant step_owned ⟨⟨[], Server.inv_of_new hnew⟩, Server.new_owned hnew⟩
  obtain ⟨st, S, habs⟩ := hi.db
  refine ⟨fun p => ⟨fun hp => ⟨_, h.conns p hp⟩, ?_⟩, fun fd => ⟨h.fds fd, ?_⟩, st, S, habs,
    habs.card_keys, habs.inv.live⟩
  · rintro ⟨fd, hp⟩
    exact hi.table.live p ((hi.table.mem p).mpr ⟨fd, hp⟩)
  · rintro ⟨p, hp⟩
    rw [← hi.table.slot fd p hp]
    exact hi.table.fds p ((hi.table.mem p).mpr ⟨fd, hp⟩)

/-- A connection is accepted, sends two requests and breaks: nothing of it is left. -/
theorem resources_accounted_broken : ∃ s₀ s, Server.new 4 = some s₀ ∧
    Guarded Server.step Server.Allowed s₀ [.round acceptRound, .round farTtlRound] s ∧
    (∀ p, s.live p = false) ∧ (∀ fd, s.openFds fd = false) ∧
    ∃ st S, s.db.Abs S st ∧ S.card = st.keys.card ∧
      ∀ ent, s.db.live ent = true ↔ ent ∈ S ∨ ent ∈ s.db.pool.pending := by
  obtain ⟨s₀, s₁, p, S₁, hnew, hok₁, -, hround₁, h₁, hconn, habs₁⟩ := acceptRound_spec 4
  obtain ⟨hok₂, s₂, S₂, hround₂, h₂, -⟩ := farTtlRound_spec h₁ hconn habs₁
  have hrun : Guarded Server.step Server.Allowed s₀ [.round acceptRound, .round farTtlRound] s₂ :=
    .cons hok₁ hround₁ (.cons hok₂ hround₂ (.nil s₂))
  obtain ⟨hlive, hopen, hentries⟩ := resources_accounted _ s₀ s₂ hnew hrun
  have hnone (fd : Nat) (p : Ptr) : s₂.fd2conn[fd]? ≠ some (some p) := fun hp =>
    List.not_mem_nil ((h₂.table.mem p).mpr ⟨fd, hp⟩)
  refine ⟨s₀, s₂, hnew, hrun, fun p => ?_, fun fd => ?_, hentries⟩
  · rw [← Bool.not_eq_true, hlive]
    rintro ⟨fd, hp⟩
    exact hnone fd p hp
  · rw [← Bool.not_eq_true, hopen]
    rintro ⟨p, hp⟩
    exact hnone fd p hp

end ByoRedis
