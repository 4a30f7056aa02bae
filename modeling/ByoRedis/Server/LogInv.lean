import ByoRedis.Server.Log

/-!
# Server — the log is right

`Log.Records`: what the log says about the keyspace is how the keyspace came
about, and what it says about a connection fits its two buffers. One lemma per
function of the loop, down from the handlers to the whole run.
-/

namespace ByoRedis

open Framing Run

/-! ## Invariants -/

/-- The actions account for the keyspace and for the generated bytes, the bytes
that were read for the commands, and nothing is sent but generated bytes. -/
structure Log.Accounts (L : Log) (db : Db) (st : Store) (gen : Ptr → Bytes) : Prop where
  abs : ∃ S, db.Abs S st
  serves : Serves ∅ (fun _ => []) L.actions st gen
  commands : ∀ p, L.commands p = (requests (L.got p)).items
  sent : ∀ p, L.sent p <+: gen p

/-- A connection holds what was read and not executed, and what was generated
and not sent; it is to be closed once the stream is bad. -/
structure Log.Fits (L : Log) (gen : Ptr → Bytes) (p : Ptr) (conn : Conn) : Prop where
  incoming : conn.incoming = (requests (L.got p)).rest
  outgoing : gen p = L.sent p ++ conn.outgoing
  bad : (requests (L.got p)).bad = true → conn.wantClose = true

/-- The log of a server with the connections `l`. -/
structure Log.Records (L : Log) (s : Server) (l : List Ptr) (st : Store) (gen : Ptr → Bytes) :
    Prop where
  accounts : L.Accounts s.db st gen
  conns : ∀ p ∈ l, L.Fits gen p (s.conn p)
  /-- nothing is known of a pointer that was not given out -/
  fresh : ∀ p, s.next ≤ p → L.got p = [] ∧ gen p = []

/-- Two logs, with the generated bytes, say the same about all connections but `p`. -/
structure Log.Apart (L L' : Log) (gen gen' : Ptr → Bytes) (p : Ptr) : Prop where
  got : ∀ q ≠ p, L'.got q = L.got q
  sent : ∀ q ≠ p, L'.sent q = L.sent q
  gen : ∀ q ≠ p, gen' q = gen q

variable {L L' L₁ : Log} {s s' : Server} {l l' : List Ptr} {st st' : Store}
  {gen gen' gen₁ : Ptr → Bytes} {p q : Ptr} {conn conn' : Conn} {db db' : Db} {fd : Nat}

theorem Log.Apart.refl (L : Log) (gen : Ptr → Bytes) (p : Ptr) : Log.Apart L L gen gen p :=
  ⟨fun _ _ => rfl, fun _ _ => rfl, fun _ _ => rfl⟩

theorem Log.Apart.trans (h : Log.Apart L L₁ gen gen₁ p) (h' : Log.Apart L₁ L' gen₁ gen' p) :
    Log.Apart L L' gen gen' p :=
  ⟨fun q hq => (h'.got q hq).trans (h.got q hq), fun q hq => (h'.sent q hq).trans (h.sent q hq),
    fun q hq => (h'.gen q hq).trans (h.gen q hq)⟩

theorem Log.Apart.fits (h : Log.Apart L L' gen gen' p) (hq : q ≠ p) (hf : L.Fits gen q conn) :
    L'.Fits gen' q conn := by
  refine ⟨?_, ?_, ?_⟩
  · rw [h.got q hq]
    exact hf.incoming
  · rw [h.gen q hq, h.sent q hq]
    exact hf.outgoing
  · rw [h.got q hq]
    exact hf.bad

/-- The same connection, but for its clock and its intentions to read and write. -/
theorem Log.Fits.congr (h : L.Fits gen p conn) (hin : conn'.incoming = conn.incoming)
    (hout : conn'.outgoing = conn.outgoing)
    (hclose : conn.wantClose = true → conn'.wantClose = true) : L.Fits gen p conn' :=
  ⟨hin.trans h.incoming, by rw [hout]; exact h.outgoing, fun hb => hclose (h.bad hb)⟩

/-! ## Reading and writing -/

theorem commands_stamp (p q : Ptr) (clock : Nat → Nat) (i : Nat) (cmds : List (List Bytes)) :
    ((stamp p clock i cmds).map .request).filterMap (Action.cmdOf q) =
      if p = q then cmds else [] := by
  induction cmds generalizing i with
  | nil => simp [stamp]
  | cons cmd cmds ih =>
    have := ih (i + 1)
    by_cases hpq : p = q
    · subst hpq
      rw [if_pos rfl] at this ⊢
      simp [stamp, Action.cmdOf, this]
    · rw [if_neg hpq] at this ⊢
      simp [stamp, Action.cmdOf, hpq, this]

section Fields

variable (L : Log) (p : Ptr) (bytes sent : Bytes) (clock : Nat → Nat)

@[simp] theorem Log.read_got_self : (L.read p bytes clock sent).got p = L.got p ++ bytes :=
  Function.update_self _ _ _

@[simp] theorem Log.read_sent_self : (L.read p bytes clock sent).sent p = L.sent p ++ sent :=
  Function.update_self _ _ _

@[simp] theorem Log.write_sent_self : (L.write p sent).sent p = L.sent p ++ sent :=
  Function.update_self _ _ _

theorem Log.read_got_ne (hq : q ≠ p) : (L.read p bytes clock sent).got q = L.got q :=
  Function.update_of_ne hq _ _

theorem Log.read_sent_ne (hq : q ≠ p) : (L.read p bytes clock sent).sent q = L.sent q :=
  Function.update_of_ne hq _ _

theorem Log.write_sent_ne (hq : q ≠ p) : (L.write p sent).sent q = L.sent q :=
  Function.update_of_ne hq _ _

end Fields

theorem Log.read_nil (L : Log) (p : Ptr) (clock : Nat → Nat) : L.read p [] clock [] = L := by
  simp [Log.read, stamp]

theorem Log.commands_read (hc : ∀ q, L.commands q = (requests (L.got q)).items) (p : Ptr)
    (bytes : Bytes) (clock : Nat → Nat) (sent : Bytes) :
    (L.read p bytes clock sent).commands q =
      (requests ((L.read p bytes clock sent).got q)).items := by
  have happ : (L.read p bytes clock sent).commands q = L.commands q ++
      if p = q then (requests (L.got p ++ bytes)).items.drop (requests (L.got p)).items.length
      else [] := by
    rw [Log.commands, Log.read, List.filterMap_append, commands_stamp]
    rfl
  rw [happ, hc q]
  by_cases hpq : p = q
  · subst hpq
    rw [if_pos rfl, ← items_append, L.read_got_self]
  · rw [if_neg hpq, List.append_nil, L.read_got_ne _ _ _ _ (Ne.symm hpq)]

theorem Log.read_apart (L : Log) (p : Ptr) (bytes : Bytes) (clock : Nat → Nat) (sent out : Bytes) :
    Log.Apart L (L.read p bytes clock sent) gen (Function.update gen p (gen p ++ out)) p :=
  ⟨fun _ hq => L.read_got_ne _ _ _ _ hq, fun _ hq => L.read_sent_ne _ _ _ _ hq,
    fun _ hq => Function.update_of_ne hq _ _⟩

/-- Bytes that are read, with the requests they complete. -/
theorem Log.Accounts.read (h : L.Accounts db st gen) (hf : L.Fits gen p conn)
    (hopen : conn.wantClose = false) {bytes out sent : Bytes} {clock : Nat → Nat}
    (hall : executeAll doRequest clock 0 db (requests (conn.incoming ++ bytes)).items =
      some (db', out))
    (hin : conn'.incoming = (requests (conn.incoming ++ bytes)).rest)
    (hout : conn.outgoing ++ out = sent ++ conn'.outgoing)
    (hclose : (requests (conn.incoming ++ bytes)).bad = true → conn'.wantClose = true) :
    ∃ st' gen', (L.read p bytes clock sent).Accounts db' st' gen' ∧
      (L.read p bytes clock sent).Fits gen' p conn' ∧
      Log.Apart L (L.read p bytes clock sent) gen gen' p := by
  have hbad : (requests (L.got p)).bad = false := by
    by_contra hb
    rw [hf.bad (by simpa using hb)] at hopen
    cases hopen
  -- the stream with these bytes, in terms of what is left of the stream before
  have hparse : requests (L.got p ++ bytes) =
      ⟨(requests (L.got p)).items ++ (requests ((requests (L.got p)).rest ++ bytes)).items,
        (requests ((requests (L.got p)).rest ++ bytes)).rest,
        (requests ((requests (L.got p)).rest ++ bytes)).bad⟩ := Reader.parse_append bytes hbad
  rw [hf.incoming] at hall hin hclose
  obtain ⟨S, habs⟩ := h.abs
  obtain ⟨st', S', habs', hserves⟩ := executeAll_serves (p := p) habs hall gen
  have hgen : gen p ++ out = L.sent p ++ sent ++ conn'.outgoing := by
    rw [hf.outgoing, List.append_assoc, hout, List.append_assoc]
  refine ⟨st', _, ⟨⟨S', habs'⟩, h.serves.append ?_, fun q => Log.commands_read h.commands p ..,
    fun q => ?_⟩, ⟨?_, ?_, ?_⟩, Log.read_apart L p bytes clock sent out⟩
  · rw [hparse, List.drop_left]
    exact hserves
  · by_cases hq : q = p
    · subst hq
      rw [L.read_sent_self, Function.update_self, hgen]
      exact List.prefix_append ..
    · rw [L.read_sent_ne _ _ _ _ hq, Function.update_of_ne hq]
      exact h.sent q
  · rw [L.read_got_self, hparse]
    exact hin
  · rw [L.read_sent_self, Function.update_self]
    exact hgen
  · rw [L.read_got_self, hparse]
    exact hclose

/-- Bytes that are written. -/
theorem Log.Accounts.write (h : L.Accounts db st gen) (hf : L.Fits gen p conn) {sent : Bytes}
    (hs : conn.Sent conn' sent) (hclose : conn.wantClose = true → conn'.wantClose = true) :
    (L.write p sent).Accounts db st gen ∧ (L.write p sent).Fits gen p conn' ∧
      Log.Apart L (L.write p sent) gen gen p := by
  have hgen : gen p = L.sent p ++ sent ++ conn'.outgoing := by
    rw [hf.outgoing, hs.outgoing, List.append_assoc]
  refine ⟨⟨h.abs, h.serves, h.commands, fun q => ?_⟩, ⟨?_, ?_, fun hb => hclose (hf.bad hb)⟩,
    ⟨fun _ _ => rfl, fun _ hq => L.write_sent_ne _ _ hq, fun _ _ => rfl⟩⟩
  · by_cases hq : q = p
    · subst hq
      rw [L.write_sent_self, hgen]
      exact List.prefix_append ..
    · rw [L.write_sent_ne _ _ hq]
      exact h.sent q
  · exact hs.incoming.trans hf.incoming
  · rw [L.write_sent_self]
    exact hgen

/-- **`if (ready & POLLIN)`**, whatever `read` and `write` answer. -/
theorem Log.Accounts.onPollIn (h : L.Accounts db st gen) (hf : L.Fits gen p conn)
    (hc : conn.Settled) {r : Ready} (hin : r.pollIn = true → conn.wantRead = true)
    (hrun : ByoRedis.onPollIn db conn r = some (db', conn')) :
    ∃ st' gen', (L.onPollIn p db conn r).Accounts db' st' gen' ∧
      (L.onPollIn p db conn r).Fits gen' p conn' ∧
      Log.Apart L (L.onPollIn p db conn r) gen gen' p := by
  unfold ByoRedis.onPollIn at hrun
  unfold Log.onPollIn
  by_cases hi : r.pollIn = true
  · rw [if_pos hi, if_pos (hin hi)] at hrun
    rw [if_pos hi]
    rw [readSent]
    cases hr : r.read with
    | again =>
      rw [hr] at hrun
      cases hrun
      exact ⟨st, gen, h, hf, .refl L gen p⟩
    | error =>
      rw [hr] at hrun
      cases hrun
      exact ⟨st, gen, h, hf.congr rfl rfl fun _ => rfl, .refl L gen p⟩
    | got bytes =>
      rw [hr] at hrun
      by_cases hb : bytes = []
      · -- the end of the stream
        subst hb
        cases hrun
        refine ⟨st, gen, ?_⟩
        rw [show handleRead doRequest r.clock db conn (.got []) r.readWrite =
          some (db, { conn with wantClose := true }, []) from rfl]
        simp only [Log.read_nil]
        exact ⟨h, hf.congr rfl rfl fun _ => rfl, .refl L gen p⟩
      · obtain ⟨S, habs⟩ := h.abs
        obtain ⟨g', out, conn₁, sent, -, hall, hread, -, -, hrest, hout, hclose, -⟩ :=
          handleRead_got doRequest_appendsOn r.clock ⟨st, S, habs⟩ conn hb r.readWrite
        rw [hread] at hrun ⊢
        cases hrun
        refine h.read hf hc.notClosing hall hrest hout fun hbad => ?_
        rw [hclose, hbad]
        simp
  · rw [if_neg hi] at hrun
    cases hrun
    rw [if_neg hi]
    exact ⟨st, gen, h, hf, .refl L gen p⟩

/-- **`if (ready & POLLOUT)`**, whatever `write` answers. -/
theorem Log.Accounts.onPollOut (h : L.Accounts db st gen) (hf : L.Fits gen p conn)
    {r : Ready} (hout : r.pollOut = true → conn.outgoing ≠ [])
    (hrun : ByoRedis.onPollOut conn r = some conn') :
    (L.onPollOut p conn r).Accounts db st gen ∧ (L.onPollOut p conn r).Fits gen p conn' ∧
      Log.Apart L (L.onPollOut p conn r) gen gen p := by
  unfold ByoRedis.onPollOut at hrun
  unfold Log.onPollOut
  by_cases ho : r.pollOut = true
  · obtain ⟨conn₁, sent, hw, hsent, hclose, -⟩ := handleWrite_spec conn (hout ho) r.write
    rw [if_pos ho, hw] at hrun
    rw [if_pos ho, writeSent, hw]
    split at hrun
    · cases hrun
      refine h.write hf hsent fun hcl => ?_
      rw [hclose, hcl]
      rfl
    · cases hrun
  · rw [if_neg ho] at hrun
    cases hrun
    rw [if_neg ho]
    exact ⟨h, hf, .refl L gen p⟩

/-! ## One connection -/

theorem connDestroy_next (h : connDestroy s p = some s') : s'.next = s.next := by
  rw [connDestroy, Option.bind_eq_bind, Option.bind_eq_some_iff] at h
  obtain ⟨conn, -, h⟩ := h
  split at h
  · cases h
  · cases h
    rfl

/-- What `handleReady` has done: the two handlers, and perhaps the close. -/
theorem handleReady_ran (h : s.Inv l) (hfd : s.fd2conn[fd]? = some (some p)) {r : Ready}
    (hrun : handleReady s fd r = some s') :
    ∃ conn₁ conn₂, onPollIn s.db { s.conn p with lastActiveMs := r.now } r = some (s'.db, conn₁) ∧
      onPollOut conn₁ r = some conn₂ ∧ s'.conn = Function.update s.conn p conn₂ ∧
      s'.next = s.next := by
  have hp : p ∈ l := (h.table.mem p).mpr ⟨fd, hfd⟩
  rw [handleReady, hfd] at hrun
  simp only [h.table.deref hp, Option.bind_eq_bind, Option.bind_some,
    Option.bind_eq_some_iff] at hrun
  obtain ⟨⟨db, conn₁⟩, hread, conn₂, hwrite, hrun⟩ := hrun
  split at hrun
  · -- the connection is closed
    rw [connDestroy, Option.bind_eq_bind, Option.bind_eq_some_iff] at hrun
    obtain ⟨conn, -, hrun⟩ := hrun
    split at hrun
    · cases hrun
    · cases hrun
      exact ⟨conn₁, conn₂, hread, hwrite, rfl, rfl⟩
  · cases hrun
    exact ⟨conn₁, conn₂, hread, hwrite, rfl, rfl⟩

/-- **A connection that `poll` reports.** -/
theorem Log.Records.handleReady (h : L.Records s l st gen) (hi : s.Inv l)
    (hfd : s.fd2conn[fd]? = some (some p)) {r : Ready}
    (hin : r.pollIn = true → (s.conn p).wantRead = true)
    (hout : r.pollOut = true → (s.conn p).wantWrite = true)
    (hrun : ByoRedis.handleReady s fd r = some s') (hsub : ∀ q ∈ l', q ∈ l) :
    ∃ st' gen', (L.handleReady s fd r).Records s' l' st' gen' := by
  have hp : p ∈ l := (hi.table.mem p).mpr ⟨fd, hfd⟩
  have hc := (hi.settled p hp).touch r.now
  obtain ⟨conn₁, conn₂, hread, hwrite, hconn, hnext⟩ := handleReady_ran hi hfd hrun
  have hf : L.Fits gen p { s.conn p with lastActiveMs := r.now } :=
    (h.conns p hp).congr rfl rfl id
  obtain ⟨st', gen', ha, hf₁, hapart₁⟩ := h.accounts.onPollIn hf hc hin hread
  -- `handle_write` meets the connection as it was
  have hsame : r.pollOut = true → conn₁.outgoing ≠ [] := by
    intro ho
    have hi : r.pollIn ≠ true := fun hi' => (hi.settled p hp).not_both (hin hi') (hout ho)
    rw [ByoRedis.onPollIn, if_neg hi] at hread
    obtain ⟨-, rfl⟩ := Prod.mk.inj (Option.some.inj hread)
    exact hc.tuned.write.mp (hout ho)
  obtain ⟨ha₂, hf₂, hapart₂⟩ := ha.onPollOut hf₁ hsame hwrite
  have hapart := hapart₁.trans hapart₂
  refine ⟨st', gen', ?_⟩
  rw [Log.handleReady, hfd]
  simp only [hread]
  refine ⟨ha₂, ?_, ?_⟩
  · intro q hq
    rw [hconn]
    by_cases hqp : q = p
    · rw [hqp, Function.update_self]
      exact hf₂
    · rw [Function.update_of_ne hqp]
      exact hapart.fits hqp (h.conns q (hsub q hq))
  · intro q hq
    rw [hnext] at hq
    have hqp : q ≠ p := Nat.ne_of_gt (Nat.lt_of_lt_of_le (hi.table.fresh p hp) hq)
    rw [hapart.got q hqp, hapart.gen q hqp]
    exact h.fresh q hq

/-- What the loop over the connection sockets knows of the arguments that are left. -/
structure Server.Polled (s : Server) (ready : Nat → Option Ready) (args : List PollFd) : Prop where
  nodup : (args.map PollFd.fd).Nodup
  conns : ∀ a ∈ args, ∃ p, s.fd2conn[a.fd]? = some (some p) ∧ a = (s.conn p).pollFd
  asked : ∀ a ∈ args, ∀ r, ready a.fd = some r →
    (r.pollIn = true → a.pollIn = true) ∧ (r.pollOut = true → a.pollOut = true)

theorem Server.Polled.tail {ready : Nat → Option Ready} {a : PollFd} {args : List PollFd}
    (h : s.Polled ready (a :: args)) : s.Polled ready args :=
  ⟨(List.nodup_cons.mp h.nodup).2, fun b hb => h.conns b (List.mem_cons_of_mem _ hb),
    fun b hb => h.asked b (List.mem_cons_of_mem _ hb)⟩

/-- One turn of the loop: the other arguments still fit. -/
theorem Server.Polled.turn {ready : Nat → Option Ready} {a : PollFd} {args : List PollFd} {r : Ready}
    (h : s.Polled ready (a :: args)) (hi : s.Inv l) (hr : ready a.fd = some r) :
    ∃ p s₁ l₁, s.fd2conn[a.fd]? = some (some p) ∧
      (r.pollIn = true → (s.conn p).wantRead = true) ∧
      (r.pollOut = true → (s.conn p).wantWrite = true) ∧
      ByoRedis.handleReady s a.fd r = some s₁ ∧ s₁.Inv l₁ ∧ (∀ q ∈ l₁, q ∈ l) ∧
      (∀ q ≠ p, s₁.conn q = s.conn q) ∧
      (∀ fd : Nat, fd ≠ a.fd → s₁.fd2conn[fd]? = s.fd2conn[fd]?) ∧ s₁.Polled ready args := by
  obtain ⟨hna, hnd⟩ := List.nodup_cons.mp h.nodup
  obtain ⟨p, hp, ha⟩ := h.conns a List.mem_cons_self
  obtain ⟨hin, hout⟩ := h.asked a List.mem_cons_self r hr
  rw [ha] at hin hout
  obtain ⟨s₁, l₁, hrun₁, hi₁, hl₁, -, hconn, hfds, -⟩ := handleReady_spec hi hp r hin hout
  have hpl : p ∈ l := (hi.table.mem p).mpr ⟨a.fd, hp⟩
  have hsub : ∀ q ∈ l₁, q ∈ l := by
    intro q hq
    rcases hl₁ with ⟨rfl, -⟩ | rfl
    · rcases List.mem_append.mp hq with hq | hq
      · exact List.mem_of_mem_erase hq
      · exact List.mem_singleton.mp hq ▸ hpl
    · exact List.mem_of_mem_erase hq
  refine ⟨p, s₁, l₁, hp, hin, hout, hrun₁, hi₁, hsub, hconn, hfds, hnd, ?_, h.tail.asked⟩
  intro b hb
  obtain ⟨q, hq, hbq⟩ := h.conns b (List.mem_cons_of_mem _ hb)
  have hne : b.fd ≠ a.fd := fun he => hna (he ▸ List.mem_map_of_mem hb)
  have hqp : q ≠ p := by
    rintro rfl
    exact hne ((hi.table.slot _ _ hq).symm.trans (hi.table.slot _ _ hp))
  exact ⟨q, (hfds b.fd hne).trans hq, by rw [hconn q hqp]; exact hbq⟩

/-- **The loop over the connection sockets.** -/
theorem Log.Records.handleConns {ready : Nat → Option Ready} {args : List PollFd}
    (h : L.Records s l st gen) (hi : s.Inv l) (hargs : s.Polled ready args) :
    ∃ s' l' st' gen', ByoRedis.handleConns ready s args = some s' ∧ s'.Inv l' ∧
      (L.handleConns ready s args).Records s' l' st' gen' := by
  induction args generalizing L s l st gen with
  | nil => exact ⟨s, l, st, gen, rfl, hi, h⟩
  | cons a args ih =>
    rw [ByoRedis.handleConns, Log.handleConns]
    cases hr : ready a.fd with
    | none => exact ih h hi hargs.tail
    | some r =>
      obtain ⟨p, s₁, l₁, hp, hin, hout, hrun₁, hi₁, hsub, -, -, hargs₁⟩ := hargs.turn hi hr
      obtain ⟨st₁, gen₁, h₁⟩ := h.handleReady hi hp hin hout hrun₁ hsub
      obtain ⟨s', l', st', gen', hrun, hi', h'⟩ := ih h₁ hi₁ hargs₁
      refine ⟨s', l', st', gen', ?_, hi', ?_⟩
      · simp only [hrun₁, Option.bind_eq_bind, Option.bind_some, hrun]
      · simp only [hrun₁]
        exact h'

/-! ## One event -/

theorem handleAccept_next {now : Nat} (h : handleAccept s (some fd) now = some s') :
    s'.next = s.next + 1 := by
  simp only [handleAccept] at h
  generalize (if s.fd2conn.length ≤ fd then resizeFds s.fd2conn (fd + 1) else s.fd2conn) = fds at h
  split at h
  · cases h
    rfl
  · cases h

/-- **The listening socket.** -/
theorem Log.Records.onListening (h : L.Records s l st gen) (hi : s.Inv l) {r : Round}
    (hr : r.Promised s) (hrun : onListening s r = some s') (hi' : s'.Inv l') :
    L.Records s' l' st gen := by
  unfold ByoRedis.onListening at hrun
  cases hacc : r.accepted with
  | none =>
    rw [hacc] at hrun
    cases hrun
    exact ⟨h.accounts, fun p hp => h.conns p ((hi.table.mem p).mpr ((hi'.table.mem p).mp hp)),
      h.fresh⟩
  | some x =>
    obtain ⟨connfd, now⟩ := x
    rw [hacc] at hrun
    cases connfd with
    | none =>
      cases hrun
      exact ⟨h.accounts, fun p hp => h.conns p ((hi.table.mem p).mpr ((hi'.table.mem p).mp hp)),
        h.fresh⟩
    | some fd =>
      obtain ⟨s₁, hrun₁, hi₁, -, hself, hother, hdb, -⟩ :=
        handleAccept_some hi (hr.accept fd now hacc) now
      obtain rfl : s' = s₁ := Option.some.inj (hrun.symm.trans hrun₁)
      have hnext := handleAccept_next hrun
      obtain ⟨hgot, hgen⟩ := h.fresh s.next (Nat.le_refl _)
      refine ⟨hdb ▸ h.accounts, ?_, ?_⟩
      · intro p hp
        have hmem := (hi₁.table.mem p).mpr ((hi'.table.mem p).mp hp)
        by_cases hps : p = s.next
        · subst hps
          -- nothing was read from the new connection, and nothing sent
          have hsent : L.sent s.next = [] := by
            have := h.accounts.sent s.next
            rw [hgen] at this
            exact List.prefix_nil.mp this
          rw [hself]
          exact ⟨by rw [hgot, requests_nil], by rw [hgen, hsent]; rfl,
            fun hb => by rw [hgot, requests_nil] at hb; cases hb⟩
        · rw [hother p hps]
          refine h.conns p ?_
          rcases List.mem_append.mp hmem with hp | hp
          · exact hp
          · exact absurd (List.mem_singleton.mp hp) hps
      · intro p hp
        rw [hnext] at hp
        exact h.fresh p (Nat.le_of_succ_le hp)

theorem idleLoop_next (h : s.Inv l) {now : Nat} (hrun : s.idleLoop now = some s') :
    s'.next = s.next := by
  induction l generalizing s with
  | nil =>
    rw [Server.idleLoop, if_pos (h.empty_iff.mpr rfl)] at hrun
    cases hrun
    rfl
  | cons p l ih =>
    have hp : p ∈ p :: l := List.mem_cons_self
    have hne : ¬ s.idle.empty .head = true := by
      rw [h.empty_iff]
      exact List.cons_ne_nil _ _
    rw [Server.idleLoop, if_neg hne, h.firstIdle] at hrun
    simp only [Option.bind_eq_bind, Option.bind_some, h.table.deref hp] at hrun
    obtain ⟨s₁, hdes, ht, hr, hdb, hconn, -⟩ := connDestroy_spec h.table h.ring hp
    rw [List.erase_cons_head] at ht hr
    split at hrun
    · cases hrun
      rfl
    · rw [hdes] at hrun
      have h₁ := h.of_conn_eq ht hr hdb hconn (fun q hq => List.mem_cons_of_mem _ hq)
      exact (ih h₁ hrun).trans (connDestroy_next hdes)

/-- Something that is done to the keyspace by no connection. -/
theorem Log.Accounts.other (h : L.Accounts db st gen) {a : Action} (ha : ∀ p, a.cmdOf p = none)
    (habs : ∃ S, db'.Abs S st') (hs : Serves st gen [a] st' gen) :
    Log.Accounts { L with actions := L.actions ++ [a] } db' st' gen := by
  refine ⟨habs, h.serves.append hs, fun p => ?_, h.sent⟩
  rw [← h.commands p, Log.commands, List.filterMap_append]
  simp [ha, Log.commands]

/-- **`process_timers`.** -/
theorem Log.Records.processTimers (h : L.Records s l st gen) (hi : s.Inv l) (now : Nat)
    (hrun : processTimers now s = some s') (hi' : s'.Inv l') (hsub : ∀ p ∈ l', p ∈ l) :
    ∃ st', Log.Records { L with actions := L.actions ++ [.timers now] } s' l' st' gen := by
  obtain ⟨S, habs⟩ := h.accounts.abs
  obtain ⟨s₁, hidle, hi₁, hdb, hconn⟩ := idleLoop_spec hi now
  have hnext := idleLoop_next hi hidle
  rw [← hdb] at habs
  obtain ⟨g', S', st', httl, habs', hexp⟩ := processTtls_spec habs now
  rw [ByoRedis.processTimers, hidle] at hrun
  simp only [Option.bind_eq_bind, Option.bind_some, httl] at hrun
  cases hrun
  refine ⟨st', h.accounts.other (fun _ => rfl) ⟨S', habs'⟩ (.timers hexp (.nil st' gen)), ?_, ?_⟩
  · intro p hp
    have hf := h.conns p (hsub p hp)
    rw [← hconn] at hf
    exact ⟨hf.incoming, hf.outgoing, hf.bad⟩
  · intro p hp
    exact h.fresh p (hnext ▸ hp)

/-- The way of a round to the loop over the connection sockets, in which all
connections are as they were. -/
theorem round_polled (h : s.Inv l) {r : Round} (hr : r.Promised s) :
    ∃ args s₁ l₁, s.pollArgs = some args ∧ ByoRedis.onListening s r = some s₁ ∧ s₁.Inv l₁ ∧
      s₁.Polled r.ready args ∧ (∀ p ∈ l, (s.conn p).pollFd ∈ args) ∧
      (∀ (fd : Nat) p, s.fd2conn[fd]? = some (some p) →
        s₁.fd2conn[fd]? = some (some p) ∧ s₁.conn p = s.conn p) ∧
      (r.eintr ≠ true →
        s.round r = (ByoRedis.handleConns r.ready s₁ args).bind (processTimers r.timersNow)) := by
  obtain ⟨args, hargs, hsort, hmatch, hall⟩ := pollArgs_spec h
  have hnd : (args.map PollFd.fd).Nodup := hsort.imp (fun hlt => Nat.ne_of_lt hlt)
  obtain ⟨t, ht⟩ := timeoutMs_isSome h r.pollNow
  obtain ⟨s₁, l₁, hrun₁, hi₁, hkept, -⟩ := onListening_spec h hr
  refine ⟨args, s₁, l₁, hargs, hrun₁, hi₁, ⟨hnd, ?_, hr.poll args hargs⟩, hall, hkept, ?_⟩
  · intro a ha
    obtain ⟨p, hp, hap⟩ := hmatch a ha
    obtain ⟨hp', hconn⟩ := hkept a.fd p hp
    exact ⟨p, hp', by rw [hconn]; exact hap⟩
  · intro hint
    rw [Server.round, hargs, ht]
    simp only [Option.bind_eq_bind, Option.bind_some, if_neg hint, hrun₁]

/-- **One round** of the event loop. -/
theorem Log.Records.round (h : L.Records s l st gen) (hi : s.Inv l) {r : Round}
    (hr : r.Promised s) :
    ∃ s' l' st' gen', s.round r = some s' ∧ s'.Inv l' ∧ (L.round s r).Records s' l' st' gen' := by
  obtain ⟨args, s₁, l₁, hargs, hrun₁, hi₁, hpolled, -, -, hround⟩ := round_polled hi hr
  by_cases hint : r.eintr = true
  · obtain ⟨t, ht⟩ := timeoutMs_isSome hi r.pollNow
    rw [Server.round, hargs, ht, Log.round]
    simp only [Option.bind_eq_bind, Option.bind_some]
    rw [if_pos hint, if_pos hint]
    exact ⟨s, l, st, gen, rfl, hi, h⟩
  · have h₁ := h.onListening hi hr hrun₁ hi₁
    obtain ⟨s₂, l₂, st₂, gen₂, hrun₂, hi₂, h₂⟩ := h₁.handleConns hi₁ hpolled
    obtain ⟨s₃, hrun₃, hi₃, -, -⟩ := processTimers_spec hi₂ r.timersNow
    obtain ⟨st₃, h₃⟩ := h₂.processTimers hi₂ r.timersNow hrun₃ hi₃
      (fun p hp => (List.dropWhile_sublist _).subset hp)
    refine ⟨s₃, _, st₃, gen₂, ?_, hi₃, ?_⟩
    · rw [hround hint, hrun₂, Option.bind_some, hrun₃]
    · rw [Log.round, if_neg hint]
      simp only [hargs, hrun₁]
      exact h₃

/-- A log that is right. -/
def Logged.Right (t : Logged) : Prop :=
  ∃ l st gen, t.server.Inv l ∧ t.log.Records t.server l st gen

/-- Nothing was read from a pointer that was not given out, and nothing sent. -/
theorem Logged.Right.unknown {t : Logged} (h : t.Right) (hp : t.server.next ≤ p) :
    t.log.got p = [] ∧ t.log.sent p = [] := by
  obtain ⟨l, st, gen, -, h⟩ := h
  obtain ⟨hgot, hgen⟩ := h.fresh p hp
  have hsent := h.accounts.sent p
  rw [hgen] at hsent
  exact ⟨hgot, List.prefix_nil.mp hsent⟩

/-- **One event.** -/
theorem logged_step_right (t : Logged) (ev : LoopEvent) (h : t.Right) (hok : t.Allowed ev) :
    ∃ t', t.step ev = some t' ∧ t'.Right := by
  obtain ⟨l, st, gen, hi, h⟩ := h
  cases ev with
  | round r =>
    obtain ⟨s', l', st', gen', hrun, hi', h'⟩ := h.round hi hok
    refine ⟨⟨s', t.log.round t.server r⟩, ?_, l', st', gen', hi', h'⟩
    rw [Logged.step, Server.step, hrun]
    rfl
  | worker w =>
    obtain ⟨S, habs⟩ := h.accounts.abs
    obtain ⟨g', hrun, habs', -⟩ := workerStep_spec habs w
    refine ⟨⟨{ t.server with db := g' },
      { t.log with actions := t.log.actions ++ [.worker] }⟩, ?_, l, st, gen, ?_, ?_⟩
    · simp only [Logged.step, Server.step, hrun, Option.map_some]
      rfl
    · exact ⟨⟨st, S, habs'⟩,
        ⟨hi.table.mem, hi.table.slot, hi.table.live, hi.table.fds, hi.table.fresh⟩, hi.ring,
        hi.settled⟩
    · refine ⟨h.accounts.other (fun _ => rfl) ⟨S, habs'⟩ (.worker (.nil st gen)), fun p hp => ?_,
        h.fresh⟩
      have hf := h.conns p hp
      exact ⟨hf.incoming, hf.outgoing, hf.bad⟩

theorem Logged.start_right {s₀ : Server} {cores : Nat} (hnew : Server.new cores = some s₀) :
    Logged.Right { server := s₀, log := {} } := by
  obtain ⟨g, hdb, habs, -⟩ := Db.new_abs cores
  have hi := Server.inv_of_new hnew
  have hg : s₀.db = g := by
    rw [Server.new, hdb] at hnew
    cases hnew
    rfl
  refine ⟨[], ∅, fun _ => [], hi, ⟨⟨∅, hg ▸ habs⟩, .nil _ _, fun p => ?_, fun p => List.prefix_rfl⟩,
    by simp, fun p _ => ⟨rfl, rfl⟩⟩
  rw [requests_nil]
  rfl

end ByoRedis
