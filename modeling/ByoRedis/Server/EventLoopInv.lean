import ByoRedis.Server.EventLoop
import ByoRedis.Server.Pipeline

/-!
# Server — the event loop keeps its connections in order

`Server.Inv s l`: the connections of `fd2conn` are the ones on the idle ring,
in the order `l`; each is where its descriptor says, and has answered every
request it has received. One lemma per function of the loop says that it goes
through and what it does to `l`. `Server.Ordered` is the order by activity,
which needs a clock that does not go back.
-/

namespace ByoRedis

open Framing

/-! ## Invariants -/

/-- A connection between two rounds. -/
structure Conn.Settled (conn : Conn) : Prop where
  notClosing : conn.wantClose = false
  tuned : conn.Tuned
  answered : nextMessage conn.incoming = .incomplete

/-- The table of connections, without their contents: `l` are the pointers in
it. -/
structure Server.Table (s : Server) (l : List Ptr) : Prop where
  mem : ∀ p, p ∈ l ↔ ∃ fd : Nat, s.fd2conn[fd]? = some (some p)
  slot : ∀ (fd : Nat) p, s.fd2conn[fd]? = some (some p) → (s.conn p).fd = fd
  live : ∀ p ∈ l, s.live p = true
  fds : ∀ p ∈ l, s.openFds (s.conn p).fd = true
  fresh : ∀ p ∈ l, p < s.next

/-- The state between two connections, and between two rounds. -/
structure Server.Inv (s : Server) (l : List Ptr) : Prop where
  db : ∃ st S, s.db.Abs S st
  table : s.Table l
  ring : s.idle.Ring .head (l.map .conn)
  settled : ∀ p ∈ l, (s.conn p).Settled

/-- The ring is in the order of the last activity, none of it after `clock`. -/
structure Server.Ordered (s : Server) (l : List Ptr) (clock : Nat) : Prop where
  sorted : l.Pairwise (fun p q => (s.conn p).lastActiveMs ≤ (s.conn q).lastActiveMs)
  bound : ∀ p ∈ l, (s.conn p).lastActiveMs ≤ clock

variable {s s' : Server} {l l' : List Ptr} {p q : Ptr} {fd : Nat}

theorem Server.Table.slot_of_mem (h : s.Table l) (hp : p ∈ l) :
    s.fd2conn[(s.conn p).fd]? = some (some p) := by
  obtain ⟨fd, hfd⟩ := (h.mem p).mp hp
  rw [h.slot fd p hfd]
  exact hfd

theorem Server.Table.slot_iff (h : s.Table l) :
    s.fd2conn[fd]? = some (some p) ↔ p ∈ l ∧ (s.conn p).fd = fd := by
  constructor
  · intro hp
    exact ⟨(h.mem p).mpr ⟨fd, hp⟩, h.slot fd p hp⟩
  · rintro ⟨hp, rfl⟩
    exact h.slot_of_mem hp

theorem Server.Table.deref (h : s.Table l) (hp : p ∈ l) : s.deref p = some (s.conn p) := by
  rw [Server.deref, h.live p hp]
  rfl

theorem Server.Table.of_mem_iff (h : s.Table l) (hl : ∀ p, p ∈ l' ↔ p ∈ l) : s.Table l' :=
  ⟨fun p => (hl p).trans (h.mem p), h.slot, fun p hp => h.live p ((hl p).mp hp),
    fun p hp => h.fds p ((hl p).mp hp), fun p hp => h.fresh p ((hl p).mp hp)⟩

theorem Server.Inv.nodup (h : s.Inv l) : l.Nodup :=
  List.Nodup.of_map _ (List.nodup_cons.mp h.ring.nodup).2

/-! ## Accept and close -/

theorem getElem?_resizeFds {fds : List (Option Ptr)} {n : Nat} :
    (resizeFds fds n)[fd]? =
      if fd < fds.length then fds[fd]? else if fd < n then some none else none := by
  rw [resizeFds]
  by_cases h : fd < fds.length
  · rw [List.getElem?_append_left h, if_pos h]
  · rw [if_neg h, List.getElem?_append_right (by omega), List.getElem?_replicate]
    by_cases hn : fd < n
    · rw [if_pos hn, if_pos (by omega)]
    · rw [if_neg hn, if_neg (by omega)]

/-- A descriptor that is not open has no connection. -/
theorem Server.Table.slot_of_closed (h : s.Table l) (hfd : s.openFds fd = false) :
    s.fd2conn[fd]? ≠ some (some p) := by
  intro hp
  have hopen := h.fds p ((h.mem p).mpr ⟨fd, hp⟩)
  rw [h.slot fd p hp, hfd] at hopen
  cases hopen

/-- **`handle_accept`** of a descriptor that was not open passes its assertion
and hangs the new connection behind all others. -/
theorem handleAccept_some (h : s.Inv l) (hfd : s.openFds fd = false) (now : Nat) :
    ∃ s', handleAccept s (some fd) now = some s' ∧ s'.Inv (l ++ [s.next]) ∧ s.next ∉ l ∧
      s'.conn s.next = { fd := fd, wantRead := true, lastActiveMs := now } ∧
      (∀ q ≠ s.next, s'.conn q = s.conn q) ∧ s'.db = s.db ∧
      ∀ (fd' : Nat) q, s.fd2conn[fd']? = some (some q) → s'.fd2conn[fd']? = some (some q) := by
  let fds := if s.fd2conn.length ≤ fd then resizeFds s.fd2conn (fd + 1) else s.fd2conn
  have hnew : s.next ∉ l := fun hmem => Nat.lt_irrefl _ (h.table.fresh _ hmem)
  -- the enlarged table has the connections of the old one, and a slot at `fd`
  have hold : ∀ (fd' : Nat) q, fds[fd']? = some (some q) ↔ s.fd2conn[fd']? = some (some q) := by
    intro fd' q
    by_cases hlen : s.fd2conn.length ≤ fd
    · simp only [fds, if_pos hlen, getElem?_resizeFds]
      by_cases hlt : fd' < s.fd2conn.length
      · rw [if_pos hlt]
      · rw [if_neg hlt, List.getElem?_eq_none (by omega)]
        split <;> simp
    · simp only [fds, if_neg hlen]
  have hlt : fd < fds.length := by
    by_cases hlen : s.fd2conn.length ≤ fd
    · simp only [fds, if_pos hlen, resizeFds, List.length_append, List.length_replicate]
      omega
    · simp only [fds, if_neg hlen]
      omega
  have hslot : fds[fd]? = some none := by
    have hne : ∀ q, fds[fd]? ≠ some (some q) :=
      fun q hq => h.table.slot_of_closed hfd ((hold fd q).mp hq)
    rw [List.getElem?_eq_getElem hlt] at hne ⊢
    cases hq : fds[fd] with
    | none => rfl
    | some q => exact absurd (congrArg some hq) (hne q)
  let s' : Server := { s with
    conn := Function.update s.conn s.next { fd := fd, wantRead := true, lastActiveMs := now }
    live := Function.update s.live s.next true
    next := s.next + 1
    idle := (s.idle.init (.conn s.next)).insertBack .head (.conn s.next)
    openFds := Function.update s.openFds fd true
    fd2conn := fds.set fd (some s.next) }
  have hget : ∀ (fd' : Nat) q, s'.fd2conn[fd']? = some (some q) ↔
      fd' = fd ∧ q = s.next ∨ s.fd2conn[fd']? = some (some q) := by
    intro fd' q
    show (fds.set fd (some s.next))[fd']? = _ ↔ _
    by_cases he : fd' = fd
    · subst he
      rw [List.getElem?_set_self hlt]
      constructor
      · intro hq
        cases hq
        exact .inl ⟨rfl, rfl⟩
      · rintro (⟨-, rfl⟩ | hq)
        · rfl
        · exact absurd hq (h.table.slot_of_closed hfd)
    · rw [List.getElem?_set_ne (Ne.symm he), hold]
      simp [he]
  have hconn : ∀ q ≠ s.next, s'.conn q = s.conn q := fun q hq => Function.update_of_ne hq _ _
  have hself : s'.conn s.next = { fd := fd, wantRead := true, lastActiveMs := now } :=
    Function.update_self _ _ _
  have hmem : ∀ q ∈ l, q ≠ s.next := fun q hq he => hnew (he ▸ hq)
  refine ⟨s', ?_, ⟨h.db, ?_, ?_, ?_⟩, hnew, hself, hconn, rfl,
    fun fd' q hq => (hget fd' q).mpr (.inr hq)⟩
  · show (if fds[fd]? = some none then _ else _) = _
    rw [if_pos hslot]
  · constructor
    · intro q
      rw [List.mem_append, List.mem_singleton, h.table.mem]
      constructor
      · rintro (⟨fd', hq⟩ | rfl)
        · exact ⟨fd', (hget fd' q).mpr (.inr hq)⟩
        · exact ⟨fd, (hget fd s.next).mpr (.inl ⟨rfl, rfl⟩)⟩
      · rintro ⟨fd', hq⟩
        rcases (hget fd' q).mp hq with ⟨-, rfl⟩ | hq
        · exact .inr rfl
        · exact .inl ⟨fd', hq⟩
    · intro fd' q hq
      rcases (hget fd' q).mp hq with ⟨rfl, rfl⟩ | hq
      · rw [hself]
      · rw [hconn q (hmem q ((h.table.mem q).mpr ⟨fd', hq⟩))]
        exact h.table.slot fd' q hq
    · intro q hq
      rcases List.mem_append.mp hq with hq | hq
      · exact (Function.update_of_ne (hmem q hq) _ _).trans (h.table.live q hq)
      · rw [List.mem_singleton.mp hq]
        exact Function.update_self _ _ _
    · intro q hq
      rcases List.mem_append.mp hq with hq | hq
      · rw [hconn q (hmem q hq)]
        by_cases he : (s.conn q).fd = fd
        · rw [he]
          exact Function.update_self _ _ _
        · exact (Function.update_of_ne he _ _).trans (h.table.fds q hq)
      · rw [List.mem_singleton.mp hq, hself]
        exact Function.update_self _ _ _
    · intro q hq
      rcases List.mem_append.mp hq with hq | hq
      · exact Nat.lt_succ_of_lt (h.table.fresh q hq)
      · rw [List.mem_singleton.mp hq]
        exact Nat.lt_succ_self _
  · rw [List.map_append, List.map_singleton]
    have hp : IdleNode.conn s.next ∉ IdleNode.head :: l.map .conn := by simpa using hnew
    refine ListMem.Ring.insertBack (h.ring.congr ?_) hp
    intro x hx
    have hne : x ≠ .conn s.next := fun he => hp (he ▸ hx)
    exact Function.update_of_ne hne _ _
  · intro q hq
    rcases List.mem_append.mp hq with hq | hq
    · rw [hconn q (hmem q hq)]
      exact h.settled q hq
    · rw [List.mem_singleton.mp hq, hself]
      exact ⟨rfl, ⟨by simp, by simp⟩, rfl⟩

/-- A connection taken off the ring. -/
theorem ring_detach {m : ListMem IdleNode} (h : m.Ring .head (l.map .conn)) (hp : p ∈ l) :
    (m.detach (.conn p)).Ring .head ((l.erase p).map .conn) := by
  have hnd : l.Nodup := List.Nodup.of_map _ (List.nodup_cons.mp h.nodup).2
  obtain ⟨a, b, rfl⟩ := List.append_of_mem hp
  have hpa : p ∉ a := by
    intro hpa
    exact (List.nodup_append.mp hnd).2.2 p hpa p (by simp) rfl
  rw [List.erase_append_right _ hpa, List.erase_cons_head, List.map_append]
  rw [List.map_append, List.map_cons] at h
  exact h.detach

/-- **`conn_destroy`** takes a connection off the table and off the ring. -/
theorem connDestroy_spec (ht : s.Table l) (hring : s.idle.Ring .head (l.map .conn)) (hp : p ∈ l) :
    ∃ s', connDestroy s p = some s' ∧ s'.Table (l.erase p) ∧
      s'.idle.Ring .head ((l.erase p).map .conn) ∧ s'.db = s.db ∧ s'.conn = s.conn ∧
      s'.fd2conn = s.fd2conn.set (s.conn p).fd none := by
  have hslot := ht.slot_of_mem hp
  have hlt : (s.conn p).fd < s.fd2conn.length := (List.getElem?_eq_some_iff.mp hslot).1
  have hnd : l.Nodup := List.Nodup.of_map _ (List.nodup_cons.mp hring.nodup).2
  have hget : ∀ (fd : Nat) q, (s.fd2conn.set (s.conn p).fd none)[fd]? = some (some q) ↔
      s.fd2conn[fd]? = some (some q) ∧ q ≠ p := by
    intro fd q
    by_cases he : fd = (s.conn p).fd
    · rw [he, List.getElem?_set_self hlt, hslot]
      simp only [Option.some.injEq, reduceCtorEq, false_iff, not_and, not_not]
      exact fun hq => hq.symm
    · rw [List.getElem?_set_ne (Ne.symm he)]
      constructor
      · intro hq
        refine ⟨hq, ?_⟩
        rintro rfl
        exact he (ht.slot fd q hq).symm
      · exact fun hq => hq.1
  have hmem : ∀ q, q ∈ l.erase p ↔ q ∈ l ∧ q ≠ p := by
    intro q
    rw [hnd.mem_erase_iff]
    exact and_comm
  let s' : Server := { s with
    openFds := Function.update s.openFds (s.conn p).fd false
    fd2conn := s.fd2conn.set (s.conn p).fd none
    idle := s.idle.detach (.conn p)
    live := Function.update s.live p false }
  refine ⟨s', ?_, ⟨?_, ?_, ?_, ?_, ?_⟩, ?_, rfl, rfl, rfl⟩
  · rw [connDestroy, ht.deref hp]
    simp only [Option.bind_eq_bind, Option.bind_some]
    rw [if_neg (by omega)]
  · intro q
    rw [hmem, ht.mem]
    constructor
    · rintro ⟨⟨fd, hq⟩, hne⟩
      exact ⟨fd, (hget fd q).mpr ⟨hq, hne⟩⟩
    · rintro ⟨fd, hq⟩
      exact ⟨⟨fd, ((hget fd q).mp hq).1⟩, ((hget fd q).mp hq).2⟩
  · intro fd q hq
    exact ht.slot fd q ((hget fd q).mp hq).1
  · intro q hq
    obtain ⟨hq, hne⟩ := (hmem q).mp hq
    exact (Function.update_of_ne hne _ _).trans (ht.live q hq)
  · intro q hq
    obtain ⟨hq, hne⟩ := (hmem q).mp hq
    have hfd : (s.conn q).fd ≠ (s.conn p).fd := by
      intro he
      have hq' := ht.slot_of_mem hq
      rw [he, hslot] at hq'
      exact hne (Option.some.inj (Option.some.inj hq')).symm
    exact (Function.update_of_ne hfd _ _).trans (ht.fds q hq)
  · intro q hq
    exact ht.fresh q ((hmem q).mp hq).1
  · exact ring_detach hring hp

/-! ## One connection -/

theorem Conn.Settled.touch {conn : Conn} (h : conn.Settled) (now : Nat) :
    Conn.Settled { conn with lastActiveMs := now } :=
  ⟨h.notClosing, ⟨h.tuned.read, h.tuned.write⟩, h.answered⟩

/-- What is left of a connection after reading or writing: it is to be closed
or has answered every request. -/
structure Conn.Handled (conn conn' : Conn) : Prop where
  fd : conn'.fd = conn.fd
  active : conn'.lastActiveMs = conn.lastActiveMs
  tuned : conn'.Tuned
  answered : conn'.wantClose = false → nextMessage conn'.incoming = .incomplete

theorem Conn.Settled.handled {conn : Conn} (h : conn.Settled) : conn.Handled conn :=
  ⟨rfl, rfl, h.tuned, fun _ => h.answered⟩

/-- **`handle_read`**, whatever `read` and `write` answer. -/
theorem handleRead_spec {g : Db} (hg : ∃ st S, g.Abs S st) {conn : Conn} (hc : conn.Settled)
    (clock : Nat → Nat) (r : ReadResult) (w : WriteResult) :
    ∃ g' conn' sent, handleRead doRequest clock g conn r w = some (g', conn', sent) ∧
      (∃ st S, g'.Abs S st) ∧ conn.Handled conn' := by
  have hclose : conn.Handled { conn with wantClose := true } :=
    ⟨rfl, rfl, ⟨hc.tuned.read, hc.tuned.write⟩, fun h => by cases h⟩
  cases r with
  | again => exact ⟨g, conn, [], rfl, hg, hc.handled⟩
  | error => exact ⟨g, _, [], rfl, hg, hclose⟩
  | got bytes =>
    by_cases hb : bytes = []
    · subst hb
      exact ⟨g, _, [], rfl, hg, hclose⟩
    · obtain ⟨g', out, conn', sent, hg', -, hrun, hfd, hact, hrest, -, hcl, htuned⟩ :=
        handleRead_got doRequest_appendsOn clock hg conn hb w
      refine ⟨g', conn', sent, hrun, hg', hfd, hact, htuned hc.tuned, ?_⟩
      intro hopen
      rw [hopen, eq_comm, Bool.or_eq_false_iff, Bool.or_eq_false_iff] at hcl
      have hcut := Reader.parse_rest (r := requestReader) (conn.incoming ++ bytes)
      rw [if_neg (by simp [hcl.1.2])] at hcut
      rw [hrest]
      exact hcut

/-- **`handle_write`**, whatever `write` answers. -/
theorem handleWrite_handled {conn : Conn} (hc : conn.Settled) (hw : conn.wantWrite = true)
    (w : WriteResult) :
    ∃ conn' sent, handleWrite conn w = some (conn', sent) ∧ conn.Handled conn' := by
  obtain ⟨conn', sent, hrun, hsent, -, htuned⟩ := handleWrite_spec conn (hc.tuned.write.mp hw) w
  exact ⟨conn', sent, hrun, hsent.fd, hsent.active, htuned hc.tuned,
    fun _ => hsent.incoming ▸ hc.answered⟩

/-- A settled connection does not want to read and to write. -/
theorem Conn.Settled.not_both {conn : Conn} (h : conn.Settled) (hr : conn.wantRead = true) :
    conn.wantWrite ≠ true := fun hw => h.tuned.write.mp hw (h.tuned.read.mp hr)

theorem onPollIn_spec {g : Db} (hg : ∃ st S, g.Abs S st) {conn : Conn} (hc : conn.Settled) (r : Ready)
    (hin : r.pollIn = true → conn.wantRead = true) :
    ∃ g' conn', onPollIn g conn r = some (g', conn') ∧ (∃ st S, g'.Abs S st) ∧ conn.Handled conn' ∧
      (r.pollIn ≠ true → conn' = conn) := by
  unfold onPollIn
  by_cases hi : r.pollIn = true
  · obtain ⟨g', conn', sent, hrun, hg', hh⟩ := handleRead_spec hg hc r.clock r.read r.readWrite
    refine ⟨g', conn', ?_, hg', hh, fun hne => absurd hi hne⟩
    rw [if_pos hi, if_pos (hin hi), hrun]
    rfl
  · exact ⟨g, conn, by rw [if_neg hi], hg, hc.handled, fun _ => rfl⟩

theorem onPollOut_spec {conn conn₁ : Conn} (hc : conn.Settled) (hh : conn.Handled conn₁) (r : Ready)
    (hsame : r.pollOut = true → conn₁ = conn) (hout : r.pollOut = true → conn.wantWrite = true) :
    ∃ conn', onPollOut conn₁ r = some conn' ∧ conn.Handled conn' := by
  unfold onPollOut
  by_cases ho : r.pollOut = true
  · obtain ⟨conn', sent, hrun, hh'⟩ := handleWrite_handled hc (hout ho) r.write
    refine ⟨conn', ?_, hh'⟩
    rw [hsame ho, if_pos ho, if_pos (hout ho), hrun]
    rfl
  · exact ⟨conn₁, by rw [if_neg ho], hh⟩

/-- **A connection that `poll` reports** is handled without a failed
assertion; it goes to the end of the ring, or is closed. -/
theorem handleReady_spec (h : s.Inv l) (hfd : s.fd2conn[fd]? = some (some p)) (r : Ready)
    (hin : r.pollIn = true → (s.conn p).wantRead = true)
    (hout : r.pollOut = true → (s.conn p).wantWrite = true) :
    ∃ s' l', handleReady s fd r = some s' ∧ s'.Inv l' ∧
      (l' = l.erase p ++ [p] ∧ r.pollErr ≠ true ∨ l' = l.erase p) ∧
      (s'.conn p).lastActiveMs = r.now ∧
      (∀ q ≠ p, s'.conn q = s.conn q) ∧
      (∀ fd' : Nat, fd' ≠ fd → s'.fd2conn[fd']? = s.fd2conn[fd']?) ∧
      ∃ conn, onPollIn s.db { s.conn p with lastActiveMs := r.now } r = some (s'.db, conn) := by
  have hp : p ∈ l := (h.table.mem p).mpr ⟨fd, hfd⟩
  have hpfd : (s.conn p).fd = fd := h.table.slot fd p hfd
  have hc := (h.settled p hp).touch r.now
  -- of the two handlers at most one runs
  obtain ⟨db, conn₁, hread, hdb, hconn₁, hsame⟩ := onPollIn_spec h.db hc r hin
  have hout₁ : r.pollOut = true → conn₁ = { s.conn p with lastActiveMs := r.now } := by
    intro ho
    apply hsame
    intro hi
    exact (h.settled p hp).not_both (hin hi) (hout ho)
  obtain ⟨conn₂, hwrite, hconn₂⟩ := onPollOut_spec hc hconn₁ r hout₁ hout
  -- the state before the connection may be closed
  let s₁ : Server := { s with
    idle := (s.idle.detach (.conn p)).insertBack .head (.conn p)
    db := db
    conn := Function.update s.conn p conn₂ }
  have hself : s₁.conn p = conn₂ := Function.update_self _ _ _
  have hother : ∀ q ≠ p, s₁.conn q = s.conn q := fun q hq => Function.update_of_ne hq _ _
  have hconnfd : ∀ q, (s₁.conn q).fd = (s.conn q).fd := by
    intro q
    by_cases hq : q = p
    · rw [hq, hself, hconn₂.fd]
    · rw [hother q hq]
  have hnot : p ∉ l.erase p := h.nodup.not_mem_erase
  have hmem : ∀ q, q ∈ l.erase p ++ [p] ↔ q ∈ l := by
    intro q
    rw [List.mem_append, List.mem_singleton, h.nodup.mem_erase_iff]
    constructor
    · rintro (⟨-, hq⟩ | rfl)
      · exact hq
      · exact hp
    · intro hq
      by_cases he : q = p
      · exact .inr he
      · exact .inl ⟨he, hq⟩
  have htable : s₁.Table (l.erase p ++ [p]) := by
    refine Server.Table.of_mem_iff ⟨h.table.mem, ?_, h.table.live, ?_, h.table.fresh⟩ hmem
    · intro fd' q hq
      rw [hconnfd]
      exact h.table.slot fd' q hq
    · intro q hq
      rw [hconnfd]
      exact h.table.fds q hq
  have hring : s₁.idle.Ring .head ((l.erase p ++ [p]).map .conn) := by
    rw [List.map_append, List.map_singleton]
    exact (ring_detach h.ring hp).insertBack (by simpa using hnot)
  have hrun : handleReady s fd r =
      if r.pollErr || conn₂.wantClose then connDestroy s₁ p else some s₁ := by
    rw [handleReady, hfd]
    simp only [h.table.deref hp, Option.bind_eq_bind, Option.bind_some, hread, hwrite]
    rfl
  by_cases hcl : (r.pollErr || conn₂.wantClose) = true
  · obtain ⟨s', hdes, ht', hr', hdb', hconn', hfds⟩ :=
      connDestroy_spec htable hring ((hmem p).mpr hp)
    have herase : (l.erase p ++ [p]).erase p = l.erase p := by
      rw [List.erase_append_right _ hnot, List.erase_cons_head, List.append_nil]
    rw [herase] at ht' hr'
    refine ⟨s', l.erase p, by rw [hrun, if_pos hcl, hdes], ⟨hdb' ▸ hdb, ht', hr', ?_⟩, .inr rfl,
      ?_, ?_, ?_, conn₁, hdb' ▸ hread⟩
    · intro q hq
      have hne : q ≠ p := fun he => hnot (he ▸ hq)
      rw [hconn', hother q hne]
      exact h.settled q (List.mem_of_mem_erase hq)
    · rw [hconn', hself, hconn₂.active]
    · intro q hq
      rw [hconn', hother q hq]
    · intro fd' hfd'
      rw [hfds, hself, hconn₂.fd]
      exact List.getElem?_set_ne (by rw [hpfd]; exact Ne.symm hfd')
  · have herr : r.pollErr ≠ true := by
      intro he
      rw [he] at hcl
      exact hcl rfl
    refine ⟨s₁, _, by rw [hrun, if_neg hcl], ⟨hdb, htable, hring, ?_⟩, .inl ⟨rfl, herr⟩,
      by rw [hself, hconn₂.active], hother, fun _ _ => rfl, conn₁, hread⟩
    intro q hq
    by_cases he : q = p
    · have hopen : conn₂.wantClose = false := by
        rw [Bool.not_eq_true, Bool.or_eq_false_iff] at hcl
        exact hcl.2
      rw [he, hself]
      exact ⟨hopen, hconn₂.tuned, hconn₂.answered hopen⟩
    · rw [hother q he]
      exact h.settled q ((hmem q).mp hq)

/-! ## Timers -/

/-- The test of `process_timers` on an idle connection. -/
def Server.expired (s : Server) (now : Nat) (p : Ptr) : Bool :=
  ((s.conn p).lastActiveMs + kIdleTimeoutMs) % 2 ^ 64 < now

theorem Server.Inv.empty_iff (h : s.Inv l) : s.idle.empty .head = true ↔ l = [] := by
  rw [h.ring.empty_iff, List.map_eq_nil_iff]

theorem Server.Inv.firstIdle (h : s.Inv (p :: l)) : s.firstIdle = some p := by
  rw [Server.firstIdle, h.ring.next_head]
  rfl

theorem Server.Inv.of_conn_eq {l' : List Ptr} (h : s.Inv l) (ht : s'.Table l')
    (hr : s'.idle.Ring .head (l'.map .conn)) (hdb : s'.db = s.db) (hc : s'.conn = s.conn)
    (hsub : ∀ p ∈ l', p ∈ l) : s'.Inv l' := by
  refine ⟨hdb ▸ h.db, ht, hr, ?_⟩
  intro p hp
  rw [hc]
  exact h.settled p (hsub p hp)

/-- **The idle loop** of `process_timers` ends, and closes connections from the
front of the ring up to the first that is not expired. -/
theorem idleLoop_spec (h : s.Inv l) (now : Nat) :
    ∃ s', s.idleLoop now = some s' ∧ s'.Inv (l.dropWhile (s.expired now)) ∧ s'.db = s.db ∧
      s'.conn = s.conn := by
  induction l generalizing s with
  | nil =>
    rw [Server.idleLoop, if_pos (h.empty_iff.mpr rfl)]
    exact ⟨s, rfl, h, rfl, rfl⟩
  | cons p l ih =>
    have hp : p ∈ p :: l := List.mem_cons_self
    have hne : ¬ s.idle.empty .head = true := by
      rw [h.empty_iff]
      exact List.cons_ne_nil _ _
    rw [Server.idleLoop, if_neg hne, h.firstIdle]
    simp only [Option.bind_eq_bind, Option.bind_some, h.table.deref hp]
    by_cases hexp : s.expired now p = true
    · obtain ⟨s₁, hdes, ht, hr, hdb, hconn, -⟩ := connDestroy_spec h.table h.ring hp
      rw [List.erase_cons_head] at ht hr
      have h₁ := h.of_conn_eq ht hr hdb hconn (fun q hq => List.mem_cons_of_mem _ hq)
      obtain ⟨s', hloop, h', hdb', hconn'⟩ := ih h₁
      have hpred : s₁.expired now = s.expired now := by
        funext q
        rw [Server.expired, Server.expired, hconn]
      rw [hpred] at h'
      refine ⟨s', ?_, ?_, hdb'.trans hdb, hconn'.trans hconn⟩
      · rw [if_neg, hdes]
        · exact hloop
        · rw [Server.expired, decide_eq_true_iff] at hexp
          omega
      · rw [List.dropWhile_cons_of_pos hexp]
        exact h'
    · rw [if_pos]
      · refine ⟨s, rfl, ?_, rfl, rfl⟩
        rw [List.dropWhile_cons_of_neg hexp]
        exact h
      · rw [Server.expired, decide_eq_true_iff] at hexp
        omega

/-- **`process_timers`**: the idle loop, then the TTL loop. -/
theorem processTimers_spec (h : s.Inv l) (now : Nat) :
    ∃ s', processTimers now s = some s' ∧ s'.Inv (l.dropWhile (s.expired now)) ∧
      s'.conn = s.conn ∧
      ∀ st S, s.db.Abs S st → ∃ st' S', s'.db.Abs S' st' ∧ Expires (kMaxWorks + 1) now st st' := by
  obtain ⟨s₁, hidle, h₁, hdb, hconn⟩ := idleLoop_spec h now
  obtain ⟨st₁, S₁, habs₁⟩ := h₁.db
  obtain ⟨g', S', st', hrun, habs', -⟩ := processTtls_spec habs₁ now
  have ht : Server.Table { s₁ with db := g' } (l.dropWhile (s.expired now)) :=
    ⟨h₁.table.mem, h₁.table.slot, h₁.table.live, h₁.table.fds, h₁.table.fresh⟩
  refine ⟨{ s₁ with db := g' }, ?_, ⟨⟨st', S', habs'⟩, ht, h₁.ring, h₁.settled⟩, hconn, ?_⟩
  · rw [processTimers, hidle]
    simp only [Option.bind_eq_bind, Option.bind_some, hrun]
  · intro st S habs
    rw [← hdb] at habs
    obtain ⟨g'', S'', st'', hrun', habs'', hexp⟩ := processTtls_spec habs now
    rw [hrun] at hrun'
    cases hrun'
    exact ⟨st'', S'', habs'', hexp⟩

/-- The timer of the connections that `next_timer_ms` looks at. -/
def Server.idleNext (s : Server) : List Ptr → Nat
  | [] => 2 ^ 64 - 1
  | p :: _ => ((s.conn p).lastActiveMs + kIdleTimeoutMs) % 2 ^ 64

/-- `next_ms` is computed without dereferencing a dangling pointer. -/
theorem nextMs_eq (h : s.Inv l) :
    nextMs s = some (if 0 < s.db.heapSize ∧ (s.db.heap.h 0).val < s.idleNext l
      then (s.db.heap.h 0).val else s.idleNext l) := by
  unfold nextMs
  cases l with
  | nil =>
    simp only [if_pos (h.empty_iff.mpr rfl), Option.bind_eq_bind, Option.bind_some, Server.idleNext]
    rfl
  | cons p l =>
    have hne : ¬ s.idle.empty .head = true := by
      rw [h.empty_iff]
      exact List.cons_ne_nil _ _
    simp only [if_neg hne, h.firstIdle, h.table.deref List.mem_cons_self, Option.bind_eq_bind,
      Option.bind_some, Server.idleNext]
    rfl

theorem timeoutMs_isSome (h : s.Inv l) (now : Nat) : ∃ t, s.timeoutMs now = some t := by
  rw [Server.timeoutMs, nextTimerMs, nextMs_eq h]
  simp only [Option.bind_eq_bind, Option.bind_some]
  split_ifs <;> exact ⟨_, rfl⟩

/-! ## One round -/

/-- What `poll` is asked for a connection. -/
def Conn.pollFd (conn : Conn) : PollFd :=
  { fd := conn.fd, pollIn := conn.wantRead, pollOut := conn.wantWrite }

/-- The pointer at each index of a table has that index as its descriptor, so
the descriptors go up along the table. -/
theorem pairwise_fds {f : Ptr → Nat} (fds : List (Option Ptr)) (k : Nat)
    (h : ∀ (i : Nat) p, fds[i]? = some (some p) → f p = k + i) :
    ((fds.filterMap id).map f).Pairwise (· < ·) ∧ ∀ fd ∈ (fds.filterMap id).map f, k ≤ fd := by
  induction fds generalizing k with
  | nil => simp
  | cons x fds ih =>
    have hrest := ih (k + 1) (by
      intro i p hp
      rw [h (i + 1) p hp]
      omega)
    cases x with
    | none =>
      refine ⟨hrest.1, ?_⟩
      intro fd hfd
      have := hrest.2 fd hfd
      omega
    | some p =>
      have hp : f p = k := h 0 p rfl
      refine ⟨List.pairwise_cons.mpr ⟨?_, hrest.1⟩, ?_⟩
      · intro fd hfd
        have := hrest.2 fd hfd
        show f p < fd
        omega
      · intro fd hfd
        rcases List.mem_cons.mp hfd with rfl | hfd
        · show k ≤ f p
          omega
        · have := hrest.2 fd hfd
          omega

/-- **The arguments of `poll`**: one for each connection, with its intentions, in the
order of the descriptors. -/
theorem pollArgs_spec (h : s.Inv l) :
    ∃ args, s.pollArgs = some args ∧ (args.map PollFd.fd).Pairwise (· < ·) ∧
      (∀ a ∈ args, ∃ p, s.fd2conn[a.fd]? = some (some p) ∧ a = (s.conn p).pollFd) ∧
      ∀ p ∈ l, (s.conn p).pollFd ∈ args := by
  let ps := s.fd2conn.filterMap id
  have hps : ∀ p ∈ ps, p ∈ l := by
    intro p hp
    obtain ⟨x, hx, hxp⟩ := List.mem_filterMap.mp hp
    obtain ⟨fd, hfd⟩ := List.mem_iff_getElem?.mp hx
    exact (h.table.mem p).mpr ⟨fd, hfd.trans (congrArg some hxp)⟩
  have hargs : s.pollArgs = some (ps.map (fun p => (s.conn p).pollFd)) := by
    have hgen : ∀ qs : List Ptr, (∀ p ∈ qs, p ∈ l) →
        qs.mapM (fun p => do
          let conn ← s.deref p
          some (PollFd.mk conn.fd conn.wantRead conn.wantWrite)) =
        some (qs.map (fun p => (s.conn p).pollFd)) := by
      intro qs hqs
      induction qs with
      | nil => rfl
      | cons p qs ih =>
        rw [List.mapM_cons, ih (fun q hq => hqs q (List.mem_cons_of_mem _ hq)),
          h.table.deref (hqs p List.mem_cons_self)]
        rfl
    exact hgen ps hps
  refine ⟨_, hargs, ?_, ?_, ?_⟩
  · have hpair := (pairwise_fds (f := fun p => (s.conn p).fd) s.fd2conn 0 (by
      intro i p hp
      rw [h.table.slot i p hp, Nat.zero_add])).1
    rw [List.map_map]
    exact hpair
  · intro a ha
    obtain ⟨p, hp, rfl⟩ := List.mem_map.mp ha
    exact ⟨p, h.table.slot_of_mem (hps p hp), rfl⟩
  · intro p hp
    obtain ⟨fd, hfd⟩ := (h.table.mem p).mp hp
    exact List.mem_map_of_mem (List.mem_filterMap.mpr ⟨some p, List.mem_of_getElem? hfd, rfl⟩)

/-- The readings of the clock at the connections, in their order. -/
def readyNows (ready : Nat → Option Ready) (args : List PollFd) : List Nat :=
  args.filterMap (fun a => (ready a.fd).map Ready.now)

theorem Server.Ordered.mono {c c' : Nat} (h : s.Ordered l c) (hc : c ≤ c') : s.Ordered l c' :=
  ⟨h.sorted, fun p hp => (h.bound p hp).trans hc⟩

theorem Server.Ordered.sublist {c : Nat} (h : s.Ordered l c) (hl : l'.Sublist l) : s.Ordered l' c :=
  ⟨h.sorted.sublist hl, fun p hp => h.bound p (hl.subset hp)⟩

theorem Server.Ordered.of_conn {c : Nat} (h : s.Ordered l c)
    (hconn : ∀ p ∈ l, (s'.conn p).lastActiveMs = (s.conn p).lastActiveMs) : s'.Ordered l c := by
  constructor
  · refine h.sorted.imp_of_mem ?_
    intro p q hp hq hle
    rw [hconn p hp, hconn q hq]
    exact hle
  · intro p hp
    rw [hconn p hp]
    exact h.bound p hp

/-- A connection that becomes active now goes behind all others. -/
theorem Server.Ordered.concat {c : Nat} (h : s.Ordered l c) (hc : c ≤ (s.conn p).lastActiveMs) :
    s.Ordered (l ++ [p]) (s.conn p).lastActiveMs := by
  constructor
  · rw [List.pairwise_append]
    refine ⟨h.sorted, List.pairwise_singleton _ _, ?_⟩
    intro q hq r hr
    rw [List.mem_singleton.mp hr]
    exact (h.bound q hq).trans hc
  · intro q hq
    rcases List.mem_append.mp hq with hq | hq
    · exact (h.bound q hq).trans hc
    · rw [List.mem_singleton.mp hq]

/-- **The loop over the connection sockets**, for events that were asked for. -/
theorem handleConns_spec {ready : Nat → Option Ready} {args : List PollFd} (h : s.Inv l)
    (hnd : (args.map PollFd.fd).Nodup)
    (hargs : ∀ a ∈ args, ∃ p, s.fd2conn[a.fd]? = some (some p) ∧ a = (s.conn p).pollFd)
    (hready : ∀ a ∈ args, ∀ r, ready a.fd = some r →
      (r.pollIn = true → a.pollIn = true) ∧ (r.pollOut = true → a.pollOut = true)) :
    ∃ s' l', handleConns ready s args = some s' ∧ s'.Inv l' ∧
      ∀ c c', s.Ordered l c → (c :: (readyNows ready args ++ [c'])).IsChain (· ≤ ·) →
        s'.Ordered l' c' := by
  induction args generalizing s l with
  | nil =>
    refine ⟨s, l, rfl, h, ?_⟩
    intro c c' ho hc
    exact ho.mono (List.isChain_pair.mp hc)
  | cons a args ih =>
    obtain ⟨hna, hnd'⟩ := List.nodup_cons.mp hnd
    cases hr : ready a.fd with
    | none =>
      obtain ⟨s', l', hrun, h', ho'⟩ := ih h hnd' (fun b hb => hargs b (List.mem_cons_of_mem _ hb))
        (fun b hb => hready b (List.mem_cons_of_mem _ hb))
      refine ⟨s', l', by rw [handleConns, hr]; exact hrun, h', ?_⟩
      intro c c' ho hc
      have hnows : readyNows ready (a :: args) = readyNows ready args := by
        simp [readyNows, hr]
      rw [hnows] at hc
      exact ho' c c' ho hc
    | some r =>
      obtain ⟨p, hp, ha⟩ := hargs a List.mem_cons_self
      obtain ⟨hin, hout⟩ := hready a List.mem_cons_self r hr
      rw [ha] at hin hout
      obtain ⟨s₁, l₁, hrun₁, h₁, hl₁, hnow, hconn, hfds, -⟩ := handleReady_spec h hp r hin hout
      -- the other arguments still fit
      have hargs₁ : ∀ b ∈ args, ∃ q, s₁.fd2conn[b.fd]? = some (some q) ∧ b = (s₁.conn q).pollFd := by
        intro b hb
        obtain ⟨q, hq, hbq⟩ := hargs b (List.mem_cons_of_mem _ hb)
        have hne : b.fd ≠ a.fd := fun he => hna (he ▸ List.mem_map_of_mem hb)
        have hqp : q ≠ p := by
          rintro rfl
          exact hne ((h.table.slot _ _ hq).symm.trans (h.table.slot _ _ hp))
        exact ⟨q, (hfds b.fd hne).trans hq, by rw [hconn q hqp]; exact hbq⟩
      obtain ⟨s', l', hrun, h', ho'⟩ := ih h₁ hnd' hargs₁
        (fun b hb => hready b (List.mem_cons_of_mem _ hb))
      refine ⟨s', l', ?_, h', ?_⟩
      · rw [handleConns, hr]
        simp only [hrun₁, Option.bind_eq_bind, Option.bind_some, hrun]
      · intro c c' ho hc
        have hnows : readyNows ready (a :: args) = r.now :: readyNows ready args := by
          simp [readyNows, hr]
        rw [hnows, List.cons_append, List.isChain_cons_cons] at hc
        refine ho' r.now c' ?_ hc.2
        have hother : ∀ q ∈ l.erase p, (s₁.conn q).lastActiveMs = (s.conn q).lastActiveMs := by
          intro q hq
          have hqp : q ≠ p := (h.nodup.mem_erase_iff.mp hq).1
          rw [hconn q hqp]
        have ho₁ : s₁.Ordered (l.erase p) c := (ho.sublist List.erase_sublist).of_conn hother
        rcases hl₁ with ⟨rfl, -⟩ | rfl
        · rw [← hnow]
          exact ho₁.concat (hnow ▸ hc.1)
        · exact ho₁.mono hc.1

/-- What the kernel promises: `poll` reports only what it was asked for, and
`accept` gives a descriptor that is not open. -/
structure Round.Promised (r : Round) (s : Server) : Prop where
  poll : ∀ args, s.pollArgs = some args → ∀ a ∈ args, ∀ rd, r.ready a.fd = some rd →
    (rd.pollIn = true → a.pollIn = true) ∧ (rd.pollOut = true → a.pollOut = true)
  accept : ∀ fd now, r.accepted = some (some fd, now) → s.openFds fd = false

/-- The readings of the clock in a round, in their order; those of requests
are left out. -/
def Round.readings (r : Round) (s : Server) : List Nat :=
  if r.eintr then [r.pollNow]
  else
    r.pollNow :: ((r.accepted.map Prod.snd).toList ++
      (readyNows r.ready (s.pollArgs.getD []) ++ [r.timersNow]))

/-- The clock after a round. -/
def Round.lastNow (r : Round) : Nat := if r.eintr then r.pollNow else r.timersNow

/-- The listening socket: the connections in the table stay as they are. -/
theorem onListening_spec (h : s.Inv l) {r : Round} (hr : r.Promised s) :
    ∃ s' l', onListening s r = some s' ∧ s'.Inv l' ∧
      (∀ (fd : Nat) p, s.fd2conn[fd]? = some (some p) →
        s'.fd2conn[fd]? = some (some p) ∧ s'.conn p = s.conn p) ∧
      ∀ c rest, s.Ordered l c →
        (c :: r.pollNow :: ((r.accepted.map Prod.snd).toList ++ rest)).IsChain (· ≤ ·) →
        ∃ c', s'.Ordered l' c' ∧ (c' :: rest).IsChain (· ≤ ·) := by
  unfold onListening
  cases hacc : r.accepted with
  | none =>
    refine ⟨s, l, rfl, h, fun _ _ hp => ⟨hp, rfl⟩, ?_⟩
    intro c rest ho hc
    obtain ⟨hle, hc⟩ := List.isChain_cons_cons.mp hc
    exact ⟨r.pollNow, ho.mono hle, hc⟩
  | some x =>
    obtain ⟨connfd, now⟩ := x
    cases connfd with
    | none =>
      refine ⟨s, l, rfl, h, fun _ _ hp => ⟨hp, rfl⟩, ?_⟩
      intro c rest ho hc
      obtain ⟨hle, hc⟩ := List.isChain_cons_cons.mp hc
      obtain ⟨hle', hc⟩ := List.isChain_cons_cons.mp hc
      exact ⟨now, ho.mono (hle.trans hle'), hc⟩
    | some fd =>
      obtain ⟨s', hrun, h', hnew, hself, hconn, -, hfds⟩ :=
        handleAccept_some h (hr.accept fd now hacc) now
      have hnow : (s'.conn s.next).lastActiveMs = now := by rw [hself]
      have hold : ∀ p ∈ l, s'.conn p = s.conn p := fun p hp => hconn p (fun he => hnew (he ▸ hp))
      refine ⟨s', _, hrun, h', ?_, ?_⟩
      · intro fd' p hp
        exact ⟨hfds fd' p hp, hold p ((h.table.mem p).mpr ⟨fd', hp⟩)⟩
      · intro c rest ho hc
        obtain ⟨hle, hc⟩ := List.isChain_cons_cons.mp hc
        obtain ⟨hle', hc⟩ := List.isChain_cons_cons.mp hc
        have ho' : s'.Ordered l c := ho.of_conn (fun p hp => by rw [hold p hp])
        refine ⟨now, ?_, hc⟩
        rw [← hnow]
        exact ho'.concat (by rw [hnow]; exact hle.trans hle')

/-- **One round** of the event loop goes through. -/
theorem round_spec (h : s.Inv l) {r : Round} (hr : r.Promised s) :
    ∃ s' l', s.round r = some s' ∧ s'.Inv l' ∧
      ∀ c, s.Ordered l c → (c :: r.readings s).IsChain (· ≤ ·) → s'.Ordered l' r.lastNow := by
  obtain ⟨args, hargs, hsort, hmatch, -⟩ := pollArgs_spec h
  have hnd : (args.map PollFd.fd).Nodup := hsort.imp (fun hlt => Nat.ne_of_lt hlt)
  obtain ⟨t, ht⟩ := timeoutMs_isSome h r.pollNow
  by_cases hint : r.eintr = true
  · refine ⟨s, l, ?_, h, ?_⟩
    · rw [Server.round, hargs, ht]
      simp [hint]
    · intro c ho hc
      rw [Round.readings, if_pos hint] at hc
      rw [Round.lastNow, if_pos hint]
      exact ho.mono (List.isChain_pair.mp hc)
  · obtain ⟨s₁, l₁, hrun₁, h₁, hkept, ho₁⟩ := onListening_spec h hr
    have hmatch₁ : ∀ a ∈ args, ∃ p, s₁.fd2conn[a.fd]? = some (some p) ∧ a = (s₁.conn p).pollFd := by
      intro a ha
      obtain ⟨p, hp, hap⟩ := hmatch a ha
      obtain ⟨hp', hconn⟩ := hkept a.fd p hp
      exact ⟨p, hp', by rw [hconn]; exact hap⟩
    obtain ⟨s₂, l₂, hrun₂, h₂, ho₂⟩ := handleConns_spec h₁ hnd hmatch₁ (hr.poll args hargs)
    obtain ⟨s₃, hrun₃, h₃, hconn₃, -⟩ := processTimers_spec h₂ r.timersNow
    refine ⟨s₃, _, ?_, h₃, ?_⟩
    · rw [Server.round, hargs, ht]
      simp only [Option.bind_eq_bind, Option.bind_some, if_neg hint, hrun₁, hrun₂, hrun₃]
    · intro c ho hc
      rw [Round.readings, if_neg hint, hargs, Option.getD_some] at hc
      rw [Round.lastNow, if_neg hint]
      obtain ⟨c₁, hoc, hchain⟩ := ho₁ c _ ho hc
      have := ho₂ c₁ r.timersNow hoc hchain
      exact (this.sublist (List.dropWhile_sublist _)).of_conn (fun p _ => by rw [hconn₃])

/-! ## Rounds in which little happens -/

theorem handleConns_none (s : Server) (args : List PollFd) :
    handleConns (fun _ => none) s args = some s := by
  induction args with
  | nil => rfl
  | cons a args ih => rw [handleConns, ih]

/-- A server with one connection asks for this one. -/
theorem pollArgs_singleton (h : s.Inv [p]) : s.pollArgs = some [(s.conn p).pollFd] := by
  obtain ⟨args, hargs, hsort, hall, hin⟩ := pollArgs_spec h
  have hnd : (args.map PollFd.fd).Nodup := hsort.imp (fun hlt => Nat.ne_of_lt hlt)
  have hperm : args.Perm [(s.conn p).pollFd] := by
    rw [List.perm_ext_iff_of_nodup (List.Nodup.of_map _ hnd) (List.nodup_singleton _)]
    intro a
    rw [List.mem_singleton]
    constructor
    · intro ha
      obtain ⟨q, hq, rfl⟩ := hall a ha
      rw [List.mem_singleton.mp ((h.table.mem q).mpr ⟨_, hq⟩)]
    · rintro rfl
      exact hin p (List.mem_singleton_self p)
  rw [hargs, List.perm_singleton.mp hperm]

/-- The timers at clock 0 do nothing. -/
theorem processTimers_zero {S : Finset Ptr} {st : Store} (h : s.Inv l) (habs : s.db.Abs S st) :
    ∃ s' S', processTimers 0 s = some s' ∧ s'.Inv l ∧ s'.conn = s.conn ∧ s'.db.Abs S' st := by
  obtain ⟨s', hrun, h', hconn, hst⟩ := processTimers_spec h 0
  have hkept : l.dropWhile (s.expired 0) = l := by
    have hexp : ∀ p, ¬ s.expired 0 p = true := by
      intro p hp
      rw [Server.expired, decide_eq_true_iff] at hp
      exact Nat.not_lt_zero _ hp
    cases l with
    | nil => rfl
    | cons p l => rw [List.dropWhile_cons_of_neg (hexp p)]
  rw [hkept] at h'
  obtain ⟨st', S', habs', hexp⟩ := hst st S habs
  rw [hexp.eq_of_due_empty (Store.due_zero st)] at habs'
  exact ⟨s', S', hrun, h', hconn, habs'⟩

/-- A connection that is handled and is not to be closed stays in the table. -/
theorem handleReady_open (h : s.Inv l) (hfd : s.fd2conn[fd]? = some (some p)) {r : Ready}
    {db : Db} {conn₁ conn₂ : Conn} (hin : r.pollIn = true → (s.conn p).wantRead = true)
    (hout : r.pollOut = true → (s.conn p).wantWrite = true) (herr : r.pollErr = false)
    (hread : onPollIn s.db { s.conn p with lastActiveMs := r.now } r = some (db, conn₁))
    (hwrite : onPollOut conn₁ r = some conn₂) (hopen : conn₂.wantClose = false) :
    ∃ s', handleReady s fd r = some s' ∧ s'.Inv (l.erase p ++ [p]) ∧ s'.fd2conn = s.fd2conn ∧
      s'.db = db ∧ s'.conn = Function.update s.conn p conn₂ := by
  have hp := (h.table.mem p).mpr ⟨fd, hfd⟩
  obtain ⟨s', l', hrun, h', hl', -⟩ := handleReady_spec h hfd r hin hout
  have hrun' := hrun
  rw [handleReady, hfd] at hrun'
  simp only [h.table.deref hp, Option.bind_eq_bind, Option.bind_some, hread, hwrite, herr, hopen,
    Bool.or_self, Bool.false_eq_true, if_false, Option.some.injEq] at hrun'
  have hfds : s'.fd2conn = s.fd2conn := by rw [← hrun']
  have hl : l' = l.erase p ++ [p] := by
    rcases hl' with ⟨rfl, -⟩ | rfl
    · rfl
    · have hp' := (h'.table.mem p).mpr ⟨fd, hfds ▸ hfd⟩
      exact absurd hp' h.nodup.not_mem_erase
  rw [hl] at h'
  exact ⟨s', hrun, h', hfds, by rw [← hrun'], by rw [← hrun']⟩

end ByoRedis
