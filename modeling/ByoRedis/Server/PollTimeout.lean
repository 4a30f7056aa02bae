import ByoRedis.Server.EventLoopRun

/-!
# Server — the timeout that `poll` gets

The deadlines of a server are those of its idle connections and of its keys.
`next_timer_ms` finds the earliest, but its distance from the clock goes
through a 32-bit integer: a key that expires in a month and a half makes the
timeout negative, and one whose distance is a multiple of `2^32` makes it
zero.
-/

namespace ByoRedis

open Framing Run

/-- A deadline of the server: of a connection, or the `expire_at` of a key. -/
def Server.IsTimer (s : Server) (d : Nat) : Prop :=
  (∃ (fd : Nat) (p : Ptr), s.fd2conn[fd]? = some (some p) ∧
    d = (s.conn p).lastActiveMs + 5000) ∨
  ∃ p ∈ s.db.linked, deadline s.db.heap p = some d

/-- A timeout that does not oversleep: negative only without deadlines, and
else up to the earliest deadline at most, and zero only when it is reached. -/
def Server.WakesInTime (s : Server) (now : Nat) (timeout : Int) : Prop :=
  (timeout < 0 → ∀ d, ¬ s.IsTimer d) ∧
  ∀ d, IsLeast {d | s.IsTimer d} d →
    0 ≤ timeout ∧ now + timeout ≤ max now d ∧ (timeout = 0 → d ≤ now)

variable {s : Server} {l : List Ptr} {t : Timed} {cores d : Nat}

theorem mem_linked_iff {g : Db} {S : Finset Ptr} (h : g.Inv S) (p : Ptr) : p ∈ g.linked ↔ p ∈ S := by
  rw [← h.index.content, List.mem_toFinset]
  rfl

/-- The root of the heap is the earliest deadline of a key. -/
theorem root_isLeast {g : Db} {S : Finset Ptr} (h : g.Inv S) (hlen : 0 < g.heapSize) :
    IsLeast {d | ∃ p ∈ g.linked, deadline g.heap p = some d} (g.heap.h 0).val := by
  constructor
  · refine ⟨(g.heap.h 0).refPos, (mem_linked_iff h _).mpr (h.timers.owned 0 hlen), ?_⟩
    rw [deadline, h.timers.positioned 0 hlen, Option.map_some]
  · rintro d ⟨p, hp, hd⟩
    obtain ⟨i, hi, rfl⟩ := Option.map_eq_some_iff.mp hd
    exact h.timers.root_le (h.timers.indexed p ((mem_linked_iff h p).mp hp) i hi).1

theorem no_deadline {g : Db} {S : Finset Ptr} (h : g.Inv S) (hlen : g.heapSize = 0) {p : Ptr}
    (hp : p ∈ g.linked) : deadline g.heap p ≠ some d := by
  intro hd
  obtain ⟨i, hi, -⟩ := Option.map_eq_some_iff.mp hd
  have := (h.timers.indexed p ((mem_linked_iff h p).mp hp) i hi).1
  omega

/-- The first connection of the ring has the earliest deadline of all. -/
theorem Timed.Inv.idleNext_le (h : t.Inv l) {p : Ptr} (hp : p ∈ l) :
    t.server.idleNext l ≤ (t.server.conn p).lastActiveMs + 5000 := by
  cases l with
  | nil => cases hp
  | cons q l =>
    have hbound := h.ordered.bound q List.mem_cons_self
    have hclock := h.clock
    have hle : (t.server.conn q).lastActiveMs ≤ (t.server.conn p).lastActiveMs := by
      rcases List.mem_cons.mp hp with rfl | hp
      · exact Nat.le_refl _
      · exact (List.pairwise_cons.mp h.ordered.sorted).1 p hp
    simp only [Server.idleNext, kIdleTimeoutMs] at *
    omega

/-- **`next_ms`** is the earliest deadline, or the value that stands for none
where there is none before it. -/
theorem nextMs_least (h : t.Inv l) (hd : IsLeast {d | t.server.IsTimer d} d) :
    nextMs t.server = some (min d (2 ^ 64 - 1)) := by
  obtain ⟨st, S, habs⟩ := h.inv.db
  rw [nextMs_eq h.inv, Option.some.injEq]
  have hidle : t.server.idleNext l ≤ 2 ^ 64 - 1 := by
    cases l with
    | nil => exact Nat.le_refl _
    | cons p l =>
      show ((t.server.conn p).lastActiveMs + kIdleTimeoutMs) % 2 ^ 64 ≤ 2 ^ 64 - 1
      omega
  -- `d` is not after the timer that was found
  have hle : ∀ n, t.server.IsTimer n → d ≤ n := fun n hn => hd.2 hn
  have hfirst : l ≠ [] → t.server.IsTimer (t.server.idleNext l) := by
    intro hne
    cases l with
    | nil => exact absurd rfl hne
    | cons p l =>
      have hbound := h.ordered.bound p List.mem_cons_self
      have hclock := h.clock
      refine .inl ⟨_, p, h.inv.table.slot_of_mem List.mem_cons_self, ?_⟩
      simp only [Server.idleNext, kIdleTimeoutMs] at *
      omega
  -- and one of the two is `d`
  by_cases hheap : 0 < t.server.db.heapSize
  · have hroot := root_isLeast habs.inv hheap
    have hdroot : d ≤ (t.server.db.heap.h 0).val := hle _ (.inr hroot.1)
    have hor : d = (t.server.db.heap.h 0).val ∨ t.server.idleNext l ≤ d := by
      rcases hd.1 with ⟨fd, p, hp, he⟩ | hdb
      · right
        rw [he]
        exact h.idleNext_le ((h.inv.table.mem p).mpr ⟨fd, hp⟩)
      · exact .inl (le_antisymm hdroot (hroot.2 hdb))
    by_cases hl : l = []
    · have hnil : t.server.idleNext l = 2 ^ 64 - 1 := by rw [hl]; rfl
      rw [hnil] at hor ⊢
      split_ifs <;> omega
    · have := hle _ (hfirst hl)
      split_ifs <;> omega
  · have hnone : t.server.db.heapSize = 0 := by omega
    rw [if_neg (fun hc => hheap hc.1)]
    rcases hd.1 with ⟨fd, p, hp, he⟩ | ⟨p, hp, hdp⟩
    · have hmem := (h.inv.table.mem p).mpr ⟨fd, hp⟩
      have h1 := h.idleNext_le hmem
      have h2 := hle _ (hfirst (List.ne_nil_of_mem hmem))
      omega
    · exact absurd hdp (no_deadline habs.inv hnone hp)

theorem nextMs_none (h : t.Inv l) (hno : ∀ d, ¬ t.server.IsTimer d) :
    nextMs t.server = some (2 ^ 64 - 1) := by
  obtain ⟨st, S, habs⟩ := h.inv.db
  have hl : l = [] := by
    by_contra hne
    obtain ⟨p, hp⟩ := List.exists_mem_of_ne_nil l hne
    exact hno _ (.inl ⟨_, p, h.inv.table.slot_of_mem hp, rfl⟩)
  have hheap : ¬ 0 < t.server.db.heapSize :=
    fun hlen => hno _ (.inr (root_isLeast habs.inv hlen).1)
  rw [nextMs_eq h.inv, if_neg (fun hc => hheap hc.1), hl]
  rfl

/-- The earliest deadline is near enough for the 32 bits: it is reached, or its
distance from the clock is, modulo `2^32`, a positive `int32_t`. -/
def Server.Near (s : Server) (now : Nat) : Prop :=
  ∀ d, IsLeast {d | s.IsTimer d} d →
    d < 2 ^ 64 - 1 ∧ (d ≤ now ∨ 0 < (d - now) % 2 ^ 32 ∧ (d - now) % 2 ^ 32 < 2 ^ 31)

theorem Timed.Inv.timeoutMs_none (h : t.Inv l) (hno : ∀ d, ¬ t.server.IsTimer d) (now : Nat) :
    t.server.timeoutMs now = some (-1) := by
  rw [Server.timeoutMs, nextTimerMs, nextMs_none h hno]
  rfl

/-- The timeout, by the earliest deadline. -/
theorem Timed.Inv.timeoutMs_least (h : t.Inv l) (hd : IsLeast {d | t.server.IsTimer d} d)
    (now : Nat) :
    t.server.timeoutMs now =
      some (if 2 ^ 64 - 1 ≤ d then -1 else if d ≤ now then 0 else toInt32 ((d - now) % 2 ^ 32)) := by
  rw [Server.timeoutMs, nextTimerMs, nextMs_least h hd]
  simp only [Option.bind_eq_bind, Option.bind_some]
  by_cases hmax : 2 ^ 64 - 1 ≤ d
  · rw [if_pos (by omega), if_pos hmax]
    rfl
  · rw [if_neg (by omega), if_neg hmax, Nat.min_eq_left (by omega)]
    by_cases hnow : d ≤ now
    · rw [if_pos hnow, if_pos hnow]
      rfl
    · rw [if_neg hnow, if_neg hnow, Option.map_some]

/-- **The timeout of `poll`.** In every reachable state and at every clock
value, it does not oversleep if and only if the earliest deadline, if there is
one, is near enough for the 32 bits. -/
theorem poll_timeout_exact (evs : List LoopEvent) (s₀ : Server) (t : Timed)
    (hnew : Server.new cores = some s₀)
    (hrun : Guarded Timed.step Timed.Allowed { server := s₀, clock := 0 } evs t) (now : Nat) :
    ∃ timeout, t.server.timeoutMs now = some timeout ∧
      (t.server.WakesInTime now timeout ↔ t.server.Near now) := by
  obtain ⟨l, h⟩ := hrun.invariant timed_step_inv (Timed.start_inv hnew)
  by_cases hex : ∃ d, t.server.IsTimer d
  · classical
    have hd : IsLeast {d | t.server.IsTimer d} (Nat.find hex) :=
      ⟨Nat.find_spec hex, fun n hn => Nat.find_min' hex hn⟩
    generalize Nat.find hex = d at hd
    refine ⟨_, h.timeoutMs_least hd now, ?_⟩
    have hlt : (d - now) % 2 ^ 32 < 2 ^ 32 := Nat.mod_lt _ (by decide)
    have hmod : (d - now) % 2 ^ 32 ≤ d - now := Nat.mod_le _ _
    constructor
    · intro hw d' hd'
      obtain rfl : d' = d := hd'.unique hd
      obtain ⟨hpos, -, hzero⟩ := hw.2 d' hd
      by_cases hmax : 2 ^ 64 - 1 ≤ d'
      · rw [if_pos hmax] at hpos
        omega
      · rw [if_neg hmax] at hpos hzero
        by_cases hnow : d' ≤ now
        · exact ⟨by omega, .inl hnow⟩
        · rw [if_neg hnow] at hpos hzero
          by_cases hbig : (d' - now) % 2 ^ 32 < 2 ^ 31
          · rw [toInt32_of_lt hbig] at hzero
            omega
          · rw [toInt32_of_ge (by omega) hlt] at hpos
            omega
    · intro hnear
      obtain ⟨hmax, hcase⟩ := hnear d hd
      rw [if_neg (by omega)]
      have hgood : ∀ n : Int, 0 ≤ n → now + n ≤ max now d → (n = 0 → d ≤ now) →
          t.server.WakesInTime now n := by
        intro n hn hle hzero
        refine ⟨fun hneg => by omega, ?_⟩
        intro d' hd'
        obtain rfl : d' = d := hd'.unique hd
        exact ⟨hn, hle, hzero⟩
      by_cases hnow : d ≤ now
      · rw [if_pos hnow]
        exact hgood 0 (Int.le_refl 0) (by omega) (fun _ => hnow)
      · rw [if_neg hnow]
        rcases hcase with hcase | ⟨hpos, hsmall⟩
        · exact absurd hcase hnow
        · rw [toInt32_of_lt hsmall]
          exact hgood _ (by omega) (by omega) (fun hz => by omega)
  · have hno : ∀ d, ¬ t.server.IsTimer d := fun d hd => hex ⟨d, hd⟩
    refine ⟨-1, h.timeoutMs_none hno now, ?_⟩
    constructor
    · intro _ d hd
      exact absurd hd.1 (hno d)
    · intro _
      exact ⟨fun _ => hno, fun d hd => absurd hd.1 (hno d)⟩

/-! ## A key that expires in five weeks -/

/-- The deadlines of the keys are those of the map. -/
theorem Db.Abs.deadline_iff {g : Db} {S : Finset Ptr} {st : Store} (h : g.Abs S st) :
    (∃ p ∈ g.linked, deadline g.heap p = some d) ↔
      ∃ key item, st.lookup key = some item ∧ item.deadline = some d := by
  constructor
  · rintro ⟨p, hp, hd⟩
    obtain ⟨v, hv, -⟩ := h.item p ((mem_linked_iff h.inv p).mp hp)
    exact ⟨_, _, hv, hd⟩
  · rintro ⟨key, item, hl, hd⟩
    obtain ⟨p, hp, rfl⟩ := h.keys key (Finmap.mem_of_lookup_eq_some hl)
    obtain ⟨v, hv, -⟩ := h.item p hp
    refine ⟨p, (mem_linked_iff h.inv p).mpr hp, ?_⟩
    rw [hl, Option.some.injEq] at hv
    rw [hv] at hd
    exact hd

/-- `set k v` and `pexpire k 3000000000`. -/
def farTtlRequests : Bytes :=
  message [lit "set", lit "k", lit "v"] ++ message [lit "pexpire", lit "k", lit "3000000000"]

/-- The requests are sent, and the connection breaks. -/
def farTtlReady : Ready := { pollIn := true, pollErr := true, now := 0, read := .got farTtlRequests }

/-- The round with the requests. -/
def farTtlRound : Round := readyRound farTtlReady

theorem requests_farTtl : (requests farTtlRequests).items =
    [[lit "set", lit "k", lit "v"], [lit "pexpire", lit "k", lit "3000000000"]] := by
  rw [farTtlRequests, requests_message (by decide) (by decide),
    ← List.append_nil (message [lit "pexpire", lit "k", lit "3000000000"]),
    requests_message (by decide) (by decide), requests_nil]

/-- The map with the one key that expires in 3000000000 milliseconds. -/
def farTtl : Store := (∅ : Store).insert (lit "k") ⟨.str (lit "v"), some 3000000000⟩

theorem executeAll_farTtl {g g' : Db} {S : Finset Ptr} {out : Bytes} (h : g.Abs S ∅)
    (hrun : executeAll doRequest (fun _ => 0) 0 g
      [[lit "set", lit "k", lit "v"], [lit "pexpire", lit "k", lit "3000000000"]] = some (g', out)) :
    ∃ S', g'.Abs S' farTtl := by
  have hnum : str2int (lit "3000000000") = some 3000000000 := by decide +kernel
  obtain ⟨g₁, S₁, hrun₁, h₁⟩ := doRequest_set_new h 0 (lit "k") (lit "v") (Finmap.lookup_empty _)
  obtain ⟨g₂, S₂, hrun₂, h₂⟩ := doRequest_pexpire_present h₁ 0 (lit "k") (Finmap.lookup_insert _) hnum
  simp only [executeAll, hrun₁, hrun₂, Option.bind_eq_bind, Option.bind_some] at hrun
  cases hrun
  rw [Finmap.insert_insert] at h₂
  exact ⟨S₂, h₂⟩

theorem farTtlRound_spec {p : Ptr} {S : Finset Ptr} (h : s.Inv [p])
    (hconn : s.conn p = { fd := 5, wantRead := true }) (habs : s.db.Abs S ∅) :
    farTtlRound.Promised s ∧ ∃ s' S', s.round farTtlRound = some s' ∧ s'.Inv [] ∧
      s'.db.Abs S' farTtl := by
  have hargs := pollArgs_singleton h
  rw [hconn] at hargs
  have hslot : s.fd2conn[5]? = some (some p) := by
    have := h.table.slot_of_mem (List.mem_singleton_self p)
    rw [hconn] at this
    exact this
  constructor
  · exact readyRound_promised h (fun _ => by rw [hconn]) (fun hout => by cases hout)
  · obtain ⟨s₁, l₁, hready, h₁, hl₁, -, -, -, conn, hin⟩ :=
      handleReady_spec h hslot farTtlReady (fun _ => by rw [hconn]) (fun hout => by cases hout)
    have hnil : l₁ = [] := by
      rcases hl₁ with ⟨-, herr⟩ | rfl
      · exact absurd rfl herr
      · simp
    -- the two requests are executed in `read`
    obtain ⟨g', out, conn', sent, -, hexec, hread, -⟩ := handleRead_got doRequest_appendsOn
      (fun _ => 0) ⟨_, S, habs⟩ { fd := 5, wantRead := true }
      (show farTtlRequests ≠ [] by decide) .again
    have hdb : s₁.db = g' := by
      have hin' : onPollIn s.db { fd := 5, wantRead := true } farTtlReady = some (g', conn') := by
        rw [onPollIn, if_pos rfl]
        show Option.map _ (handleRead doRequest (fun _ => 0) s.db { fd := 5, wantRead := true }
          (.got farTtlRequests) .again) = _
        rw [hread]
        rfl
      rw [hconn] at hin
      cases hin.symm.trans hin'
      rfl
    rw [List.nil_append, requests_farTtl] at hexec
    obtain ⟨S₁, habs₁⟩ := executeAll_farTtl habs hexec
    rw [← hdb] at habs₁
    rw [hnil] at h₁
    obtain ⟨s₂, S₂, htimers, h₂, -, habs₂⟩ := processTimers_zero h₁ habs₁
    obtain ⟨n, hn⟩ := timeoutMs_isSome h 0
    refine ⟨s₂, S₂, ?_, h₂, habs₂⟩
    rw [Server.round, hargs]
    simp [farTtlRound, readyRound, hn, onListening, handleConns, Conn.pollFd, hready, htimers]

theorem acceptRound_step {s₀ s₁ : Server} (hok : acceptRound.Promised s₀)
    (hargs : s₀.pollArgs = some []) (hround : s₀.round acceptRound = some s₁) :
    Timed.Allowed { server := s₀, clock := 0 } (.round acceptRound) ∧
      Timed.step { server := s₀, clock := 0 } (.round acceptRound) =
        some { server := s₁, clock := 0 } := by
  refine ⟨⟨hok, by simp [Round.readings, readyNows, acceptRound, acceptOn, hargs], by decide⟩, ?_⟩
  rw [Timed.step, Server.step, hround]
  rfl

/-- The state after the first connection was accepted, at clock 3. -/
theorem poll_timeout_exact_accept : ∃ s₀ t timeout, Server.new 4 = some s₀ ∧
    Guarded Timed.step Timed.Allowed { server := s₀, clock := 0 } [.round acceptRound] t ∧
    t.server.timeoutMs 3 = some timeout ∧ (t.server.WakesInTime 3 timeout ↔ t.server.Near 3) := by
  obtain ⟨s₀, s₁, p, S₁, hnew, hok, hargs, hround, -⟩ := acceptRound_spec 4
  obtain ⟨hallow, hstep⟩ := acceptRound_step hok hargs hround
  have hrun := Guarded.cons hallow hstep (.nil _)
  obtain ⟨timeout, ht, hiff⟩ := poll_timeout_exact _ s₀ _ hnew hrun 3
  exact ⟨s₀, _, timeout, hnew, hrun, ht, hiff⟩

/-- Two rounds lead to a server without a connection and with the one key. -/
theorem farTtl_reached (cores : Nat) : ∃ s₀ s S, Server.new cores = some s₀ ∧
    Guarded Timed.step Timed.Allowed { server := s₀, clock := 0 }
      [.round acceptRound, .round farTtlRound] { server := s, clock := 0 } ∧
    s.Inv [] ∧ s.db.Abs S farTtl := by
  obtain ⟨s₀, s₁, p, S₁, hnew, hok₁, hargs₁, hround₁, h₁, hconn, habs₁⟩ := acceptRound_spec cores
  obtain ⟨hok₂, s₂, S₂, hround₂, h₂, habs₂⟩ := farTtlRound_spec h₁ hconn habs₁
  obtain ⟨hallow₁, hstep₁⟩ := acceptRound_step hok₁ hargs₁ hround₁
  have hallow₂ : Timed.Allowed { server := s₁, clock := 0 } (.round farTtlRound) :=
    ⟨hok₂, by simp [Round.readings, readyNows, farTtlRound, readyRound, pollArgs_singleton h₁,
      farTtlReady], by decide⟩
  have hstep₂ : Timed.step { server := s₁, clock := 0 } (.round farTtlRound) =
      some { server := s₂, clock := 0 } := by
    rw [Timed.step, Server.step, hround₂]
    rfl
  exact ⟨s₀, s₂, S₂, hnew, .cons hallow₁ hstep₁ (.cons hallow₂ hstep₂ (.nil _)), h₂, habs₂⟩

/-- **A deadline beyond 31 bits is overslept.** With no connection left and one
key that expires in 3000000000 milliseconds, `poll` is called with a negative
timeout. -/
theorem poll_timeout_oversleeps : ∃ s₀ t, Server.new 4 = some s₀ ∧
    Guarded Timed.step Timed.Allowed { server := s₀, clock := 0 }
      [.round acceptRound, .round farTtlRound] t ∧
    t.server.timeoutMs 0 = some (-1294967296) ∧
    IsLeast {d | t.server.IsTimer d} 3000000000 ∧
    ¬ t.server.WakesInTime 0 (-1294967296) := by
  obtain ⟨s₀, s, S, hnew, hrun, h, habs⟩ := farTtl_reached 4
  obtain ⟨l, ht⟩ := hrun.invariant timed_step_inv (Timed.start_inv hnew)
  have htimer : ∀ d, s.IsTimer d ↔ d = 3000000000 := by
    intro d
    have hno : ¬ ∃ (fd : Nat) (p : Ptr), s.fd2conn[fd]? = some (some p) ∧
        d = (s.conn p).lastActiveMs + 5000 := by
      rintro ⟨fd, p, hp, -⟩
      cases (h.table.mem p).mpr ⟨fd, hp⟩
    rw [Server.IsTimer, or_iff_right hno, habs.deadline_iff]
    constructor
    · rintro ⟨key, item, hl, hd⟩
      by_cases hk : key = lit "k"
      · rw [hk, farTtl, Finmap.lookup_insert] at hl
        cases hl
        exact (Option.some.inj hd).symm
      · rw [farTtl, Finmap.lookup_insert_of_ne _ hk, Finmap.lookup_empty] at hl
        cases hl
    · rintro rfl
      exact ⟨lit "k", _, Finmap.lookup_insert _, rfl⟩
  have hleast : IsLeast {d | s.IsTimer d} 3000000000 :=
    ⟨(htimer _).mpr rfl, fun d hd => Nat.le_of_eq ((htimer d).mp hd).symm⟩
  refine ⟨s₀, _, hnew, hrun, ?_, hleast, ?_⟩
  · rw [ht.timeoutMs_least hleast]
    decide
  · intro hw
    exact absurd (hw.2 _ hleast).1 (by decide)

end ByoRedis
