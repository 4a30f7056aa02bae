import ByoRedis.Server.PollTimeout

/-!
# Server — deadlines that are reached, and those that fire

`next_timer_ms` takes a deadline as reached when it is not after the clock,
and `process_timers` fires it when it is before the clock. In the millisecond
between, `poll` is called with a timeout of zero and nothing is done.
-/

namespace ByoRedis

open Run

/-- The keys of the entries linked in `db`. -/
def Db.keys (g : Db) : List Bytes := g.linked.map (fun p => (g.entry p).key)

/-- From one state to the other a connection was closed, or a key deleted. -/
def Server.Progress (s s' : Server) : Prop :=
  (∃ (fd : Nat) (p : Ptr), s.fd2conn[fd]? = some (some p) ∧ s'.fd2conn[fd]? ≠ some (some p)) ∨
  ∃ key ∈ s.db.keys, key ∉ s'.db.keys

/-- If `next_timer_ms` answers zero because the earliest deadline is reached,
`process_timers` gets something done at the same time. -/
def Server.DueProgress (s : Server) (now : Nat) : Prop :=
  ∀ d, IsLeast {d | s.IsTimer d} d → d ≤ now → nextTimerMs s now = some 0 →
    ∃ s', processTimers now s = some s' ∧ s.Progress s'

variable {s₀ : Server} {l : List Ptr} {t : Timed} {cores d now : Nat}

theorem Db.Abs.mem_keys {g : Db} {S : Finset Ptr} {st : Store} (h : g.Abs S st) (key : Bytes) :
    key ∈ g.keys ↔ key ∈ st := by
  rw [Db.keys, List.mem_map]
  constructor
  · rintro ⟨p, hp, rfl⟩
    obtain ⟨v, hv, -⟩ := h.item p ((mem_linked_iff h.inv p).mp hp)
    exact Finmap.mem_of_lookup_eq_some hv
  · intro hkey
    obtain ⟨p, hp, rfl⟩ := h.keys key hkey
    exact ⟨p, (mem_linked_iff h.inv p).mpr hp, rfl⟩

/-- `next_timer_ms`, by the earliest deadline. -/
theorem Timed.Inv.nextTimerMs_least (h : t.Inv l) (hd : IsLeast {d | t.server.IsTimer d} d)
    (hdue : d ≤ now) :
    nextTimerMs t.server now = some (if d < 2 ^ 64 - 1 then 0 else 2 ^ 32 - 1) := by
  rw [nextTimerMs, nextMs_least h hd]
  simp only [Option.bind_eq_bind, Option.bind_some]
  by_cases hlt : d < 2 ^ 64 - 1
  · rw [if_neg (by omega), if_pos (by omega), if_pos hlt]
  · rw [if_pos (by omega), if_neg hlt]

/-- A deadline before the clock fires. -/
theorem Timed.Inv.progress_of_before (h : t.Inv l) (hd : t.server.IsTimer d) (hlt : d < now) :
    ∃ s', processTimers now t.server = some s' ∧ t.server.Progress s' := by
  obtain ⟨s', S, st, S', st', hproc, hslots, -, habs, habs', D, hD, hcard, hleft, -⟩ := h.fires now
  refine ⟨s', hproc, ?_⟩
  rcases hd with ⟨fd, p, hp, rfl⟩ | hkey
  · exact .inl ⟨fd, p, hp, fun hp' => ((hslots fd p).mp hp').2 hlt⟩
  · obtain ⟨key, item, hl, hdl⟩ := habs.deadline_iff.mp hkey
    have hdue : key ∈ st.due now := by
      rw [Store.due, Finset.mem_filter, Finmap.mem_keys]
      exact ⟨Finmap.mem_of_lookup_eq_some hl, item, hl, d, hdl, hlt⟩
    have hpos : 0 < D.card := by
      have := Finset.card_pos.mpr ⟨key, hdue⟩
      omega
    obtain ⟨gone, hgone⟩ := Finset.card_pos.mp hpos
    refine .inr ⟨gone, (habs.mem_keys gone).mpr ?_, ?_⟩
    · have := hD hgone
      rw [Store.due, Finset.mem_filter, Finmap.mem_keys] at this
      exact this.1
    · rw [habs'.mem_keys, ← Finmap.lookup_eq_none, hleft, if_pos hgone]

/-- No deadline before the clock, no progress. -/
theorem Timed.Inv.no_progress (h : t.Inv l) (hd : ∀ d, t.server.IsTimer d → now ≤ d) :
    ∃ s', processTimers now t.server = some s' ∧ ¬ t.server.Progress s' := by
  obtain ⟨s', S, st, S', st', hproc, hslots, -, habs, habs', hexp⟩ := h.fires now
  refine ⟨s', hproc, ?_⟩
  rintro (⟨fd, p, hp, hp'⟩ | ⟨key, hkey, hgone⟩)
  · refine hp' ((hslots fd p).mpr ⟨hp, ?_⟩)
    exact Nat.not_lt.mpr (hd _ (.inl ⟨fd, p, hp, rfl⟩))
  · have hdue : st.due now = ∅ := by
      rw [Finset.eq_empty_iff_forall_notMem]
      intro k hk
      rw [Store.due, Finset.mem_filter] at hk
      obtain ⟨-, item, hl, d, hdl, hlt⟩ := hk
      exact absurd hlt (Nat.not_lt.mpr (hd d (.inr (habs.deadline_iff.mpr ⟨k, item, hl, hdl⟩))))
    rw [hexp.eq_of_due_empty hdue] at habs'
    exact hgone ((habs'.mem_keys key).mpr ((habs.mem_keys key).mp hkey))

/-- A server with one connection, active at clock 0, and no key. -/
theorem idle_reached (cores : Nat) : ∃ s₀ t l, Server.new cores = some s₀ ∧
    Guarded Timed.step Timed.Allowed { server := s₀, clock := 0 } [.round acceptRound] t ∧
    t.Inv l ∧ ∀ d, t.server.IsTimer d ↔ d = 5000 := by
  obtain ⟨s₀, s₁, p, S₁, hnew, hok, hargs, hround, h₁, hconn, habs⟩ := acceptRound_spec cores
  obtain ⟨hallow, hstep⟩ := acceptRound_step hok hargs hround
  have hrun := Guarded.cons hallow hstep (.nil _)
  obtain ⟨l, h⟩ := hrun.invariant timed_step_inv (Timed.start_inv hnew)
  refine ⟨s₀, _, l, hnew, hrun, h, ?_⟩
  intro d
  have hlast : (s₁.conn p).lastActiveMs = 0 := by rw [hconn]
  constructor
  · rintro (⟨fd, q, hq, rfl⟩ | hkey)
    · obtain rfl : q = p := List.mem_singleton.mp ((h₁.table.mem q).mpr ⟨fd, hq⟩)
      show (s₁.conn q).lastActiveMs + 5000 = 5000
      omega
    · obtain ⟨key, item, hl, -⟩ := habs.deadline_iff.mp hkey
      rw [Finmap.lookup_empty] at hl
      cases hl
  · rintro rfl
    refine .inl ⟨_, p, h₁.table.slot_of_mem (List.mem_singleton_self p), ?_⟩
    show 5000 = (s₁.conn p).lastActiveMs + 5000
    omega

/-- **Scheduling and firing agree** in every reachable state and at every clock
value, except where the earliest deadline is exactly now. (The last value of a
`uint64_t` stands for no deadline.) -/
theorem due_progress_iff (evs : List LoopEvent) (s₀ : Server) (t : Timed)
    (hnew : Server.new cores = some s₀)
    (hrun : Guarded Timed.step Timed.Allowed { server := s₀, clock := 0 } evs t) (now : Nat) :
    t.server.DueProgress now ↔ ¬ (IsLeast {d | t.server.IsTimer d} now ∧ now < 2 ^ 64 - 1) := by
  obtain ⟨l, h⟩ := hrun.invariant timed_step_inv (Timed.start_inv hnew)
  constructor
  · rintro hprog ⟨hd, hlt⟩
    have hzero : nextTimerMs t.server now = some 0 := by
      rw [h.nextTimerMs_least hd (Nat.le_refl now), if_pos hlt]
    obtain ⟨s', hproc, hdone⟩ := hprog now hd (Nat.le_refl now) hzero
    obtain ⟨s'', hproc', hnot⟩ := h.no_progress (fun d hd' => hd.2 hd')
    obtain rfl : s' = s'' := Option.some.inj (hproc.symm.trans hproc')
    exact hnot hdone
  · intro hne d hd hle hzero
    apply h.progress_of_before hd.1
    rcases Nat.lt_or_eq_of_le hle with hlt | rfl
    · exact hlt
    · have hbig : ¬ d < 2 ^ 64 - 1 := fun hlt => hne ⟨hd, hlt⟩
      rw [h.nextTimerMs_least hd hle, if_neg hbig] at hzero
      cases hzero

/-- A millisecond after its deadline, the connection is closed. -/
theorem due_progress_after : ∃ s₀ t, Server.new 4 = some s₀ ∧
    Guarded Timed.step Timed.Allowed { server := s₀, clock := 0 } [.round acceptRound] t ∧
    t.server.DueProgress 5001 := by
  obtain ⟨s₀, t, l, hnew, hrun, h, htimer⟩ := idle_reached 4
  refine ⟨s₀, t, hnew, hrun, (due_progress_iff _ s₀ t hnew hrun 5001).mpr ?_⟩
  rintro ⟨hd, -⟩
  exact absurd ((htimer 5001).mp hd.1) (by decide)

/-- **A deadline that is exactly now** makes the timeout zero and does not fire. -/
theorem due_without_progress : ∃ s₀ t s', Server.new 4 = some s₀ ∧
    Guarded Timed.step Timed.Allowed { server := s₀, clock := 0 } [.round acceptRound] t ∧
    IsLeast {d | t.server.IsTimer d} 5000 ∧ nextTimerMs t.server 5000 = some 0 ∧
    processTimers 5000 t.server = some s' ∧ ¬ t.server.Progress s' ∧
    ¬ t.server.DueProgress 5000 := by
  obtain ⟨s₀, t, l, hnew, hrun, h, htimer⟩ := idle_reached 4
  have hleast : IsLeast {d | t.server.IsTimer d} 5000 :=
    ⟨(htimer 5000).mpr rfl, fun d hd => Nat.le_of_eq ((htimer d).mp hd).symm⟩
  have hzero : nextTimerMs t.server 5000 = some 0 := by
    rw [h.nextTimerMs_least hleast (Nat.le_refl 5000)]
    rfl
  obtain ⟨s', hproc, hnot⟩ := h.no_progress (fun d hd => hleast.2 hd)
  refine ⟨s₀, t, s', hnew, hrun, hleast, hzero, hproc, hnot, ?_⟩
  intro hprog
  obtain ⟨s'', hproc', hdone⟩ := hprog 5000 hleast (Nat.le_refl 5000) hzero
  obtain rfl : s' = s'' := Option.some.inj (hproc.symm.trans hproc')
  exact hnot hdone

end ByoRedis
