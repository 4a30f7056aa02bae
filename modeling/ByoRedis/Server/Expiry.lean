import ByoRedis.Server.Locality

/-!
# Server — a backlog of expired keys

`process_timers` deletes no more than about 2000 keys at a time, so that the
event loop is not held up. While no requests come, a backlog shrinks by that
much in every round until it is gone, the keys that are overdue for the longest
time first; and no other key is lost.
-/

namespace ByoRedis

open Run

variable {cores now limit time : Nat} {st st' : Store} {gen gen' : Ptr → Bytes} {as : List Action}

/-- Expired keys are no longer due. -/
theorem Expires.due_subset (h : Expires limit now st st') (time : Nat) :
    st'.due time ⊆ st.due time := by
  obtain ⟨D, -, -, hlook, -⟩ := h
  intro key hkey
  obtain ⟨v, d, hv, hd⟩ := Store.mem_due.mp hkey
  rw [hlook key] at hv
  split at hv
  · cases hv
  · exact Store.mem_due.mpr ⟨v, d, hv, hd⟩

/-- **One expiry step** takes `limit` keys from the backlog, or all of it. -/
theorem Expires.drains (h : Expires limit now st st') (hnow : time ≤ now) :
    (st'.due time).card = (st.due time).card - limit := by
  have hsub := h.due_subset time
  obtain ⟨D, hD, hcard, hlook, hfirst⟩ := h
  -- what is not deleted is left
  have hkept : st.due time \ D ⊆ st'.due time := by
    intro key hkey
    obtain ⟨hkey, hleft⟩ := Finset.mem_sdiff.mp hkey
    obtain ⟨v, d, hv, hd⟩ := Store.mem_due.mp hkey
    exact Store.mem_due.mpr ⟨v, d, by rw [hlook key, if_neg hleft, hv], hd⟩
  by_cases hnone : st'.due time = ∅
  · have hall : st.due time ⊆ D := by
      rw [← Finset.sdiff_eq_empty_iff_subset, ← Finset.subset_empty, ← hnone]
      exact hkept
    have hle := Finset.card_le_card hall
    rw [hnone, Finset.card_empty]
    omega
  · -- a key of the backlog is left, so the limit was reached with keys that were due before it
    obtain ⟨key', hkey'⟩ := Finset.nonempty_iff_ne_empty.mpr hnone
    obtain ⟨v', d', hv', hd'⟩ := Store.mem_due.mp hkey'
    have hleft : key' ∉ D := by
      intro hmem
      rw [hlook key', if_pos hmem] at hv'
      cases hv'
    have hlt : D.card < (st.due now).card := by
      refine Finset.card_lt_card ((Finset.ssubset_iff_of_subset hD).mpr ⟨key', ?_, hleft⟩)
      obtain ⟨v, d, hv, hd⟩ := Store.mem_due.mp (hsub hkey')
      exact Store.mem_due.mpr ⟨v, d, hv, by omega⟩
    have hlimit : D.card = limit := by omega
    have hDdue : D ⊆ st.due time := by
      intro key hkey
      obtain ⟨v, d, hv, -⟩ := Store.mem_due.mp (hD hkey)
      have hle := hfirst key hkey _ d hv rfl key' _ d' hv' rfl
      exact Store.mem_due.mpr ⟨v, d, hv, by omega⟩
    have hrest : st'.due time ⊆ st.due time \ D := by
      intro key hkey
      refine Finset.mem_sdiff.mpr ⟨hsub hkey, fun hmem => ?_⟩
      obtain ⟨v, d, hv, -⟩ := Store.mem_due.mp hkey
      rw [hlook key, if_pos hmem] at hv
      cases hv
    calc (st'.due time).card = (st.due time \ D).card := by rw [hrest.antisymm hkept]
      _ = (st.due time).card - D.card := Finset.card_sdiff_of_subset hDdue
      _ = (st.due time).card - limit := by rw [hlimit]

/-- Whether an action is an expiry step. -/
def Action.isTimers : Action → Bool
  | .timers _ => true
  | _ => false

/-- No request is among the actions. -/
def Quiet (as : List Action) : Prop := ∀ r, Action.request r ∉ as

theorem Serves.drains (h : Serves st gen as st' gen') (hquiet : Quiet as)
    (htime : ∀ now, Action.timers now ∈ as → time ≤ now) :
    (st'.due time).card = (st.due time).card - 2001 * as.countP Action.isTimers := by
  induction h with
  | nil => rfl
  | request => exact absurd List.mem_cons_self (hquiet _)
  | timers he _ ih =>
    have hstep := he.drains (htime _ List.mem_cons_self)
    have hrest := ih (fun r hmem => hquiet r (List.mem_cons_of_mem _ hmem))
      (fun now hmem => htime now (List.mem_cons_of_mem _ hmem))
    rw [List.countP_cons_of_pos rfl]
    omega
  | worker _ ih =>
    have hrest := ih (fun r hmem => hquiet r (List.mem_cons_of_mem _ hmem))
      (fun now hmem => htime now (List.mem_cons_of_mem _ hmem))
    rwa [List.countP_cons_of_neg (by decide)]

/-- **A backlog is worked off.** In every run of the server, over a stretch without
requests whose expiry steps are at `time` or later: the number of keys that were
due at `time` goes down by 2001 with every step until none is left, and a key that
is due at no step keeps its value. -/
theorem backlog_drains (evs : List LoopEvent) (s₀ s : Server) (L : Log)
    (hnew : Server.new cores = some s₀)
    (hrun : Guarded Logged.step Logged.Allowed ⟨s₀, {}⟩ evs ⟨s, L⟩) (as₁ as₂ : List Action)
    (time : Nat) (hactions : L.actions = as₁ ++ as₂) (hquiet : Quiet as₂)
    (htime : ∀ now, Action.timers now ∈ as₂ → time ≤ now) :
    ∃ (S : Finset Ptr) (st₁ st : Store) (gen₁ : Ptr → Bytes),
      Serves ∅ (fun _ => []) as₁ st₁ gen₁ ∧ s.db.Abs S st ∧
      (st.due time).card = (st₁.due time).card - 2001 * as₂.countP Action.isTimers ∧
      ∀ key, Outlives (st₁.lookup key) as₂ → st.lookup key = st₁.lookup key := by
  obtain ⟨l, st, gen, -, h⟩ := hrun.invariant logged_step_right (Logged.start_right hnew)
  obtain ⟨S, habs⟩ := h.accounts.abs
  have hserves := h.accounts.serves
  rw [hactions] at hserves
  obtain ⟨st₁, gen₁, h₁, h₂⟩ := hserves.append_inv
  exact ⟨S, st₁, st, gen₁, h₁, habs, h₂.drains hquiet htime,
    fun key hlives => h₂.frame (fun r hmem => absurd hmem (hquiet r)) hlives⟩

/-! ## A late round -/

/-- A round in which nothing comes. -/
def lateRound (now : Nat) : Round := { pollNow := now, timersNow := now }

theorem Log.lateRound_eq (L : Log) {s : Server} (now : Nat) {args : List PollFd}
    (hargs : s.pollArgs = some args) :
    L.round s (lateRound now) = { L with actions := L.actions ++ [.timers now] } := by
  simp only [Log.round, hargs, lateRound, onListening, Log.handleConns_none,
    Bool.false_eq_true, if_false]

theorem lateRound_promised (s : Server) (now : Nat) : (lateRound now).Promised s :=
  ⟨fun _ _ _ _ _ hrd => (by cases hrd), fun _ _ hacc => (by cases hacc)⟩

/-- A key that is set to expire at 1 is overdue at 2. -/
def setExpireReady : Ready where
  pollIn := true
  now := 0
  read := .got (message [lit "set", lit "k", lit "v"] ++
    message [lit "pexpire", lit "k", lit "1"])

theorem requests_setExpire :
    (requests (message [lit "set", lit "k", lit "v"] ++
      message [lit "pexpire", lit "k", lit "1"])).items =
        [[lit "set", lit "k", lit "v"], [lit "pexpire", lit "k", lit "1"]] := by
  rw [requests_message (by decide) (by decide), requests_single (by decide) (by decide)]

/-- The map that these requests lead to. -/
theorem Serves.setExpire {p : Ptr}
    (h : Serves ∅ (fun _ => []) [.timers 0, .request ⟨p, 0, [lit "set", lit "k", lit "v"]⟩,
      .request ⟨p, 0, [lit "pexpire", lit "k", lit "1"]⟩, .timers 0] st gen) :
    st.due 2 = {lit "k"} := by
  have hone : str2int (lit "1") = some 1 := by decide +kernel
  cases h with | timers he h =>
  obtain rfl := he.eq_of_due_empty (Store.due_zero ∅)
  cases h with | request hset h =>
  obtain ⟨-, rfl⟩ : _ ∧ _ = (∅ : Store).insert (lit "k") ⟨.str (lit "v"), none⟩ := hset
  cases h with | request hexpire h =>
  have hcmd : Command.ofRequest [lit "pexpire", lit "k", lit "1"] = .pexpire (lit "k") (lit "1") := by
    decide
  simp only [hcmd, RefCommand, hone, Finmap.lookup_insert] at hexpire
  obtain ⟨-, rfl⟩ := hexpire
  cases h with | timers he h =>
  obtain rfl := he.eq_of_due_empty (Store.due_zero _)
  cases h
  exact Store.due_only (Finmap.lookup_insert _) (by decide) (by simp [Finmap.notMem_empty])

/-- The only key is overdue, and the round after 2 ms deletes it. -/
theorem backlog_drains_late : ∃ s₀ s L as₁, Server.new 4 = some s₀ ∧
    Guarded Logged.step Logged.Allowed ⟨s₀, {}⟩
      [.round acceptRound, .round (readyRound setExpireReady), .round (lateRound 2)] ⟨s, L⟩ ∧
    L.actions = as₁ ++ [.timers 2] ∧
    ∃ (S : Finset Ptr) (st₁ st : Store) (gen₁ : Ptr → Bytes),
      Serves ∅ (fun _ => []) as₁ st₁ gen₁ ∧ s.db.Abs S st ∧ st₁.due 2 = {lit "k"} ∧
      st.due 2 = ∅ := by
  obtain ⟨s₀, s, L, p, -, -, hnew, hrun, -, hfront, -⟩ :=
    logged_two_rounds 4 setExpireReady rfl rfl rfl
  rw [requests_setExpire] at hfront
  have hright := hrun.invariant logged_step_right (Logged.start_right hnew)
  have hok : Logged.Allowed ⟨s, L⟩ (.round (lateRound 2)) := lateRound_promised s 2
  obtain ⟨⟨s', L'⟩, hstep, -⟩ := logged_step_right ⟨s, L⟩ (.round (lateRound 2)) hright hok
  have hall := hrun.concat hok hstep
  obtain ⟨args, hargs⟩ : ∃ args, s.pollArgs = some args := by
    obtain ⟨l, -, -, hi, -⟩ := hright
    obtain ⟨args, hargs, -⟩ := pollArgs_spec hi
    exact ⟨args, hargs⟩
  have hactions : L'.actions = L.actions ++ [.timers 2] := by
    simp only [Logged.step, Option.map_eq_some_iff, Log.event, Log.lateRound_eq L 2 hargs] at hstep
    obtain ⟨_, -, he⟩ := hstep
    cases he
    rfl
  obtain ⟨S, st₁, st, gen₁, h₁, habs, hdrains, -⟩ :=
    backlog_drains _ s₀ s' L' hnew hall L.actions [.timers 2] 2 hactions
      (fun r hr => by simp at hr) (fun now hnow => by simp at hnow; omega)
  have hdue : st₁.due 2 = {lit "k"} := by
    rw [hfront] at h₁
    exact h₁.setExpire
  rw [hdue] at hdrains
  exact ⟨s₀, s', L', L.actions, hnew, hall, hactions, S, st₁, st, gen₁, h₁, habs, hdue,
    Finset.card_eq_zero.mp hdrains⟩

end ByoRedis
