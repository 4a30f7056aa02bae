import ByoRedis.Lib.Run
import ByoRedis.Server.DbSim

/-!
# Server — runs of the keyspace

Requests, expiry steps and steps of the workers of the thread pool, in any order
from the empty keyspace on. Two results: the run is one of the finite map, and the
references between `db`, the heap and the entries hold after every step.
-/

namespace ByoRedis

open Run

/-- What happens to the keyspace: a request executed at a clock value, its
reply appended to a buffer; the TTL part of `process_timers` at a clock
value; a step of a worker of the thread pool. -/
inductive Event where
  | request (now : Nat) (cmd : List Bytes) (out : Buffer)
  | timers (now : Nat)
  | worker (w : Nat)

/-- One event; the output is the buffer behind a request. -/
def Db.step (g : Db) : Event → Option (Db × Buffer)
  | .request now cmd out => doRequest now g cmd out
  | .timers now => (processTtls now g).map (fun g => (g, []))
  | .worker w => (workerStep g w).map (fun g => (g, []))

/-! ## The run is one of the finite map -/

/-- The model: the map, and the last clock value. -/
structure Keyspace where
  store : Store
  clock : Nat

/-- Numbers fit in an `int64_t`. -/
def Reply.Int64 : Reply → Prop
  | .one (.int n) => -2 ^ 63 ≤ n ∧ n < 2 ^ 63
  | _ => True

/-- What an event means. -/
def Keyspace.Spec (k : Keyspace) : Event → Buffer → Keyspace → Prop
  | .request now cmd out, o, k' =>
    k'.clock = now ∧ ∃ r : Reply, o = out ++ r.encode ∧ r.Int64 ∧
      RefCommand (· + ·) now k.store (Command.ofRequest cmd) r k'.store
  | .timers now, o, k' => k'.clock = now ∧ o = [] ∧ Expires 2001 now k.store k'.store
  | .worker _, o, k' => k' = k ∧ o = []

/-- The clock does not go back and stays below `2^63`. -/
def ClockOk (clock : Nat) : List Event → Prop
  | [] => True
  | .request now _ _ :: rest => clock ≤ now ∧ now < 2 ^ 63 ∧ ClockOk now rest
  | .timers now :: rest => clock ≤ now ∧ now < 2 ^ 63 ∧ ClockOk now rest
  | .worker _ :: rest => ClockOk clock rest

/-- The same for one event. -/
def Keyspace.Pre (k : Keyspace) : Event → Prop
  | .request now _ _ => k.clock ≤ now ∧ now < 2 ^ 63
  | .timers now => k.clock ≤ now ∧ now < 2 ^ 63
  | .worker _ => True

/-- The state shows the map, and no deadline is out of reach of an `int64_t`. -/
structure Db.Shows (g : Db) (k : Keyspace) : Prop where
  abs : ∃ S, g.Abs S k.store
  near : ∀ key item d, k.store.lookup key = some item → item.deadline = some d →
    d < k.clock + 2 ^ 63

variable {s s' : Store} {now : Nat} {c : Command} {r : Reply}

theorem str2int_lt {x : Bytes} {t : Int} (h : str2int x = some t) : t.toNat < 2 ^ 63 := by
  unfold str2int at h
  split at h
  · cases h
    have := (CNumber.strtoll_range x).2
    omega
  · cases h

/-- Below `2^63` a deadline does not wrap. -/
theorem RefCommand.of_addU64 (h : RefCommand addU64 now s c r s') (hnow : now < 2 ^ 63) :
    RefCommand (· + ·) now s c r s' := by
  cases c with
  | pexpire key ttl =>
    simp only [RefCommand] at h ⊢
    cases ht : str2int ttl with
    | none =>
      rw [ht] at h
      exact h
    | some t =>
      have hadd : addU64 now t.toNat = now + t.toNat := by
        have := str2int_lt ht
        rw [addU64]
        omega
      rw [ht] at h
      cases hk : s.lookup key with
      | none =>
        rw [hk] at h
        exact h
      | some item =>
        rw [hk] at h
        simp only [hadd] at h
        exact h
  | _ => exact h

/-- A deadline is an old one or lies at most `2^63 - 1` ahead. -/
theorem RefCommand.deadlines (h : RefCommand (· + ·) now s c r s') {key : Bytes} {item : Item}
    {d : Nat} (hl : s'.lookup key = some item) (hd : item.deadline = some d) :
    (∃ key item, s.lookup key = some item ∧ item.deadline = some d) ∨ d < now + 2 ^ 63 := by
  -- a key that is written keeps its deadline or gets none
  have hins : ∀ {k : Bytes} {i : Item}, s' = s.insert k i →
      (i.deadline = none ∨ ∃ i', s.lookup k = some i' ∧ i'.deadline = i.deadline) →
      (∃ key item, s.lookup key = some item ∧ item.deadline = some d) ∨ d < now + 2 ^ 63 := by
    rintro k i rfl hi
    by_cases hk : key = k
    · subst hk
      rw [Finmap.lookup_insert] at hl
      cases hl
      rcases hi with hi | ⟨i', hi', he⟩
      · rw [hi] at hd
        cases hd
      · exact .inl ⟨key, i', hi', he.trans hd⟩
    · rw [Finmap.lookup_insert_of_ne _ hk] at hl
      exact .inl ⟨key, item, hl, hd⟩
  have hsame : s' = s →
      (∃ key item, s.lookup key = some item ∧ item.deadline = some d) ∨ d < now + 2 ^ 63 := by
    rintro rfl
    exact .inl ⟨key, item, hl, hd⟩
  cases c with
  | get => exact hsame h.1
  | pttl => exact hsame h.2
  | keys => exact hsame h.1
  | zscore => exact hsame h.1
  | zquery => exact hsame h.1
  | unknown => exact hsame h.2
  | del k =>
    obtain ⟨-, rfl⟩ := h
    by_cases hk : key = k
    · subst hk
      rw [Finmap.lookup_erase] at hl
      cases hl
    · rw [Finmap.lookup_erase_ne hk] at hl
      exact .inl ⟨key, item, hl, hd⟩
  | set k val =>
    simp only [RefCommand] at h
    split at h
    · exact hins h.2 (.inl rfl)
    · rename_i hk
      exact hins h.2 (.inr ⟨_, hk, rfl⟩)
    · exact hsame h.2
  | zadd k score name =>
    simp only [RefCommand] at h
    split at h
    · exact hsame h.2
    · exact hins h.2 (.inl rfl)
    · rename_i hk
      exact hins h.2 (.inr ⟨_, hk, rfl⟩)
    · exact hsame h.2
  | zrem k name =>
    simp only [RefCommand] at h
    split at h
    · exact hsame h.2
    · rename_i hk
      exact hins h.2 (.inr ⟨_, hk, rfl⟩)
    · exact hsame h.2
  | pexpire k ttl =>
    simp only [RefCommand] at h
    split at h
    · exact hsame h.2
    · exact hsame h.2
    · rename_i t i ht hk
      obtain ⟨-, rfl⟩ := h
      by_cases hkey : key = k
      · subst hkey
        rw [Finmap.lookup_insert] at hl
        cases hl
        by_cases hneg : t < 0
        · simp only [if_pos hneg] at hd
          cases hd
        · simp only [if_neg hneg, Option.some.injEq] at hd
          have := str2int_lt ht
          right
          omega
      · rw [Finmap.lookup_insert_of_ne _ hkey] at hl
        exact .inl ⟨key, item, hl, hd⟩

/-- Every number in a reply fits in an `int64_t`. -/
theorem RefCommand.int64 (h : RefCommand (· + ·) now s c r s')
    (hnear : ∀ key item d, s.lookup key = some item → item.deadline = some d → d < now + 2 ^ 63) :
    r.Int64 := by
  cases c with
  | get key =>
    obtain ⟨-, rfl⟩ := h
    split <;> trivial
  | pttl key =>
    obtain ⟨rfl, -⟩ := h
    cases hk : s.lookup key with
    | none =>
      simp only [Reply.Int64, pttlReply]
      exact ⟨by decide, by decide⟩
    | some item =>
      cases hd : item.deadline with
      | none =>
        simp only [Reply.Int64, pttlReply, hd]
        exact ⟨by decide, by decide⟩
      | some d =>
        have := hnear key item d hk hd
        simp only [Reply.Int64, pttlReply, hd]
        omega
  | keys =>
    obtain ⟨-, l, rfl, -⟩ := h
    trivial
  | zscore key name =>
    obtain ⟨-, rfl⟩ := h
    split
    · trivial
    · split <;> trivial
    · trivial
  | zquery =>
    obtain ⟨-, h⟩ := h
    split at h
    · subst h
      trivial
    · subst h
      trivial
    · obtain ⟨xs, rfl⟩ := h
      trivial
    · subst h
      trivial
  | unknown =>
    obtain ⟨rfl, -⟩ := h
    trivial
  | del key =>
    obtain ⟨rfl, -⟩ := h
    split <;> exact ⟨by decide, by decide⟩
  | set =>
    simp only [RefCommand] at h
    split at h <;> (obtain ⟨rfl, -⟩ := h; trivial)
  | pexpire =>
    simp only [RefCommand] at h
    split at h
    · obtain ⟨rfl, -⟩ := h
      trivial
    · obtain ⟨rfl, -⟩ := h
      exact ⟨by decide, by decide⟩
    · obtain ⟨rfl, -⟩ := h
      exact ⟨by decide, by decide⟩
  | zadd =>
    simp only [RefCommand] at h
    split at h
    · obtain ⟨rfl, -⟩ := h
      trivial
    · obtain ⟨rfl, -⟩ := h
      exact ⟨by decide, by decide⟩
    · obtain ⟨rfl, -⟩ := h
      split <;> exact ⟨by decide, by decide⟩
    · obtain ⟨rfl, -⟩ := h
      trivial
  | zrem =>
    simp only [RefCommand] at h
    split at h
    · obtain ⟨rfl, -⟩ := h
      exact ⟨by decide, by decide⟩
    · obtain ⟨rfl, -⟩ := h
      split <;> exact ⟨by decide, by decide⟩
    · obtain ⟨rfl, -⟩ := h
      trivial

/-- One event. -/
theorem step_simulates (g : Db) (k : Keyspace) (ev : Event) (h : g.Shows k) (hpre : k.Pre ev) :
    ∃ g' o k', g.step ev = some (g', o) ∧ k.Spec ev o k' ∧ g'.Shows k' := by
  obtain ⟨⟨S, habs⟩, hnear⟩ := h
  cases ev with
  | request now cmd out =>
    obtain ⟨hclock, hnow⟩ := hpre
    obtain ⟨g', S', r, s', hrun, href, habs'⟩ := doRequest_answered habs now cmd
    have href' := href.of_addU64 hnow
    have hnear' : ∀ key item d, k.store.lookup key = some item → item.deadline = some d →
        d < now + 2 ^ 63 := by
      intro key item d hl hd
      have := hnear key item d hl hd
      omega
    refine ⟨g', _, ⟨s', now⟩, hrun out, ⟨rfl, r, rfl, href'.int64 hnear', href'⟩, ⟨S', habs'⟩, ?_⟩
    intro key item d hl hd
    rcases href'.deadlines hl hd with ⟨key', item', hl', hd'⟩ | hlt
    · exact hnear' key' item' d hl' hd'
    · exact hlt
  | timers now =>
    obtain ⟨hclock, hnow⟩ := hpre
    obtain ⟨g', S', s', hrun, habs', hexp⟩ := processTtls_spec habs now
    refine ⟨g', [], ⟨s', now⟩, by simp [Db.step, hrun], ⟨rfl, rfl, hexp⟩, ⟨S', habs'⟩, ?_⟩
    intro key item d hl hd
    obtain ⟨D, -, -, hlook, -⟩ := hexp
    rw [hlook key] at hl
    split at hl
    · cases hl
    · have := hnear key item d hl hd
      show d < now + 2 ^ 63
      omega
  | worker w =>
    obtain ⟨g', hrun, habs', -⟩ := workerStep_spec habs w
    exact ⟨g', [], k, by simp [Db.step, hrun], ⟨rfl, rfl⟩, ⟨S, habs'⟩, hnear⟩

theorem admissible_of_clockOk {evs : List Event} :
    ∀ {k : Keyspace}, ClockOk k.clock evs → Admissible Keyspace.Spec Keyspace.Pre k evs := by
  induction evs with
  | nil => exact fun _ => trivial
  | cons ev evs ih =>
    intro k h
    cases ev with
    | request now cmd out =>
      refine ⟨⟨h.1, h.2.1⟩, ?_⟩
      intro o k' hs
      exact ih (by rw [hs.1]; exact h.2.2)
    | timers now =>
      refine ⟨⟨h.1, h.2.1⟩, ?_⟩
      intro o k' hs
      exact ih (by rw [hs.1]; exact h.2.2)
    | worker w =>
      refine ⟨trivial, ?_⟩
      intro o k' hs
      exact ih (by rw [hs.1]; exact h)

/-- **The keyspace refines a finite map.** Every run of requests, expiry
steps and worker steps, under a clock that does not go back and stays below
`2^63`, is in step with a finite map from keys to values with deadlines: every
response is the map's, and after every step the state shows the map. -/
theorem keyspace_refines_store (cores : Nat) (evs : List Event) (hclock : ClockOk 0 evs) :
    ∃ g₀ outs g k, Db.new cores = some g₀ ∧
      Lockstep Db.step Keyspace.Spec Db.Shows g₀ ⟨∅, 0⟩ evs outs g k := by
  obtain ⟨g₀, hnew, habs, -⟩ := Db.new_abs cores
  have h₀ : g₀.Shows ⟨∅, 0⟩ := ⟨⟨∅, habs⟩, by simp⟩
  obtain ⟨g, outs, k, hl⟩ :=
    lockstep_of_simulates step_simulates h₀ (admissible_of_clockOk hclock)
  exact ⟨g₀, outs, g, k, hnew, hl⟩

/-- If no other key has a TTL, a key that is due expires. -/
theorem Expires.only_key {limit now d : Nat} {s s' : Store} {key : Bytes} {v : Val}
    (h : Expires limit now s s') (hlimit : 0 < limit) (hkey : s.lookup key = some ⟨v, some d⟩)
    (hdue : d < now) (honly : ∀ key' ∈ s, key' = key) : s'.lookup key = none := by
  obtain ⟨D, hsub, hcard, hlook, -⟩ := h
  rw [Store.due_only hkey hdue honly] at hsub hcard
  have hD : D = {key} := by
    refine Finset.eq_of_subset_of_card_le hsub ?_
    rw [hcard, Finset.card_singleton]
    omega
  rw [hlook, hD, if_pos (Finset.mem_singleton_self key)]

/-- A key is set at 5, gets a TTL of 10 at 7, and expires at 18: what is answered, and
that nothing is left at the key. -/
theorem keyspace_refines_store_expiry :
    ∃ g₀ g k, Db.new 4 = some g₀ ∧
      Lockstep Db.step Keyspace.Spec Db.Shows g₀ ⟨∅, 0⟩
        [.request 5 [lit "set", lit "k", lit "v"] [], .request 7 [lit "pexpire", lit "k", lit "10"] [],
          .timers 18, .request 18 [lit "pttl", lit "k"] []]
        [(Reply.one .nil).encode, (Reply.one (.int 1)).encode, [], (Reply.one (.int (-2))).encode] g k ∧
      k.store.lookup (lit "k") = none := by
  obtain ⟨g₀, outs, g, k, hnew, hl⟩ := keyspace_refines_store 4
    [.request 5 [lit "set", lit "k", lit "v"] [], .request 7 [lit "pexpire", lit "k", lit "10"] [],
      .timers 18, .request 18 [lit "pttl", lit "k"] []] (by simp [ClockOk])
  have hset : Command.ofRequest [lit "set", lit "k", lit "v"] = .set (lit "k") (lit "v") := by decide
  have hexpire : Command.ofRequest [lit "pexpire", lit "k", lit "10"] =
      .pexpire (lit "k") (lit "10") := by decide
  have hpttl : Command.ofRequest [lit "pttl", lit "k"] = .pttl (lit "k") := by decide
  have hten : str2int (lit "10") = some 10 := by decide +kernel
  have hacc := hl.accepts
  rcases hacc with _ | @⟨_, ⟨st₁, _⟩, _, _, _, _, _, h₁, hacc⟩
  rcases hacc with _ | @⟨_, ⟨st₂, _⟩, _, _, _, _, _, h₂, hacc⟩
  rcases hacc with _ | @⟨_, ⟨st₃, _⟩, _, _, _, _, _, h₃, hacc⟩
  rcases hacc with _ | @⟨_, ⟨st₄, _⟩, _, _, _, _, _, h₄, hacc⟩
  rcases hacc with _ | _
  obtain ⟨-, r₁, rfl, -, hr₁⟩ := h₁
  obtain ⟨-, r₂, rfl, -, hr₂⟩ := h₂
  obtain ⟨-, rfl, hexp⟩ := h₃
  obtain ⟨-, r₄, rfl, -, hr₄⟩ := h₄
  -- what the map does
  simp only [hset, RefCommand, Finmap.lookup_empty] at hr₁
  obtain ⟨rfl, rfl⟩ : r₁ = .one .nil ∧ st₁ = _ := hr₁
  simp only [hexpire, RefCommand, hten, Finmap.lookup_insert] at hr₂
  obtain ⟨rfl, rfl⟩ : r₂ = .one (.int 1) ∧ st₂ = _ := hr₂
  have hgone : st₃.lookup (lit "k") = none :=
    hexp.only_key (by decide) (Finmap.lookup_insert _) (by decide)
      (by simp [Finmap.notMem_empty])
  rw [hpttl] at hr₄
  obtain ⟨rfl, rfl⟩ : r₄ = .one (.int (pttlReply 18 (st₃.lookup (lit "k")))) ∧ st₄ = st₃ := hr₄
  rw [hgone] at hl
  exact ⟨g₀, g, _, hnew, hl, hgone⟩

/-! ## The references -/

/-- The entries linked in `db`. -/
def Db.linked (g : Db) : List Ptr := g.db.nodes.map HashNode.ptr

/-- The references between `db`, the heap and the entries, spelled out. -/
structure Db.CrossRefs (g : Db) : Prop where
  /-- every heap item knows its position, and its owner is one linked entry -/
  item : ∀ i < g.heapSize, g.heap.refs (g.heap.h i).refPos = some i ∧
    g.linked.count (g.heap.h i).refPos = 1
  /-- every linked entry has no TTL or points to its own heap item -/
  entry : ∀ p ∈ g.linked, g.heap.refs p = none ∨
    ∃ i < g.heapSize, g.heap.refs p = some i ∧ (g.heap.h i).refPos = p
  /-- heap items and linked entries with a TTL are in bijection -/
  bijection : Set.BijOn (fun i => (g.heap.h i).refPos) {i | i < g.heapSize}
    {p | p ∈ g.linked ∧ g.heap.refs p ≠ none}
  /-- a min-heap -/
  minHeap : ∀ i, 0 < i → i < g.heapSize → (g.heap.h ((i - 1) / 2)).val ≤ (g.heap.h i).val
  /-- a linked entry is allocated -/
  allocated : ∀ p ∈ g.linked, g.live p = true
  /-- an entry is handed over for destruction only once -/
  once : g.handed.Nodup
  /-- and then it is referenced by neither `db` nor the heap -/
  gone : ∀ p ∈ g.handed, p ∉ g.linked ∧ ∀ i < g.heapSize, (g.heap.h i).refPos ≠ p

theorem Db.Inv.crossRefs {g : Db} {S : Finset Ptr} (h : g.Inv S) : g.CrossRefs := by
  have hmem : ∀ p, p ∈ g.linked ↔ p ∈ S := by
    intro p
    rw [← h.index.content, List.mem_toFinset]
    rfl
  refine ⟨?_, ?_, ⟨?_, ?_, ?_⟩, ?_, ?_, h.handedNodup, ?_⟩
  · intro i hi
    refine ⟨h.timers.positioned i hi, ?_⟩
    exact List.count_eq_one_of_mem h.index.nodup ((hmem _).mpr (h.timers.owned i hi))
  · intro p hp
    cases href : g.heap.refs p with
    | none => exact .inl rfl
    | some i =>
      obtain ⟨hi, hip⟩ := h.timers.indexed p ((hmem p).mp hp) i href
      exact .inr ⟨i, hi, rfl, hip⟩
  · intro i hi
    refine ⟨(hmem _).mpr (h.timers.owned i hi), ?_⟩
    rw [h.timers.positioned i hi]
    exact Option.some_ne_none i
  · intro i hi j hj hij
    exact h.timers.distinct i hi j hj hij
  · rintro p ⟨hp, hne⟩
    obtain ⟨i, hi⟩ := Option.ne_none_iff_exists'.mp hne
    obtain ⟨hlt, hip⟩ := h.timers.indexed p ((hmem p).mp hp) i hi
    exact ⟨i, hlt, hip⟩
  · intro i hi0 hi
    have := h.timers.ordered i hi0 hi
    simpa [greater] using this
  · intro p hp
    exact (h.live p).mpr (.inl ((hmem p).mp hp))
  · intro p hp
    refine ⟨fun hl => h.unlinked p hp ((hmem p).mp hl), ?_⟩
    intro i hi he
    exact h.unlinked p hp (he ▸ h.timers.owned i hi)

/-- Every event is answered in a state that shows a map, whatever the clock. -/
theorem step_total (g : Db) (ev : Event) (h : ∃ s S, g.Abs S s) :
    ∃ g' o, g.step ev = some (g', o) ∧ ∃ s S, g'.Abs S s := by
  obtain ⟨s, S, habs⟩ := h
  cases ev with
  | request now cmd out =>
    obtain ⟨g', S', r, s', hrun, -, habs'⟩ := doRequest_answered habs now cmd
    exact ⟨g', _, hrun out, s', S', habs'⟩
  | timers now =>
    obtain ⟨g', S', s', hrun, habs', -⟩ := processTtls_spec habs now
    exact ⟨g', [], by simp [Db.step, hrun], s', S', habs'⟩
  | worker w =>
    obtain ⟨g', hrun, habs', -⟩ := workerStep_spec habs w
    exact ⟨g', [], by simp [Db.step, hrun], s, S, habs'⟩

/-- A state of the keyspace that requests, expiry steps and worker steps lead to. -/
def Db.Reachable (g : Db) : Prop :=
  ∃ cores g₀ evs outs, Db.new cores = some g₀ ∧ run Db.step g₀ evs = some (g, outs)

theorem Db.Reachable.abs {g : Db} (h : g.Reachable) : ∃ s S, g.Abs S s := by
  obtain ⟨cores, g₀, evs, outs, hnew, hrun⟩ := h
  obtain ⟨g₁, hnew', habs, -⟩ := Db.new_abs cores
  obtain rfl : g₀ = g₁ := Option.some.inj (hnew.symm.trans hnew')
  obtain ⟨g', outs', hrun', hg'⟩ := run_total step_total evs ⟨∅, ∅, habs⟩
  cases hrun.symm.trans hrun'
  exact hg'

theorem Db.new_reachable {g : Db} {cores : Nat} (h : Db.new cores = some g) : g.Reachable :=
  ⟨cores, g, [], [], h, rfl⟩

theorem Db.Reachable.step {g g' : Db} {ev : Event} {o : Buffer} (h : g.Reachable)
    (hs : g.step ev = some (g', o)) : g'.Reachable := by
  obtain ⟨cores, g₀, evs, outs, hnew, hrun⟩ := h
  exact ⟨cores, g₀, evs ++ [ev], outs ++ [o], hnew, run_concat hrun hs⟩

/-- **`db` and the heap refer to each other.** Every run of requests, expiry
steps and worker steps from the empty keyspace goes through (no index is out
of range, no assertion fails, nothing is destroyed twice), and ends in a state
in which the references are in order. -/
theorem cross_references (cores : Nat) (evs : List Event) :
    ∃ g₀ g outs, Db.new cores = some g₀ ∧ run Db.step g₀ evs = some (g, outs) ∧ g.CrossRefs := by
  obtain ⟨g₀, hnew, habs, -⟩ := Db.new_abs cores
  obtain ⟨g, outs, hrun, s, S, h⟩ := run_total step_total evs ⟨∅, ∅, habs⟩
  exact ⟨g₀, g, outs, hnew, hrun, h.inv.crossRefs⟩

end ByoRedis
