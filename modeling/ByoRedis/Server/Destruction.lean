import ByoRedis.Server.Keyspace

/-!
# Server — what the thread pool is left with

`entry_del` hands an entry with a large set over to the thread pool, and destroys
every other one at once. Here: what the server does with the pool is a run of the
pool. So the workers take the entries in the order in which they were handed over,
and each entry is destroyed once, by the worker that took it; which of two workers
is done first is open.
-/

namespace ByoRedis

open Run

variable {g g₁ g' : Db} {now : Nat} {ent : Ptr} {out out' : Buffer}

/-- The pool makes steps, with the events `es`; entries are handed over, and of these
the pool gets some, in this order. -/
structure Db.Disposes (es : List (TheadPool.Event Ptr)) (g g' : Db) : Prop where
  pool : ∃ acts, run TheadPool.step g.pool acts = some (g'.pool, es)
  handed : ∃ handed, g'.handed = g.handed ++ handed ∧
    ((TheadPool.accepted es).map Task.func).Sublist handed

/-- The same, whatever the events. -/
def Db.Queues (g g' : Db) : Prop := ∃ es, Db.Disposes es g g'

theorem Db.Disposes.same (hpool : g'.pool = g.pool) (hhanded : g'.handed = g.handed) :
    Db.Disposes [] g g' :=
  ⟨⟨[], by rw [run, hpool]⟩, [], by rw [hhanded, List.append_nil], .slnil⟩

theorem Db.Disposes.trans {es es' : List (TheadPool.Event Ptr)} (h : Db.Disposes es g g₁)
    (h' : Db.Disposes es' g₁ g') : Db.Disposes (es ++ es') g g' := by
  obtain ⟨⟨acts, hrun⟩, handed, hhanded, hsub⟩ := h
  obtain ⟨⟨acts', hrun'⟩, handed', hhanded', hsub'⟩ := h'
  refine ⟨⟨acts ++ acts', run_append hrun hrun'⟩, handed ++ handed', ?_, ?_⟩
  · rw [hhanded', hhanded, List.append_assoc]
  · rw [TheadPool.accepted_append, List.map_append]
    exact hsub.append hsub'

theorem Db.Queues.same (hpool : g'.pool = g.pool) (hhanded : g'.handed = g.handed) :
    Db.Queues g g' := ⟨[], .same hpool hhanded⟩

theorem Db.Queues.refl (g : Db) : Db.Queues g g := .same rfl rfl

theorem Db.Queues.trans (h : Db.Queues g g₁) (h' : Db.Queues g₁ g') : Db.Queues g g' := by
  obtain ⟨es, h⟩ := h
  obtain ⟨es', h'⟩ := h'
  exact ⟨es ++ es', h.trans h'⟩

/-! ## Entries -/

theorem entrySetTtl_queues {ttlMs : Int} (h : entrySetTtl now g ent ttlMs = some g') :
    Db.Queues g g' := by
  unfold entrySetTtl at h
  split at h
  · split at h
    · cases h
      exact .refl g
    · simp only [Option.bind_eq_bind, Option.bind_eq_some_iff] at h
      obtain ⟨g₁, hremove, h⟩ := h
      cases h
      unfold heapRemove at hremove
      split at hremove
      · cases hremove
      · cases hremove
        exact .same rfl rfl
  · cases h
    unfold heapUpsert
    split
    · exact .same rfl rfl
    · split
      · exact .same rfl rfl
      · exact .same rfl rfl

/-- `entry_del_sync` leaves the queue as it is. -/
theorem entryDelSync_disposes (h : entryDelSync g ent = some g') :
    g'.pool = g.pool ∧ g'.handed = g.handed := by
  unfold entryDelSync at h
  split at h
  · simp only [Option.bind_eq_bind] at h
    split at h
    · obtain ⟨_, -, h⟩ := Option.bind_eq_some_iff.mp h
      cases h
      exact ⟨rfl, rfl⟩
    · cases h
      exact ⟨rfl, rfl⟩
  · cases h

/-- An entry is handed over, to the pool or not. -/
theorem entryDel_queues (h : entryDel g ent = some g') : Db.Queues g g' := by
  rw [entryDel, Option.bind_eq_bind, Option.bind_eq_some_iff] at h
  obtain ⟨g₁, httl, h⟩ := h
  refine (entrySetTtl_queues httl).trans ?_
  simp only at h
  generalize (if (g₁.entry ent).type = .zset then _ else 0) = setSize at h
  split at h
  · split at h
    · rename_i pool task hqueue
      cases h
      have htask : task = { id := g₁.pool.made, func := ent } := by
        simp only [TheadPool.enqueue] at hqueue
        split at hqueue
        · cases hqueue
        · cases hqueue
          rfl
      subst htask
      exact ⟨_, ⟨[.enqueue ent], run_cons_some (congrArg some hqueue) rfl⟩, [ent], rfl, .refl _⟩
    · cases h
  · obtain ⟨hpool, hhanded⟩ := entryDelSync_disposes h
    exact ⟨[], ⟨[], by rw [run, hpool]⟩, [ent], hhanded, List.nil_sublist _⟩

theorem workerStep_queues {w : Nat} (h : workerStep g w = some g') : Db.Queues g g' := by
  unfold workerStep at h
  split at h
  · rename_i pool e hwake
    cases h
    refine ⟨[e], ⟨[.wake w], run_cons_some hwake rfl⟩, [], by simp, ?_⟩
    rcases TheadPool.step_wake_inv hwake with ⟨task, rfl⟩ | rfl <;> exact .slnil
  · split at h
    · rename_i pool _ task hrun
      obtain ⟨hpool, hhanded⟩ := entryDelSync_disposes h
      exact ⟨[.ran _ task], ⟨[.run w], run_cons_some (hrun.trans (by rw [hpool])) rfl⟩, [],
        by simp [hhanded], .slnil⟩
    · cases h
      exact .refl g

/-! ## Commands -/

theorem dbLookup_queues {key : Bytes} {r : Option Ptr} (h : dbLookup g key = some (g', r)) :
    Db.Queues g g' := by
  rw [dbLookup, Option.bind_eq_bind, Option.bind_eq_some_iff] at h
  obtain ⟨_, -, h⟩ := h
  cases h
  exact .same rfl rfl

theorem dbInsertNew_queues {type : EntryType} {key str : Bytes}
    (h : dbInsertNew g type key str = some (g', ent)) : Db.Queues g g' := by
  simp only [dbInsertNew, entryNew, Option.bind_eq_bind, Option.bind_eq_some_iff] at h
  obtain ⟨⟨g₁, p⟩, ⟨_, -, hnew⟩, _, -, h⟩ := h
  cases hnew
  cases h
  exact .same rfl rfl

theorem doGet_queues {key : Bytes} (h : doGet g key out = some (g', out')) : Db.Queues g g' := by
  rw [doGet, Option.bind_eq_bind, Option.bind_eq_some_iff] at h
  obtain ⟨⟨g₁, r⟩, hl, h⟩ := h
  have hq := dbLookup_queues hl
  cases r with
  | none =>
    cases h
    exact hq
  | some ent =>
    simp only at h
    split at h <;> cases h <;> exact hq

theorem doSet_queues {key val : Bytes} (h : doSet g key val out = some (g', out')) :
    Db.Queues g g' := by
  rw [doSet, Option.bind_eq_bind, Option.bind_eq_some_iff] at h
  obtain ⟨⟨g₁, r⟩, hl, h⟩ := h
  have hq := dbLookup_queues hl
  cases r with
  | none =>
    simp only [Option.bind_eq_bind, Option.bind_eq_some_iff] at h
    obtain ⟨⟨g₂, ent⟩, hnew, h⟩ := h
    cases h
    exact hq.trans (dbInsertNew_queues hnew)
  | some ent =>
    simp only at h
    split at h
    · cases h
      exact hq
    · cases h
      exact hq.trans (.same rfl rfl)

theorem doDel_queues {key : Bytes} (h : doDel g key out = some (g', out')) : Db.Queues g g' := by
  rw [doDel, Option.bind_eq_bind, Option.bind_eq_some_iff] at h
  obtain ⟨⟨db, r⟩, -, h⟩ := h
  have hq : Db.Queues g { g with db := db } := .same rfl rfl
  cases r with
  | none =>
    cases h
    exact hq
  | some node =>
    simp only [Option.bind_eq_bind, Option.bind_eq_some_iff] at h
    obtain ⟨g₁, hdel, h⟩ := h
    cases h
    exact hq.trans (entryDel_queues hdel)

theorem doExpire_queues {key ttl : Bytes} (h : doExpire now g key ttl out = some (g', out')) :
    Db.Queues g g' := by
  unfold doExpire at h
  split at h
  · cases h
    exact .refl g
  · rw [Option.bind_eq_bind, Option.bind_eq_some_iff] at h
    obtain ⟨⟨g₁, r⟩, hl, h⟩ := h
    have hq := dbLookup_queues hl
    cases r with
    | none =>
      cases h
      exact hq
    | some ent =>
      simp only [Option.bind_eq_bind, Option.bind_eq_some_iff] at h
      obtain ⟨g₂, httl, h⟩ := h
      cases h
      exact hq.trans (entrySetTtl_queues httl)

theorem doTtl_queues {key : Bytes} (h : doTtl now g key out = some (g', out')) :
    Db.Queues g g' := by
  rw [doTtl, Option.bind_eq_bind, Option.bind_eq_some_iff] at h
  obtain ⟨⟨g₁, r⟩, hl, h⟩ := h
  have hq := dbLookup_queues hl
  cases r with
  | none =>
    cases h
    exact hq
  | some ent =>
    simp only at h
    split at h
    · cases h
      exact hq
    · split at h
      · cases h
      · cases h
        exact hq

theorem expectZset_queues {key : Bytes} {ref : ZsetRef} (h : expectZset g key = some (g', ref)) :
    Db.Queues g g' := by
  rw [expectZset, Option.bind_eq_bind, Option.bind_eq_some_iff] at h
  obtain ⟨⟨g₁, r⟩, hl, h⟩ := h
  have hq := dbLookup_queues hl
  cases r <;> cases h <;> exact hq

theorem zsetStore_queues (g : Db) (z : ZSet) (ref : ZsetRef) :
    Db.Queues g (zsetStore g z ref) := by
  cases ref <;> exact .same rfl rfl

theorem doZadd_queues {key score name : Bytes} (h : doZadd g key score name out = some (g', out')) :
    Db.Queues g g' := by
  unfold doZadd at h
  split at h
  · cases h
    exact .refl g
  · rw [Option.bind_eq_bind, Option.bind_eq_some_iff] at h
    obtain ⟨⟨g₁, r⟩, hl, h⟩ := h
    refine (dbLookup_queues hl).trans ?_
    cases r with
    | none =>
      simp only [Option.bind_eq_bind, Option.bind_eq_some_iff] at h
      obtain ⟨⟨g₂, ent⟩, hnew, h⟩ := h
      refine (dbInsertNew_queues hnew).trans ?_
      split at h
      · cases h
        exact .refl g₂
      · obtain ⟨_, -, h⟩ := Option.bind_eq_some_iff.mp h
        cases h
        exact .same rfl rfl
    | some ent =>
      simp only [Option.bind_eq_bind, Option.bind_some] at h
      split at h
      · cases h
        exact .refl _
      · obtain ⟨_, -, h⟩ := Option.bind_eq_some_iff.mp h
        cases h
        exact .same rfl rfl

theorem doZrem_queues {key name : Bytes} (h : doZrem g key name out = some (g', out')) :
    Db.Queues g g' := by
  rw [doZrem, Option.bind_eq_bind, Option.bind_eq_some_iff] at h
  obtain ⟨⟨g₁, ref⟩, hl, h⟩ := h
  have hq := expectZset_queues hl
  simp only at h
  split at h
  · cases h
    exact hq
  · simp only [Option.bind_eq_bind, Option.bind_eq_some_iff] at h
    obtain ⟨_, -, ⟨zset, r⟩, -, h⟩ := h
    cases r with
    | none =>
      cases h
      exact hq.trans (zsetStore_queues _ _ _)
    | some znode =>
      obtain ⟨_, -, h⟩ := Option.bind_eq_some_iff.mp h
      cases h
      exact hq.trans (zsetStore_queues _ _ _)

theorem doZscore_queues {key name : Bytes} (h : doZscore g key name out = some (g', out')) :
    Db.Queues g g' := by
  rw [doZscore, Option.bind_eq_bind, Option.bind_eq_some_iff] at h
  obtain ⟨⟨g₁, ref⟩, hl, h⟩ := h
  have hq := expectZset_queues hl
  simp only at h
  split at h
  · cases h
    exact hq
  · simp only [Option.bind_eq_bind, Option.bind_eq_some_iff] at h
    obtain ⟨_, -, ⟨zset, r⟩, -, h⟩ := h
    cases r <;> cases h <;> exact hq.trans (zsetStore_queues _ _ _)

theorem doZquery_queues {key score name offset limit : Bytes}
    (h : doZquery g key score name offset limit out = some (g', out')) : Db.Queues g g' := by
  unfold doZquery at h
  split at h
  · cases h
    exact .refl g
  · split at h
    · rw [Option.bind_eq_bind, Option.bind_eq_some_iff] at h
      obtain ⟨⟨g₁, ref⟩, hl, h⟩ := h
      have hq := expectZset_queues hl
      simp only at h
      split at h
      · cases h
        exact hq
      · split at h
        · cases h
          exact hq
        · simp only [Option.bind_eq_bind, Option.bind_eq_some_iff] at h
          obtain ⟨_, -, _, -, _, -, _, -, _, -, h⟩ := h
          cases h
          exact hq
    · cases h
      exact .refl g

theorem doRequest_queues {cmd : List Bytes} (h : doRequest now g cmd out = some (g', out')) :
    Db.Queues g g' := by
  have hunknown : some (g, writeErr out .unknown "unknown command.") = some (g', out') →
      Db.Queues g g' := by
    intro h
    cases h
    exact .refl g
  unfold doRequest at h
  split at h
  · split at h
    · cases h
      exact .refl g
    · exact hunknown h
  · split_ifs at h
    · exact doGet_queues h
    · exact doDel_queues h
    · exact doTtl_queues h
    · exact hunknown h
  · split_ifs at h
    · exact doSet_queues h
    · exact doExpire_queues h
    · exact doZrem_queues h
    · exact doZscore_queues h
    · exact hunknown h
  · split_ifs at h
    · exact doZadd_queues h
    · exact hunknown h
  · split_ifs at h
    · exact doZquery_queues h
    · exact hunknown h
  · exact hunknown h

/-! ## Runs -/

theorem expireLoop_queues {nworks : Nat} (h : expireLoop now nworks g = some g') :
    Db.Queues g g' := by
  fun_induction expireLoop now nworks g with
  | case1 | case2 | case3 | case4 => cases h
  | case5 nworks g _ _ db node _ _ g₁ hdel _ =>
    cases h
    have hremove : Db.Queues g { g with db := db } := .same rfl rfl
    exact hremove.trans (entryDel_queues hdel)
  | case6 nworks g _ _ db node _ _ g₁ hdel _ ih =>
    have hremove : Db.Queues g { g with db := db } := .same rfl rfl
    exact (hremove.trans (entryDel_queues hdel)).trans (ih h)
  | case7 =>
    cases h
    exact .refl _

theorem step_queues {ev : Event} (h : g.step ev = some (g', out)) : Db.Queues g g' := by
  cases ev with
  | request now cmd out => exact doRequest_queues h
  | timers now =>
    obtain ⟨g₁, hrun, he⟩ := Option.map_eq_some_iff.mp h
    cases he
    exact expireLoop_queues hrun
  | worker w =>
    obtain ⟨g₁, hrun, he⟩ := Option.map_eq_some_iff.mp h
    cases he
    exact workerStep_queues hrun

theorem run_queues {evs : List Event} {outs : List Buffer}
    (h : run Db.step g evs = some (g', outs)) : Db.Queues g g' := by
  induction evs generalizing g outs with
  | nil =>
    cases h
    exact .refl _
  | cons ev evs ih =>
    obtain ⟨g₁, o, os, hstep, hrest, -⟩ := run_cons_inv h
    exact (step_queues hstep).trans (ih hrest)

/-- What has become of the entries that were handed over, by the history of the
pool. -/
structure Db.Disposed (g : Db) (es : List (TheadPool.Event Ptr)) : Prop where
  /-- the workers pop in the order of the queue, and run what they have popped, once -/
  pool : g.pool.Safe es
  /-- the pool gets entries in the order in which they are handed over -/
  order : ((TheadPool.accepted es).map Task.func).Sublist g.handed
  /-- and none twice -/
  once : g.handed.Nodup
  /-- one that it gets is destroyed if a worker has run its task -/
  ran : ∀ task ∈ TheadPool.accepted es,
    (g.live task.func = false ↔ ∃ w, (w, task) ∈ TheadPool.ran es)
  /-- every other one is destroyed at once -/
  atOnce : ∀ ent ∈ g.handed, ent ∉ (TheadPool.accepted es).map Task.func → g.live ent = false
  /-- what is allocated is linked, in the queue, or in the hands of a worker -/
  allocated : ∀ ent, g.live ent = true ↔ (ent ∈ g.linked ∨ ent ∈ g.pool.pending)

theorem Db.Abs.disposed {S : Finset Ptr} {st : Store} {n : Nat} {es : List (TheadPool.Event Ptr)}
    (h : g.Abs S st) (hpool : TheadPool.Inv n g.pool es) (hn : 0 < n)
    (horder : ((TheadPool.accepted es).map Task.func).Sublist g.handed) : g.Disposed es := by
  have hgone : ∀ ent ∈ g.handed, (g.live ent = false ↔ ent ∉ g.pool.pending) := by
    intro ent hent
    rw [← Bool.not_eq_true, h.inv.live, not_or]
    exact ⟨fun hboth => hboth.2, fun hno => ⟨h.inv.unlinked ent hent, hno⟩⟩
  refine ⟨hpool.safe hn, horder, h.inv.handedNodup, ?_, ?_, ?_⟩
  · intro task htask
    rw [hgone task.func (horder.subset (List.mem_map_of_mem htask)), hpool.mem_pending
      (horder.nodup h.inv.handedNodup) htask, not_not]
  · intro ent hent hno
    rw [hgone ent hent]
    exact fun hmem => hno (hpool.pending_subset hmem)
  · intro ent
    rw [h.inv.live, ← h.inv.index.content, List.mem_toFinset]
    rfl

/-- **Entries are taken in order, and destroyed once.** In any run of requests,
expiry steps and steps of any workers, what happens to the thread pool is a run of the
thread pool. At each time the entries that it got are handed over ones, in this order;
the workers have popped a front part of them, in order; exactly those are destroyed
whose tasks were run, each once and by the worker that popped it; and what is
allocated is linked, in the queue, or popped and not yet run. -/
theorem destructions_in_order (cores : Nat) (evs₁ evs₂ : List Event) :
    ∃ g₀ g g' outs₁ outs₂ acts₁ acts₂ es₁ es₂, Db.new cores = some g₀ ∧
      run Db.step g₀ evs₁ = some (g, outs₁) ∧ run Db.step g evs₂ = some (g', outs₂) ∧
      run TheadPool.step (TheadPool.new (TheadPool.numWorkers cores 0)) acts₁ = some (g.pool, es₁) ∧
      run TheadPool.step g.pool acts₂ = some (g'.pool, es₂) ∧
      g.Disposed es₁ ∧ g'.Disposed (es₁ ++ es₂) := by
  obtain ⟨g₀, hnew, habs, hpool, hnone⟩ := Db.new_abs cores
  obtain ⟨g, outs₁, hrun₁, st, S, h⟩ := run_total step_total evs₁ ⟨∅, ∅, habs⟩
  obtain ⟨g', outs₂, hrun₂, st', S', h'⟩ := run_total step_total evs₂ ⟨st, S, h⟩
  obtain ⟨es₁, hes₁⟩ := run_queues hrun₁
  obtain ⟨es₂, hes₂⟩ := run_queues hrun₂
  obtain ⟨⟨acts, hall⟩, handed, hhanded, hsub⟩ := hes₁.trans hes₂
  obtain ⟨⟨acts₁, hacts₁⟩, handed₁, hhanded₁, hsub₁⟩ := hes₁
  obtain ⟨⟨acts₂, hacts₂⟩, -⟩ := hes₂
  rw [hpool] at hacts₁ hall
  rw [hnone, List.nil_append] at hhanded hhanded₁
  have hn : 0 < TheadPool.numWorkers cores 0 := TheadPool.numWorkers_pos (.inl rfl)
  exact ⟨g₀, g, g', outs₁, outs₂, acts₁, acts₂, es₁, es₂, hnew, hrun₁, hrun₂, hacts₁, hacts₂,
    h.disposed (TheadPool.run_inv hacts₁) hn (hhanded₁ ▸ hsub₁),
    h'.disposed (TheadPool.run_inv hall) hn (hhanded ▸ hsub)⟩

end ByoRedis
