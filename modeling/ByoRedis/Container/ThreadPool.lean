import ByoRedis.Lib.Run

/-!
# Container — the thread pool

`container/thread_pool.h`. The steps are the sections under `queue_mutex` and
the runs of the tasks; any order of them is an interleaving of the threads. A
step that is not possible answers `none`: a worker whose wait goes on, or that
is busy. Every `enqueue` makes a `packaged_task` of its own, so a task is known
by the number of the call.
-/

namespace ByoRedis

variable {F : Type}

/-- The `packaged_task` of a call; `func` is the function with its arguments. -/
structure Task (F : Type) where
  id : Nat
  func : F
deriving DecidableEq

/-- Where a worker is in its loop. -/
inductive Worker (F : Type) where
  | waiting
  | running (task : Task F)
  | returned
deriving DecidableEq

/-- The task that a worker has popped and not yet run. -/
def Worker.task? : Worker F → Option (Task F)
  | .running task => some task
  | _ => none

/-- `class TheadPool`; `made` counts the calls of `enqueue`. -/
structure TheadPool (F : Type) where
  workers : List (Worker F)
  tasks : List (Task F)
  stop : Bool
  made : Nat
deriving DecidableEq

namespace TheadPool

/-- The number of workers that the constructor starts; the argument is cut to an
`unsigned int`. -/
def numWorkers (hardwareConcurrency numThreads : Nat) : Nat :=
  let coreCount := if hardwareConcurrency = 0 then 2 else hardwareConcurrency
  if numThreads = 0 then coreCount else min coreCount (numThreads % 2 ^ 32)

/-- `TheadPool::TheadPool`, with the number of workers computed. -/
def new (workers : Nat) : TheadPool F where
  workers := List.replicate workers .waiting
  tasks := []
  stop := false
  made := 0

/-- The steps. -/
inductive Act (F : Type) where
  | enqueue (f : F)
  | wake (worker : Nat)
  | run (worker : Nat)
  | stop

/-- What a step has done. -/
inductive Event (F : Type) where
  | accepted (task : Task F)
  | rejected (task : Task F)
  | popped (worker : Nat) (task : Task F)
  | exited (worker : Nat)
  | ran (worker : Nat) (task : Task F)
  | stopped
deriving DecidableEq

/-- The section of `TheadPool::enqueue`. -/
def enqueue (p : TheadPool F) (f : F) : TheadPool F × Event F :=
  let task : Task F := { id := p.made, func := f }
  if p.stop then ({ p with made := p.made + 1 }, .rejected task)
  else ({ p with made := p.made + 1, tasks := p.tasks ++ [task] }, .accepted task)

/-- The section of a worker that waits: to pop a task, or to return. -/
def wake (p : TheadPool F) (w : Nat) : Option (TheadPool F × Event F) :=
  if p.stop || !p.tasks.isEmpty then
    if p.stop && p.tasks.isEmpty then
      some ({ p with workers := p.workers.set w .returned }, .exited w)
    else
      match p.tasks with
      | [] => none
      | task :: rest =>
        some ({ p with tasks := rest, workers := p.workers.set w (.running task) },
          .popped w task)
  else none

/-- One step. -/
def step (p : TheadPool F) : Act F → Option (TheadPool F × Event F)
  | .enqueue f => some (p.enqueue f)
  | .wake w =>
    match p.workers[w]? with
    | some .waiting => p.wake w
    | _ => none
  | .run w =>
    match p.workers[w]? with
    | some (.running task) => some ({ p with workers := p.workers.set w .waiting }, .ran w task)
    | _ => none
  | .stop => some ({ p with stop := true }, .stopped)

/-! ## What a step can do -/

/-- The cases of a step, with what each one needs. -/
inductive Step (p : TheadPool F) : TheadPool F → Event F → Prop
  | accept (f : F) (h : p.stop = false) :
      Step p { p with made := p.made + 1, tasks := p.tasks ++ [{ id := p.made, func := f }] }
        (.accepted { id := p.made, func := f })
  | reject (f : F) (h : p.stop = true) :
      Step p { p with made := p.made + 1 } (.rejected { id := p.made, func := f })
  | pop {w : Nat} {task : Task F} {rest : List (Task F)} (hw : p.workers[w]? = some .waiting)
      (ht : p.tasks = task :: rest) :
      Step p { p with tasks := rest, workers := p.workers.set w (.running task) } (.popped w task)
  | exit {w : Nat} (hw : p.workers[w]? = some .waiting) (hs : p.stop = true) (ht : p.tasks = []) :
      Step p { p with workers := p.workers.set w .returned } (.exited w)
  | run {w : Nat} {task : Task F} (hw : p.workers[w]? = some (.running task)) :
      Step p { p with workers := p.workers.set w .waiting } (.ran w task)
  | stop : Step p { p with stop := true } .stopped

variable {p p' : TheadPool F} {act : Act F} {e : Event F}

theorem step_cases (h : p.step act = some (p', e)) : Step p p' e := by
  cases act with
  | enqueue f =>
    simp only [step, enqueue] at h
    split at h
    · rename_i hs
      cases h
      exact .reject f hs
    · rename_i hs
      cases h
      exact .accept f (by simpa using hs)
  | wake w =>
    simp only [step] at h
    split at h
    · rename_i hw
      simp only [wake] at h
      split at h
      · split at h
        · rename_i hexit
          cases h
          rw [Bool.and_eq_true, List.isEmpty_iff] at hexit
          exact .exit hw hexit.1 hexit.2
        · split at h
          · cases h
          · rename_i ht
            cases h
            exact .pop hw ht
      · cases h
    · cases h
  | run w =>
    simp only [step] at h
    split at h
    · rename_i hw
      cases h
      exact .run hw
    · cases h
  | stop =>
    cases h
    exact .stop

theorem step_wake_inv {w : Nat} (h : p.step (.wake w) = some (p', e)) :
    (∃ task, e = .popped w task) ∨ e = .exited w := by
  simp only [step] at h
  split at h
  · simp only [wake] at h
    split at h
    · split at h
      · cases h
        exact .inr rfl
      · split at h
        · cases h
        · cases h
          exact .inl ⟨_, rfl⟩
    · cases h
  · cases h

theorem step_run_inv {w : Nat} (h : p.step (.run w) = some (p', e)) :
    ∃ task, e = .ran w task := by
  simp only [step] at h
  split at h
  · cases h
    exact ⟨_, rfl⟩
  · cases h

/-! ## What is left to do -/

/-- The tasks that were accepted and not yet run: those that workers have popped, and
those in the queue. -/
def unrun (p : TheadPool F) : List (Task F) := p.workers.filterMap Worker.task? ++ p.tasks

/-- Their functions. -/
def pending (p : TheadPool F) : List F := p.unrun.map Task.func

@[simp] theorem pending_new (n : Nat) : (new n : TheadPool F).pending = [] := by
  simp [pending, unrun, new, Worker.task?]

theorem pending_enqueue (h : p.stop = false) (f : F) :
    p.enqueue f = ({ p with made := p.made + 1, tasks := p.tasks ++ [{ id := p.made, func := f }] },
      .accepted { id := p.made, func := f }) ∧
    (p.enqueue f).1.pending = p.pending ++ [f] := by
  simp [enqueue, h, pending, unrun]

/-- A worker moves on from one place of its loop to another. -/
theorem tasks_set_perm {ws : List (Worker F)} {w : Nat} {x : Worker F} (hw : ws[w]? = some x)
    (y : Worker F) : (x.task?.toList ++ (ws.set w y).filterMap Worker.task?).Perm
      (y.task?.toList ++ ws.filterMap Worker.task?) := by
  have hcons (z : Worker F) (l : List (Worker F)) :
      (z :: l).filterMap Worker.task? = z.task?.toList ++ l.filterMap Worker.task? := by
    cases hz : z.task? with
    | none => simp [hz]
    | some task => simp [hz]
  obtain ⟨hlt, rfl⟩ := List.getElem?_eq_some_iff.mp hw
  have hset := (List.set_perm_cons_eraseIdx hlt y).filterMap Worker.task?
  have hold := (List.getElem_cons_eraseIdx_perm hlt).symm.filterMap Worker.task?
  rw [hcons] at hset hold
  refine (hset.append_left _).trans (List.Perm.trans ?_ (hold.append_left _).symm)
  rw [← List.append_assoc, ← List.append_assoc]
  exact List.perm_append_comm.append_right _

/-- A pop leaves as much to do as before. -/
theorem pending_pop {w : Nat} {task : Task F} (h : Step p p' (.popped w task)) :
    p'.pending.Perm p.pending := by
  cases h with
  | pop hw ht =>
    have hset := tasks_set_perm hw (.running task)
    simp only [Worker.task?, Option.toList_none, Option.toList_some, List.nil_append] at hset
    simp only [pending, unrun, ht]
    refine List.Perm.map _ ((hset.append_right _).trans ?_)
    exact List.perm_middle.symm

/-- A run takes its task off. -/
theorem pending_run {w : Nat} {task : Task F} (h : Step p p' (.ran w task)) :
    (task.func :: p'.pending).Perm p.pending := by
  cases h with
  | run hw =>
    have hset := tasks_set_perm hw .waiting
    simp only [Worker.task?, Option.toList_none, Option.toList_some, List.nil_append] at hset
    exact (hset.append_right p.tasks).map Task.func

/-- Only `stop` stops the pool. -/
theorem Step.stop_eq (h : Step p p' e) (he : e ≠ .stopped) : p'.stop = p.stop := by
  cases h with
  | stop => exact absurd rfl he
  | _ => rfl

/-! ## The history of a run -/

/-- The tasks that were accepted, in order. -/
def accepted (es : List (Event F)) : List (Task F) :=
  es.filterMap fun | .accepted task => some task | _ => none

/-- The tasks that were popped, in order, each with the worker. -/
def popped (es : List (Event F)) : List (Nat × Task F) :=
  es.filterMap fun | .popped w task => some (w, task) | _ => none

/-- The tasks that were run, in order, each with the worker. -/
def ran (es : List (Event F)) : List (Nat × Task F) :=
  es.filterMap fun | .ran w task => some (w, task) | _ => none

@[simp] theorem accepted_concat (es : List (Event F)) (e : Event F) : accepted (es ++ [e]) =
    accepted es ++ (match e with | .accepted task => [task] | _ => []) := by
  cases e <;> simp [accepted]

@[simp] theorem popped_concat (es : List (Event F)) (e : Event F) : popped (es ++ [e]) =
    popped es ++ (match e with | .popped w task => [(w, task)] | _ => []) := by
  cases e <;> simp [popped]

@[simp] theorem ran_concat (es : List (Event F)) (e : Event F) : ran (es ++ [e]) =
    ran es ++ (match e with | .ran w task => [(w, task)] | _ => []) := by
  cases e <;> simp [ran]

theorem accepted_append (es es' : List (Event F)) :
    accepted (es ++ es') = accepted es ++ accepted es' := List.filterMap_append

variable {es : List (Event F)}

/-- The queue is what is accepted and not popped; no task is accepted twice. -/
structure QueueInv (p : TheadPool F) (es : List (Event F)) : Prop where
  fifo : (popped es).map Prod.snd ++ p.tasks = accepted es
  nodup : (accepted es).Nodup
  bound : ∀ t ∈ accepted es, t.id < p.made

/-- What is popped is run, or the worker is about to run it. -/
structure RunsInv (p : TheadPool F) (es : List (Event F)) : Prop where
  ran_popped : ∀ x ∈ ran es, x ∈ popped es
  ran_nodup : (ran es).Nodup
  running : ∀ w t, p.workers[w]? = some (.running t) → (w, t) ∈ popped es ∧ (w, t) ∉ ran es
  popped_ran : ∀ w t, (w, t) ∈ popped es → (w, t) ∈ ran es ∨ p.workers[w]? = some (.running t)

/-- A worker has returned only after the stop and with an empty queue, which
stays empty. -/
structure StopInv (p : TheadPool F) (es : List (Event F)) : Prop where
  stopped : p.stop = true ↔ .stopped ∈ es
  returned : ∀ w, p.workers[w]? = some .returned →
    p.stop = true ∧ p.tasks = [] ∧ .exited w ∈ es

theorem QueueInv.congr {es' : List (Event F)} (h : QueueInv p es) (ht : p'.tasks = p.tasks)
    (hm : p.made ≤ p'.made) (hpop : popped es' = popped es) (hacc : accepted es' = accepted es) :
    QueueInv p' es' := by
  refine ⟨?_, ?_, ?_⟩
  · rw [hpop, hacc, ht]
    exact h.fifo
  · rw [hacc]
    exact h.nodup
  · rw [hacc]
    exact fun t ht => Nat.lt_of_lt_of_le (h.bound t ht) hm

/-- A task with the number of this call was not accepted before. -/
theorem QueueInv.accept (h : QueueInv p es) (f : F) :
    QueueInv { p with made := p.made + 1, tasks := p.tasks ++ [{ id := p.made, func := f }] }
      (es ++ [.accepted { id := p.made, func := f }]) := by
  have hnew : ({ id := p.made, func := f } : Task F) ∉ accepted es := by
    intro hmem
    exact absurd (h.bound _ hmem) (Nat.lt_irrefl _)
  refine ⟨?_, ?_, ?_⟩
  · simp [← h.fifo]
  · simpa [List.nodup_append] using ⟨h.nodup, fun t ht he => hnew (he ▸ ht)⟩
  · intro t ht
    rw [accepted_concat, List.mem_append, List.mem_singleton] at ht
    rcases ht with ht | rfl
    · exact Nat.lt_succ_of_lt (h.bound t ht)
    · exact Nat.lt_succ_self _

theorem QueueInv.step (h : QueueInv p es) (hs : Step p p' e) : QueueInv p' (es ++ [e]) := by
  cases hs with
  | accept f hstop => exact h.accept f
  | reject f hstop => exact h.congr rfl (Nat.le_succ _) (by simp) (by simp)
  | pop hw ht =>
    have hfifo := h.fifo
    exact ⟨by simpa [ht] using hfifo, by simpa using h.nodup, by simpa using h.bound⟩
  | exit hw hstop ht => exact h.congr rfl (Nat.le_refl _) (by simp) (by simp)
  | run hw => exact h.congr rfl (Nat.le_refl _) (by simp) (by simp)
  | stop => exact h.congr rfl (Nat.le_refl _) (by simp) (by simp)

/-- No task is popped twice. -/
theorem QueueInv.popped_nodup (h : QueueInv p es) : ((popped es).map Prod.snd).Nodup := by
  have hnodup := h.nodup
  rw [← h.fifo] at hnodup
  exact hnodup.of_append_left

theorem QueueInv.popped_inj (h : QueueInv p es) {w w' : Nat} {t : Task F}
    (hw : (w, t) ∈ popped es) (hw' : (w', t) ∈ popped es) : w = w' :=
  congrArg Prod.fst (List.inj_on_of_nodup_map h.popped_nodup hw hw' rfl)

/-- The task at the head of the queue has not been popped. -/
theorem QueueInv.head_not_popped (h : QueueInv p es) {task : Task F} {rest : List (Task F)}
    (ht : p.tasks = task :: rest) (w : Nat) : (w, task) ∉ popped es := by
  intro hmem
  have hnodup := h.nodup
  rw [← h.fifo, ht] at hnodup
  exact (List.nodup_append.mp hnodup).2.2 task (List.mem_map.mpr ⟨_, hmem, rfl⟩) task (by simp) rfl

/-- A worker has been set, or is another one. -/
theorem getElem?_set_cases {ws : List (Worker F)} {w w' : Nat} {x y : Worker F}
    (h : (ws.set w x)[w']? = some y) : w' = w ∧ y = x ∨ w' ≠ w ∧ ws[w']? = some y := by
  rw [List.getElem?_set] at h
  split at h
  · rename_i he
    split at h
    · cases h
      exact .inl ⟨he.symm, rfl⟩
    · cases h
  · rename_i he
    exact .inr ⟨fun he' => he he'.symm, h⟩

/-- A worker that is in another place of its loop than `w` is another worker. -/
theorem getElem?_set_other {ws : List (Worker F)} {w w' : Nat} {x y z : Worker F}
    (hw : ws[w]? = some x) (hw' : ws[w']? = some y) (hne : y ≠ x) :
    (ws.set w z)[w']? = some y := by
  have hne' : w ≠ w' := by
    rintro rfl
    rw [hw] at hw'
    exact hne (Option.some.inj hw').symm
  rw [List.getElem?_set_ne hne']
  exact hw'

theorem RunsInv.congr {es' : List (Event F)} (h : RunsInv p es) (hw : p'.workers = p.workers)
    (hpop : popped es' = popped es) (hran : ran es' = ran es) : RunsInv p' es' := by
  refine ⟨?_, ?_, ?_, ?_⟩
  · rw [hpop, hran]
    exact h.ran_popped
  · rw [hran]
    exact h.ran_nodup
  · rw [hw, hpop, hran]
    exact h.running
  · rw [hw, hpop, hran]
    exact h.popped_ran

theorem RunsInv.pop {w : Nat} {task : Task F} {rest : List (Task F)} (h : RunsInv p es)
    (hq : QueueInv p es) (hw : p.workers[w]? = some .waiting) (ht : p.tasks = task :: rest) :
    RunsInv { p with tasks := rest, workers := p.workers.set w (.running task) }
      (es ++ [.popped w task]) := by
  have hlt : w < p.workers.length := (List.getElem?_eq_some_iff.mp hw).1
  refine ⟨?_, by simpa using h.ran_nodup, ?_, ?_⟩
  · intro x hx
    have := h.ran_popped x (by simpa using hx)
    simp [this]
  · intro w' t hrun
    rcases getElem?_set_cases hrun with ⟨rfl, he⟩ | ⟨-, hrun⟩
    · cases he
      have hnot := hq.head_not_popped ht w'
      simpa using fun hmem => hnot (h.ran_popped _ hmem)
    · obtain ⟨hpop, hnot⟩ := h.running w' t hrun
      simp [hpop, hnot]
  · intro w' t hpop
    rw [popped_concat, List.mem_append, List.mem_singleton] at hpop
    rcases hpop with hpop | he
    · rcases h.popped_ran w' t hpop with hran | hrun
      · exact .inl (by simpa using hran)
      · exact .inr (getElem?_set_other hw hrun (by simp))
    · cases he
      exact .inr (by simp [hlt])

theorem RunsInv.exit {w : Nat} (h : RunsInv p es) (hw : p.workers[w]? = some .waiting) :
    RunsInv { p with workers := p.workers.set w .returned } (es ++ [.exited w]) := by
  refine ⟨by simpa using h.ran_popped, by simpa using h.ran_nodup, ?_, ?_⟩
  · intro w' t hrun
    rcases getElem?_set_cases hrun with ⟨-, he⟩ | ⟨-, hrun⟩
    · cases he
    · simpa using h.running w' t hrun
  · intro w' t hpop
    rcases h.popped_ran w' t (by simpa using hpop) with hran | hrun
    · exact .inl (by simpa using hran)
    · exact .inr (getElem?_set_other hw hrun (by simp))

theorem RunsInv.run {w : Nat} {task : Task F} (h : RunsInv p es)
    (hw : p.workers[w]? = some (.running task)) :
    RunsInv { p with workers := p.workers.set w .waiting } (es ++ [.ran w task]) := by
  obtain ⟨hpop, hnot⟩ := h.running w task hw
  refine ⟨?_, ?_, ?_, ?_⟩
  · intro x hx
    rw [ran_concat, List.mem_append, List.mem_singleton] at hx
    rcases hx with hx | rfl
    · simpa using h.ran_popped x hx
    · simpa using hpop
  · simpa [List.nodup_append] using ⟨h.ran_nodup, fun a b hab ha hb => hnot (ha ▸ hb ▸ hab)⟩
  · intro w' t hrun
    rcases getElem?_set_cases hrun with ⟨-, he⟩ | ⟨hne, hrun⟩
    · cases he
    · obtain ⟨hpop', hnot'⟩ := h.running w' t hrun
      simp [hpop', hnot', hne]
  · intro w' t hpop'
    rcases h.popped_ran w' t (by simpa using hpop') with hran | hrun
    · exact .inl (by simp [hran])
    · -- the worker that has just run, or one that still has its task
      by_cases he : w' = w
      · subst he
        rw [hw] at hrun
        cases hrun
        exact .inl (by simp)
      · refine .inr ?_
        rw [List.getElem?_set_ne (Ne.symm he)]
        exact hrun

theorem RunsInv.step (h : RunsInv p es) (hq : QueueInv p es) (hs : Step p p' e) :
    RunsInv p' (es ++ [e]) := by
  cases hs with
  | accept f hstop => exact h.congr rfl (by simp) (by simp)
  | reject f hstop => exact h.congr rfl (by simp) (by simp)
  | pop hw ht => exact h.pop hq hw ht
  | exit hw hstop ht => exact h.exit hw
  | run hw => exact h.run hw
  | stop => exact h.congr rfl (by simp) (by simp)

theorem StopInv.step (h : StopInv p es) (hs : Step p p' e) : StopInv p' (es ++ [e]) := by
  obtain ⟨hstop, hret⟩ := h
  cases hs with
  | accept f hf =>
    refine ⟨by simpa using hstop, ?_⟩
    intro w hw
    have := (hret w hw).1
    rw [hf] at this
    cases this
  | reject f hf =>
    refine ⟨by simpa using hstop, ?_⟩
    intro w hw
    simpa using hret w hw
  | pop hw ht =>
    refine ⟨by simpa using hstop, ?_⟩
    intro w' hw'
    rcases getElem?_set_cases hw' with ⟨-, he⟩ | ⟨-, hw'⟩
    · cases he
    · -- the queue is empty, but a task was popped
      have := (hret w' hw').2.1
      rw [ht] at this
      cases this
  | exit hw hs ht =>
    refine ⟨by simpa using hstop, ?_⟩
    intro w' hw'
    rcases getElem?_set_cases hw' with ⟨rfl, -⟩ | ⟨-, hw'⟩
    · exact ⟨hs, ht, by simp⟩
    · simpa using ⟨(hret w' hw').1, (hret w' hw').2.1, .inl (hret w' hw').2.2⟩
  | run hw =>
    refine ⟨by simpa using hstop, ?_⟩
    intro w' hw'
    rcases getElem?_set_cases hw' with ⟨-, he⟩ | ⟨-, hw'⟩
    · cases he
    · simpa using hret w' hw'
  | stop =>
    refine ⟨by simp, ?_⟩
    intro w hw
    simpa using (hret w hw).2

/-! ## Every interleaving -/

/-- What holds of a pool of `n` workers and its history. -/
structure Inv (n : Nat) (p : TheadPool F) (es : List (Event F)) : Prop where
  queue : QueueInv p es
  runs : RunsInv p es
  stops : StopInv p es
  workers : p.workers.length = n

theorem new_inv (n : Nat) : Inv n (new n : TheadPool F) [] := by
  have hwait (w : Nat) (x : Worker F) (h : (List.replicate n Worker.waiting)[w]? = some x) :
      x = .waiting := List.eq_of_mem_replicate (List.mem_of_getElem? h)
  refine ⟨⟨rfl, List.nodup_nil, by simp [accepted]⟩, ⟨by simp [ran], List.nodup_nil, ?_, ?_⟩,
    ⟨by simp [new], ?_⟩, List.length_replicate⟩
  · intro w t h
    cases hwait w _ h
  · intro w t h
    cases h
  · intro w h
    cases hwait w _ h

theorem Inv.step {n : Nat} (h : Inv n p es) (hs : Step p p' e) : Inv n p' (es ++ [e]) := by
  refine ⟨h.queue.step hs, h.runs.step h.queue hs, h.stops.step hs, ?_⟩
  have hlen := h.workers
  cases hs with
  | pop | exit | run => simpa using hlen
  | accept | reject | stop => exact hlen

theorem run_inv {n : Nat} {acts : List (Act F)} (h : Run.run step (new n) acts = some (p, es)) :
    Inv n p es := by
  have hstep : ∀ (p : TheadPool F) es act p' e, Inv n p es → p.step act = some (p', e) →
      Inv n p' (es ++ [e]) := fun p es act p' e hi hs => hi.step (step_cases hs)
  exact Run.run_history hstep (new_inv n) h

/-- With an empty queue and no worker that is busy, what was accepted was run. -/
theorem Inv.ran_perm {n : Nat} (h : Inv n p es) (ht : p.tasks = [])
    (hidle : ∀ (w : Nat) (t : Task F), p.workers[w]? ≠ some (.running t)) :
    ((ran es).map Prod.snd).Perm (accepted es) := by
  have hfifo := h.queue.fifo
  rw [ht, List.append_nil] at hfifo
  have hmem : ∀ y, y ∈ ran es ↔ y ∈ popped es := by
    rintro ⟨w, t⟩
    constructor
    · exact h.runs.ran_popped (w, t)
    · intro hpop
      rcases h.runs.popped_ran w t hpop with hran | hrun
      · exact hran
      · exact absurd hrun (hidle w t)
  have hperm : (ran es).Perm (popped es) :=
    (List.perm_ext_iff_of_nodup h.runs.ran_nodup h.queue.popped_nodup.of_map).mpr hmem
  rw [← hfifo]
  exact hperm.map Prod.snd

/-- Once every worker has returned, what was accepted was run. -/
theorem Inv.drained {n : Nat} (h : Inv n p es) (hn : 0 < n)
    (hret : ∀ x ∈ p.workers, x = .returned) : ((ran es).map Prod.snd).Perm (accepted es) := by
  obtain ⟨x, hx⟩ : ∃ x, p.workers[0]? = some x :=
    ⟨_, List.getElem?_eq_getElem (h.workers.symm ▸ hn)⟩
  obtain rfl := hret x (List.mem_of_getElem? hx)
  exact h.ran_perm (h.stops.returned 0 hx).2.1 fun w t hrun => by
    cases hret _ (List.mem_of_getElem? hrun)

/-- What is left to do was accepted and not yet run. -/
theorem Inv.mem_unrun {n : Nat} (h : Inv n p es) {t : Task F} :
    t ∈ p.unrun ↔ t ∈ accepted es ∧ ¬ ∃ w, (w, t) ∈ ran es := by
  rw [unrun, List.mem_append, List.mem_filterMap, ← h.queue.fifo, List.mem_append]
  constructor
  · rintro (⟨x, hx, hxt⟩ | hq)
    · cases x with
      | running t' =>
        cases hxt
        obtain ⟨w, hw⟩ := List.mem_iff_getElem?.mp hx
        obtain ⟨hpop, hnot⟩ := h.runs.running w t hw
        refine ⟨.inl (List.mem_map.mpr ⟨_, hpop, rfl⟩), ?_⟩
        rintro ⟨w', hran⟩
        rw [h.queue.popped_inj (h.runs.ran_popped _ hran) hpop] at hran
        exact hnot hran
      | _ => cases hxt
    · refine ⟨.inr hq, ?_⟩
      rintro ⟨w, hran⟩
      have hnodup := h.queue.nodup
      rw [← h.queue.fifo] at hnodup
      exact (List.nodup_append.mp hnodup).2.2 t
        (List.mem_map.mpr ⟨_, h.runs.ran_popped _ hran, rfl⟩) t hq rfl
  · rintro ⟨hpop | hq, hno⟩
    · obtain ⟨⟨w, t'⟩, hmem, rfl⟩ := List.mem_map.mp hpop
      rcases h.runs.popped_ran w t' hmem with hran | hrun
      · exact absurd ⟨w, hran⟩ hno
      · exact .inl ⟨_, List.mem_of_getElem? hrun, rfl⟩
    · exact .inr hq

theorem Inv.pending_subset {n : Nat} (h : Inv n p es) {f : F} (hf : f ∈ p.pending) :
    f ∈ (accepted es).map Task.func :=
  List.map_subset _ (fun _ ht => (h.mem_unrun.mp ht).1) hf

/-- The same for functions, where none was given twice. -/
theorem Inv.mem_pending {n : Nat} (h : Inv n p es) (hfuncs : ((accepted es).map Task.func).Nodup)
    {t : Task F} (ht : t ∈ accepted es) : t.func ∈ p.pending ↔ ¬ ∃ w, (w, t) ∈ ran es := by
  constructor
  · intro hmem
    obtain ⟨t', ht', hfunc⟩ := List.mem_map.mp hmem
    obtain ⟨hacc, hno⟩ := h.mem_unrun.mp ht'
    rwa [List.inj_on_of_nodup_map hfuncs hacc ht hfunc] at hno
  · intro hno
    exact List.mem_map_of_mem (h.mem_unrun.mpr ⟨ht, hno⟩)

/-- What the pool promises in a state with the history `es`. -/
structure Safe (p : TheadPool F) (es : List (Event F)) : Prop where
  /-- Popped in the order of the queue; what is not popped is in the queue. -/
  fifo : (popped es).map Prod.snd ++ p.tasks = accepted es
  /-- No two calls make the same task. -/
  distinct : (accepted es).Nodup
  /-- No task is run twice. -/
  once : ((ran es).map Prod.snd).Nodup
  /-- Only an accepted task is run, by the one worker that popped it. -/
  one_worker : ∀ w t, (w, t) ∈ ran es → t ∈ accepted es ∧ ∀ w', (w', t) ∈ popped es ↔ w' = w
  /-- After the stop a call is rejected; the queue and the workers are as before. -/
  closed : .stopped ∈ es → ∀ f, p.step (.enqueue f) =
    some ({ p with made := p.made + 1 }, .rejected { id := p.made, func := f })
  /-- A worker leaves its loop only with the stop set and the queue empty, -/
  leaves : ∀ act p' w, p.step act = some (p', .exited w) → p.stop = true ∧ p.tasks = []
  /-- and it has returned only if it has left it. -/
  returned : ∀ w, p.workers[w]? = some .returned → .exited w ∈ es
  /-- When all workers have returned, the tasks that were run are those that were
  accepted, each once. -/
  drained : (∀ x ∈ p.workers, x = .returned) → ((ran es).map Prod.snd).Perm (accepted es)

theorem Inv.safe {n : Nat} (hi : Inv n p es) (hn : 0 < n) : Safe p es := by
  refine ⟨hi.queue.fifo, hi.queue.nodup, ?_, ?_, ?_, ?_, fun w hw => (hi.stops.returned w hw).2.2,
    hi.drained hn⟩
  · refine hi.runs.ran_nodup.map_on fun x hx y hy hxy => ?_
    exact List.inj_on_of_nodup_map hi.queue.popped_nodup (hi.runs.ran_popped x hx)
      (hi.runs.ran_popped y hy) hxy
  · intro w t hran
    have hpop := hi.runs.ran_popped _ hran
    refine ⟨?_, fun w' => ⟨fun hw' => hi.queue.popped_inj hw' hpop, fun he => he ▸ hpop⟩⟩
    rw [← hi.queue.fifo]
    exact List.mem_append_left _ (List.mem_map.mpr ⟨_, hpop, rfl⟩)
  · intro hstop f
    have hs := hi.stops.stopped.mpr hstop
    simp [TheadPool.step, enqueue, hs]
  · intro act p' w hs
    cases step_cases hs with
    | exit hw hstop ht => exact ⟨hstop, ht⟩

/-- **No task is lost or run twice**, for any number of workers but 0 and any
interleaving of the steps. -/
theorem thread_pool_safe (n : Nat) (hn : 0 < n) (acts : List (Act F)) (p : TheadPool F)
    (es : List (Event F)) (h : Run.run step (new n) acts = some (p, es)) : Safe p es :=
  (run_inv h).safe hn

/-- Two workers, two tasks, and a call after the stop. -/
theorem thread_pool_safe_two : ∃ es,
    Run.run step (new 2 : TheadPool Nat) [.enqueue 7, .enqueue 8, .wake 1, .wake 0, .stop, .run 0,
      .enqueue 9, .wake 0, .run 1, .wake 1] =
        some ({ workers := [.returned, .returned], tasks := [], stop := true, made := 3 }, es) ∧
    Safe { workers := [.returned, .returned], tasks := [], stop := true, made := 3 } es ∧
    ran es = [(0, { id := 1, func := 8 }), (1, { id := 0, func := 7 })] := by
  have hrun : Run.run step (new 2 : TheadPool Nat) [.enqueue 7, .enqueue 8, .wake 1, .wake 0, .stop,
      .run 0, .enqueue 9, .wake 0, .run 1, .wake 1] =
        some ({ workers := [.returned, .returned], tasks := [], stop := true, made := 3 },
          [.accepted ⟨0, 7⟩, .accepted ⟨1, 8⟩, .popped 1 ⟨0, 7⟩, .popped 0 ⟨1, 8⟩, .stopped,
            .ran 0 ⟨1, 8⟩, .rejected ⟨2, 9⟩, .exited 0, .ran 1 ⟨0, 7⟩, .exited 1]) := rfl
  exact ⟨_, hrun, thread_pool_safe 2 (by decide) _ _ _ hrun, rfl⟩

/-! ## The number of workers -/

/-- The constructor starts a worker, unless the argument is a multiple of `2^32`
other than 0. -/
theorem numWorkers_pos {hardwareConcurrency numThreads : Nat}
    (h : numThreads = 0 ∨ numThreads % 2 ^ 32 ≠ 0) :
    0 < numWorkers hardwareConcurrency numThreads := by
  have hcore : 0 < (if hardwareConcurrency = 0 then 2 else hardwareConcurrency) := by
    split
    · omega
    · omega
  unfold numWorkers
  rcases h with rfl | h
  · exact hcore
  · by_cases h0 : numThreads = 0
    · rw [if_pos h0]
      exact hcore
    · rw [if_neg h0]
      exact lt_min hcore (Nat.pos_of_ne_zero h)

end TheadPool

end ByoRedis
