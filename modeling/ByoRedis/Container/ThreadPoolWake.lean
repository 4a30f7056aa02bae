import ByoRedis.Container.ThreadPool

/-!
# Container — the thread pool and its condition variable

The same `container/thread_pool.h`, with `queue_condition.wait` taken apart: a
worker tests the predicate under the lock and falls asleep, or is woken by
`notify_one`, by `notify_all` or for no reason, and tests it again. A call that
has left its section has not notified yet. No wakeup is lost; so once nothing
moves, nothing is left to do, and the joins of the destructor end.
-/

namespace ByoRedis

variable {F : Type}

/-- Where a worker is in its loop. -/
inductive Thread (F : Type) where
  /-- about to lock `queue_mutex` and to test the predicate -/
  | locking
  | asleep
  | running (task : Task F)
  | returned
deriving DecidableEq

def Thread.isAsleep : Thread F → Bool
  | .asleep => true
  | _ => false

/-- What `notify_all` does to a worker. -/
def Thread.wakeUp : Thread F → Thread F
  | .asleep => .locking
  | t => t

/-- The worker, without the difference between locking and sleeping. -/
def Thread.worker : Thread F → Worker F
  | .locking | .asleep => .waiting
  | .running task => .running task
  | .returned => .returned

/-- 1 for a worker that sleeps. -/
def Thread.sleeps : Thread F → Nat
  | .asleep => 1
  | _ => 0

/-- 1 for a worker that is about to lock. -/
def Thread.locks : Thread F → Nat
  | .locking => 1
  | _ => 0

/-- The steps that a worker takes by itself until it sleeps. -/
def Thread.work : Thread F → Nat
  | .locking => 1
  | .running _ => 2
  | _ => 0

/-- `class TheadPool` with its condition variable. `notifying` calls of `enqueue`
are between their section and `notify_one`; the destructor is there if
`notifyingAll`. -/
structure CondPool (F : Type) where
  threads : List (Thread F)
  tasks : List (Task F)
  stop : Bool
  made : Nat
  notifying : Nat
  notifyingAll : Bool
deriving DecidableEq

namespace CondPool

open TheadPool (Event accepted ran popped)

/-- `TheadPool::TheadPool`, with the number of workers computed. -/
def new (workers : Nat) : CondPool F where
  threads := List.replicate workers .locking
  tasks := []
  stop := false
  made := 0
  notifying := 0
  notifyingAll := false

/-- The steps; `notifyOne` names the worker that is woken. -/
inductive Act (F : Type) where
  | enqueue (f : F)
  | notifyOne (worker : Option Nat)
  | spurious (worker : Nat)
  | lock (worker : Nat)
  | run (worker : Nat)
  | stop
  | notifyAll

/-- The section of `TheadPool::enqueue`. -/
def enqueue (p : CondPool F) (f : F) : CondPool F × Event F :=
  let task : Task F := { id := p.made, func := f }
  if p.stop then ({ p with made := p.made + 1 }, .rejected task) -- throws
  else
    ({ p with made := p.made + 1, tasks := p.tasks ++ [task], notifying := p.notifying + 1 },
      .accepted task)

/-- `notify_one`: one of the workers that are asleep, if there is any. -/
def notifyOne (p : CondPool F) (w : Option Nat) : Option (CondPool F) :=
  if p.notifying = 0 then none
  else
    match w with
    | some w =>
      match p.threads[w]? with
      | some .asleep =>
        some { p with notifying := p.notifying - 1, threads := p.threads.set w .locking }
      | _ => none
    | none =>
      if p.threads.any Thread.isAsleep then none
      else some { p with notifying := p.notifying - 1 }

/-- A worker with the lock: the test of the predicate, and what comes of it. -/
def lock (p : CondPool F) (w : Nat) : CondPool F × Option (Event F) :=
  if p.stop || !p.tasks.isEmpty then
    if p.stop && p.tasks.isEmpty then
      ({ p with threads := p.threads.set w .returned }, some (.exited w))
    else
      match p.tasks with
      | [] => (p, none)
      | task :: rest =>
        ({ p with tasks := rest, threads := p.threads.set w (.running task) },
          some (.popped w task))
  else ({ p with threads := p.threads.set w .asleep }, none)

/-- One step. -/
def step (p : CondPool F) : Act F → Option (CondPool F × Option (Event F))
  | .enqueue f => let (p, e) := p.enqueue f; some (p, some e)
  | .notifyOne w => (p.notifyOne w).map (·, none)
  | .spurious w =>
    match p.threads[w]? with
    | some .asleep => some ({ p with threads := p.threads.set w .locking }, none)
    | _ => none
  | .lock w =>
    match p.threads[w]? with
    | some .locking => some (p.lock w)
    | _ => none
  | .run w =>
    match p.threads[w]? with
    | some (.running task) =>
      some ({ p with threads := p.threads.set w .locking }, some (.ran w task))
    | _ => none
  | .stop =>
    if p.stop then none else some ({ p with stop := true, notifyingAll := true }, some .stopped)
  | .notifyAll =>
    if p.notifyingAll then
      some ({ p with notifyingAll := false, threads := p.threads.map Thread.wakeUp }, none)
    else none

/-! ## What a step can do -/

/-- The cases of a step, with what each one needs. -/
inductive Step (p : CondPool F) : CondPool F → Act F → Option (Event F) → Prop
  | accept (f : F) (h : p.stop = false) :
      Step p { p with
          made := p.made + 1, tasks := p.tasks ++ [{ id := p.made, func := f }],
          notifying := p.notifying + 1 }
        (.enqueue f) (some (.accepted { id := p.made, func := f }))
  | reject (f : F) (h : p.stop = true) :
      Step p { p with made := p.made + 1 } (.enqueue f)
        (some (.rejected { id := p.made, func := f }))
  | notify {w : Nat} (hn : p.notifying ≠ 0) (hw : p.threads[w]? = some .asleep) :
      Step p { p with notifying := p.notifying - 1, threads := p.threads.set w .locking }
        (.notifyOne (some w)) none
  | notifyNone (hn : p.notifying ≠ 0) (h : p.threads.any Thread.isAsleep = false) :
      Step p { p with notifying := p.notifying - 1 } (.notifyOne none) none
  | spurious {w : Nat} (hw : p.threads[w]? = some .asleep) :
      Step p { p with threads := p.threads.set w .locking } (.spurious w) none
  | pop {w : Nat} {task : Task F} {rest : List (Task F)} (hw : p.threads[w]? = some .locking)
      (ht : p.tasks = task :: rest) :
      Step p { p with tasks := rest, threads := p.threads.set w (.running task) } (.lock w)
        (some (.popped w task))
  | exit {w : Nat} (hw : p.threads[w]? = some .locking) (hs : p.stop = true) (ht : p.tasks = []) :
      Step p { p with threads := p.threads.set w .returned } (.lock w) (some (.exited w))
  | sleep {w : Nat} (hw : p.threads[w]? = some .locking) (hs : p.stop = false) (ht : p.tasks = []) :
      Step p { p with threads := p.threads.set w .asleep } (.lock w) none
  | run {w : Nat} {task : Task F} (hw : p.threads[w]? = some (.running task)) :
      Step p { p with threads := p.threads.set w .locking } (.run w) (some (.ran w task))
  | stop (h : p.stop = false) :
      Step p { p with stop := true, notifyingAll := true } .stop (some .stopped)
  | notifyAll (h : p.notifyingAll = true) :
      Step p { p with notifyingAll := false, threads := p.threads.map Thread.wakeUp } .notifyAll none

variable {p p' : CondPool F} {act : Act F} {e : Option (Event F)}

theorem step_cases (h : p.step act = some (p', e)) : Step p p' act e := by
  cases act with
  | enqueue f =>
    simp only [step, enqueue] at h
    split at h
    · next hs =>
      cases h
      exact .reject f hs
    · next hs =>
      cases h
      exact .accept f (by simpa using hs)
  | notifyOne w =>
    simp only [step, Option.map_eq_some_iff, notifyOne] at h
    obtain ⟨q, h, he⟩ := h
    cases he
    split at h
    · cases h
    · next hn =>
      cases w with
      | none =>
        simp only at h
        split at h
        · cases h
        · next hw =>
          cases h
          exact .notifyNone hn (by simpa using hw)
      | some w =>
        simp only at h
        split at h
        · next hw =>
          cases h
          exact .notify hn hw
        · cases h
  | spurious w =>
    simp only [step] at h
    split at h
    · next hw =>
      cases h
      exact .spurious hw
    · cases h
  | lock w =>
    simp only [step] at h
    split at h
    · next hw =>
      rw [Option.some.injEq] at h
      rcases ht : p.tasks with _ | ⟨task, rest⟩
      · cases hs : p.stop with
        | true =>
          have hl : p.lock w = ({ p with threads := p.threads.set w .returned },
              some (.exited w)) := by
            simp [lock, hs, ht]
          cases hl.symm.trans h
          exact .exit hw hs ht
        | false =>
          have hl : p.lock w = ({ p with threads := p.threads.set w .asleep }, none) := by
            simp [lock, hs, ht]
          cases hl.symm.trans h
          exact .sleep hw hs ht
      · have hl : p.lock w = ({ p with tasks := rest, threads := p.threads.set w (.running task) },
            some (.popped w task)) := by
          simp [lock, ht]
        cases hl.symm.trans h
        exact .pop hw ht
    · cases h
  | run w =>
    simp only [step] at h
    split at h
    · next hw =>
      cases h
      exact .run hw
    · cases h
  | stop =>
    simp only [step] at h
    split at h
    · cases h
    · next hs =>
      cases h
      exact .stop (by simpa using hs)
  | notifyAll =>
    simp only [step] at h
    split at h
    · next hn =>
      cases h
      exact .notifyAll hn
    · cases h

/-! ## The sections alone -/

/-- The pool, with the sections and the runs of the tasks only. -/
def sections (p : CondPool F) : TheadPool F where
  workers := p.threads.map Thread.worker
  tasks := p.tasks
  stop := p.stop
  made := p.made

theorem getElem?_worker {w : Nat} {x : Thread F} (hw : p.threads[w]? = some x) :
    p.sections.workers[w]? = some x.worker := by
  rw [sections, List.getElem?_map, hw]
  rfl

/-- A worker that goes from one place to another, which are the same here. -/
theorem worker_set {w : Nat} {x y : Thread F} (hw : p.threads[w]? = some x)
    (h : y.worker = x.worker) :
    (p.threads.set w y).map Thread.worker = p.threads.map Thread.worker := by
  obtain ⟨hlt, hx⟩ := List.getElem?_eq_some_iff.mp hw
  rw [List.map_set, h, ← hx]
  refine List.ext_getElem (by simp) fun i hi _ => ?_
  by_cases hwi : w = i
  · simp [hwi]
  · simp [List.getElem_set_ne hwi]

theorem worker_wakeUp (ts : List (Thread F)) :
    (ts.map Thread.wakeUp).map Thread.worker = ts.map Thread.worker := by
  rw [List.map_map]
  refine List.map_congr_left fun t _ => ?_
  cases t <;> rfl

theorem sections_silent (h : p.step act = some (p', none)) : p'.sections = p.sections := by
  cases step_cases h with
  | notify hn hw => simp [sections, worker_set hw (y := .locking) rfl]
  | notifyNone => rfl
  | spurious hw => simp [sections, worker_set hw (y := .locking) rfl]
  | sleep hw => simp [sections, worker_set hw (y := .asleep) rfl]
  | notifyAll => simp only [sections, worker_wakeUp]

/-- A step that is seen is one of the pool without the condition variable. -/
theorem sections_step {e : Event F} (h : p.step act = some (p', some e)) :
    ∃ act', p.sections.step act' = some (p'.sections, e) := by
  cases step_cases h with
  | accept f hs => exact ⟨.enqueue f, by simp [TheadPool.step, TheadPool.enqueue, sections, hs]⟩
  | reject f hs => exact ⟨.enqueue f, by simp [TheadPool.step, TheadPool.enqueue, sections, hs]⟩
  | @pop w task rest hw ht =>
    refine ⟨.wake w, ?_⟩
    simp only [TheadPool.step, getElem?_worker hw, Thread.worker]
    simp [TheadPool.wake, sections, ht, Thread.worker]
  | @exit w hw hs ht =>
    refine ⟨.wake w, ?_⟩
    simp only [TheadPool.step, getElem?_worker hw, Thread.worker]
    simp [TheadPool.wake, sections, hs, ht, Thread.worker]
  | @run w task hw =>
    refine ⟨.run w, ?_⟩
    simp only [TheadPool.step, getElem?_worker hw, Thread.worker]
    simp [sections, Thread.worker]
  | stop => exact ⟨.stop, rfl⟩

theorem sections_new (n : Nat) : (new n : CondPool F).sections = TheadPool.new n := by
  simp [new, sections, TheadPool.new, Thread.worker]

/-- **The condition variable changes nothing** in what the pool does. -/
theorem run_sections {n : Nat} {acts : List (Act F)} {es : List (Option (Event F))}
    (h : Run.run step (new n) acts = some (p, es)) :
    ∃ acts', Run.run TheadPool.step (TheadPool.new n) acts' =
      some (p.sections, es.reduceOption) := by
  rw [← sections_new]
  exact Run.run_stutters (fun _ _ _ => sections_silent) (fun _ _ _ _ => sections_step) h

/-! ## No wakeup is lost -/

/-- A number of workers, or a sum over them. -/
def total (f : Thread F → Nat) (ts : List (Thread F)) : Nat := (ts.map f).sum

theorem total_set (f : Thread F → Nat) {ts : List (Thread F)} {w : Nat} {x : Thread F}
    (hw : ts[w]? = some x) (y : Thread F) :
    total f (ts.set w y) + f x = total f ts + f y := by
  induction ts generalizing w with
  | nil => cases hw
  | cons t ts ih =>
    cases w with
    | zero =>
      cases hw
      simp only [total, List.set_cons_zero, List.map_cons, List.sum_cons]
      omega
    | succ w =>
      have := ih (w := w) hw
      simp only [total, List.set_cons_succ, List.map_cons, List.sum_cons] at this ⊢
      omega

/-- The totals after a step of one worker. -/
theorem totals_set {ts : List (Thread F)} {w : Nat} {x : Thread F} (hw : ts[w]? = some x)
    (y : Thread F) :
    total Thread.sleeps (ts.set w y) + x.sleeps = total Thread.sleeps ts + y.sleeps ∧
      total Thread.locks (ts.set w y) + x.locks = total Thread.locks ts + y.locks ∧
      total Thread.work (ts.set w y) + x.work = total Thread.work ts + y.work :=
  ⟨total_set _ hw y, total_set _ hw y, total_set _ hw y⟩

theorem total_pos {f : Thread F → Nat} {ts : List (Thread F)} {w : Nat} {x : Thread F}
    (hw : ts[w]? = some x) (hx : 0 < f x) : 0 < total f ts :=
  Nat.lt_of_lt_of_le hx
    (List.single_le_sum (by simp) _ (List.mem_map.mpr ⟨x, List.mem_of_getElem? hw, rfl⟩))

theorem total_new (f : Thread F → Nat) (n : Nat) :
    total f (new n : CondPool F).threads = n * f .locking := by
  simp [total, new]

/-- After `notify_all`. -/
theorem total_wakeUp (ts : List (Thread F)) :
    total Thread.sleeps (ts.map Thread.wakeUp) = 0 ∧
      total Thread.locks (ts.map Thread.wakeUp) =
        total Thread.locks ts + total Thread.sleeps ts ∧
      total Thread.work (ts.map Thread.wakeUp) = total Thread.work ts + total Thread.sleeps ts := by
  induction ts with
  | nil => exact ⟨rfl, rfl, rfl⟩
  | cons t ts ih =>
    obtain ⟨h₁, h₂, h₃⟩ := ih
    simp only [total, List.map_cons, List.sum_cons] at h₁ h₂ h₃ ⊢
    cases t <;> simp only [Thread.wakeUp, Thread.sleeps, Thread.locks, Thread.work] <;> omega

theorem sleeps_le_length (ts : List (Thread F)) : total Thread.sleeps ts ≤ ts.length := by
  induction ts with
  | nil => exact Nat.le_refl 0
  | cons t ts ih =>
    simp only [total, List.map_cons, List.sum_cons, List.length_cons] at ih ⊢
    cases t <;> simp only [Thread.sleeps] <;> omega

theorem sleeps_eq_zero {ts : List (Thread F)} (h : ts.any Thread.isAsleep = false) :
    total Thread.sleeps ts = 0 := by
  induction ts with
  | nil => rfl
  | cons t ts ih =>
    rw [List.any_cons, Bool.or_eq_false_iff] at h
    have := ih h.2
    simp only [total, List.map_cons, List.sum_cons] at this ⊢
    rw [this]
    cases t with
    | asleep => cases h.1
    | locking => rfl
    | running => rfl
    | returned => rfl

/-- What is kept by every step. -/
structure Watch (n : Nat) (p : CondPool F) : Prop where
  length : p.threads.length = n
  /-- tasks that nobody looks after are not left while a worker sleeps -/
  covered : 0 < total Thread.sleeps p.threads →
    p.tasks.length ≤ p.notifying + total Thread.locks p.threads
  notified : p.stop = true → p.notifyingAll = false → total Thread.sleeps p.threads = 0

/-- What is left to do, in steps of the workers and of `queue_condition`. -/
def left (n : Nat) (p : CondPool F) : Nat :=
  2 * p.notifying + 2 * p.tasks.length + total Thread.work p.threads +
    if p.notifyingAll then n + 1 else 0

/-- One for a step of a worker, or of `notify_one` or `notify_all`. -/
def Act.moves : Act F → Nat
  | .enqueue _ | .spurious _ | .stop => 0
  | _ => 1

/-- What the other steps bring to do. -/
def Act.brings (n : Nat) : Act F → Nat
  | .enqueue _ => 4
  | .spurious _ => 1
  | .stop => n + 1
  | _ => 0

/-- **One step.** -/
theorem Watch.step {n : Nat} (h : Watch n p) (hs : p.step act = some (p', e)) :
    Watch n p' ∧ act.moves + p'.left n ≤ p.left n + act.brings n := by
  have hlen := h.length
  have hcov := h.covered
  have hnot := h.notified
  cases step_cases hs with
  | accept f hstop =>
    refine ⟨⟨hlen, ?_, ?_⟩, ?_⟩
    · intro hpos
      have := hcov hpos
      simp only [List.length_append, List.length_singleton]
      omega
    · exact hnot
    · simp only [left, Act.moves, Act.brings, List.length_append, List.length_singleton]
      omega
  | reject f hstop => exact ⟨⟨hlen, hcov, hnot⟩, by simp [left, Act.moves]⟩
  | notify hn hw =>
    obtain ⟨h₁, h₂, h₃⟩ := totals_set hw .locking
    simp only [Thread.sleeps, Thread.locks, Thread.work] at h₁ h₂ h₃
    refine ⟨⟨by rw [List.length_set, hlen], ?_, fun hs ha => ?_⟩, ?_⟩
    · dsimp only
      omega
    · have := hnot hs ha
      dsimp only
      omega
    · simp only [left, Act.moves, Act.brings]
      omega
  | notifyNone hn hnone =>
    have hzero := sleeps_eq_zero hnone
    refine ⟨⟨hlen, fun hpos => ?_, hnot⟩, ?_⟩
    · dsimp only at hpos
      omega
    · simp only [left, Act.moves, Act.brings]
      omega
  | spurious hw =>
    obtain ⟨h₁, h₂, h₃⟩ := totals_set hw .locking
    simp only [Thread.sleeps, Thread.locks, Thread.work] at h₁ h₂ h₃
    refine ⟨⟨by rw [List.length_set, hlen], ?_, fun hs ha => ?_⟩, ?_⟩
    · dsimp only
      omega
    · have := hnot hs ha
      dsimp only
      omega
    · simp only [left, Act.moves, Act.brings]
      omega
  | @pop w task rest hw ht =>
    obtain ⟨h₁, h₂, h₃⟩ := totals_set hw (.running task)
    simp only [Thread.sleeps, Thread.locks, Thread.work] at h₁ h₂ h₃
    rw [ht, List.length_cons] at hcov
    refine ⟨⟨by rw [List.length_set, hlen], ?_, fun hs ha => ?_⟩, ?_⟩
    · dsimp only
      omega
    · have := hnot hs ha
      dsimp only
      omega
    · simp only [left, Act.moves, Act.brings, ht, List.length_cons]
      omega
  | exit hw hstop ht =>
    obtain ⟨h₁, h₂, h₃⟩ := totals_set hw .returned
    simp only [Thread.sleeps, Thread.locks, Thread.work] at h₁ h₂ h₃
    refine ⟨⟨by rw [List.length_set, hlen], fun _ => ?_, fun hs ha => ?_⟩, ?_⟩
    · simp [ht]
    · have := hnot hs ha
      dsimp only
      omega
    · simp only [left, Act.moves, Act.brings]
      omega
  | sleep hw hstop ht =>
    obtain ⟨h₁, h₂, h₃⟩ := totals_set hw .asleep
    simp only [Thread.sleeps, Thread.locks, Thread.work] at h₁ h₂ h₃
    refine ⟨⟨by rw [List.length_set, hlen], fun _ => ?_, fun hs => ?_⟩, ?_⟩
    · simp [ht]
    · rw [hstop] at hs
      cases hs
    · simp only [left, Act.moves, Act.brings]
      omega
  | run hw =>
    obtain ⟨h₁, h₂, h₃⟩ := totals_set hw .locking
    simp only [Thread.sleeps, Thread.locks, Thread.work] at h₁ h₂ h₃
    refine ⟨⟨by rw [List.length_set, hlen], ?_, fun hs ha => ?_⟩, ?_⟩
    · dsimp only
      omega
    · have := hnot hs ha
      dsimp only
      omega
    · simp only [left, Act.moves, Act.brings]
      omega
  | stop hstop =>
    refine ⟨⟨hlen, hcov, fun _ ha => by cases ha⟩, ?_⟩
    simp only [left, Act.moves, Act.brings, if_true]
    omega
  | notifyAll hall =>
    obtain ⟨h₁, h₂, h₃⟩ := total_wakeUp p.threads
    have hle := sleeps_le_length p.threads
    refine ⟨⟨by rw [List.length_map, hlen], fun hpos => ?_, fun _ _ => h₁⟩, ?_⟩
    · dsimp only at hpos
      omega
    · simp only [left, Act.moves, Act.brings, hall]
      simp
      omega

theorem new_watch (n : Nat) : Watch n (new n : CondPool F) := by
  refine ⟨by simp [new], fun hpos => ?_, fun hs => by cases hs⟩
  rw [total_new] at hpos
  cases hpos

/-- **Every run**: no wakeup is lost in it, and its moves are paid for. -/
theorem run_watch {n : Nat} {acts : List (Act F)} {es : List (Option (Event F))}
    (h : Run.run step (new n) acts = some (p, es)) :
    Watch n p ∧ (acts.map Act.moves).sum + p.left n ≤ n + (acts.map (Act.brings n)).sum := by
  have hleft : (new n : CondPool F).left n = n := by
    rw [left, total_new]
    simp [new, Thread.work]
  have hrun := Run.run_pays (I := Watch n) (fun p act p' e hw hs => hw.step hs) (new_watch n) h
  rwa [hleft] at hrun

/-! ## At rest -/

/-- No worker can do anything, and no notification is on its way. -/
def AtRest (p : CondPool F) : Prop := ∀ act : Act F, 0 < act.moves → p.step act = none

/-- At rest, every worker sleeps or has returned. -/
theorem AtRest.thread (h : p.AtRest) {w : Nat} {t : Thread F} (hw : p.threads[w]? = some t) :
    t = .asleep ∨ t = .returned := by
  cases t with
  | asleep => exact .inl rfl
  | returned => exact .inr rfl
  | locking =>
    have hnone := h (.lock w) Nat.one_pos
    simp [step, hw] at hnone
  | running task =>
    have hnone := h (.run w) Nat.one_pos
    simp [step, hw] at hnone

theorem AtRest.notifying (h : p.AtRest) : p.notifying = 0 := by
  by_contra hn
  by_cases hany : p.threads.any Thread.isAsleep = true
  · obtain ⟨t, ht, hasleep⟩ := List.any_eq_true.mp hany
    obtain ⟨w, hw⟩ := List.getElem?_of_mem ht
    have hnone := h (.notifyOne (some w)) Nat.one_pos
    cases t with
    | asleep => simp [step, notifyOne, hn, hw] at hnone
    | locking => cases hasleep
    | running => cases hasleep
    | returned => cases hasleep
  · have hnone := h (.notifyOne none) Nat.one_pos
    simp [step, notifyOne, hn, hany] at hnone

theorem AtRest.notifyingAll (h : p.AtRest) : p.notifyingAll = false := by
  by_contra hall
  have hnone := h .notifyAll Nat.one_pos
  simp [step, hall] at hnone

theorem AtRest.locks (h : p.AtRest) : total Thread.locks p.threads = 0 := by
  refine List.sum_eq_zero fun x hx => ?_
  obtain ⟨t, ht, rfl⟩ := List.mem_map.mp hx
  obtain ⟨w, hw⟩ := List.getElem?_of_mem ht
  rcases h.thread hw with rfl | rfl <;> rfl

theorem Watch.not_asleep {n : Nat} (h : Watch n p) (hs : p.stop = true)
    (hall : p.notifyingAll = false) : .asleep ∉ p.threads := by
  intro hmem
  obtain ⟨w, hw⟩ := List.getElem?_of_mem hmem
  have hzero := h.notified hs hall
  have hpos := total_pos (f := Thread.sleeps) hw Nat.one_pos
  omega

/-- At rest, the queue is empty. -/
theorem Watch.rest_tasks {n : Nat} {es : List (Event F)} (h : Watch n p)
    (hi : TheadPool.Inv n p.sections es) (hn : 0 < n) (hrest : p.AtRest) : p.tasks = [] := by
  obtain ⟨t, ht⟩ : ∃ t, p.threads[0]? = some t :=
    ⟨_, List.getElem?_eq_getElem (h.length.symm ▸ hn)⟩
  rcases hrest.thread ht with rfl | rfl
  · -- a worker sleeps: all tasks are covered, and nobody is there to cover them
    have hcov := h.covered (total_pos ht Nat.one_pos)
    rw [hrest.notifying, hrest.locks] at hcov
    exact List.eq_nil_of_length_eq_zero (Nat.le_zero.mp hcov)
  · exact (hi.stops.returned 0 (getElem?_worker ht)).2.1

/-- At rest, all that was accepted has been run. -/
theorem AtRest.drained {n : Nat} {acts : List (Act F)} {es : List (Option (Event F))}
    (hrest : p.AtRest) (h : Run.run step (new n) acts = some (p, es)) (hn : 0 < n) :
    p.tasks = [] ∧ ((ran es.reduceOption).map Prod.snd).Perm (accepted es.reduceOption) := by
  obtain ⟨hwatch, -⟩ := run_watch h
  obtain ⟨acts', hsections⟩ := run_sections h
  have hi := TheadPool.run_inv hsections
  have htasks := hwatch.rest_tasks hi hn hrest
  refine ⟨htasks, hi.ran_perm htasks fun w t hw => ?_⟩
  rw [CondPool.sections, List.getElem?_map, Option.map_eq_some_iff] at hw
  obtain ⟨x, hx, he⟩ := hw
  rcases hrest.thread hx with rfl | rfl <;> cases he

theorem AtRest.joined {n : Nat} {acts : List (Act F)} {es : List (Option (Event F))}
    (hrest : p.AtRest) (h : Run.run step (new n) acts = some (p, es)) (hs : p.stop = true) :
    ∀ t ∈ p.threads, t = .returned := by
  obtain ⟨hwatch, -⟩ := run_watch h
  intro t ht
  obtain ⟨w, hw⟩ := List.getElem?_of_mem ht
  rcases hrest.thread hw with rfl | rfl
  · exact absurd ht (hwatch.not_asleep hs hrest.notifyingAll)
  · rfl

/-- What moves takes from what is left to do. -/
theorem Watch.rests {n : Nat} (h : Watch n p) : ∃ (acts : List (Act F)) (p' : CondPool F)
    (es : List (Option (Event F))), (∀ act ∈ acts, 0 < act.moves) ∧
      Run.run CondPool.step p acts = some (p', es) ∧ p'.AtRest := by
  induction hl : p.left n using Nat.strongRecOn generalizing p with
  | ind l ih =>
    by_cases hrest : p.AtRest
    · exact ⟨[], p, [], by simp, rfl, hrest⟩
    · obtain ⟨act, hact, hstep⟩ : ∃ act : Act F, 0 < act.moves ∧ p.step act ≠ none := by
        simpa [AtRest] using hrest
      obtain ⟨⟨p₁, e⟩, hstep⟩ := Option.ne_none_iff_exists'.mp hstep
      obtain ⟨h₁, hpay⟩ := h.step hstep
      have hbrings : act.brings n = 0 := by
        cases act <;> first | rfl | cases hact
      obtain ⟨acts, p', es, hall, hrun, hrest'⟩ := ih (p₁.left n) (by omega) h₁ rfl
      exact ⟨act :: acts, p', e :: es, by simpa using ⟨hact, hall⟩, Run.run_cons_some hstep hrun,
        hrest'⟩

/-- **The pool comes to rest.** A worker needs a step to begin with, a call brings
four at most, a wakeup for no reason one, and the destructor one more than there
are workers; there are no more than these in any run. From any state the pool
can come to rest, and does so unless more is brought. It is no deadlock: there,
all that was accepted has been run, and a stopped pool can be joined. -/
theorem thread_pool_comes_to_rest (n : Nat) (acts : List (Act F)) (p : CondPool F)
    (es : List (Option (Event F))) (h : Run.run step (new n) acts = some (p, es)) :
    (acts.map Act.moves).sum ≤ n + (acts.map (Act.brings n)).sum ∧
      ∃ acts' p' es', (∀ act ∈ acts', 0 < act.moves) ∧ Run.run step p acts' = some (p', es') ∧
        p'.AtRest ∧
        (0 < n → p'.tasks = [] ∧
          ((ran (es ++ es').reduceOption).map Prod.snd).Perm (accepted (es ++ es').reduceOption)) ∧
        (p'.stop = true → ∀ t ∈ p'.threads, t = .returned) := by
  obtain ⟨hwatch, hpaid⟩ := run_watch h
  obtain ⟨acts', p', es', hmoves, hrun, hrest⟩ := hwatch.rests
  have hall := Run.run_append h hrun
  exact ⟨by omega, acts', p', es', hmoves, hrun, hrest, hrest.drained hall, hrest.joined hall⟩

/-- A call is made before the one worker has looked at the queue. -/
theorem thread_pool_comes_to_rest_one :
    ∃ p es, Run.run step (new 1 : CondPool Nat) [.enqueue 7, .lock 0] = some (p, es) ∧
      ∃ acts' p' es', (∀ act ∈ acts', 0 < act.moves) ∧ Run.run step p acts' = some (p', es') ∧
        p'.AtRest ∧ p'.tasks = [] ∧
        ((ran (es ++ es').reduceOption).map Prod.snd).Perm (accepted (es ++ es').reduceOption) := by
  have hrun : Run.run step (new 1 : CondPool Nat) [.enqueue 7, .lock 0] =
      some ({ threads := [.running ⟨0, 7⟩], tasks := [], stop := false, made := 1, notifying := 1,
              notifyingAll := false }, [some (.accepted ⟨0, 7⟩), some (.popped 0 ⟨0, 7⟩)]) := rfl
  obtain ⟨-, acts', p', es', hmoves, hrun', hrest, hdrained, -⟩ :=
    thread_pool_comes_to_rest 1 _ _ _ hrun
  exact ⟨_, _, hrun, acts', p', es', hmoves, hrun', hrest, hdrained Nat.one_pos⟩

end CondPool

end ByoRedis
