import Clibs.Thp.Pool

namespace Clibs.Thp

/-!
# The pool as two queues

Apart from who sleeps inside its channels, a pool is its counters, what each
thread is doing, and two lists: the entries of the input queue, jobs and
markers, and the jobs of the completion queue.  `PoolMove` says how a step moves
them, and every step of the pool is such a move.
-/

open Ch (ThreadState ChEvent Pipes)

/-- What the pool is, with its channels as lists; `none` is a marker. -/
structure View (k : Nat) where
  queued : List (Option Nat)
  done : List Nat
  waitRunning : Int
  submitted : Int
  toBeWaited : Int
  mutex : Option (Fin k)
  numThreads : Nat
  fresh : Nat
  activity : Fin k → Activity

/-- The pool with its channels as the given lists. -/
def Pool.view
    {k : Nat}
    (pool : Pool k)
    (queued : List (Option Nat))
    (done : List Nat) : View k where
  queued :=
    queued
  done :=
    done
  waitRunning :=
    pool.waitRunning
  submitted :=
    pool.submitted
  toBeWaited :=
    pool.toBeWaited
  mutex :=
    pool.mutex
  numThreads :=
    pool.numThreads
  fresh :=
    pool.jobs.next
  activity :=
    pool.activity

/-- The view with another activity of a thread. -/
def View.goOn
    {k : Nat}
    (view : View k)
    (thread : Fin k)
    (activity : Activity) : View k :=
  { view with activity := Function.update view.activity thread activity }

/-- The worker has left its loop. -/
def View.hasExited
    {k : Nat}
    (view : View k)
    (worker : Nat) : Prop :=
  ∃ inRange : worker < k, view.activity ⟨worker, inRange⟩ = .exited

/-- The thread may call `thp_add`, for a caller of the given kind. -/
def View.maySubmit
    {k : Nat}
    (view : View k)
    (thread : Fin k) : Caller → Prop
  | .client =>
      view.activity thread = .outside
  | .job outer =>
      view.activity thread = .executing outer

/-- The moves of a pool. -/
inductive PoolMove
    {k : Nat} :
    View k → PoolLabel k → PoolEvent k → View k → Prop where
  | still
      {view : View k}
      {label : PoolLabel k} :
      PoolMove view label .nothing view
  | addStart
      {view : View k}
      {thread : Fin k}
      {funP funParam : Nat}
      {caller : Caller} :
      view.maySubmit thread caller →
      PoolMove view (.add thread funP funParam) .nothing
        ({ view with fresh := view.fresh + 1 }.goOn thread
          (.adding caller view.fresh .lock))
  | addLock
      {view : View k}
      {thread : Fin k}
      {caller : Caller}
      {job choice : Nat} :
      view.activity thread = .adding caller job .lock →
      view.mutex = none →
      PoolMove view (.go thread choice) .nothing
        ({ view with mutex := some thread }.goOn thread
          (.adding caller job .put))
  | addPut
      {view : View k}
      {thread : Fin k}
      {caller : Caller}
      {job choice : Nat} :
      view.activity thread = .adding caller job .put →
      PoolMove view (.go thread choice) .nothing
        ({ view with queued := view.queued ++ [some job] }.goOn thread
          (.adding caller job .count))
  | addCount
      {view : View k}
      {thread : Fin k}
      {caller : Caller}
      {job choice : Nat} :
      view.activity thread = .adding caller job .count →
      PoolMove view (.go thread choice) (.added thread job)
        ({ view with
          submitted := view.submitted + 1
          toBeWaited := view.toBeWaited + 1
          mutex := none }.goOn thread (.adding caller job .read))
  | addRead
      {view : View k}
      {thread : Fin k}
      {caller : Caller}
      {job choice : Nat} :
      view.activity thread = .adding caller job .read →
      PoolMove view (.go thread choice) (.addReturned thread view.submitted)
        (view.goOn thread caller.resumes)
  | waitCall
      {view : View k}
      {thread : Fin k} :
      view.activity thread = .outside →
      PoolMove view (.wait thread) .nothing
        (view.goOn thread (.waiting false))
  | waitRefused
      {view : View k}
      {thread : Fin k}
      {destroys : Bool}
      {choice : Nat} :
      view.activity thread = .waiting destroys →
      view.mutex = none →
      view.waitRunning ≠ 0 →
      PoolMove view (.go thread choice) (.waited thread thpTooManyWait)
        (view.goOn thread (afterWait destroys))
  | waitNothing
      {view : View k}
      {thread : Fin k}
      {destroys : Bool}
      {choice : Nat} :
      view.activity thread = .waiting destroys →
      view.mutex = none →
      view.waitRunning = 0 →
      view.toBeWaited = 0 →
      PoolMove view (.go thread choice) (.waited thread 0)
        (view.goOn thread (afterWait destroys))
  | waitLoop
      {view : View k}
      {thread : Fin k}
      {destroys : Bool}
      {choice : Nat} :
      view.activity thread = .waiting destroys →
      view.mutex = none →
      view.waitRunning = 0 →
      view.toBeWaited ≠ 0 →
      PoolMove view (.go thread choice) .nothing
        ({ view with waitRunning := 1, mutex := some thread }.goOn thread
          (.collecting destroys 0))
  | waitDone
      {view : View k}
      {thread : Fin k}
      {destroys : Bool}
      {count : Int}
      {choice : Nat} :
      view.activity thread = .collecting destroys count →
      view.toBeWaited = 0 →
      PoolMove view (.go thread choice) (.waited thread count)
        ({ view with waitRunning := 0, mutex := none }.goOn thread
          (afterWait destroys))
  | collect
      {view : View k}
      {thread : Fin k}
      {destroys : Bool}
      {count : Int}
      {job choice : Nat}
      {rest : List Nat} :
      view.activity thread = .collecting destroys count →
      view.done = job :: rest →
      PoolMove view (.go thread choice) (.collected thread job)
        ({ view with
          done := rest
          toBeWaited := view.toBeWaited - 1 }.goOn thread
          (.collecting destroys (count + 1)))
  | take
      {view : View k}
      {thread : Fin k}
      {job choice : Nat}
      {rest : List (Option Nat)}
      {run : ThpJob} :
      view.activity thread = .taking →
      view.queued = some job :: rest →
      PoolMove view (.go thread choice) (.started thread job run)
        ({ view with queued := rest }.goOn thread (.executing job))
  | exit
      {view : View k}
      {thread : Fin k}
      {choice : Nat}
      {rest : List (Option Nat)} :
      view.activity thread = .taking →
      view.queued = none :: rest →
      PoolMove view (.go thread choice) (.consumed thread)
        ({ view with queued := rest }.goOn thread .exited)
  | finish
      {view : View k}
      {thread : Fin k}
      {job : Nat} :
      view.activity thread = .executing job →
      PoolMove view (.finish thread) (.finished thread job)
        (view.goOn thread (.handing job))
  | hand
      {view : View k}
      {thread : Fin k}
      {job choice : Nat}
      {code : ChEvent} :
      view.activity thread = .handing job →
      PoolMove view (.go thread choice) (.handed thread code)
        ({ view with done := view.done ++ [job] }.goOn thread .taking)
  | destroyCall
      {view : View k}
      {thread : Fin k} :
      view.activity thread = .outside →
      PoolMove view (.destroy thread) .nothing
        (view.goOn thread (.sending 0))
  | send
      {view : View k}
      {thread : Fin k}
      {sent choice : Nat} :
      view.activity thread = .sending sent →
      sent < view.numThreads →
      PoolMove view (.go thread choice) .nothing
        ({ view with queued := view.queued ++ [none] }.goOn thread
          (.sending (sent + 1)))
  | sent
      {view : View k}
      {thread : Fin k}
      {sent choice : Nat} :
      view.activity thread = .sending sent →
      view.numThreads ≤ sent →
      PoolMove view (.go thread choice) .nothing
        (view.goOn thread (.joining 0))
  | join
      {view : View k}
      {thread : Fin k}
      {joined choice : Nat} :
      view.activity thread = .joining joined →
      joined < view.numThreads →
      view.hasExited joined →
      PoolMove view (.go thread choice) .nothing
        (view.goOn thread (.joining (joined + 1)))
  | joined
      {view : View k}
      {thread : Fin k}
      {joined choice : Nat} :
      view.activity thread = .joining joined →
      view.numThreads ≤ joined →
      PoolMove view (.go thread choice) .nothing
        (view.goOn thread (.waiting true))

/-- The caller of `thp_add` is the job. -/
def Caller.runs
    (job : Nat) : Caller → Bool
  | .client =>
      false
  | .job outer =>
      outer = job

/-- The thread runs the job. -/
def Activity.executes
    (job : Nat) : Activity → Bool
  | .executing run =>
      run = job
  | .adding caller _ _ =>
      caller.runs job
  | _ =>
      false

/-- The thread created the job and has not put it into the input queue. -/
def Activity.prepares
    (job : Nat) : Activity → Bool
  | .adding _ created .lock =>
      created = job
  | .adding _ created .put =>
      created = job
  | _ =>
      false

/-- The thread has run the job and not put it into the completion queue. -/
def Activity.hands
    (job : Nat) : Activity → Bool
  | .handing run =>
      run = job
  | _ =>
      false

/-- In how many ways a thread holds a job. -/
def Activity.holds
    (job : Nat)
    (activity : Activity) : Nat :=
  (if activity.prepares job then 1 else 0) +
    (if activity.executes job then 1 else 0) +
    (if activity.hands job then 1 else 0)

/-- In how many places a job is. -/
def View.copies
    {k : Nat}
    (view : View k)
    (job : Nat) : Nat :=
  tally (Activity.prepares job) view.activity +
    tally (Activity.executes job) view.activity +
    tally (Activity.hands job) view.activity +
    view.queued.count (some job) +
    view.done.count job

/-- The job that a step collected. -/
def collectedOf
    {k : Nat} : PoolEvent k → List Nat
  | .collected _ job =>
      [job]
  | _ =>
      []

section Moves

variable {k : Nat} {view next : View k} {label : PoolLabel k}
  {event : PoolEvent k}

@[simp] theorem holds_adding
    (caller : Caller)
    (created job : Nat)
    (point : AddPoint) :
    (Activity.adding caller created point).holds job =
      (if (point = .lock ∨ point = .put) ∧ created = job then 1 else 0) +
        caller.resumes.holds job := by
  cases caller <;> cases point <;>
    simp [Activity.holds, Activity.prepares, Activity.executes,
      Activity.hands, Caller.runs, Caller.resumes]

@[simp] theorem holds_executing
    (run job : Nat) :
    (Activity.executing run).holds job = if run = job then 1 else 0 := by
  simp [Activity.holds, Activity.prepares, Activity.executes, Activity.hands]

@[simp] theorem holds_handing
    (run job : Nat) :
    (Activity.handing run).holds job = if run = job then 1 else 0 := by
  simp [Activity.holds, Activity.prepares, Activity.executes, Activity.hands]

/-- The activities in which a thread has no job in its hands. -/
def Activity.isFree : Activity → Bool
  | .adding _ _ _ =>
      false
  | .executing _ =>
      false
  | .handing _ =>
      false
  | _ =>
      true

/-- A free thread holds no job. -/
theorem holds_of_free
    {activity : Activity}
    (isFree : activity.isFree = true)
    (job : Nat) :
    activity.holds job = 0 := by
  cases activity <;>
    simp [Activity.holds, Activity.prepares, Activity.executes,
      Activity.hands, Activity.isFree] at isFree ⊢

@[simp] theorem holds_outside
    (job : Nat) :
    Activity.outside.holds job = 0 :=
  holds_of_free rfl job

@[simp] theorem holds_waiting
    (destroys : Bool)
    (job : Nat) :
    (Activity.waiting destroys).holds job = 0 :=
  holds_of_free rfl job

@[simp] theorem holds_collecting
    (destroys : Bool)
    (count : Int)
    (job : Nat) :
    (Activity.collecting destroys count).holds job = 0 :=
  holds_of_free rfl job

@[simp] theorem holds_sending
    (sent job : Nat) :
    (Activity.sending sent).holds job = 0 :=
  holds_of_free rfl job

@[simp] theorem holds_joining
    (joined job : Nat) :
    (Activity.joining joined).holds job = 0 :=
  holds_of_free rfl job

@[simp] theorem holds_taking
    (job : Nat) :
    Activity.taking.holds job = 0 :=
  holds_of_free rfl job

@[simp] theorem holds_exited
    (job : Nat) :
    Activity.exited.holds job = 0 :=
  holds_of_free rfl job

@[simp] theorem holds_afterWait
    (destroys : Bool)
    (job : Nat) :
    (afterWait destroys).holds job = 0 := by
  cases destroys <;> exact holds_of_free rfl job

/-- When one thread goes on, the jobs that threads hold change by its own. -/
theorem copies_goOn
    (view : View k)
    (thread : Fin k)
    (activity : Activity)
    (job : Nat) :
    (view.goOn thread activity).copies job +
        (view.activity thread).holds job =
      view.copies job + activity.holds job := by
  have prepares :=
    tally_update (Activity.prepares job) view.activity thread activity
  have executes :=
    tally_update (Activity.executes job) view.activity thread activity
  have hands :=
    tally_update (Activity.hands job) view.activity thread activity
  simp only [View.copies, View.goOn, Activity.holds]
  omega

/-- The activity of the thread that may submit holds what its caller does. -/
theorem View.maySubmit.resumes
    {thread : Fin k}
    {caller : Caller}
    (mayAdd : view.maySubmit thread caller) :
    view.activity thread = caller.resumes := by
  cases caller <;> exact mayAdd

/-- A thread that goes on without creating a job. -/
theorem copies_of_goOn
    {base : View k}
    {thread : Fin k}
    {activity : Activity}
    {job : Nat}
    (sameFresh : base.fresh = view.fresh)
    (sameActivity : base.activity = view.activity)
    (kept :
      base.copies job + activity.holds job + (collectedOf event).count job =
        view.copies job + (view.activity thread).holds job) :
    (base.goOn thread activity).copies job + (collectedOf event).count job =
      view.copies job +
        (if view.fresh ≤ job ∧ job < (base.goOn thread activity).fresh then
          1
        else
          0) := by
  have moved := copies_goOn base thread activity job
  have noneFresh :
      ¬ (view.fresh ≤ job ∧ job < (base.goOn thread activity).fresh) := by
    simp only [View.goOn, sameFresh]
    omega
  rw [sameActivity] at moved
  rw [if_neg noneFresh]
  omega

/-- A move creates the fresh jobs, loses the collected ones and keeps the rest. -/
theorem PoolMove.copies
    (move : PoolMove view label event next)
    (job : Nat) :
    next.copies job + (collectedOf event).count job =
      view.copies job +
        (if view.fresh ≤ job ∧ job < next.fresh then 1 else 0) := by
  cases move with
  | still =>
      have noneFresh : ¬ (view.fresh ≤ job ∧ job < view.fresh) := by
        omega
      rw [if_neg noneFresh]
      rfl
  | @addStart thread funP funParam caller mayAdd =>
      have moved :=
        copies_goOn { view with fresh := view.fresh + 1 } thread
          (.adding caller view.fresh .lock) job
      simp only [mayAdd.resumes, holds_adding, true_or, true_and] at moved
      have isFresh :
          (view.fresh ≤ job ∧
            job < ({ view with fresh := view.fresh + 1 }.goOn thread
              (.adding caller view.fresh .lock)).fresh) ↔ view.fresh = job := by
        simp only [View.goOn]
        omega
      simp only [collectedOf, List.count_nil, isFresh]
      have same :
          ({ view with fresh := view.fresh + 1 } : View k).copies job =
            view.copies job :=
        rfl
      omega
  | addLock isAt _ =>
      refine copies_of_goOn rfl rfl ?_
      simp [View.copies, isAt, collectedOf]
  | addPut isAt =>
      refine copies_of_goOn rfl rfl ?_
      simp [View.copies, isAt, collectedOf, List.count_append,
        List.count_singleton]
      omega
  | addCount isAt =>
      refine copies_of_goOn rfl rfl ?_
      simp [View.copies, isAt, collectedOf]
  | addRead isAt =>
      refine copies_of_goOn rfl rfl ?_
      simp [isAt, collectedOf]
  | waitCall isAt =>
      refine copies_of_goOn rfl rfl ?_
      simp [isAt, collectedOf]
  | waitRefused isAt _ _ =>
      refine copies_of_goOn rfl rfl ?_
      simp [isAt, collectedOf]
  | waitNothing isAt _ _ _ =>
      refine copies_of_goOn rfl rfl ?_
      simp [isAt, collectedOf]
  | waitLoop isAt _ _ _ =>
      refine copies_of_goOn rfl rfl ?_
      simp [View.copies, isAt, collectedOf]
  | waitDone isAt _ =>
      refine copies_of_goOn rfl rfl ?_
      simp [View.copies, isAt, collectedOf]
  | collect isAt isDone =>
      refine copies_of_goOn rfl rfl ?_
      simp [View.copies, isAt, isDone, collectedOf, List.count_cons]
      omega
  | take isAt isQueued =>
      refine copies_of_goOn rfl rfl ?_
      simp [View.copies, isAt, isQueued, collectedOf, List.count_cons]
      omega
  | exit isAt isQueued =>
      refine copies_of_goOn rfl rfl ?_
      simp [View.copies, isAt, isQueued, collectedOf]
  | finish isAt =>
      refine copies_of_goOn rfl rfl ?_
      simp [isAt, collectedOf]
  | hand isAt =>
      refine copies_of_goOn rfl rfl ?_
      simp [View.copies, isAt, collectedOf, List.count_append,
        List.count_singleton]
      omega
  | destroyCall isAt =>
      refine copies_of_goOn rfl rfl ?_
      simp [isAt, collectedOf]
  | send isAt _ =>
      refine copies_of_goOn rfl rfl ?_
      simp [View.copies, isAt, collectedOf, List.count_append]
  | sent isAt _ =>
      refine copies_of_goOn rfl rfl ?_
      simp [isAt, collectedOf]
  | join isAt _ _ =>
      refine copies_of_goOn rfl rfl ?_
      simp [isAt, collectedOf]
  | joined isAt _ =>
      refine copies_of_goOn rfl rfl ?_
      simp [isAt, collectedOf]

/-- No move takes the number of created jobs back. -/
theorem PoolMove.fresh_le
    (move : PoolMove view label event next) :
    view.fresh ≤ next.fresh := by
  cases move with
  | addStart _ =>
      exact Nat.le_succ _
  | _ =>
      exact Nat.le_refl _

/-- Every job is in one place at most, and was created. -/
structure View.Single
    (view : View k) : Prop where
  once : ∀ job, view.copies job ≤ 1
  created : ∀ job, view.fresh ≤ job → view.copies job = 0

/-- A move keeps every job in one place at most. -/
theorem View.Single.move
    (single : view.Single)
    (move : PoolMove view label event next) :
    next.Single := by
  refine ⟨?_, ?_⟩
  · intro job
    have moved := move.copies job
    have once := single.once job
    split_ifs at moved with isFresh
    · have created := single.created job isFresh.1
      omega
    · omega
  · intro job isFresh
    have moved := move.copies job
    have older := move.fresh_le
    have created := single.created job (older.trans isFresh)
    rw [if_neg (by omega)] at moved
    omega

end Moves

end Clibs.Thp
