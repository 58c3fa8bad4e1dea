import Clibs.Foundation.History
import Clibs.Thp.Roles

namespace Clibs.Thp

/-!
# The pool loses no job, and `thp_wait` collects what was added

A wait ends when nothing is to be waited for, so at its end nothing is queued,
running or uncollected, and whatever was added since the last wait was started,
ended and collected exactly once, the last by this wait.
-/

/-- The number of jobs that are being executed. -/
def Pool.executing
    {k : Nat}
    (pool : Pool k) : Nat :=
  tally Activity.isExecuting pool.activity

/-- The number of jobs that were executed and are not in the completion queue. -/
def Pool.handing
    {k : Nat}
    (pool : Pool k) : Nat :=
  tally Activity.isHanding pool.activity

/-- The thread destroys the pool, or has left it because of that. -/
def Activity.isClosing : Activity → Bool
  | .waiting destroys =>
      destroys
  | .collecting destroys _ =>
      destroys
  | .sending _ =>
      true
  | .joining _ =>
      true
  | .tearing =>
      true
  | .exited =>
      true
  | _ =>
      false

/-- The label calls `thp_destroy`. -/
def PoolLabel.destroys
    {k : Nat} : PoolLabel k → Bool
  | .destroy _ =>
      true
  | _ =>
      false

/-- Nobody destroys the pool. -/
structure View.Open
    {k : Nat}
    (view : View k) : Prop where
  markers : none ∉ view.queued
  threads : ∀ thread, (view.activity thread).isClosing = false

/--
While the mutex is free, `to_be_waited` is the number of the jobs that are
queued, are executed, and are finished but not collected.
-/
def Pool.Balanced
    {k : Nat}
    (pool : Pool k) : Prop :=
  pool.mutex = none →
    pool.toBeWaited =
      pool.inQueue.ch.count + pool.executing +
        (pool.handing + pool.waitQueue.ch.count)

/-- A thread added the job, and `thp_add` has not returned to it since. -/
def OwesReturn
    {k : Nat}
    (past : List (PoolEvent k))
    (thread : Fin k)
    (job : Nat) : Prop :=
  ∃ before after,
    past = before ++ .added thread job :: after ∧
      ∀ code, PoolEvent.addReturned thread code ∉ after

/-- The thread has counted the job and is to return from `thp_add`. -/
def Activity.reads
    (job : Nat) : Activity → Bool
  | .adding _ created .read =>
      created = job
  | _ =>
      false

/-- The number of added jobs, and the calls of `thp_add` that are to return. -/
structure View.Counted
    {k : Nat}
    (view : View k)
    (past : List (PoolEvent k)) : Prop where
  submitted : view.submitted = (addedJobs past).length
  owed :
    ∀ thread job,
      (view.activity thread).reads job = true →
      OwesReturn past thread job

section Past

variable {k : Nat} {view next : View k} {label : PoolLabel k}
  {past : List (PoolEvent k)} {event : PoolEvent k}

/-- One more event, if `thp_add` does not return to the thread in it. -/
theorem OwesReturn.concat
    {thread : Fin k}
    {job : Nat}
    (owes : OwesReturn past thread job)
    (stays : ∀ code, event ≠ .addReturned thread code) :
    OwesReturn (past ++ [event]) thread job := by
  obtain ⟨before, after, isPast, owed⟩ := owes
  refine ⟨before, after ++ [event], by simp [isPast], ?_⟩
  intro code member
  rcases List.mem_append.mp member with earlier | last
  · exact owed code earlier
  · exact stays code (List.mem_singleton.mp last).symm

/-- The call that was counted is to return. -/
theorem owesReturn_added
    (past : List (PoolEvent k))
    (thread : Fin k)
    (job : Nat) :
    OwesReturn (past ++ [.added thread job]) thread job :=
  ⟨past, [], rfl, fun _ => List.not_mem_nil⟩

/-- The caller of `thp_add` goes on outside it. -/
theorem reads_resumes
    (caller : Caller)
    (job : Nat) :
    caller.resumes.reads job = false := by
  cases caller <;> rfl

/-- Nobody who is to return from `thp_add` does so without its event. -/
theorem PoolMove.reads
    (move : PoolMove view label event next)
    {thread : Fin k}
    {job : Nat}
    (reads : (next.activity thread).reads job = true) :
    event = .added thread job ∨
      (view.activity thread).reads job = true ∧
        ∀ code, event ≠ .addReturned thread code := by
  cases move with
  | still =>
      refine .inr ⟨reads, ?_⟩
      intro code isEvent
      cases isEvent
  | @addCount adder _ added _ _ =>
      by_cases isAdder : thread = adder
      · subst isAdder
        simp only [View.goOn, Function.update_self, Activity.reads,
          decide_eq_true_eq] at reads
        exact .inl (by rw [reads])
      · simp only [View.goOn, Function.update_of_ne isAdder] at reads
        refine .inr ⟨reads, ?_⟩
        intro code isEvent
        cases isEvent
  | @addRead adder caller _ _ _ =>
      by_cases isAdder : thread = adder
      · subst isAdder
        simp only [View.goOn, Function.update_self, reads_resumes] at reads
        cases reads
      · simp only [View.goOn, Function.update_of_ne isAdder] at reads
        refine .inr ⟨reads, ?_⟩
        intro code isEvent
        cases isEvent
        exact isAdder rfl
  | @waitRefused _ destroys _ _ _ _ | @waitNothing _ destroys _ _ _ _ _
  | @waitDone _ destroys _ _ _ _ =>
      refine .inr ⟨of_kind_goOn ?_ reads, ?_⟩
      · intro impossible
        cases destroys <;> cases impossible
      · intro code isEvent
        cases isEvent
  | addStart _ | addLock _ _ | addPut _ | waitCall _ | waitLoop _ _ _ _
  | collect _ _ | take _ _ | exit _ _ | finish _ | hand _ | destroyCall _
  | send _ _ | sent _ _ | join _ _ _ | joined _ _ =>
      refine .inr ⟨of_kind_goOn ?_ reads, ?_⟩
      · intro impossible
        cases impossible
      · intro code isEvent
        cases isEvent

/-- `thp_add` counts the job that it adds, and nothing else is counted. -/
theorem PoolMove.submitted
    (move : PoolMove view label event next) :
    next.submitted = view.submitted + (addedOf event).length := by
  cases move with
  | addCount _ =>
      rfl
  | _ =>
      exact (Int.add_zero _).symm

/-- One more move, and its event. -/
theorem View.Counted.move
    (counted : view.Counted past)
    (move : PoolMove view label event next) :
    next.Counted (past ++ [event]) where
  submitted := by
    rw [move.submitted, counted.submitted, addedJobs, addedJobs,
      List.flatMap_append, List.length_append, List.flatMap_singleton,
      Nat.cast_add]
  owed thread job reads := by
    rcases move.reads reads with isAdded | ⟨wasReading, stays⟩
    · rw [isAdded]
      exact owesReturn_added past thread job
    · exact (counted.owed thread job wasReading).concat stays

/-- No thread is of a kind after one of them goes on. -/
theorem View.goOn_nobody
    {kind : Activity → Bool}
    (nobody : ∀ other, kind (view.activity other) = false)
    {thread : Fin k}
    {own : Activity}
    (notKind : kind own = false)
    (other : Fin k) :
    kind ((view.goOn thread own).activity other) = false := by
  by_cases isThread : other = thread
  · subst isThread
    simp only [View.goOn, Function.update_self, notKind]
  · simp only [View.goOn, Function.update_of_ne isThread, nobody]

/-- The pool stays open until somebody destroys it. -/
theorem View.Open.move
    (isOpen : view.Open)
    (move : PoolMove view label event next)
    (noDestroy : label.destroys = false) :
    next.Open := by
  have stays := isOpen.threads
  cases move with
  | still =>
      exact isOpen
  | @addStart _ _ _ caller _ =>
      exact ⟨isOpen.markers, View.goOn_nobody stays rfl⟩
  | addPut _ =>
      exact ⟨by simp [View.goOn, isOpen.markers], View.goOn_nobody stays rfl⟩
  | @addRead _ caller _ _ _ =>
      exact ⟨isOpen.markers, View.goOn_nobody stays (by cases caller <;> rfl)⟩
  | @waitRefused thread destroys _ isAt _ _
  | @waitNothing thread destroys _ isAt _ _ _
  | @waitDone thread destroys _ _ isAt _ =>
      have notClosing := stays thread
      rw [isAt] at notClosing
      refine ⟨isOpen.markers, View.goOn_nobody stays ?_⟩
      cases notClosing
      rfl
  | @waitLoop thread _ _ isAt _ _ _ | @collect thread _ _ _ _ _ isAt _ =>
      have notClosing := stays thread
      rw [isAt] at notClosing
      exact ⟨isOpen.markers, View.goOn_nobody stays notClosing⟩
  | take isAt isQueued =>
      have noMarker := isOpen.markers
      rw [isQueued, List.mem_cons, not_or] at noMarker
      exact ⟨noMarker.2, View.goOn_nobody stays rfl⟩
  | exit isAt isQueued =>
      exact (isOpen.markers (by simp [isQueued])).elim
  | destroyCall _ =>
      cases noDestroy
  | @send thread _ _ isAt _ | @sent thread _ _ isAt _
  | @join thread _ _ isAt _ _ | @joined thread _ _ isAt _ =>
      have notClosing := stays thread
      rw [isAt] at notClosing
      cases notClosing
  | addLock _ _ | addCount _ | waitCall _ | finish _ | hand _ =>
      exact ⟨isOpen.markers, View.goOn_nobody stays rfl⟩

end Past

section Runs

variable {k : Nat} {pool : Pool k} {past : List (PoolEvent k)}
  {queued : List (Option Nat)} {done : List Nat}

/-- A new pool is open. -/
theorem start_open
    (numThreads clients : Nat) :
    ((start numThreads clients).view [] []).Open := by
  refine ⟨List.not_mem_nil, ?_⟩
  intro thread
  simp only [Pool.view, start, thpCreate]
  split <;> rfl

/-- The counter of an open pool balances. -/
theorem Stands.balanced
    (stands : Stands pool queued done)
    (recorded : (pool.view queued done).Recorded past)
    (isOpen : (pool.view queued done).Open) :
    pool.Balanced := by
  intro isFree
  have balance :=
    outstanding_balance (recorded.locked.freeCounts isFree)
  rw [recorded.balances, ← recorded.toBeWaited] at balance
  have allJobs : queued.countP Option.isSome = queued.length := by
    apply List.countP_eq_length.mpr
    intro entry member
    cases entry with
    | none =>
        exact (isOpen.markers member).elim
    | some job =>
        rfl
  have inQueue := stands.inQueue.count
  have waitQueue := stands.waitQueue.count
  rw [List.length_map] at inQueue waitQueue
  simp only [Pool.view] at balance
  rw [balance, allJobs, inQueue, waitQueue]
  simp only [Pool.executing, Pool.handing]

end Runs

attribute [local instance] neZero_two

end Clibs.Thp
