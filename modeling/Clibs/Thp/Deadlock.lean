import Clibs.Thp.Conservation

namespace Clibs.Thp

/-!
# Jobs that submit jobs, and `thp_wait`

`thp_wait` keeps the mutex while it sleeps on the completion queue.  A job that
calls `thp_add` meanwhile waits for the mutex, and `thp_wait` waits for the job,
so neither ever goes on.  This is the only way in which the pool deadlocks: as
long as no job is at the lock of `thp_add` while a thread is in the loop of
`thp_wait`, a job that has not finished has somebody who works on it.
-/

/-- The thread runs a job that may call `thp_add`. -/
def Activity.runsJob : Activity → Bool
  | .executing _ =>
      true
  | _ =>
      false

/-- The thread is a job at the lock of `thp_add`. -/
def Activity.jobAsks : Activity → Bool
  | .adding (.job _) _ .lock =>
      true
  | _ =>
      false

/-- The thread is in the loop of `thp_wait`. -/
def Activity.isCollecting : Activity → Bool
  | .collecting _ _ =>
      true
  | _ =>
      false

/-- The thread has called `thp_wait` and is before its lock. -/
def Activity.isWaiting : Activity → Bool
  | .waiting _ =>
      true
  | _ =>
      false

/--
The thread is blocked: on the mutex, or in `ch_get` because the queue is empty
or because it sleeps.
-/
def Pool.isBlocked
    {k : Nat}
    (pool : Pool k)
    (thread : Fin k) : Bool :=
  match pool.activity thread with
  | .adding _ _ .lock =>
      pool.mutex ≠ none
  | .waiting _ =>
      pool.mutex ≠ none
  | .taking =>
      pool.inQueue.ch.count = 0 ∨
        pool.inQueue.threads thread = .waiting .get .asleep
  | .collecting _ _ =>
      pool.toBeWaited ≠ 0 ∧ pool.waitQueue.ch.count = 0 ∨
        pool.waitQueue.threads thread = .waiting .get .asleep
  | _ =>
      false

/-- The thread is inside the library or runs for the pool. -/
def Pool.isUnfinished
    {k : Nat}
    (pool : Pool k)
    (thread : Fin k) : Bool :=
  pool.activity thread ≠ .outside ∧ pool.activity thread ≠ .exited

/-- Some submitted job is queued or has not ended. -/
def Pool.hasUnfinishedJob
    {k : Nat}
    (pool : Pool k) : Bool :=
  pool.inQueue.ch.count ≠ 0 ∨ pool.executing ≠ 0

/--
There are unfinished threads, all of them are blocked, and submitted jobs are
still unfinished.
-/
structure Pool.Deadlocked
    {k : Nat}
    (pool : Pool k) : Prop where
  some : ∃ thread, pool.isUnfinished thread = true
  blocked :
    ∀ thread,
      pool.isUnfinished thread = true →
      pool.isBlocked thread = true
  jobs : pool.hasUnfinishedJob = true

/--
No running job calls `thp_add` while a thread is in the loop of `thp_wait`, and
no thread enters that loop while a running job is at the lock of `thp_add`.
-/
def Pool.Yields
    {k : Nat}
    (pool : Pool k) : PoolLabel k → Prop
  | .add thread _ _ =>
      (pool.activity thread).runsJob = true →
      ∀ other, (pool.activity other).isCollecting = false
  | .go thread _ =>
      (pool.activity thread).isWaiting = true →
      pool.mutex = none →
      pool.toBeWaited ≠ 0 →
      ∀ other, (pool.activity other).jobAsks = false
  | .destroy _ =>
      False
  | _ =>
      True

/-- No job is at the lock of `thp_add` while a thread is in the loop of `thp_wait`. -/
def View.Apart
    {k : Nat}
    (view : View k) : Prop :=
  ∀ worker collector,
    (view.activity worker).jobAsks = true →
    (view.activity collector).isCollecting = false

/-- A job is at the lock of `thp_add` while a thread is in the loop of `thp_wait`. -/
def View.Doomed
    {k : Nat}
    (view : View k)
    (worker collector : Fin k) : Prop :=
  (∃ outer job, view.activity worker = .adding (.job outer) job .lock) ∧
    ∃ destroys count, view.activity collector = .collecting destroys count

section Deadlock

variable {k : Nat} {pool : Pool k} {view next : View k} {label : PoolLabel k}
  {past : List (PoolEvent k)} {event : PoolEvent k}
  {queued : List (Option Nat)} {done : List Nat} {thread : Fin k}

/-- A job at the lock of `thp_add` was there, or called it just now. -/
theorem PoolMove.jobAsks
    (move : PoolMove view label event next)
    (asks : (next.activity thread).jobAsks = true) :
    (view.activity thread).jobAsks = true ∨
      ∃ funP funParam,
        label = .add thread funP funParam ∧
          (view.activity thread).runsJob = true := by
  cases move with
  | still =>
      exact .inl asks
  | @addStart adder funP funParam caller mayAdd =>
      by_cases isAdder : thread = adder
      · subst isAdder
        cases caller with
        | client =>
            simp only [View.goOn, Function.update_self, Activity.jobAsks]
              at asks
            cases asks
        | job outer =>
            have isAt : view.activity thread = .executing outer :=
              mayAdd
            exact .inr ⟨funP, funParam, rfl, by rw [isAt]; rfl⟩
      · simp only [View.goOn, Function.update_of_ne isAdder] at asks
        exact .inl asks
  | @addRead _ caller _ _ _ =>
      refine .inl (of_kind_goOn ?_ asks)
      intro impossible
      cases caller <;> cases impossible
  | @waitRefused _ destroys _ _ _ _ | @waitNothing _ destroys _ _ _ _ _
  | @waitDone _ destroys _ _ _ _ =>
      refine .inl (of_kind_goOn ?_ asks)
      intro impossible
      cases destroys <;> cases impossible
  | @addLock _ caller _ _ _ _ | @addPut _ caller _ _ _
  | @addCount _ caller _ _ _ =>
      refine .inl (of_kind_goOn ?_ asks)
      intro impossible
      cases caller <;> cases impossible
  | waitCall _ | waitLoop _ _ _ _ | collect _ _ | take _ _ | exit _ _ | finish _
  | hand _ | destroyCall _ | send _ _ | sent _ _ | join _ _ _ | joined _ _ =>
      refine .inl (of_kind_goOn ?_ asks)
      intro impossible
      cases impossible

/-- A thread in the loop of `thp_wait` was in it, or entered it just now. -/
theorem PoolMove.isCollecting
    (move : PoolMove view label event next)
    (collects : (next.activity thread).isCollecting = true) :
    (view.activity thread).isCollecting = true ∨
      ∃ choice,
        label = .go thread choice ∧
          (view.activity thread).isWaiting = true ∧
          view.mutex = none ∧
          view.toBeWaited ≠ 0 := by
  cases move with
  | still =>
      exact .inl collects
  | @waitLoop waiter _ choice isAt isFree _ something =>
      by_cases isWaiter : thread = waiter
      · subst isWaiter
        exact .inr ⟨choice, rfl, by rw [isAt]; rfl, isFree, something⟩
      · simp only [View.goOn, Function.update_of_ne isWaiter] at collects
        exact .inl collects
  | collect isAt _ =>
      refine .inl (of_kind_goOn ?_ collects)
      rw [isAt]
      exact id
  | @addRead _ caller _ _ _ =>
      refine .inl (of_kind_goOn ?_ collects)
      intro impossible
      cases caller <;> cases impossible
  | @waitRefused _ destroys _ _ _ _ | @waitNothing _ destroys _ _ _ _ _
  | @waitDone _ destroys _ _ _ _ =>
      refine .inl (of_kind_goOn ?_ collects)
      intro impossible
      cases destroys <;> cases impossible
  | addStart _ | addLock _ _ | addPut _ | addCount _ | waitCall _ | take _ _
  | exit _ _ | finish _ | hand _ | destroyCall _ | send _ _ | sent _ _
  | join _ _ _ | joined _ _ =>
      refine .inl (of_kind_goOn ?_ collects)
      intro impossible
      cases impossible

/-- A step that yields keeps jobs at the lock and the loop of `thp_wait` apart. -/
theorem View.Apart.move
    (apart : (pool.view queued done).Apart)
    (move : PoolMove (pool.view queued done) label event next)
    (yields : pool.Yields label) :
    next.Apart := by
  intro worker collector asks
  cases isCollecting : (next.activity collector).isCollecting with
  | false =>
      rfl
  | true =>
      rcases move.jobAsks asks with asked | ⟨funP, funParam, isAdd, runs⟩
      · rcases move.isCollecting isCollecting with
          collected | ⟨choice, rfl, isWaiting, isFree, something⟩
        · exact collected.symm.trans (apart worker collector asked)
        · have nobodyAsks : (pool.activity worker).jobAsks = false :=
            yields isWaiting isFree something worker
          exact asked.symm.trans nobodyAsks
      · subst isAdd
        rcases move.isCollecting isCollecting with collected | ⟨_, isGo, -⟩
        · have nobodyCollects : (pool.activity collector).isCollecting = false :=
            yields runs collector
          exact collected.symm.trans nobodyCollects
        · cases isGo

/-- A worker of an open pool takes, runs a job, or hands one over. -/
theorem View.Open.worker
    (isOpen : view.Open)
    (isWorker : (view.activity thread).isWorker = true) :
    view.activity thread = .taking ∨
      (view.activity thread).isExecuting = true ∨
      ∃ job, view.activity thread = .handing job := by
  have notClosing := isOpen.threads thread
  cases isAt : view.activity thread with
  | taking =>
      exact .inl rfl
  | executing job =>
      exact .inr (.inl rfl)
  | handing job =>
      exact .inr (.inr ⟨job, rfl⟩)
  | adding caller job point =>
      rw [isAt] at isWorker
      cases caller with
      | client =>
          cases isWorker
      | job outer =>
          exact .inr (.inl rfl)
  | exited =>
      rw [isAt] at notClosing
      cases notClosing
  | _ =>
      rw [isAt] at isWorker
      cases isWorker

/-- A thread that is busy in a deadlocked pool is blocked. -/
theorem Pool.Deadlocked.isBlocked
    (deadlocked : pool.Deadlocked)
    {activity : Activity}
    (isAt : pool.activity thread = activity)
    (isBusy : activity ≠ .outside ∧ activity ≠ .exited) :
    pool.isBlocked thread = true := by
  apply deadlocked.blocked
  rw [Pool.isUnfinished, isAt]
  exact decide_eq_true isBusy

/-- A job at the lock waits for a thread in the loop of `thp_wait`. -/
theorem Pool.Deadlocked.nobodyAsks
    (deadlocked : pool.Deadlocked)
    (locked : (pool.view queued done).Locked)
    (apart : (pool.view queued done).Apart)
    (worker : Fin k) :
    (pool.activity worker).jobAsks = false := by
  cases asks : (pool.activity worker).jobAsks with
  | false =>
      rfl
  | true =>
      have nobodyCollects :
          ∀ other, (pool.activity other).isCollecting = false :=
        fun other => apart worker other asks
      have isHeld : pool.mutex ≠ none := by
        cases isAt : pool.activity worker with
        | adding caller job point =>
            have blocked := deadlocked.isBlocked isAt (by simp)
            rw [isAt] at asks
            cases caller with
            | client =>
                cases asks
            | job outer =>
                cases point with
                | lock =>
                    simpa [Pool.isBlocked, isAt] using blocked
                | _ =>
                    cases asks
        | _ =>
            rw [isAt] at asks
            cases asks
      obtain ⟨holder, isHolder⟩ := Option.ne_none_iff_exists'.mp isHeld
      have holds : (pool.activity holder).locks = true :=
        (locked holder).mpr isHolder
      have notCollecting := nobodyCollects holder
      cases isAt : pool.activity holder with
      | adding caller job point =>
          have blocked := deadlocked.isBlocked isAt (by simp)
          rw [isAt] at holds
          cases point with
          | lock | read =>
              cases holds
          | put | count =>
              simp only [Pool.isBlocked, isAt] at blocked
              cases blocked
      | collecting destroys count =>
          rw [isAt] at notCollecting
          cases notCollecting
      | _ =>
          rw [isAt] at holds
          cases holds

/-- No job runs in a deadlocked pool in which jobs and waits are apart. -/
theorem Pool.Deadlocked.nobodyExecutes
    (deadlocked : pool.Deadlocked)
    (nobodyAsks : ∀ worker, (pool.activity worker).jobAsks = false)
    (worker : Fin k) :
    (pool.activity worker).isExecuting = false := by
  have notAsking := nobodyAsks worker
  cases isAt : pool.activity worker with
  | executing job =>
      have blocked := deadlocked.isBlocked isAt (by simp)
      simp only [Pool.isBlocked, isAt] at blocked
      cases blocked
  | adding caller job point =>
      have blocked := deadlocked.isBlocked isAt (by simp)
      rw [isAt] at notAsking
      cases caller with
      | client =>
          rfl
      | job outer =>
          cases point with
          | lock =>
              cases notAsking
          | _ =>
              simp only [Pool.isBlocked, isAt] at blocked
              cases blocked
  | _ =>
      rfl

/-- A pool in which jobs at the lock and waits are apart is not deadlocked. -/
theorem Stands.not_deadlocked
    (stands : Stands pool queued done)
    (recorded : (pool.view queued done).Recorded past)
    (staffed : (pool.view queued done).Staffed past)
    (isOpen : (pool.view queued done).Open)
    (apart : (pool.view queued done).Apart)
    (someWorker : 0 < pool.numThreads) :
    ¬ pool.Deadlocked := by
  intro deadlocked
  have nobodyAsks := deadlocked.nobodyAsks recorded.locked apart
  have nobodyExecutes := deadlocked.nobodyExecutes nobodyAsks
  have noneExecute : pool.executing = 0 :=
    tally_eq_zero nobodyExecutes
  have someEntry : pool.inQueue.ch.count ≠ 0 := by
    have someJob := deadlocked.jobs
    simp only [Pool.hasUnfinishedJob, noneExecute, ne_eq, not_true_eq_false,
      or_false, decide_eq_true_eq] at someJob
    exact someJob
  have crew : 0 < tally Activity.isWorker pool.activity := by
    rw [show tally Activity.isWorker pool.activity = pool.numThreads from
      staffed.crew]
    exact someWorker
  obtain ⟨worker, isWorker⟩ := exists_of_tally_pos crew
  rcases isOpen.worker isWorker with isTaking | isExecuting | ⟨job, isHanding⟩
  · have notEmpty : queued ≠ [] := by
      rintro rfl
      exact someEntry stands.inQueue.count
    obtain ⟨taker, takes, canGet⟩ := stands.someTaker notEmpty isTaking
    have blocked := deadlocked.isBlocked takes (by simp)
    simp only [Pool.isBlocked, takes, someEntry, false_or, decide_eq_true_eq]
      at blocked
    rcases canGet with state | state | state <;>
    · rw [blocked] at state
      cases state
  · cases isExecuting.symm.trans (nobodyExecutes worker)
  · have isAt : pool.activity worker = .handing job :=
      isHanding
    have blocked := deadlocked.isBlocked isAt (by simp)
    simp only [Pool.isBlocked, isAt] at blocked
    cases blocked

/-- Whoever executes keeps a wait from ending. -/
theorem View.Recorded.something
    (recorded : view.Recorded past)
    (nobodyCounts : ∀ other, (view.activity other).counts = false)
    (thread : Fin k)
    (isExecuting : (view.activity thread).isExecuting = true) :
    view.toBeWaited ≠ 0 := by
  have positive := tally_pos thread isExecuting
  have balance := outstanding_balance nobodyCounts
  rw [recorded.balances, ← recorded.toBeWaited] at balance
  omega

/-- A thread at the lock of `thp_add` stays there while the mutex is taken. -/
theorem PoolMove.atLock
    (move : PoolMove view label event next)
    {caller : Caller}
    {job : Nat}
    (atLock : view.activity thread = .adding caller job .lock)
    (isTaken : view.mutex ≠ none) :
    next.activity thread = .adding caller job .lock := by
  have other :
      ∀ {mover own},
        view.activity mover ≠ .adding caller job .lock →
        Function.update view.activity mover own thread =
          .adding caller job .lock := by
    intro mover own differs
    rw [Function.update_of_ne]
    · exact atLock
    · rintro rfl
      exact differs atLock
  cases move with
  | still =>
      exact atLock
  | addLock _ isFree =>
      exact (isTaken isFree).elim
  | @addStart _ _ _ starter mayAdd =>
      apply other
      rw [mayAdd.resumes]
      cases starter <;> simp [Caller.resumes]
  | addPut isAt | addCount isAt | addRead isAt | waitCall isAt
  | waitRefused isAt _ _ | waitNothing isAt _ _ _ | waitLoop isAt _ _ _
  | waitDone isAt _ | collect isAt _ | take isAt _ | exit isAt _ | finish isAt
  | hand isAt | destroyCall isAt | send isAt _ | sent isAt _ | join isAt _ _
  | joined isAt _ =>
      exact other (by simp [isAt])

/-- A thread stays in the loop of `thp_wait` while there is something to wait for. -/
theorem PoolMove.inLoop
    (move : PoolMove view label event next)
    {destroys : Bool}
    {count : Int}
    (inLoop : view.activity thread = .collecting destroys count)
    (something : view.toBeWaited ≠ 0) :
    ∃ destroys count, next.activity thread = .collecting destroys count := by
  have other :
      ∀ {mover own},
        view.activity mover ≠ .collecting destroys count →
        ∃ destroys count,
          Function.update view.activity mover own thread =
            .collecting destroys count := by
    intro mover own differs
    refine ⟨destroys, count, ?_⟩
    rw [Function.update_of_ne]
    · exact inLoop
    · rintro rfl
      exact differs inLoop
  cases move with
  | still =>
      exact ⟨destroys, count, inLoop⟩
  | waitDone _ nothing =>
      exact (something nothing).elim
  | @collect collector collects number _ _ _ isAt _ =>
      by_cases isCollector : thread = collector
      · subst isCollector
        exact ⟨collects, number + 1, Function.update_self _ _ _⟩
      · exact ⟨destroys, count, by
          simp only [View.goOn, Function.update_of_ne isCollector, inLoop]⟩
  | @addStart _ _ _ starter mayAdd =>
      apply other
      rw [mayAdd.resumes]
      cases starter <;> simp [Caller.resumes]
  | addLock isAt _ | addPut isAt | addCount isAt | addRead isAt | waitCall isAt
  | waitRefused isAt _ _ | waitNothing isAt _ _ _ | waitLoop isAt _ _ _
  | take isAt _ | exit isAt _ | finish isAt | hand isAt | destroyCall isAt
  | send isAt _ | sent isAt _ | join isAt _ _ | joined isAt _ =>
      exact other (by simp [isAt])

/--
Once a job is at the lock of `thp_add` while a thread is in the loop of
`thp_wait`, both stay there.
-/
theorem View.Doomed.move
    {worker collector : Fin k}
    (doomed : view.Doomed worker collector)
    (recorded : view.Recorded past)
    (move : PoolMove view label event next) :
    next.Doomed worker collector := by
  obtain ⟨⟨outer, job, atLock⟩, destroys, count, inLoop⟩ := doomed
  have isHeld : view.mutex = some collector :=
    (recorded.locked collector).mp (by rw [inLoop]; rfl)
  have something : view.toBeWaited ≠ 0 :=
    recorded.something (recorded.locked.collectsAlone inLoop) worker
      (by rw [atLock]; rfl)
  refine ⟨⟨outer, job, move.atLock atLock ?_⟩, move.inLoop inLoop something⟩
  rw [isHeld]
  exact Option.some_ne_none collector

/--
Whatever the threads do, a job that waits for the mutex of a `thp_wait` that
waits for the job never goes on, and neither does the `thp_wait`.
-/
theorem doomed_forever
    {worker collector : Fin k}
    (stands : Stands pool queued done)
    (recorded : (pool.view queued done).Recorded past)
    (doomed : (pool.view queued done).Doomed worker collector)
    (labels : List (PoolLabel k)) :
    ∃ final events,
      runCalls poolStep pool labels = .ok (final, events) ∧
        (∃ outer job,
          final.activity worker = .adding (.job outer) job .lock) ∧
        ∃ destroys count,
          final.activity collector = .collecting destroys count := by
  obtain ⟨final, events, runs, _, _, _, _, finalDoomed⟩ :=
    @runCalls_records _ _ _ poolStep (fun _ _ => True)
      (fun pool past =>
        ∃ queued done,
          Stands pool queued done ∧
            (pool.view queued done).Recorded past ∧
            (pool.view queued done).Doomed worker collector)
      (by
        rintro pool past label ⟨queued, done, stands, recorded, doomed⟩ -
        obtain ⟨next, event, nextQueued, nextDone, steps, move, nextStands⟩ :=
          poolStep_moves stands label
        exact ⟨next, event, steps, nextQueued, nextDone, nextStands,
          recorded.move move, doomed.move recorded move⟩)
      pool past ⟨queued, done, stands, recorded, doomed⟩ labels
      (alwaysAllowed_of_forall (fun _ _ _ => trivial) pool)
  exact ⟨final, events, runs, finalDoomed⟩

end Deadlock

/--
A pool of at least one worker never deadlocks in a run in which no running job
calls `thp_add` while a thread is in the loop of `thp_wait`, and no thread
enters that loop while a running job is at the lock of `thp_add`.
-/
theorem yielding_pool_never_deadlocks
    (numThreads clients : Nat)
    (someWorker : 0 < numThreads)
    (labels : List (PoolLabel (numThreads + clients)))
    (yields :
      AlwaysAllowed (StepOf poolStep) Pool.Yields (start numThreads clients)
        labels) :
    ∃ pool events,
      runCalls poolStep (start numThreads clients) labels =
          .ok (pool, events) ∧
        ¬ pool.Deadlocked := by
  have startApart : ((start numThreads clients).view [] []).Apart := by
    intro worker collector asks
    simp only [Pool.view, start, thpCreate] at asks
    split at asks <;> cases asks
  obtain ⟨pool, events, runs, sameThreads, queued, done, stands, recorded,
      staffed, isOpen, apart⟩ :=
    @runCalls_records _ _ _ poolStep Pool.Yields
      (fun pool past =>
        pool.numThreads = numThreads ∧
        ∃ queued done,
          Stands pool queued done ∧
            (pool.view queued done).Recorded past ∧
            (pool.view queued done).Staffed past ∧
            (pool.view queued done).Open ∧
            (pool.view queued done).Apart)
      (by
        rintro pool past label
          ⟨sameThreads, queued, done, stands, recorded, staffed, isOpen, apart⟩
          yields
        obtain ⟨next, event, nextQueued, nextDone, steps, move, nextStands⟩ :=
          poolStep_moves stands label
        have noDestroy : label.destroys = false := by
          cases label with
          | destroy thread =>
              exact yields.elim
          | _ =>
              rfl
        exact ⟨next, event, steps, move.numThreads.trans sameThreads,
          nextQueued, nextDone, nextStands, recorded.move move,
          staffed.move move, isOpen.move move noDestroy,
          apart.move move yields⟩)
      (start numThreads clients) []
      ⟨rfl, [], [], start_stands numThreads clients,
        start_recorded numThreads clients, start_staffed numThreads clients,
        start_open numThreads clients, startApart⟩
      labels yields
  exact ⟨pool, events, runs,
    stands.not_deadlocked recorded staffed isOpen apart
      (by rwa [sameThreads])⟩

/-- A job submits another one before a client waits for both. -/
theorem yielding_pool_never_deadlocks_nested :
    ∃ pool events,
      runCalls poolStep (start 1 1)
          [.add 1 3 4, .go 1 0, .go 1 0, .go 1 0, .go 1 0, .go 0 0, .add 0 5 6,
            .go 0 0, .go 0 0, .go 0 0, .go 0 0, .wait 1, .go 1 0] =
          .ok (pool, events) ∧
        ¬ pool.Deadlocked := by
  refine yielding_pool_never_deadlocks 1 1 (by decide) _ ?_
  refine .step rfl (fun impossible => nomatch impossible) ?_
  refine .step rfl (fun impossible => nomatch impossible) ?_
  refine .step rfl (fun impossible => nomatch impossible) ?_
  refine .step rfl (fun impossible => nomatch impossible) ?_
  refine .step rfl (fun impossible => nomatch impossible) ?_
  refine .step rfl (fun impossible => nomatch impossible) ?_
  refine .step rfl (fun _ => by decide) ?_
  refine .step rfl (fun impossible => nomatch impossible) ?_
  refine .step rfl (fun impossible => nomatch impossible) ?_
  refine .step rfl (fun impossible => nomatch impossible) ?_
  refine .step rfl (fun impossible => nomatch impossible) ?_
  refine .step rfl trivial ?_
  refine .step rfl (fun _ _ _ => by decide) ?_
  trivial

/--
A client waits for a job that then submits another one: the job waits for the
mutex, the client for the job.
-/
theorem nested_submission_deadlocks :
    ∃ pool events,
      runCalls poolStep (start 1 1)
          [.add 1 3 4, .go 1 0, .go 1 0, .go 1 0, .go 1 0, .go 0 0, .wait 1,
            .go 1 0, .go 1 0, .add 0 5 6, .go 0 0] =
          .ok (pool, events) ∧
        pool.Deadlocked :=
  ⟨_, _, rfl, ⟨0, by decide⟩, by decide, by decide⟩

end Clibs.Thp
