import Clibs.Ch.Granting
import Clibs.Thp.Roles

namespace Clibs.Thp

/-!
# Pools whose requests for memory are refused

`thp_add` asks for a job and for an element of the input queue, and a worker
that has run a job asks for an element of the completion queue.  A step that is
granted its memory is the step of the pool that is granted everything, so it is
a move.  A refusal ends `thp_add` with its error; it makes `thp_destroy` send a
marker less; and it makes a worker drop the job that it has run.
-/

open Ch (ChEvent Pipes)

/-- The pool of which every further request for memory is granted. -/
def Pool.granting
    {k : Nat}
    (pool : Pool k) : Pool k :=
  { pool with
    inQueue := pool.inQueue.granting
    waitQueue := pool.waitQueue.granting
    jobs := pool.jobs.granting }

/-- What a step did to the pool of which every request is granted. -/
def grantPool
    {k : Nat} : Pool k × PoolEvent k → Pool k × PoolEvent k
  | (pool, event) =>
      (pool.granting, event)

/-- The next request for memory of a channel is granted. -/
def grantsElement
    {k : Nat}
    (queue : Ch.System k) : Bool :=
  queue.ch.heap.grants queue.ch.heap.requests

/-- A worker that hands over the job it has run is granted the memory for it. -/
def Pool.grantsHand
    {k : Nat}
    (pool : Pool k) : PoolLabel k → Bool
  | .go thread _ =>
      match pool.activity thread with
      | .handing _ =>
          grantsElement pool.waitQueue
      | _ =>
          true
  | _ =>
      true

/-- A step of the pool is granted the memory that it asks for. -/
def Pool.grantsStep
    {k : Nat}
    (pool : Pool k) : PoolLabel k → Bool
  | .add _ _ _ =>
      pool.jobs.grants pool.jobs.requests
  | .go thread _ =>
      match pool.activity thread with
      | .adding _ _ .put =>
          grantsElement pool.inQueue
      | .sending sent =>
          pool.numThreads ≤ sent || grantsElement pool.inQueue
      | .handing _ =>
          grantsElement pool.waitQueue
      | _ =>
          true
  | _ =>
      true

/-- The steps of a pool that are refused memory. -/
inductive RefusedMove
    {k : Nat} :
    View k → PoolLabel k → PoolEvent k → View k → Prop where
  | create
      {view : View k}
      {thread : Fin k}
      {funP funParam : Nat}
      {caller : Caller} :
      view.maySubmit thread caller →
      RefusedMove view (.add thread funP funParam)
        (.addReturned thread thpNoMemory) view
  | put
      {view : View k}
      {thread : Fin k}
      {caller : Caller}
      {job choice : Nat} :
      view.activity thread = .adding caller job .put →
      RefusedMove view (.go thread choice)
        (.addReturned thread Ch.chNoMemory)
        ({ view with mutex := none }.goOn thread caller.resumes)
  | send
      {view : View k}
      {thread : Fin k}
      {sent choice : Nat} :
      view.activity thread = .sending sent →
      sent < view.numThreads →
      RefusedMove view (.go thread choice) .nothing
        (view.goOn thread (.sending (sent + 1)))
  | hand
      {view : View k}
      {thread : Fin k}
      {job choice : Nat} :
      view.activity thread = .handing job →
      RefusedMove view (.go thread choice)
        (.handed thread (.returned Ch.chNoMemory))
        (view.goOn thread .taking)

section Granted

variable {k : Nat} {pool : Pool k} {queue : Ch.System k}
  {pointers : List Nat} {thread : Fin k}

/-- A put into a pipe asks for one element. -/
theorem grantsStep_putLabel
    (pipes : Pipes queue.granting pointers)
    (granted : grantsElement queue = true)
    (pointer choice : Nat) :
    queue.grantsStep (putLabel queue thread pointer choice) = true := by
  rw [putLabel]
  cases queue.threads thread with
  | idle =>
      exact (pipes.grantsPut pointer).trans granted
  | waiting pending stage =>
      rfl

/-- A get asks for no memory. -/
theorem grantsStep_getLabel
    (choice : Nat) :
    queue.grantsStep (Ch.getLabel queue thread choice) = true := by
  rw [Ch.getLabel]
  cases queue.threads thread <;> rfl

/-- A granted put into a pipe. -/
theorem systemStep_putLabel_granting
    (pipes : Pipes queue.granting pointers)
    (granted : grantsElement queue = true)
    (pointer choice : Nat) :
    Ch.systemStep queue.granting
        (putLabel queue.granting thread pointer choice) =
      Ch.grantStep <$>
        Ch.systemStep queue (putLabel queue thread pointer choice) :=
  Ch.systemStep_granting (grantsStep_putLabel pipes granted pointer choice)

/-- A get from a pipe. -/
theorem systemStep_getLabel_granting
    (choice : Nat) :
    Ch.systemStep queue.granting (Ch.getLabel queue.granting thread choice) =
      Ch.grantStep <$>
        Ch.systemStep queue (Ch.getLabel queue thread choice) :=
  Ch.systemStep_granting (grantsStep_getLabel choice)

/-- A thread that wakes asks for no memory. -/
theorem systemStep_wake_granting :
    Ch.systemStep queue.granting (.wake thread) =
      Ch.grantStep <$> Ch.systemStep queue (.wake thread) :=
  Ch.systemStep_granting rfl

/-- The start of `thp_add`, its job granted. -/
theorem addStart_granting
    {caller : Caller}
    {job : ThpJob}
    (granted : pool.jobs.grants pool.jobs.requests = true) :
    addStart pool.granting thread caller job =
      grantPool (addStart pool thread caller job) := by
  have allocates :
      pool.jobs.allocate job =
        (some pool.jobs.next, pool.jobs.store job) :=
    if_pos granted
  simp only [addStart, Pool.granting, CellHeap.allocate_granting granted,
    allocates]
  rfl

/-- `thp_add` from the lock on, its element granted. -/
theorem addStep_granting
    {caller : Caller}
    {job choice : Nat}
    {point : AddPoint}
    (pipes : Pipes pool.inQueue.granting pointers)
    (granted : point = .put → grantsElement pool.inQueue = true) :
    addStep pool.granting thread caller job choice point =
      grantPool <$> addStep pool thread caller job choice point := by
  cases point with
  | lock =>
      simp only [addStep, apply_ite (grantPool <$> ·)]
      rfl
  | put =>
      simp only [addStep, Pool.granting,
        systemStep_putLabel_granting pipes (granted rfl), bind_map_left,
        map_bind]
      refine bind_congr fun done => ?_
      obtain ⟨inQueue, rc⟩ := done
      cases rc with
      | returned code =>
          simp only [Ch.grantStep, apply_ite (grantPool <$> ·)]
          rfl
      | _ =>
          rfl
  | count | read =>
      rfl

/-- The start of `thp_wait`. -/
theorem waitStart_granting
    (destroys : Bool) :
    waitStart pool.granting thread destroys =
      grantPool (waitStart pool thread destroys) := by
  simp only [waitStart, apply_ite grantPool]
  rfl

/-- The loop of `thp_wait`. -/
theorem collectStep_granting
    (destroys : Bool)
    (count : Int)
    (choice : Nat) :
    collectStep pool.granting thread destroys count choice =
      grantPool <$> collectStep pool thread destroys count choice := by
  simp only [collectStep, Pool.granting, systemStep_getLabel_granting,
    bind_map_left, map_bind, apply_ite (grantPool <$> ·)]
  refine if_congr Iff.rfl rfl (bind_congr fun done => ?_)
  obtain ⟨waitQueue, rc⟩ := done
  simp only [Ch.grantStep]
  cases fetched rc with
  | none =>
      rfl
  | some tj =>
      simp only [CellHeap.release_granting, bind_map_left, map_bind]
      rfl

/-- The loop of a worker, up to the call of the job. -/
theorem takeStep_granting
    (choice : Nat) :
    takeStep pool.granting thread choice =
      grantPool <$> takeStep pool thread choice := by
  simp only [takeStep, Pool.granting, systemStep_getLabel_granting,
    bind_map_left, map_bind]
  refine bind_congr fun done => ?_
  obtain ⟨inQueue, rc⟩ := done
  simp only [Ch.grantStep, apply_ite (grantPool <$> ·)]
  refine if_congr Iff.rfl rfl ?_
  cases fetched rc with
  | none =>
      rfl
  | some tj =>
      simp only [CellHeap.read_granting, map_bind]
      rfl

/-- The put of a worker, its element granted. -/
theorem handStep_granting
    (pipes : Pipes pool.waitQueue.granting pointers)
    (granted : grantsElement pool.waitQueue = true)
    (job choice : Nat) :
    handStep pool.granting thread job choice =
      grantPool <$> handStep pool thread job choice := by
  simp only [handStep, Pool.granting,
    systemStep_putLabel_granting pipes granted, bind_map_left, map_bind]
  refine bind_congr fun done => ?_
  obtain ⟨waitQueue, rc⟩ := done
  cases rc <;> rfl

/-- The first loop of `thp_destroy`, its element granted. -/
theorem sendStep_granting
    {sent : Nat}
    (pipes : Pipes pool.inQueue.granting pointers)
    (granted :
      sent < pool.numThreads → grantsElement pool.inQueue = true)
    (choice : Nat) :
    sendStep pool.granting thread sent choice =
      grantPool <$> sendStep pool thread sent choice := by
  by_cases more : sent < pool.numThreads
  · have alsoMore : sent < pool.granting.numThreads :=
      more
    rw [sendStep, sendStep, if_pos more, if_pos alsoMore]
    simp only [Pool.granting,
      systemStep_putLabel_granting pipes (granted more), bind_map_left,
      map_bind]
    refine bind_congr fun done => ?_
    obtain ⟨inQueue, rc⟩ := done
    cases rc <;> rfl
  · have noMore : ¬ sent < pool.granting.numThreads :=
      more
    rw [sendStep, sendStep, if_neg more, if_neg noMore]
    rfl

/-- The second loop of `thp_destroy`. -/
theorem joinStep_granting
    (joined : Nat) :
    joinStep pool.granting thread joined =
      grantPool (joinStep pool thread joined) := by
  simp only [joinStep, apply_ite grantPool]
  rfl

/--
A step that is granted the memory it asks for is the step of the pool that is
granted everything.
-/
theorem poolStep_granting
    {queued : List (Option Nat)}
    {done : List Nat}
    {label : PoolLabel k}
    (stands : Stands pool.granting queued done)
    (granted : pool.grantsStep label = true) :
    poolStep pool.granting label = grantPool <$> poolStep pool label := by
  have sameActivity : pool.granting.activity = pool.activity :=
    rfl
  cases label with
  | add thread funP funParam =>
      simp only [poolStep, sameActivity]
      cases pool.activity thread with
      | outside | executing outer =>
          simp only [addStart_granting granted]
          rfl
      | _ =>
          rfl
  | wait thread | destroy thread | finish thread =>
      simp only [poolStep, sameActivity]
      cases pool.activity thread <;> rfl
  | go thread choice =>
      simp only [poolStep, goStep, sameActivity]
      simp only [Pool.grantsStep] at granted
      cases isAt : pool.activity thread with
      | adding caller job point =>
          rw [isAt] at granted
          refine addStep_granting stands.inQueue ?_
          rintro rfl
          exact granted
      | waiting destroys =>
          exact congrArg Except.ok (waitStart_granting destroys)
      | collecting destroys count =>
          exact collectStep_granting destroys count choice
      | sending sent =>
          rw [isAt, Bool.or_eq_true, decide_eq_true_eq] at granted
          refine sendStep_granting stands.inQueue ?_ choice
          exact fun more => granted.resolve_left (Nat.not_le_of_lt more)
      | joining joined =>
          exact congrArg Except.ok (joinStep_granting joined)
      | taking =>
          exact takeStep_granting choice
      | handing job =>
          rw [isAt] at granted
          exact handStep_granting stands.waitQueue granted job choice
      | _ =>
          rfl
  | wakeIn thread | wakeOut thread =>
      simp only [poolStep, Pool.granting, systemStep_wake_granting,
        bind_map_left, map_bind]
      rfl

end Granted

section Refused

variable {k : Nat} {view next : View k} {label : PoolLabel k}
  {event : PoolEvent k} {past : List (PoolEvent k)}

/-- A refused step puts no job anywhere. -/
theorem RefusedMove.copies_le
    (refused : RefusedMove view label event next)
    (job : Nat) :
    next.copies job ≤ view.copies job := by
  cases refused with
  | create _ =>
      exact Nat.le_refl _
  | @put thread caller _ _ isAt =>
      have moved :=
        copies_goOn { view with mutex := none } thread caller.resumes job
      have same :
          ({ view with mutex := none } : View k).copies job =
            view.copies job :=
        rfl
      simp only [isAt, holds_adding] at moved
      omega
  | @send thread sent _ isAt _ =>
      have moved := copies_goOn view thread (.sending (sent + 1)) job
      rw [isAt, holds_sending, holds_sending] at moved
      exact Nat.le_of_eq moved
  | @hand thread _ _ isAt =>
      have moved := copies_goOn view thread .taking job
      rw [isAt, holds_taking] at moved
      omega

/-- A refused step creates no job. -/
theorem RefusedMove.fresh
    (refused : RefusedMove view label event next) :
    next.fresh = view.fresh := by
  cases refused <;> rfl

/-- A refused step keeps every job in one place at most. -/
theorem View.Single.refused
    (single : view.Single)
    (refused : RefusedMove view label event next) :
    next.Single where
  once job :=
    (refused.copies_le job).trans (single.once job)
  created job isFresh := by
    rw [refused.fresh] at isFresh
    exact Nat.eq_zero_of_le_zero
      (single.created job isFresh ▸ refused.copies_le job)

/-- A refused step leaves the mutex with those inside a critical section. -/
theorem RefusedMove.locked
    (refused : RefusedMove view label event next)
    (locked : view.Locked) :
    next.Locked := by
  cases refused with
  | create _ =>
      exact locked
  | put isAt =>
      exact locked.give (by simp [isAt, Activity.locks]) rfl rfl
        (locks_resumes _)
  | send isAt _ | hand isAt =>
      refine locked.goOn rfl rfl ?_
      simp [isAt, Activity.locks]

/-- A refused step neither begins nor ends a wait. -/
theorem RefusedMove.waits
    (refused : RefusedMove view label event next) :
    WaitMove view event next := by
  cases refused with
  | create _ =>
      exact .quiet rfl rfl rfl fun _ _ _ => Iff.rfl
  | @put _ caller _ _ isAt =>
      refine .quiet rfl rfl rfl (collecting_goOn (by simp [isAt]) ?_)
      cases caller <;> simp [Caller.resumes]
  | send isAt _ | hand isAt =>
      exact .quiet rfl rfl rfl (collecting_goOn (by simp [isAt]) (by simp))

/-- A refused step makes no worker of a client, nor a client of a worker. -/
theorem RefusedMove.isWorker
    (refused : RefusedMove view label event next)
    (thread : Fin k) :
    (next.activity thread).isWorker = (view.activity thread).isWorker := by
  cases refused with
  | create _ =>
      rfl
  | @put _ caller _ _ isAt =>
      refine kind_goOn ?_ thread
      rw [isAt]
      cases caller <;> rfl
  | send isAt _ | hand isAt =>
      refine kind_goOn ?_ thread
      rw [isAt]
      rfl

/-- A refused step keeps the number of workers. -/
theorem RefusedMove.numThreads
    (refused : RefusedMove view label event next) :
    next.numThreads = view.numThreads := by
  cases refused <;> rfl

/-- A refused step counts no job and collects none. -/
theorem RefusedMove.toBeWaited
    (refused : RefusedMove view label event next) :
    next.toBeWaited =
      view.toBeWaited + (outstanding fun _ => true).change event := by
  cases refused <;> exact (Int.add_zero _).symm

/-- A refused step other than a worker's keeps the worth of the pool. -/
theorem RefusedMove.balances
    (refused : RefusedMove view label event next)
    (notHanded : ∀ worker code, event ≠ .handed worker code)
    (account : Account) :
    account.balance next = account.balance view + account.change event := by
  cases refused with
  | create _ =>
      exact (Int.add_zero _).symm
  | put isAt =>
      refine account.balance_of_goOn rfl ?_
      simp [isAt, Account.balance, Account.change]
  | send isAt _ =>
      exact account.balance_of_free (by rw [isAt]; rfl) rfl rfl
  | hand _ =>
      exact (notHanded _ _ rfl).elim

end Refused

section Steps

variable {k : Nat} {pool : Pool k} {queued : List (Option Nat)}
  {done : List Nat} {label : PoolLabel k} {thread : Fin k}

/--
The step returns; it is a move, or it is refused the memory it asks for, and it
leaves a pool that holds two lists.
-/
def StepGoes
    (pool : Pool k)
    (queued : List (Option Nat))
    (done : List Nat)
    (label : PoolLabel k) : Prop :=
  ∃ next event nextQueued nextDone,
    poolStep pool label = .ok (next, event) ∧
      (PoolMove (pool.view queued done) label event
          (next.view nextQueued nextDone) ∨
        pool.grantsStep label = false ∧
          RefusedMove (pool.view queued done) label event
            (next.view nextQueued nextDone)) ∧
      Stands next.granting nextQueued nextDone

/-- A refused step leaves a pool that holds the lists. -/
theorem Stands.refused
    {next : Pool k}
    {event : PoolEvent k}
    (stands : Stands pool.granting queued done)
    (refused :
      RefusedMove (pool.view queued done) label event
        (next.view queued done))
    (inQueue : Pipes next.inQueue.granting (queued.map entryPointer))
    (waitQueue : Pipes next.waitQueue.granting (done.map jobPointer))
    (takers :
      InsideOnly (· = .taking) next.inQueue.threads next.activity)
    (collectors :
      InsideOnly Activity.collects next.waitQueue.threads next.activity)
    (jobs : next.jobs.cell = pool.jobs.cell) :
    Stands next.granting queued done where
  inQueue :=
    inQueue
  waitQueue :=
    waitQueue
  takers :=
    takers
  collectors :=
    collectors
  grants _ :=
    rfl
  single :=
    stands.single.refused refused
  live job somewhere := by
    have kept : next.granting.jobs.cell = pool.granting.jobs.cell :=
      jobs
    rw [kept]
    refine stands.live job (Nat.lt_of_lt_of_le somewhere ?_)
    exact refused.copies_le job

/-- The queue after a put that was refused. -/
def refusedQueue (queue : Ch.System k) : Ch.System k :=
  { queue with ch := queue.ch.refused }

/-- A thread outside a pipe is refused an element. -/
theorem putLabel_refused
    {queue : Ch.System k}
    {pointers : List Nat}
    {pointer : Nat}
    (pipes : Pipes queue.granting pointers)
    (isIdle : queue.threads thread = .idle)
    (wanted : pointer ≠ 0)
    (refused : grantsElement queue = false)
    (choice : Nat) :
    Ch.systemStep queue (putLabel queue thread pointer choice) =
        .ok (refusedQueue queue, .returned Ch.chNoMemory) ∧
      Pipes (refusedQueue queue).granting pointers := by
  rw [putLabel, isIdle]
  exact pipes.put_refused isIdle wanted refused choice

/-- `thp_add` is refused a job. -/
theorem addStart_refused
    {caller : Caller}
    {funP funParam : Nat}
    (stands : Stands pool.granting queued done)
    (mayAdd : (pool.view queued done).maySubmit thread caller)
    (refused : pool.grantsStep (.add thread funP funParam) = false)
    (returns :
      poolStep pool (.add thread funP funParam) =
        .ok (addStart pool thread caller ⟨funP, funParam⟩)) :
    StepGoes pool queued done (.add thread funP funParam) := by
  have notGranted : ¬ pool.jobs.grants pool.jobs.requests = true := by
    simpa [Pool.grantsStep] using refused
  have isRefused :
      pool.jobs.allocate ⟨funP, funParam⟩ = (none, pool.jobs.request.2) :=
    if_neg notGranted
  have move :
      RefusedMove (pool.view queued done) (.add thread funP funParam)
        (.addReturned thread thpNoMemory)
        (({ pool with jobs := pool.jobs.request.2 } : Pool k).view queued
          done) :=
    .create mayAdd
  refine ⟨_, _, queued, done, ?_, .inr ⟨refused, move⟩,
    stands.refused move stands.inQueue stands.waitQueue stands.takers
      stands.collectors rfl⟩
  rw [returns, addStart, isRefused]

/-- `thp_add` is refused an element of the input queue. -/
theorem addStep_refused
    {caller : Caller}
    {job choice : Nat}
    (stands : Stands pool.granting queued done)
    (isAt : pool.activity thread = .adding caller job .put)
    (refused : grantsElement pool.inQueue = false) :
    StepGoes pool queued done (.go thread choice) := by
  have notTaking : pool.activity thread ≠ .taking := by
    simp [isAt]
  have notCollecting := not_collects isAt (by simp)
  have isIdle : pool.inQueue.threads thread = .idle :=
    stands.takers.idle notTaking
  obtain ⟨puts, pipes⟩ :=
    putLabel_refused stands.inQueue isIdle (jobPointer_ne_zero job) refused
      choice
  have move :
      RefusedMove (pool.view queued done) (.go thread choice)
        (.addReturned thread Ch.chNoMemory)
        ((({ pool with
          inQueue := refusedQueue pool.inQueue
          mutex := none } : Pool k).goOn thread caller.resumes).view queued
          done) :=
    .put isAt
  have notGranted : pool.grantsStep (.go thread choice) = false := by
    simpa [Pool.grantsStep, isAt] using refused
  refine ⟨_, _, queued, done, ?_, .inr ⟨notGranted, move⟩,
    stands.refused move pipes stands.waitQueue
      (stands.takers.elsewhere notTaking _)
      (stands.collectors.elsewhere notCollecting _) rfl⟩
  simp only [poolStep, goStep, isAt, addStep, puts, Checked.ok_bind]
  rfl

/-- `thp_destroy` is refused an element of the input queue. -/
theorem sendStep_refused
    {sent choice : Nat}
    (stands : Stands pool.granting queued done)
    (isAt : pool.activity thread = .sending sent)
    (more : sent < pool.numThreads)
    (refused : grantsElement pool.inQueue = false) :
    StepGoes pool queued done (.go thread choice) := by
  have notTaking : pool.activity thread ≠ .taking := by
    simp [isAt]
  have notCollecting := not_collects isAt (by simp)
  have isIdle : pool.inQueue.threads thread = .idle :=
    stands.takers.idle notTaking
  have marker : Ch.chEndoftransmission ≠ 0 := by
    decide
  obtain ⟨puts, pipes⟩ :=
    putLabel_refused stands.inQueue isIdle marker refused choice
  have move :
      RefusedMove (pool.view queued done) (.go thread choice) .nothing
        ((({ pool with inQueue := refusedQueue pool.inQueue } :
          Pool k).goOn thread (.sending (sent + 1))).view queued done) :=
    .send isAt more
  have notGranted : pool.grantsStep (.go thread choice) = false := by
    simp [Pool.grantsStep, isAt, more, refused]
  refine ⟨_, _, queued, done, ?_, .inr ⟨notGranted, move⟩,
    stands.refused move pipes stands.waitQueue
      (stands.takers.elsewhere notTaking _)
      (stands.collectors.elsewhere notCollecting _) rfl⟩
  simp only [poolStep, goStep, isAt, sendStep, if_pos more, puts,
    Checked.ok_bind]

/-- A worker is refused an element of the completion queue. -/
theorem handStep_refused
    {job choice : Nat}
    (stands : Stands pool.granting queued done)
    (isAt : pool.activity thread = .handing job)
    (refused : grantsElement pool.waitQueue = false) :
    StepGoes pool queued done (.go thread choice) := by
  have notTaking : pool.activity thread ≠ .taking := by
    simp [isAt]
  have notCollecting := not_collects isAt (by simp)
  have isIdle : pool.waitQueue.threads thread = .idle :=
    stands.collectors.idle notCollecting
  obtain ⟨puts, pipes⟩ :=
    putLabel_refused stands.waitQueue isIdle (jobPointer_ne_zero job) refused
      choice
  have move :
      RefusedMove (pool.view queued done) (.go thread choice)
        (.handed thread (.returned Ch.chNoMemory))
        ((({ pool with waitQueue := refusedQueue pool.waitQueue } :
          Pool k).goOn thread .taking).view queued done) :=
    .hand isAt
  have notGranted : pool.grantsStep (.go thread choice) = false := by
    simpa [Pool.grantsStep, isAt] using refused
  refine ⟨_, _, queued, done, ?_, .inr ⟨notGranted, move⟩,
    stands.refused move stands.inQueue pipes
      (stands.takers.elsewhere notTaking _)
      (stands.collectors.elsewhere notCollecting _) rfl⟩
  simp only [poolStep, goStep, isAt, handStep, puts, Checked.ok_bind]

/-- A step that is refused memory. -/
theorem poolStep_refused
    (stands : Stands pool.granting queued done)
    (refused : pool.grantsStep label = false) :
    StepGoes pool queued done label := by
  cases label with
  | add thread funP funParam =>
      cases isAt : pool.activity thread with
      | outside =>
          have mayAdd : (pool.view queued done).maySubmit thread .client :=
            isAt
          exact addStart_refused stands mayAdd refused
            (by simp only [poolStep, isAt])
      | executing outer =>
          have mayAdd :
              (pool.view queued done).maySubmit thread (.job outer) :=
            isAt
          exact addStart_refused stands mayAdd refused
            (by simp only [poolStep, isAt])
      | _ =>
          exact ⟨pool, .nothing, queued, done,
            by simp only [poolStep, isAt], .inl .still, stands⟩
  | go thread choice =>
      cases isAt : pool.activity thread with
      | adding caller job point =>
          cases point with
          | put =>
              simp only [Pool.grantsStep, isAt] at refused
              exact addStep_refused stands isAt refused
          | _ =>
              simp [Pool.grantsStep, isAt] at refused
      | sending sent =>
          simp only [Pool.grantsStep, isAt, Bool.or_eq_false_iff,
            decide_eq_false_iff_not, Nat.not_le] at refused
          exact sendStep_refused stands isAt refused.1 refused.2
      | handing job =>
          simp only [Pool.grantsStep, isAt] at refused
          exact handStep_refused stands isAt refused
      | _ =>
          simp [Pool.grantsStep, isAt] at refused
  | _ =>
      cases refused

/-- Every step of a pool is a move, or is refused the memory it asks for. -/
theorem poolStep_goes
    (stands : Stands pool.granting queued done)
    (label : PoolLabel k) :
    StepGoes pool queued done label := by
  cases granted : pool.grantsStep label with
  | true =>
      obtain ⟨_, event, nextQueued, nextDone, steps, move, nextStands⟩ :=
        poolStep_moves stands label
      rw [poolStep_granting stands granted] at steps
      obtain ⟨⟨next, _⟩, realSteps, same⟩ := Checked.map_eq_ok.mp steps
      cases same
      exact ⟨next, event, nextQueued, nextDone, realSteps, .inl move,
        nextStands⟩
  | false =>
      exact poolStep_refused stands granted

/-- A new pool, whatever memory it will be granted, holds nothing. -/
theorem thpCreate_stands
    (numThreads clients : Nat)
    (jobGrants inGrants waitGrants : Nat → Bool) :
    Stands
      (thpCreate numThreads clients jobGrants inGrants waitGrants).granting
      [] [] :=
  start_stands numThreads clients

end Steps

end Clibs.Thp
