import Clibs.Ch.Pipe

namespace Clibs.Thp

/-!
# The thread pool

`thp.c` with the threads that run it: `numThreads` workers in `thp_queue_runner`
and any number of clients that call `thp_add`, `thp_wait` and `thp_destroy`.  The
two channels are the channels of `ch.c`, each with its own table of the threads
that are inside its calls.  A step is one locked section of the pool, one section
of a channel call, or the start or the end of a job.

A pointer to a job is an aligned address, so it is neither `NULL` nor the marker
`CH_ENDOFTRANSMISSION`.
-/

open Ch (ChEvent Datalen)

/-- `THP_TOO_MANY_WAIT`. -/
def thpTooManyWait : Int :=
  -3

/-- `THP_NO_MEMORY`. -/
def thpNoMemory : Int :=
  -4

/-- `thp_job_t`: the function to run and its parameter. -/
structure ThpJob where
  funP : Nat
  funParam : Nat
  deriving Repr, DecidableEq

/-- The address of a job. -/
def jobPointer (job : Nat) : Nat :=
  16 * (job + 1)

/-- The job at an address. -/
def jobAt (pointer : Nat) : Nat :=
  pointer / 16 - 1

/-- Who calls `thp_add`: a client, or the job that a worker runs. -/
inductive Caller where
  | client
  | job (outer : Nat)
  deriving Repr, DecidableEq

/-- Where a thread is in `thp_add`, its job created. -/
inductive AddPoint where
  | lock
  | put
  | count
  | read
  deriving Repr, DecidableEq

/--
What a thread is doing.  `taking` is the `ch_get` of a worker's loop, `handing`
its `ch_put` to `wait_queue`; `collecting` is the loop of `thp_wait`, which is
also run by `thp_destroy`; `tearing` is `thp_destroy` once `thp_wait` returned.
-/
inductive Activity where
  | outside
  | adding (caller : Caller) (job : Nat) (point : AddPoint)
  | waiting (destroys : Bool)
  | collecting (destroys : Bool) (count : Int)
  | sending (sent : Nat)
  | joining (joined : Nat)
  | tearing
  | taking
  | executing (job : Nat)
  | handing (job : Nat)
  | exited
  deriving Repr, DecidableEq

/-- `thp_h`, with the jobs it allocates and the threads that use it. -/
structure Pool (k : Nat) where
  inQueue : Ch.System k
  waitQueue : Ch.System k
  waitRunning : Int
  submitted : Int
  toBeWaited : Int
  mutex : Option (Fin k)
  numThreads : Nat
  jobs : CellHeap ThpJob
  activity : Fin k → Activity

/-- What a step of the pool did. -/
inductive PoolEvent (k : Nat) where
  | nothing
  | added (thread : Fin k) (job : Nat)
  | addReturned (thread : Fin k) (code : Int)
  | started (worker : Fin k) (job : Nat) (run : ThpJob)
  | finished (worker : Fin k) (job : Nat)
  | handed (worker : Fin k) (code : ChEvent)
  | consumed (worker : Fin k)
  | collected (thread : Fin k) (job : Nat)
  | waited (thread : Fin k) (count : Int)
  deriving Repr, DecidableEq

/--
A step: a call of a client, a job that calls `thp_add`, the next step of a thread
inside the library, the end of a job, or a thread that wakes without a signal.
-/
inductive PoolLabel (k : Nat) where
  | add (thread : Fin k) (funP funParam : Nat)
  | wait (thread : Fin k)
  | destroy (thread : Fin k)
  | go (thread : Fin k) (choice : Nat)
  | finish (thread : Fin k)
  | wakeIn (thread : Fin k)
  | wakeOut (thread : Fin k)
  deriving Repr, DecidableEq

/-- What the caller of `thp_add` goes on with. -/
def Caller.resumes : Caller → Activity
  | .client =>
      .outside
  | .job outer =>
      .executing outer

/-- What the caller of `thp_wait` goes on with. -/
def afterWait (destroys : Bool) : Activity :=
  if destroys then
    .tearing
  else
    .outside

/-- The pointer that `ch_get` stores when it returns `CH_OK`. -/
def fetched : ChEvent → Option Nat
  | .taken (_, .pointer pointer) code =>
      if code = Ch.chOk then
        some pointer
      else
        none
  | _ =>
      none

/-- `ch_get` returned `CH_GET_ENDOFTRANSMISSION`. -/
def endsTransmission : ChEvent → Bool
  | .taken _ code =>
      code = Ch.chGetEndoftransmission
  | .returned code =>
      code = Ch.chGetEndoftransmission
  | _ =>
      false

/-- The label with which a thread takes a section of a call of `ch_put`. -/
def putLabel
    {k : Nat}
    (queue : Ch.System k)
    (thread : Fin k)
    (pointer choice : Nat) : Ch.Label k :=
  match queue.threads thread with
  | .idle =>
      .call thread (.put ⟨pointer, []⟩ .std) choice
  | .waiting _ _ =>
      .resume thread choice

section Steps

variable {k : Nat}

/-- The pool with another activity of a thread. -/
def Pool.goOn
    (pool : Pool k)
    (thread : Fin k)
    (activity : Activity) : Pool k :=
  { pool with activity := Function.update pool.activity thread activity }

/-- `_thp_job_create`, at the start of `thp_add`. -/
def addStart
    (pool : Pool k)
    (thread : Fin k)
    (caller : Caller)
    (job : ThpJob) : Pool k × PoolEvent k :=
  match pool.jobs.allocate job with
  | (none, jobs) =>
      ({ pool with jobs }, .addReturned thread thpNoMemory)
  | (some address, jobs) =>
      ({ pool with jobs }.goOn thread (.adding caller address .lock), .nothing)

/-- `thp_add` from the lock on. -/
def addStep
    (pool : Pool k)
    (thread : Fin k)
    (caller : Caller)
    (job choice : Nat) : AddPoint → Checked (Pool k × PoolEvent k)
  | .lock =>
      if pool.mutex = none then
        .ok ({ pool with mutex := some thread }.goOn thread
          (.adding caller job .put), .nothing)
      else
        .ok (pool, .nothing)
  | .put => do
      let (inQueue, rc) ←
        Ch.systemStep pool.inQueue
          (putLabel pool.inQueue thread (jobPointer job) choice)
      let pool := { pool with inQueue }
      match rc with
      | .sleeps =>
          .ok (pool, .nothing)
      | .returned code =>
          if code < 0 then
            .ok ({ pool with mutex := none }.goOn thread caller.resumes,
              .addReturned thread code)
          else
            .ok (pool.goOn thread (.adding caller job .count), .nothing)
      | _ =>
          .ok (pool.goOn thread (.adding caller job .count), .nothing)
  | .count =>
      .ok ({ pool with
        submitted := pool.submitted + 1
        toBeWaited := pool.toBeWaited + 1
        mutex := none }.goOn thread (.adding caller job .read),
        .added thread job)
  | .read =>
      .ok (pool.goOn thread caller.resumes,
        .addReturned thread pool.submitted)

/-- `thp_wait` up to its loop. -/
def waitStart
    (pool : Pool k)
    (thread : Fin k)
    (destroys : Bool) : Pool k × PoolEvent k :=
  if pool.mutex ≠ none then
    (pool, .nothing)
  else if pool.waitRunning ≠ 0 then
    (pool.goOn thread (afterWait destroys), .waited thread thpTooManyWait)
  else if pool.toBeWaited = 0 then
    ({ pool with waitRunning := 0 }.goOn thread (afterWait destroys),
      .waited thread 0)
  else
    ({ pool with waitRunning := 1, mutex := some thread }.goOn thread
      (.collecting destroys 0), .nothing)

/-- The loop of `thp_wait`: its test, or a section of its `ch_get`. -/
def collectStep
    (pool : Pool k)
    (thread : Fin k)
    (destroys : Bool)
    (count : Int)
    (choice : Nat) : Checked (Pool k × PoolEvent k) :=
  if pool.waitQueue.threads thread = .idle ∧ pool.toBeWaited = 0 then
    .ok ({ pool with waitRunning := 0, mutex := none }.goOn thread
      (afterWait destroys), .waited thread count)
  else do
    let (waitQueue, rc) ←
      Ch.systemStep pool.waitQueue
        (Ch.getLabel pool.waitQueue thread choice)
    let pool := { pool with waitQueue }
    match fetched rc with
    | some tj => do
        let jobs ← pool.jobs.release (jobAt tj)
        .ok ({ pool with jobs, toBeWaited := pool.toBeWaited - 1 }.goOn
          thread (.collecting destroys (count + 1)),
          .collected thread (jobAt tj))
    | none =>
        .ok (pool, .nothing)

/-- The loop of `thp_queue_runner`, up to the call of the job. -/
def takeStep
    (pool : Pool k)
    (thread : Fin k)
    (choice : Nat) : Checked (Pool k × PoolEvent k) := do
  let (inQueue, rc) ←
    Ch.systemStep pool.inQueue (Ch.getLabel pool.inQueue thread choice)
  let pool := { pool with inQueue }
  if endsTransmission rc then
    .ok (pool.goOn thread .exited, .consumed thread)
  else
    match fetched rc with
    | some tj => do
        let run ← pool.jobs.read (jobAt tj)
        .ok (pool.goOn thread (.executing (jobAt tj)),
          .started thread (jobAt tj) run)
    | none =>
        .ok (pool, .nothing)

/-- The `ch_put` of `thp_queue_runner`, whose result nobody reads. -/
def handStep
    (pool : Pool k)
    (thread : Fin k)
    (job choice : Nat) : Checked (Pool k × PoolEvent k) := do
  let (waitQueue, rc) ←
    Ch.systemStep pool.waitQueue
      (putLabel pool.waitQueue thread (jobPointer job) choice)
  let pool := { pool with waitQueue }
  match rc with
  | .sleeps =>
      .ok (pool, .nothing)
  | _ =>
      .ok (pool.goOn thread .taking, .handed thread rc)

/-- The first loop of `thp_destroy`: a marker for each worker. -/
def sendStep
    (pool : Pool k)
    (thread : Fin k)
    (sent choice : Nat) : Checked (Pool k × PoolEvent k) :=
  if sent < pool.numThreads then do
    let (inQueue, rc) ←
      Ch.systemStep pool.inQueue
        (putLabel pool.inQueue thread Ch.chEndoftransmission choice)
    let pool := { pool with inQueue }
    match rc with
    | .sleeps =>
        .ok (pool, .nothing)
    | _ =>
        .ok (pool.goOn thread (.sending (sent + 1)), .nothing)
  else
    .ok (pool.goOn thread (.joining 0), .nothing)

/-- The worker has left its loop. -/
def Pool.hasExited
    (pool : Pool k)
    (worker : Nat) : Bool :=
  if inRange : worker < k then
    pool.activity ⟨worker, inRange⟩ = .exited
  else
    false

/-- The second loop of `thp_destroy`: join the workers, then wait. -/
def joinStep
    (pool : Pool k)
    (thread : Fin k)
    (joined : Nat) : Pool k × PoolEvent k :=
  if joined < pool.numThreads then
    if pool.hasExited joined then
      (pool.goOn thread (.joining (joined + 1)), .nothing)
    else
      (pool, .nothing)
  else
    (pool.goOn thread (.waiting true), .nothing)

/-- The next step of a thread inside the library. -/
def goStep
    (pool : Pool k)
    (thread : Fin k)
    (choice : Nat) : Checked (Pool k × PoolEvent k) :=
  match pool.activity thread with
  | .adding caller job point =>
      addStep pool thread caller job choice point
  | .waiting destroys =>
      .ok (waitStart pool thread destroys)
  | .collecting destroys count =>
      collectStep pool thread destroys count choice
  | .sending sent =>
      sendStep pool thread sent choice
  | .joining joined =>
      .ok (joinStep pool thread joined)
  | .taking =>
      takeStep pool thread choice
  | .handing job =>
      handStep pool thread job choice
  | _ =>
      .ok (pool, .nothing)

/--
One step.  Only a client outside the library makes a call, and only a job that
runs calls `thp_add` or ends; a label that asks for anything else does nothing.
-/
def poolStep
    (pool : Pool k) :
    PoolLabel k → Checked (Pool k × PoolEvent k)
  | .add thread funP funParam =>
      match pool.activity thread with
      | .outside =>
          .ok (addStart pool thread .client ⟨funP, funParam⟩)
      | .executing outer =>
          .ok (addStart pool thread (.job outer) ⟨funP, funParam⟩)
      | _ =>
          .ok (pool, .nothing)
  | .wait thread =>
      match pool.activity thread with
      | .outside =>
          .ok (pool.goOn thread (.waiting false), .nothing)
      | _ =>
          .ok (pool, .nothing)
  | .destroy thread =>
      match pool.activity thread with
      | .outside =>
          .ok (pool.goOn thread (.sending 0), .nothing)
      | _ =>
          .ok (pool, .nothing)
  | .go thread choice =>
      goStep pool thread choice
  | .finish thread =>
      match pool.activity thread with
      | .executing job =>
          .ok (pool.goOn thread (.handing job), .finished thread job)
      | _ =>
          .ok (pool, .nothing)
  | .wakeIn thread => do
      let (inQueue, _) ← Ch.systemStep pool.inQueue (.wake thread)
      .ok ({ pool with inQueue }, .nothing)
  | .wakeOut thread => do
      let (waitQueue, _) ← Ch.systemStep pool.waitQueue (.wake thread)
      .ok ({ pool with waitQueue }, .nothing)

/--
`thp_create`: the first `numThreads` threads are the workers, and the allocations
of jobs and of the two channels are granted as given.
-/
def thpCreate
    (numThreads clients : Nat)
    (jobGrants inGrants waitGrants : Nat → Bool) :
    Pool (numThreads + clients) where
  inQueue :=
    ⟨Ch.chCreate .voidp inGrants, fun _ => .idle⟩
  waitQueue :=
    ⟨Ch.chCreate .voidp waitGrants, fun _ => .idle⟩
  waitRunning :=
    0
  submitted :=
    0
  toBeWaited :=
    0
  mutex :=
    none
  numThreads :=
    numThreads
  jobs :=
    .empty jobGrants
  activity thread :=
    if thread < numThreads then
      .taking
    else
      .outside

/-- A pool whose allocations succeed. -/
def start (numThreads clients : Nat) : Pool (numThreads + clients) :=
  thpCreate numThreads clients (fun _ => true) (fun _ => true) fun _ => true

end Steps

end Clibs.Thp
