import Clibs.Thp.View

namespace Clibs.Thp

/-!
# Every step of the pool is a move

`Stands` ties a pool to the two lists that its channels hold.  A thread is
inside the input queue only in a worker's loop, and inside the completion queue
only in the loop of `thp_wait`; every job that is somewhere is still allocated.
-/

open Ch (ThreadState ChEvent Pipes)

/-- The pointer that stands for an entry of the input queue. -/
def entryPointer : Option Nat → Nat
  | none =>
      Ch.chEndoftransmission
  | some job =>
      jobPointer job

/-- Only threads in certain activities are inside the channel. -/
def InsideOnly
    {k : Nat}
    (allowed : Activity → Prop)
    (threads : Fin k → ThreadState)
    (activity : Fin k → Activity) : Prop :=
  ∀ thread, (threads thread).pending ≠ none → allowed (activity thread)

/-- The activity of the loop of `thp_wait`. -/
def Activity.collects (activity : Activity) : Prop :=
  ∃ destroys count, activity = .collecting destroys count

/-- The pool holds the lists in its channels. -/
structure Stands
    {k : Nat}
    (pool : Pool k)
    (queued : List (Option Nat))
    (done : List Nat) : Prop where
  inQueue : Pipes pool.inQueue (queued.map entryPointer)
  waitQueue : Pipes pool.waitQueue (done.map jobPointer)
  takers : InsideOnly (· = .taking) pool.inQueue.threads pool.activity
  collectors : InsideOnly Activity.collects pool.waitQueue.threads pool.activity
  grants : pool.jobs.AlwaysGrants
  single : (pool.view queued done).Single
  live :
    ∀ job, 0 < (pool.view queued done).copies job → pool.jobs.cell job ≠ none

/-- The step returns, makes a move, and leaves a pool that holds two lists. -/
def StepMoves
    {k : Nat}
    (pool : Pool k)
    (queued : List (Option Nat))
    (done : List Nat)
    (label : PoolLabel k)
    (code : Checked (Pool k × PoolEvent k)) : Prop :=
  ∃ next event nextQueued nextDone,
    code = .ok (next, event) ∧
      PoolMove (pool.view queued done) label event
        (next.view nextQueued nextDone) ∧
      Stands next nextQueued nextDone

section Pointers

@[simp] theorem jobAt_jobPointer
    (job : Nat) :
    jobAt (jobPointer job) = job := by
  simp [jobAt, jobPointer]

/-- A pointer to a job is not the marker. -/
theorem jobPointer_ne_marker
    (job : Nat) :
    jobPointer job ≠ Ch.chEndoftransmission := by
  simp only [jobPointer, Ch.chEndoftransmission]
  omega

/-- A pointer to a job is not `NULL`. -/
theorem jobPointer_ne_zero
    (job : Nat) :
    jobPointer job ≠ 0 := by
  simp only [jobPointer]
  omega

/-- What `ch_get` returns for a job. -/
theorem pointerCode_job
    (job : Nat) :
    Ch.pointerCode (jobPointer job) = Ch.chOk :=
  if_neg (jobPointer_ne_marker job)

/-- A thread that waits in no call is idle. -/
theorem idle_of_pending
    {state : ThreadState}
    (notPending : state.pending = none) :
    state = .idle := by
  cases state with
  | idle =>
      rfl
  | waiting pending stage =>
      cases notPending

/-- A thread that is elsewhere is not in the loop of `thp_wait`. -/
theorem not_collects
    {activity own : Activity}
    (isAt : activity = own)
    (isElse : ∀ destroys count, own ≠ .collecting destroys count) :
    ¬ activity.collects := by
  rintro ⟨destroys, count, collects⟩
  exact isElse destroys count (isAt.symm.trans collects)

end Pointers

section InsideOnly

variable {k : Nat} {allowed : Activity → Prop}
  {threads next : Fin k → ThreadState} {activity : Fin k → Activity}
  {thread : Fin k}

/-- A thread outside the allowed activities is not inside the channel. -/
theorem InsideOnly.idle
    (inside : InsideOnly allowed threads activity)
    (elsewhere : ¬ allowed (activity thread)) :
    threads thread = .idle := by
  apply idle_of_pending
  by_contra isPending
  exact elsewhere (inside thread isPending)

/-- One thread goes on, and no other enters the channel. -/
theorem InsideOnly.goOn
    {own : Activity}
    (inside : InsideOnly allowed threads activity)
    (others :
      ∀ other, other ≠ thread →
        (next other).pending = (threads other).pending)
    (stays : (next thread).pending ≠ none → allowed own) :
    InsideOnly allowed next (Function.update activity thread own) := by
  intro other isPending
  by_cases isThread : other = thread
  · subst isThread
    rw [Function.update_self]
    exact stays isPending
  · rw [Function.update_of_ne isThread]
    exact inside other (others other isThread ▸ isPending)

/-- A thread outside the channel goes on. -/
theorem InsideOnly.elsewhere
    (inside : InsideOnly allowed threads activity)
    (elsewhere : ¬ allowed (activity thread))
    (own : Activity) :
    InsideOnly allowed threads (Function.update activity thread own) := by
  refine inside.goOn (fun _ _ => rfl) ?_
  intro isPending
  rw [inside.idle elsewhere] at isPending
  exact (isPending rfl).elim

/-- A signal lets nobody into the channel. -/
theorem InsideOnly.signal
    (inside : InsideOnly allowed threads activity)
    (choice : Nat)
    (condvar : Option Ch.Condvar) :
    InsideOnly allowed (Ch.signal threads choice condvar) activity := by
  intro other isPending
  rw [Ch.signal_pending] at isPending
  exact inside other isPending

end InsideOnly

section Steps

variable {k : Nat} {pool : Pool k} {queued : List (Option Nat)}
  {done : List Nat} {thread : Fin k}

/-- The jobs that are somewhere after a move that creates none were before. -/
theorem Stands.live_of_move
    {label : PoolLabel k}
    {event : PoolEvent k}
    {next : View k}
    (stands : Stands pool queued done)
    (move : PoolMove (pool.view queued done) label event next)
    (sameFresh : next.fresh = pool.jobs.next)
    {job : Nat}
    (somewhere : 0 < next.copies job) :
    pool.jobs.cell job ≠ none := by
  have moved := move.copies job
  have noneFresh :
      ¬ ((pool.view queued done).fresh ≤ job ∧ job < next.fresh) := by
    rw [sameFresh]
    simp only [Pool.view]
    omega
  rw [if_neg noneFresh] at moved
  exact stands.live job (by omega)

/-- A step that does nothing. -/
theorem Stands.still
    (stands : Stands pool queued done)
    {label : PoolLabel k}
    {code : Checked (Pool k × PoolEvent k)}
    (returns : code = .ok (pool, .nothing)) :
    StepMoves pool queued done label code :=
  ⟨pool, .nothing, queued, done, returns, .still, stands⟩

/--
A thread outside the channels goes on, and the pool's own fields change, but not
the channels or the jobs.
-/
theorem Stands.goOn
    {label : PoolLabel k}
    {event : PoolEvent k}
    {code : Checked (Pool k × PoolEvent k)}
    {next : Pool k}
    {own : Activity}
    (stands : Stands pool queued done)
    (returns : code = .ok (next.goOn thread own, event))
    (move :
      PoolMove (pool.view queued done) label event
        ((next.goOn thread own).view queued done))
    (same :
      next.inQueue = pool.inQueue ∧ next.waitQueue = pool.waitQueue ∧
        next.jobs = pool.jobs ∧ next.activity = pool.activity)
    (notTaking : pool.activity thread ≠ .taking)
    (notCollecting :
      ¬ (pool.activity thread).collects ∨
        pool.waitQueue.threads thread = .idle) :
    StepMoves pool queued done label code := by
  obtain ⟨sameIn, sameWait, sameJobs, sameActivity⟩ := same
  refine ⟨next.goOn thread own, event, queued, done, returns, move, ?_⟩
  refine ⟨?_, ?_, ?_, ?_, ?_, stands.single.move move, ?_⟩
  · simp only [Pool.goOn, sameIn]
    exact stands.inQueue
  · simp only [Pool.goOn, sameWait]
    exact stands.waitQueue
  · simp only [Pool.goOn, sameIn, sameActivity]
    exact stands.takers.elsewhere notTaking own
  · simp only [Pool.goOn, sameWait, sameActivity]
    refine stands.collectors.goOn (fun _ _ => rfl) ?_
    intro isPending
    rcases notCollecting with elsewhere | isIdle
    · rw [stands.collectors.idle elsewhere] at isPending
      exact (isPending rfl).elim
    · rw [isIdle] at isPending
      exact (isPending rfl).elim
  · simp only [Pool.goOn, sameJobs]
    exact stands.grants
  · intro job somewhere
    simp only [Pool.goOn, sameJobs]
    exact stands.live_of_move move
      (by simp only [Pool.view, Pool.goOn, sameJobs]) somewhere

/-- The start of `thp_add`: a job is allocated. -/
theorem addStart_moves
    {caller : Caller}
    (stands : Stands pool queued done)
    (mayAdd : (pool.view queued done).maySubmit thread caller)
    (funP funParam : Nat) :
    StepMoves pool queued done (.add thread funP funParam)
      (.ok (addStart pool thread caller ⟨funP, funParam⟩)) := by
  have allocates :
      pool.jobs.allocate ⟨funP, funParam⟩ =
        (some pool.jobs.next, pool.jobs.store ⟨funP, funParam⟩) :=
    if_pos (stands.grants _)
  have move :
      PoolMove (pool.view queued done) (.add thread funP funParam) .nothing
        ((({ pool with jobs := pool.jobs.store ⟨funP, funParam⟩ } :
          Pool k).goOn thread
            (.adding caller pool.jobs.next .lock)).view queued done) :=
    .addStart mayAdd
  have isAt : pool.activity thread = caller.resumes :=
    mayAdd.resumes
  have notTaking : ¬ pool.activity thread = .taking := by
    rw [isAt]
    cases caller <;> simp [Caller.resumes]
  have notCollecting : ¬ (pool.activity thread).collects := by
    rw [isAt]
    rintro ⟨destroys, count, impossible⟩
    cases caller <;> cases impossible
  refine ⟨_, .nothing, queued, done, ?_, move, ?_⟩
  · simp only [addStart, allocates]
  · refine ⟨stands.inQueue, stands.waitQueue,
      stands.takers.elsewhere notTaking _,
      stands.collectors.elsewhere notCollecting _, stands.grants,
      stands.single.move move, ?_⟩
    intro job somewhere
    have moved := move.copies job
    by_cases isFresh : job = pool.jobs.next
    · subst isFresh
      simp [Pool.goOn, CellHeap.store]
    · have kept : (pool.jobs.store ⟨funP, funParam⟩).cell job =
          pool.jobs.cell job :=
        Function.update_of_ne isFresh _ _
      simp only [Pool.goOn, kept]
      rw [if_neg] at moved
      · exact stands.live job (by omega)
      · change ¬ (pool.jobs.next ≤ job ∧ job < pool.jobs.next + 1)
        omega

/-- A thread outside the channels puts an entry into the input queue. -/
theorem Stands.putIn
    (stands : Stands pool queued done)
    (entry : Option Nat)
    (own : Activity)
    (choice : Nat)
    (notTaking : pool.activity thread ≠ .taking)
    (notCollecting : ¬ (pool.activity thread).collects) :
    ∃ inQueue item code,
      Ch.systemStep pool.inQueue
          (putLabel pool.inQueue thread (entryPointer entry) choice) =
        .ok (inQueue, .linked item code) ∧
        ∀ label event,
          PoolMove (pool.view queued done) label event
              ((({ pool with inQueue } : Pool k).goOn thread own).view
                (queued ++ [entry]) done) →
            Stands (({ pool with inQueue } : Pool k).goOn thread own)
              (queued ++ [entry]) done := by
  have isIdle := stands.takers.idle notTaking
  have wanted : entryPointer entry ≠ 0 := by
    cases entry with
    | none =>
        decide
    | some job =>
        exact jobPointer_ne_zero job
  obtain ⟨inQueue, item, puts, pipes, threads⟩ :=
    stands.inQueue.put isIdle wanted choice
  refine ⟨inQueue, item, (queued.map entryPointer).length + 1, ?_, ?_⟩
  · rw [putLabel, isIdle]
    exact puts
  · intro label event move
    refine ⟨?_, stands.waitQueue, ?_,
      stands.collectors.elsewhere notCollecting own, stands.grants,
      stands.single.move move, ?_⟩
    · rw [List.map_append, List.map_singleton]
      exact pipes
    · simp only [Pool.goOn, threads]
      exact (stands.takers.signal choice _).elsewhere notTaking own
    · intro job somewhere
      exact stands.live_of_move move rfl somewhere

/-- A section of `thp_add`. -/
theorem addStep_moves
    {caller : Caller}
    {job choice : Nat}
    {point : AddPoint}
    (stands : Stands pool queued done)
    (isAt : pool.activity thread = .adding caller job point) :
    StepMoves pool queued done (.go thread choice)
      (addStep pool thread caller job choice point) := by
  have notTaking : pool.activity thread ≠ .taking := by
    simp [isAt]
  have notCollecting := not_collects isAt (by simp)
  cases point with
  | lock =>
      by_cases free : pool.mutex = none
      · exact stands.goOn (if_pos free) (.addLock isAt free)
          ⟨rfl, rfl, rfl, rfl⟩ notTaking (.inl notCollecting)
      · exact stands.still (if_neg free)
  | put =>
      obtain ⟨inQueue, item, code, puts, keeps⟩ :=
        stands.putIn (some job) (.adding caller job .count) choice notTaking
          notCollecting
      refine ⟨_, .nothing, queued ++ [some job], done, ?_, .addPut isAt,
        keeps (.go thread choice) .nothing (.addPut isAt)⟩
      have samePointer : entryPointer (some job) = jobPointer job :=
        rfl
      rw [samePointer] at puts
      rw [addStep, puts]
      rfl
  | count =>
      exact stands.goOn rfl (.addCount isAt) ⟨rfl, rfl, rfl, rfl⟩ notTaking
        (.inl notCollecting)
  | read =>
      exact stands.goOn rfl (.addRead isAt) ⟨rfl, rfl, rfl, rfl⟩ notTaking
        (.inl notCollecting)

/-- `thp_wait` up to its loop. -/
theorem waitStart_moves
    {destroys : Bool}
    (stands : Stands pool queued done)
    (isAt : pool.activity thread = .waiting destroys)
    (choice : Nat) :
    StepMoves pool queued done (.go thread choice)
      (.ok (waitStart pool thread destroys)) := by
  have notTaking : pool.activity thread ≠ .taking := by
    simp [isAt]
  have notCollecting := not_collects isAt (by simp)
  by_cases isFree : pool.mutex = none
  · by_cases isRunning : pool.waitRunning = 0
    · by_cases nothing : pool.toBeWaited = 0
      · have returns :
            waitStart pool thread destroys =
              (({ pool with waitRunning := 0 } : Pool k).goOn thread
                (afterWait destroys), .waited thread 0) := by
          simp [waitStart, isFree, isRunning, nothing]
        have move :
            PoolMove (pool.view queued done) (.go thread choice)
              (.waited thread 0)
              ((({ pool with waitRunning := 0 } : Pool k).goOn thread
                (afterWait destroys)).view queued done) := by
          have same : ({ pool with waitRunning := 0 } : Pool k) = pool := by
            rw [← isRunning]
          rw [same]
          exact .waitNothing isAt isFree isRunning nothing
        exact stands.goOn (congrArg Except.ok returns) move ⟨rfl, rfl, rfl, rfl⟩
          notTaking (.inl notCollecting)
      · have returns :
            waitStart pool thread destroys =
              (({ pool with waitRunning := 1, mutex := some thread } :
                Pool k).goOn thread (.collecting destroys 0), .nothing) := by
          simp [waitStart, isFree, isRunning, nothing]
        exact stands.goOn (congrArg Except.ok returns)
          (.waitLoop isAt isFree isRunning nothing) ⟨rfl, rfl, rfl, rfl⟩
          notTaking (.inl notCollecting)
    · have returns :
          waitStart pool thread destroys =
            (pool.goOn thread (afterWait destroys),
              .waited thread thpTooManyWait) := by
        simp [waitStart, isFree, isRunning]
      exact stands.goOn (congrArg Except.ok returns)
        (.waitRefused isAt isFree isRunning) ⟨rfl, rfl, rfl, rfl⟩
        notTaking (.inl notCollecting)
  · exact stands.still (by simp [waitStart, isFree])

/-- A thread inside a pipe sleeps, or can take a section of its get. -/
theorem canGet_or_asleep
    {system : Ch.System k}
    {pointers : List Nat}
    (pipes : Pipes system pointers)
    (thread : Fin k) :
    Ch.CanGet system thread ∨
      system.threads thread = .waiting .get .asleep := by
  cases isState : system.threads thread with
  | idle =>
      exact .inl (.inl isState)
  | waiting pending stage =>
      have isGet : pending = .get := by
        rcases pipes.pending thread with impossible | same
        · rw [isState] at impossible
          cases impossible
        · rw [isState] at same
          exact Option.some.inj same
      subst isGet
      cases stage with
      | asleep =>
          exact .inr rfl
      | notified =>
          exact .inl (.inr (.inl isState))
      | awake =>
          exact .inl (.inr (.inr isState))

/-- Of the workers that take from a queue with entries, one can take. -/
theorem Stands.someTaker
    (stands : Stands pool queued done)
    (someEntry : queued ≠ [])
    (isAt : pool.activity thread = .taking) :
    ∃ taker,
      pool.activity taker = .taking ∧ Ch.CanGet pool.inQueue taker := by
  rcases canGet_or_asleep stands.inQueue thread with canGet | isAsleep
  · exact ⟨thread, isAt, canGet⟩
  · have covered := stands.inQueue.covered ⟨thread, by rw [isAsleep]; rfl⟩
    rw [List.length_map] at covered
    have positive := List.length_pos_iff.mpr someEntry
    obtain ⟨taker, isNotified⟩ :=
      exists_of_tally_pos (Nat.lt_of_lt_of_le positive covered)
    have notified :
        ∃ pending, pool.inQueue.threads taker = .waiting pending .notified := by
      cases isState : pool.inQueue.threads taker with
      | idle =>
          rw [isState] at isNotified
          cases isNotified
      | waiting pending stage =>
          simp only [isState, ThreadState.waits, decide_eq_true_eq]
            at isNotified
          exact ⟨pending, by rw [isNotified.2]⟩
    obtain ⟨pending, isState⟩ := notified
    refine ⟨taker, stands.takers taker ?_, ?_⟩
    · rw [isState]
      intro impossible
      cases impossible
    · rcases canGet_or_asleep stands.inQueue taker with canGet | alsoAsleep
      · exact canGet
      · rw [isState] at alsoAsleep
        cases alsoAsleep

/-- A thread that sleeps in a pipe takes no section. -/
theorem getLabel_asleep
    {system : Ch.System k}
    (isAsleep : system.threads thread = .waiting .get .asleep)
    (choice : Nat) :
    Ch.systemStep system (Ch.getLabel system thread choice) =
      .ok (system, .nothing) := by
  rw [Ch.getLabel, isAsleep]
  simp only [Ch.systemStep, isAsleep]

/-- A thread moves inside the input queue, which keeps its entries. -/
theorem Stands.insideIn
    {inQueue : Ch.System k}
    {state : ThreadState}
    (stands : Stands pool queued done)
    (isAt : pool.activity thread = .taking)
    (pipes : Pipes inQueue (queued.map entryPointer))
    (threads :
      inQueue.threads = Function.update pool.inQueue.threads thread state) :
    Stands { pool with inQueue } queued done := by
  refine ⟨pipes, stands.waitQueue, ?_, stands.collectors, stands.grants,
    stands.single, stands.live⟩
  intro other isPending
  by_cases isThread : other = thread
  · subst isThread
    exact isAt
  · simp only [threads, Function.update_of_ne isThread] at isPending
    exact stands.takers other isPending

/-- A thread moves inside the completion queue, which keeps its jobs. -/
theorem Stands.insideOut
    {waitQueue : Ch.System k}
    {state : ThreadState}
    (stands : Stands pool queued done)
    (isAt : (pool.activity thread).collects)
    (pipes : Pipes waitQueue (done.map jobPointer))
    (threads :
      waitQueue.threads = Function.update pool.waitQueue.threads thread state) :
    Stands { pool with waitQueue } queued done := by
  refine ⟨stands.inQueue, pipes, stands.takers, ?_, stands.grants,
    stands.single, stands.live⟩
  intro other isPending
  by_cases isThread : other = thread
  · subst isThread
    exact isAt
  · simp only [threads, Function.update_of_ne isThread] at isPending
    exact stands.collectors other isPending

/-- A worker takes the first entry of the input queue. -/
theorem Stands.takeIn
    {entry : Option Nat}
    {rest : List (Option Nat)}
    (stands : Stands pool (entry :: rest) done)
    (isAt : pool.activity thread = .taking)
    (canGet : Ch.CanGet pool.inQueue thread)
    (own : Activity)
    (choice : Nat) :
    ∃ inQueue element,
      Ch.systemStep pool.inQueue (Ch.getLabel pool.inQueue thread choice) =
          .ok (inQueue, .taken (element, .pointer (entryPointer entry))
            (Ch.pointerCode (entryPointer entry))) ∧
        ∀ label event,
          PoolMove (pool.view (entry :: rest) done) label event
              ((({ pool with inQueue } : Pool k).goOn thread own).view
                rest done) →
            Stands (({ pool with inQueue } : Pool k).goOn thread own)
              rest done := by
  have notCollecting := not_collects isAt (by simp)
  obtain ⟨inQueue, element, takes, pipes, threads⟩ :=
    stands.inQueue.get_pointer canGet choice
  refine ⟨inQueue, element, takes, ?_⟩
  intro label event move
  refine ⟨pipes, stands.waitQueue, ?_,
    stands.collectors.elsewhere notCollecting own, stands.grants,
    stands.single.move move, ?_⟩
  · refine stands.takers.goOn ?_ ?_
    · intro other isOther
      simp only [Pool.goOn, threads, Function.update_of_ne isOther]
    · intro isPending
      simp only [Pool.goOn, threads, Function.update_self] at isPending
      exact (isPending rfl).elim
  · intro job somewhere
    exact stands.live_of_move move rfl somewhere

/-- A section of the loop of a worker, up to the call of the job. -/
theorem takeStep_moves
    (stands : Stands pool queued done)
    (isAt : pool.activity thread = .taking)
    (choice : Nat) :
    StepMoves pool queued done (.go thread choice)
      (takeStep pool thread choice) := by
  rcases canGet_or_asleep stands.inQueue thread with canGet | isAsleep
  · cases queued with
    | nil =>
        have pipes : Pipes pool.inQueue [] :=
          stands.inQueue
        obtain ⟨inQueue, sleeps, nextPipes, threads⟩ :=
          pipes.get_empty canGet choice
        refine ⟨{ pool with inQueue }, .nothing, [], done, ?_, .still,
          stands.insideIn isAt nextPipes threads⟩
        rw [takeStep, sleeps]
        rfl
    | cons entry rest =>
        cases entry with
        | none =>
            obtain ⟨inQueue, element, takes, keeps⟩ :=
              stands.takeIn isAt canGet .exited choice
            refine ⟨_, .consumed thread, rest, done, ?_, .exit isAt rfl,
              keeps (.go thread choice) (.consumed thread) (.exit isAt rfl)⟩
            rw [takeStep, takes]
            rfl
        | some job =>
            obtain ⟨inQueue, element, takes, keeps⟩ :=
              stands.takeIn isAt canGet (.executing job) choice
            have isSomewhere :
                0 < (pool.view (some job :: rest) done).copies job := by
              simp only [View.copies, Pool.view, List.count_cons_self]
              omega
            obtain ⟨run, isCell⟩ :=
              Option.ne_none_iff_exists'.mp (stands.live job isSomewhere)
            have reads : pool.jobs.read job = .ok run := by
              simp [CellHeap.read, isCell]
            refine ⟨_, .started thread job run, rest, done, ?_,
              .take isAt rfl,
              keeps (.go thread choice) (.started thread job run)
                (.take isAt rfl)⟩
            have isJob : entryPointer (some job) = jobPointer job :=
              rfl
            rw [isJob, pointerCode_job] at takes
            simp only [takeStep, takes, Checked.ok_bind, endsTransmission,
              fetched, ↓reduceIte, jobAt_jobPointer, reads]
            rfl
  · refine stands.still ?_
    rw [takeStep, getLabel_asleep isAsleep]
    rfl

/-- A section of the `ch_put` of a worker. -/
theorem handStep_moves
    {job : Nat}
    (stands : Stands pool queued done)
    (isAt : pool.activity thread = .handing job)
    (choice : Nat) :
    StepMoves pool queued done (.go thread choice)
      (handStep pool thread job choice) := by
  have notCollecting := not_collects isAt (by simp)
  have notTaking : pool.activity thread ≠ .taking := by
    simp [isAt]
  have isIdle := stands.collectors.idle notCollecting
  obtain ⟨waitQueue, item, puts, pipes, threads⟩ :=
    stands.waitQueue.put isIdle (jobPointer_ne_zero job) choice
  have move :
      PoolMove (pool.view queued done) (.go thread choice)
        (.handed thread (.linked item ((done.map jobPointer).length + 1)))
        ((({ pool with waitQueue } : Pool k).goOn thread .taking).view queued
          (done ++ [job])) :=
    .hand isAt
  refine ⟨_, _, queued, done ++ [job], ?_, move, ?_⟩
  · rw [handStep, putLabel, isIdle]
    simp only [puts, Checked.ok_bind]
  · refine ⟨stands.inQueue, ?_, ?_, ?_, stands.grants,
      stands.single.move move, ?_⟩
    · rw [List.map_append, List.map_singleton]
      exact pipes
    · exact stands.takers.elsewhere notTaking .taking
    · simp only [Pool.goOn, threads]
      exact (stands.collectors.signal choice _).elsewhere notCollecting .taking
    · intro other somewhere
      exact stands.live_of_move move rfl somewhere

/-- The loop of `thp_wait`: its test, or a section of its `ch_get`. -/
theorem collectStep_moves
    {destroys : Bool}
    {count : Int}
    (stands : Stands pool queued done)
    (isAt : pool.activity thread = .collecting destroys count)
    (choice : Nat) :
    StepMoves pool queued done (.go thread choice)
      (collectStep pool thread destroys count choice) := by
  have notTaking : pool.activity thread ≠ .taking := by
    simp [isAt]
  have collects : (pool.activity thread).collects :=
    ⟨destroys, count, isAt⟩
  by_cases finished :
      pool.waitQueue.threads thread = .idle ∧ pool.toBeWaited = 0
  · exact stands.goOn (if_pos finished) (.waitDone isAt finished.2)
      ⟨rfl, rfl, rfl, rfl⟩ notTaking (.inr finished.1)
  · rw [collectStep, if_neg finished]
    rcases canGet_or_asleep stands.waitQueue thread with canGet | isAsleep
    · cases done with
      | nil =>
          have pipes : Pipes pool.waitQueue [] :=
            stands.waitQueue
          obtain ⟨waitQueue, sleeps, nextPipes, threads⟩ :=
            pipes.get_empty canGet choice
          refine ⟨{ pool with waitQueue }, .nothing, queued, [], ?_, .still,
            stands.insideOut collects nextPipes threads⟩
          rw [sleeps]
          rfl
      | cons job rest =>
          have pipes : Pipes pool.waitQueue (jobPointer job :: rest.map jobPointer) :=
            stands.waitQueue
          obtain ⟨waitQueue, element, takes, nextPipes, threads⟩ :=
            pipes.get_pointer canGet choice
          have isSomewhere :
              0 < (pool.view queued (job :: rest)).copies job := by
            simp only [View.copies, Pool.view, List.count_cons_self]
            omega
          obtain ⟨run, isCell⟩ :=
            Option.ne_none_iff_exists'.mp (stands.live job isSomewhere)
          have releases :
              pool.jobs.release job = .ok (pool.jobs.retire job) := by
            simp [CellHeap.release, isCell]
          have move :
              PoolMove (pool.view queued (job :: rest)) (.go thread choice)
                (.collected thread job)
                ((({ pool with
                  waitQueue
                  jobs := pool.jobs.retire job
                  toBeWaited := pool.toBeWaited - 1 } : Pool k).goOn thread
                    (.collecting destroys (count + 1))).view queued rest) :=
            .collect isAt rfl
          refine ⟨_, _, queued, rest, ?_, move, ?_⟩
          · rw [pointerCode_job] at takes
            simp only [takes, Checked.ok_bind, fetched, ↓reduceIte,
              jobAt_jobPointer, releases]
          · refine ⟨stands.inQueue, nextPipes,
              stands.takers.elsewhere notTaking _, ?_, stands.grants,
              stands.single.move move, ?_⟩
            · refine stands.collectors.goOn ?_ ?_
              · intro other isOther
                simp only [Pool.goOn, threads, Function.update_of_ne isOther]
              · intro _
                exact ⟨destroys, count + 1, rfl⟩
            · intro other somewhere
              have stillLive := stands.live_of_move move rfl somewhere
              have isOther : other ≠ job := by
                rintro rfl
                have moved := move.copies other
                have once := stands.single.once other
                rw [if_neg, collectedOf, List.count_singleton_self] at moved
                · omega
                · change ¬ (pool.jobs.next ≤ other ∧ other < pool.jobs.next)
                  omega
              simp only [Pool.goOn, CellHeap.retire,
                Function.update_of_ne isOther]
              exact stillLive
    · refine stands.still ?_
      rw [getLabel_asleep isAsleep]
      rfl

/-- The first loop of `thp_destroy`. -/
theorem sendStep_moves
    {sent : Nat}
    (stands : Stands pool queued done)
    (isAt : pool.activity thread = .sending sent)
    (choice : Nat) :
    StepMoves pool queued done (.go thread choice)
      (sendStep pool thread sent choice) := by
  have notTaking : pool.activity thread ≠ .taking := by
    simp [isAt]
  have notCollecting := not_collects isAt (by simp)
  by_cases more : sent < pool.numThreads
  · obtain ⟨inQueue, item, code, puts, keeps⟩ :=
      stands.putIn none (.sending (sent + 1)) choice notTaking notCollecting
    have isMarker : entryPointer none = Ch.chEndoftransmission :=
      rfl
    refine ⟨_, .nothing, queued ++ [none], done, ?_, .send isAt more,
      keeps (.go thread choice) .nothing (.send isAt more)⟩
    rw [isMarker] at puts
    rw [sendStep, if_pos more, puts]
    rfl
  · exact stands.goOn (if_neg more) (.sent isAt (Nat.le_of_not_lt more))
      ⟨rfl, rfl, rfl, rfl⟩ notTaking (.inl notCollecting)

/-- The second loop of `thp_destroy`. -/
theorem joinStep_moves
    {joined : Nat}
    (stands : Stands pool queued done)
    (isAt : pool.activity thread = .joining joined)
    (choice : Nat) :
    StepMoves pool queued done (.go thread choice)
      (.ok (joinStep pool thread joined)) := by
  have notTaking : pool.activity thread ≠ .taking := by
    simp [isAt]
  have notCollecting := not_collects isAt (by simp)
  by_cases more : joined < pool.numThreads
  · cases exited : pool.hasExited joined with
    | true =>
        have hasExited : (pool.view queued done).hasExited joined := by
          unfold Pool.hasExited at exited
          split at exited
          next inRange =>
            exact ⟨inRange, of_decide_eq_true exited⟩
          next =>
            cases exited
        have returns :
            joinStep pool thread joined =
              (pool.goOn thread (.joining (joined + 1)), .nothing) := by
          simp [joinStep, more, exited]
        exact stands.goOn (congrArg Except.ok returns)
          (.join isAt more hasExited) ⟨rfl, rfl, rfl, rfl⟩ notTaking
          (.inl notCollecting)
    | false =>
        exact stands.still (by simp [joinStep, more, exited])
  · have returns :
        joinStep pool thread joined =
          (pool.goOn thread (.waiting true), .nothing) :=
      if_neg more
    exact stands.goOn (congrArg Except.ok returns)
      (.joined isAt (Nat.le_of_not_lt more)) ⟨rfl, rfl, rfl, rfl⟩ notTaking
      (.inl notCollecting)

/-- The next step of a thread inside the library. -/
theorem goStep_moves
    (stands : Stands pool queued done)
    (thread : Fin k)
    (choice : Nat) :
    StepMoves pool queued done (.go thread choice)
      (goStep pool thread choice) := by
  cases isAt : pool.activity thread with
  | adding caller job point =>
      simp only [goStep, isAt]
      exact addStep_moves stands isAt
  | waiting destroys =>
      simp only [goStep, isAt]
      exact waitStart_moves stands isAt choice
  | collecting destroys count =>
      simp only [goStep, isAt]
      exact collectStep_moves stands isAt choice
  | sending sent =>
      simp only [goStep, isAt]
      exact sendStep_moves stands isAt choice
  | joining joined =>
      simp only [goStep, isAt]
      exact joinStep_moves stands isAt choice
  | taking =>
      simp only [goStep, isAt]
      exact takeStep_moves stands isAt choice
  | handing job =>
      simp only [goStep, isAt]
      exact handStep_moves stands isAt choice
  | _ =>
      exact stands.still (by simp only [goStep, isAt])

/-- A thread that wakes on its own inside a pipe. -/
theorem wake_pipes
    {system : Ch.System k}
    {pointers : List Nat}
    (pipes : Pipes system pointers)
    (thread : Fin k) :
    Ch.systemStep system (.wake thread) = .ok (system, .nothing) ∨
      system.threads thread = .waiting .get .asleep ∧
        ∃ next,
          Ch.systemStep system (.wake thread) = .ok (next, .nothing) ∧
            Pipes next pointers ∧
            next.threads =
              Function.update system.threads thread (.waiting .get .awake) := by
  rcases canGet_or_asleep pipes thread with canGet | isAsleep
  · left
    rcases canGet with same | same | same <;>
      simp only [Ch.systemStep, same]
  · right
    refine ⟨isAsleep, _, ?_, pipes.wake isAsleep, rfl⟩
    simp only [Ch.systemStep, isAsleep]

/-- Every step of a pool that stands for two lists returns and is a move. -/
theorem poolStep_moves
    (stands : Stands pool queued done)
    (label : PoolLabel k) :
    StepMoves pool queued done label (poolStep pool label) := by
  cases label with
  | add thread funP funParam =>
      cases isAt : pool.activity thread with
      | outside =>
          have mayAdd : (pool.view queued done).maySubmit thread .client :=
            isAt
          simp only [poolStep, isAt]
          exact addStart_moves stands mayAdd funP funParam
      | executing outer =>
          have mayAdd : (pool.view queued done).maySubmit thread (.job outer) :=
            isAt
          simp only [poolStep, isAt]
          exact addStart_moves stands mayAdd funP funParam
      | _ =>
          exact stands.still (by simp only [poolStep, isAt])
  | wait thread =>
      cases isAt : pool.activity thread with
      | outside =>
          simp only [poolStep, isAt]
          have notCollecting := not_collects isAt (by simp)
          exact stands.goOn rfl (.waitCall isAt) ⟨rfl, rfl, rfl, rfl⟩
            (by simp [isAt]) (.inl notCollecting)
      | _ =>
          exact stands.still (by simp only [poolStep, isAt])
  | destroy thread =>
      cases isAt : pool.activity thread with
      | outside =>
          simp only [poolStep, isAt]
          have notCollecting := not_collects isAt (by simp)
          exact stands.goOn rfl (.destroyCall isAt) ⟨rfl, rfl, rfl, rfl⟩
            (by simp [isAt]) (.inl notCollecting)
      | _ =>
          exact stands.still (by simp only [poolStep, isAt])
  | go thread choice =>
      exact goStep_moves stands thread choice
  | finish thread =>
      cases isAt : pool.activity thread with
      | executing job =>
          simp only [poolStep, isAt]
          have notCollecting := not_collects isAt (by simp)
          exact stands.goOn rfl (.finish isAt) ⟨rfl, rfl, rfl, rfl⟩
            (by simp [isAt]) (.inl notCollecting)
      | _ =>
          exact stands.still (by simp only [poolStep, isAt])
  | wakeIn thread =>
      rcases wake_pipes stands.inQueue thread with
        stays | ⟨isAsleep, inQueue, wakes, pipes, threads⟩
      · refine stands.still ?_
        rw [poolStep, stays]
        rfl
      · have isAt : pool.activity thread = .taking :=
          stands.takers thread (by simp [isAsleep, ThreadState.pending])
        refine ⟨{ pool with inQueue }, .nothing, queued, done, ?_, .still,
          stands.insideIn isAt pipes threads⟩
        rw [poolStep, wakes]
        rfl
  | wakeOut thread =>
      rcases wake_pipes stands.waitQueue thread with
        stays | ⟨isAsleep, waitQueue, wakes, pipes, threads⟩
      · refine stands.still ?_
        rw [poolStep, stays]
        rfl
      · have isAt : (pool.activity thread).collects :=
          stands.collectors thread (by simp [isAsleep, ThreadState.pending])
        refine ⟨{ pool with waitQueue }, .nothing, queued, done, ?_, .still,
          stands.insideOut isAt pipes threads⟩
        rw [poolStep, wakes]
        rfl

/-- A new pool holds nothing. -/
theorem start_stands
    (numThreads clients : Nat) :
    Stands (start numThreads clients) [] [] := by
  have noCopies :
      ∀ job, ((start numThreads clients).view [] []).copies job = 0 := by
    intro job
    have nobody :
        ∀ kind : Activity → Bool,
          kind .taking = false →
          kind .outside = false →
          tally kind (start numThreads clients).activity = 0 := by
      intro kind isTaking isOutside
      apply tally_eq_zero
      intro thread
      simp only [start, thpCreate]
      split
      · exact isTaking
      · exact isOutside
    simp only [View.copies, Pool.view, List.count_nil]
    rw [nobody _ rfl rfl, nobody _ rfl rfl, nobody _ rfl rfl]
  refine ⟨Ch.pipes_new _, Ch.pipes_new _, ?_, ?_, fun _ => rfl,
    ⟨?_, fun job _ => noCopies job⟩, ?_⟩
  · intro thread isPending
    exact (isPending rfl).elim
  · intro thread isPending
    exact (isPending rfl).elim
  · intro job
    rw [noCopies job]
    exact Nat.zero_le 1
  · intro job somewhere
    rw [noCopies job] at somewhere
    exact (Nat.lt_irrefl 0 somewhere).elim

end Steps

end Clibs.Thp
