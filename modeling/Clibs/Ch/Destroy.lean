import Clibs.Ch.Administration

namespace Clibs.Ch

/-!
# Tearing a channel down

`ch_destroy` takes the mutex only inside `ch_clean`; it marks the handle, reads
the mode and polls the count of waiting getters without it.  A thread that comes
back from `pthread_cond_wait` therefore shows itself twice: it counts itself out
of the waiters in one step and tests its condition in the next, holding the
mutex in between.
-/

/-- Where the thread that calls `ch_destroy` is. -/
inductive DestroyPoint where
  | clean
  | mark
  | test
  | poll
  | broadcast
  | past
  | refused
  deriving Repr, DecidableEq

/--
A channel in the hands of `ch_destroy`: the threads that are inside its calls,
the one of them that holds the mutex, and the getters that the broadcast woke.
-/
structure Teardown (n : Nat) where
  ch : ChH
  threads : Fin n → ThreadState
  holder : Option (Fin n)
  point : DestroyPoint
  woken : Fin n → Bool

/-- A step of `ch_destroy` or of a thread that is inside a call. -/
inductive TeardownLabel (n : Nat) where
  | destroy
  | enter (thread : Fin n)
  | retest (choice : Nat)
  | wake (thread : Fin n)
  deriving Repr, DecidableEq

/-- `pthread_cond_broadcast`. -/
def broadcast
    {n : Nat}
    (condvar : Condvar)
    (threads : Fin n → ThreadState) : Fin n → ThreadState :=
  fun thread =>
    if (threads thread).waits condvar .asleep then
      (threads thread).notify
    else
      threads thread

/-- The getters are woken, and the count of waiters is polled again. -/
def Teardown.rouse
    {n : Nat}
    (teardown : Teardown n) : Teardown n :=
  { teardown with
    threads := broadcast .get teardown.threads
    woken := fun thread =>
      teardown.woken thread ||
        (teardown.threads thread).waits .get .asleep
    point := .poll }

/-- The next step of `ch_destroy`. -/
def destroyStep
    {n : Nat}
    (teardown : Teardown n) : Checked (Teardown n × ChEvent) :=
  match teardown.point with
  | .clean =>
      if teardown.ch.magic ≠ chMagicId then
        .ok ({ teardown with point := .refused }, .returned chBadHandle)
      else
        match teardown.holder with
        | some _ =>
            .ok (teardown, .nothing)
        | none => do
            let (ch, event, _) ← chClean teardown.ch false
            .ok ({ teardown with ch, point := .mark }, event)
  | .mark =>
      .ok ({ teardown with
        ch := { teardown.ch with magic := 0xD }
        point := .test }, .nothing)
  | .test =>
      .ok ({ teardown with
        point := if teardown.ch.blocking then .poll else .past }, .nothing)
  | .poll =>
      .ok ({ teardown with
        point :=
          if teardown.ch.getWaitingThreads > 0 then .broadcast else .past },
        .nothing)
  | .broadcast =>
      .ok (teardown.rouse, .nothing)
  | .past =>
      .ok (teardown, .nothing)
  | .refused =>
      .ok (teardown, .nothing)

/-- The wait loop of a call, from its test on. -/
def retestSection
    (ch : ChH) : Pending → Checked Section
  | .put element block place =>
      chPutLoop ch element block place
  | .get =>
      chGetLoop ch

/-- A thread takes the mutex back and counts itself out of the waiters. -/
def enterStep
    {n : Nat}
    (teardown : Teardown n)
    (thread : Fin n)
    (pending : Pending) : Checked (Teardown n × ChEvent) :=
  match teardown.point, teardown.holder with
  | .past, _ =>
      .error .useAfterFree
  | _, some _ =>
      .ok (teardown, .nothing)
  | _, none =>
      .ok ({ teardown with
        ch := teardown.ch.dropWaiter pending.condvar
        holder := some thread }, .nothing)

/-- The thread that holds the mutex goes on to its next wait or its return. -/
def retestStep
    {n : Nat}
    (teardown : Teardown n)
    (choice : Nat)
    (thread : Fin n)
    (pending : Pending) : Checked (Teardown n × ChEvent) :=
  if teardown.point = .past then
    .error .useAfterFree
  else do
    let done ← retestSection teardown.ch pending
    let (system, event) := finish teardown.threads thread choice pending done
    .ok ({ teardown with
      ch := system.ch
      threads := system.threads
      holder := none }, event)

/--
One step.  A thread that touches the channel after `ch_destroy` went past its
wake-up loop uses a destroyed mutex.
-/
def teardownStep
    {n : Nat}
    (teardown : Teardown n) :
    TeardownLabel n → Checked (Teardown n × ChEvent)
  | .destroy =>
      destroyStep teardown
  | .enter thread =>
      match teardown.threads thread with
      | .waiting pending .notified =>
          enterStep teardown thread pending
      | .waiting pending .awake =>
          enterStep teardown thread pending
      | _ =>
          .ok (teardown, .nothing)
  | .retest choice =>
      match teardown.holder with
      | none =>
          .ok (teardown, .nothing)
      | some thread =>
          match teardown.threads thread with
          | .waiting pending _ =>
              retestStep teardown choice thread pending
          | .idle =>
              .ok (teardown, .nothing)
  | .wake thread =>
      match teardown.threads thread with
      | .waiting pending .asleep =>
          .ok ({ teardown with
            threads :=
              Function.update teardown.threads thread
                (.waiting pending .awake) }, .nothing)
      | _ =>
          .ok (teardown, .nothing)

/-- A thread calls `ch_destroy` on a channel that others may be inside. -/
def destroying
    {n : Nat}
    (system : System n) : Teardown n where
  ch :=
    system.ch
  threads :=
    system.threads
  holder :=
    none
  point :=
    .clean
  woken _ :=
    false

/--
The waiters are released: once `ch_destroy` is past its wake-up loop no thread
is inside a call, and no getter that its broadcast woke sleeps again.
-/
structure Releases
    {n : Nat}
    (teardown : Teardown n) : Prop where
  gone :
    teardown.point = .past →
    ∀ thread, teardown.threads thread = .idle
  leaves :
    ∀ thread,
      teardown.woken thread = true →
      teardown.threads thread ≠ .waiting .get .asleep

section Teardown

variable {n : Nat}

/-- While every thread is idle, a step leaves them so. -/
theorem idle_of_step
    {teardown next : Teardown n}
    {label : TeardownLabel n}
    {event : ChEvent}
    (allIdle :
      (∀ thread, teardown.threads thread = .idle) ∧
        ∀ thread, teardown.woken thread = false)
    (steps : teardownStep teardown label = .ok (next, event)) :
    (∀ thread, next.threads thread = .idle) ∧
      ∀ thread, next.woken thread = false := by
  obtain ⟨idle, noneWoken⟩ := allIdle
  cases label with
  | destroy =>
      simp only [teardownStep, destroyStep] at steps
      cases isPoint : teardown.point with
      | clean =>
          simp only [isPoint] at steps
          split_ifs at steps
          · cases steps
            exact ⟨idle, noneWoken⟩
          · cases isHolder : teardown.holder with
            | some holder =>
                simp only [isHolder] at steps
                cases steps
                exact ⟨idle, noneWoken⟩
            | none =>
                simp only [isHolder] at steps
                obtain ⟨⟨ch, done, signals⟩, -, same⟩ :=
                  Checked.bind_eq_ok.mp steps
                cases same
                exact ⟨idle, noneWoken⟩
      | broadcast =>
          simp only [isPoint] at steps
          cases steps
          simp [Teardown.rouse, broadcast, idle, ThreadState.waits, noneWoken]
      | _ =>
          simp only [isPoint] at steps
          cases steps
          exact ⟨idle, noneWoken⟩
  | enter thread =>
      simp only [teardownStep, idle] at steps
      cases steps
      exact ⟨idle, noneWoken⟩
  | retest choice =>
      simp only [teardownStep] at steps
      cases isHolder : teardown.holder with
      | none =>
          simp only [isHolder] at steps
          cases steps
          exact ⟨idle, noneWoken⟩
      | some thread =>
          simp only [isHolder, idle] at steps
          cases steps
          exact ⟨idle, noneWoken⟩
  | wake thread =>
      simp only [teardownStep, idle] at steps
      cases steps
      exact ⟨idle, noneWoken⟩

/-- While nobody is inside a call, every run of the tear-down releases. -/
theorem releases_of_idle
    {system : System n}
    (allIdle : ∀ thread, system.threads thread = .idle)
    {steps : List (TeardownLabel n)}
    {final : Teardown n}
    {events : List ChEvent}
    (runs :
      runCalls teardownStep (destroying system) steps = .ok (final, events)) :
    Releases final := by
  have permitted :
      AlwaysAllowed (StepOf teardownStep)
        (fun (_ : Teardown n) (_ : TeardownLabel n) => True)
        (destroying system) steps :=
    alwaysAllowed_of_forall (fun _ _ _ => trivial) _
  obtain ⟨idle, noneWoken⟩ :=
    runCalls_keeps (fun holds _ steps => idle_of_step holds steps)
      (⟨allIdle, fun _ => rfl⟩ :
        (∀ thread, (destroying system).threads thread = .idle) ∧
          ∀ thread, (destroying system).woken thread = false)
      permitted runs
  refine ⟨fun _ => idle, ?_⟩
  intro thread isWoken
  rw [noneWoken thread] at isWoken
  cases isWoken

/-- The tear-down once the queue is clean, the handle marked and the mode read. -/
structure Polls
    (system : System n)
    (teardown : Teardown n) : Prop where
  count : teardown.ch.count = 0
  waiting : teardown.ch.getWaitingThreads = system.ch.getWaitingThreads
  threads : teardown.threads = system.threads
  holder : teardown.holder = none
  point :
    teardown.point = if system.ch.blocking then .poll else .past

/-- `ch_destroy` cleans, marks and reads the mode without meeting anybody. -/
theorem destroy_polls
    {settings : Settings}
    {system : System n}
    {state : Fifo n}
    (carries : Carries settings system state) :
    ∃ teardown events,
      runCalls teardownStep (destroying system) [.destroy, .destroy, .destroy] =
          .ok (teardown, events) ∧
        Polls system teardown := by
  have holds := carries.intact.holds
  have notRequested : false = true → settings.datalen = .voidp :=
    fun impossible => nomatch impossible
  obtain ⟨next, cleans, nextHolds, -, -, -, waiting⟩ :=
    chClean_spec holds carries.intact.owns notRequested
  have accepted : ¬ system.ch.magic ≠ chMagicId :=
    not_not_intro holds.magic
  have sameMode : next.blocking = system.ch.blocking := by
    rw [nextHolds.blocking, holds.blocking]
  have cleaned :
      teardownStep (destroying system) .destroy =
        .ok (⟨next, system.threads, none, .mark, fun _ => false⟩,
          .cleaned state.queue
            (deletedFrom settings.datalen false state.queue) chOk) := by
    simp only [teardownStep, destroyStep, destroying, if_neg accepted,
      cleans, Checked.ok_bind]
  have marked :
      teardownStep
          (⟨next, system.threads, none, .mark, fun _ => false⟩ : Teardown n)
          .destroy =
        .ok (⟨{ next with magic := 0xD }, system.threads, none, .test,
          fun _ => false⟩, .nothing) :=
    rfl
  have tested :
      teardownStep
          (⟨{ next with magic := 0xD }, system.threads, none, .test,
            fun _ => false⟩ : Teardown n)
          .destroy =
        .ok (⟨{ next with magic := 0xD }, system.threads, none,
          if system.ch.blocking then .poll else .past, fun _ => false⟩,
          .nothing) := by
    rw [← sameMode]
    rfl
  exact ⟨_, _, runCalls_cons cleaned (runCalls_cons marked
    (runCalls_cons tested rfl)),
    ⟨nextHolds.count, waiting .get, rfl, rfl, rfl⟩⟩

/-- A poll that finds no getter lets `ch_destroy` past its loop. -/
theorem destroy_past
    {teardown : Teardown n}
    (isPoint : teardown.point = .poll)
    (noGetter : ¬ teardown.ch.getWaitingThreads > 0) :
    teardownStep teardown .destroy =
      .ok ({ teardown with point := .past }, .nothing) := by
  simp only [teardownStep, destroyStep, isPoint, if_neg noGetter]

/-- A poll that finds a getter is followed by a broadcast, and by a poll. -/
theorem destroy_broadcasts
    {teardown : Teardown n}
    (isPoint : teardown.point = .poll)
    (getters : teardown.ch.getWaitingThreads > 0) :
    runCalls teardownStep teardown [.destroy, .destroy] =
      .ok (teardown.rouse, [.nothing, .nothing]) := by
  have polled :
      teardownStep teardown .destroy =
        .ok ({ teardown with point := .broadcast }, .nothing) := by
    simp only [teardownStep, destroyStep, isPoint, if_pos getters]
  exact runCalls_cons polled (runCalls_cons rfl rfl)

/-- A getter that comes back to an empty queue sleeps again. -/
theorem getter_resleeps
    {teardown : Teardown n}
    {thread : Fin n}
    (notPast : teardown.point ≠ .past)
    (free : teardown.holder = none)
    (empty : teardown.ch.count = 0)
    (isBack :
      teardown.threads thread = .waiting .get .notified ∨
        teardown.threads thread = .waiting .get .awake) :
    ∃ events,
      runCalls teardownStep teardown [.enter thread, .retest 0] =
        .ok ({ teardown with
          threads :=
            Function.update teardown.threads thread
              (.waiting .get .asleep) }, events) := by
  have entered :
      teardownStep teardown (.enter thread) =
        .ok ({ teardown with
          ch := teardown.ch.dropWaiter .get
          holder := some thread }, .nothing) := by
    have enters :
        enterStep teardown thread .get =
          .ok ({ teardown with
            ch := teardown.ch.dropWaiter .get
            holder := some thread }, .nothing) := by
      cases isPoint : teardown.point with
      | past =>
          exact (notPast isPoint).elim
      | _ =>
          simp only [enterStep, isPoint, free, Pending.condvar]
    rcases isBack with same | same <;>
      simp only [teardownStep, same, enters]
  have sleeps :
      retestSection (teardown.ch.dropWaiter .get) .get =
        .ok (teardown.ch, .sleeps, none) := by
    have dropped : (teardown.ch.dropWaiter .get).count = 0 :=
      empty
    rw [retestSection, chGetLoop, if_pos dropped]
    simp [ChH.dropWaiter]
  have retested :
      teardownStep
          { teardown with
            ch := teardown.ch.dropWaiter .get
            holder := some thread }
          (.retest 0) =
        .ok ({ teardown with
          threads :=
            Function.update teardown.threads thread
              (.waiting .get .asleep) }, .sleeps) := by
    rcases isBack with same | same <;>
      simp only [teardownStep, same, retestStep, if_neg notPast, sleeps,
        Checked.ok_bind, finish, signal, ThreadState.afterSection, free]
  exact ⟨_, runCalls_cons entered (runCalls_cons retested rfl)⟩

/-- A getter that sleeps at a poll is woken and sleeps again. -/
theorem sleeper_resleeps
    {teardown : Teardown n}
    {thread : Fin n}
    (isPoint : teardown.point = .poll)
    (free : teardown.holder = none)
    (empty : teardown.ch.count = 0)
    (getters : teardown.ch.getWaitingThreads > 0)
    (isAsleep : teardown.threads thread = .waiting .get .asleep) :
    ∃ steps final events,
      runCalls teardownStep teardown steps = .ok (final, events) ∧
        ¬ Releases final := by
  have isWoken :
      teardown.rouse.threads thread = .waiting .get .notified := by
    simp [Teardown.rouse, broadcast, isAsleep, ThreadState.waits,
      ThreadState.notify, Pending.condvar]
  have notPast : teardown.rouse.point ≠ .past := by
    simp [Teardown.rouse]
  have stillFree : teardown.rouse.holder = none :=
    free
  have stillEmpty : teardown.rouse.ch.count = 0 :=
    empty
  obtain ⟨events, resleeps⟩ :=
    getter_resleeps notPast stillFree stillEmpty (.inl isWoken)
  refine ⟨_, _, _,
    runCalls_append (destroy_broadcasts isPoint getters) resleeps, ?_⟩
  intro releases
  refine releases.leaves thread ?_ ?_
  · simp [Teardown.rouse, isAsleep, ThreadState.waits, Pending.condvar]
  · simp

/-- With a getter inside its call, a woken getter sleeps again in some run. -/
theorem getter_strands
    {settings : Settings}
    {system : System n}
    {state : Fifo n}
    {teardown : Teardown n}
    (carries : Carries settings system state)
    (polls : Polls system teardown)
    (isPoll : teardown.point = .poll)
    (getters : teardown.ch.getWaitingThreads > 0) :
    ∃ steps final events,
      runCalls teardownStep teardown steps = .ok (final, events) ∧
        ¬ Releases final := by
  have counted : system.ch.getWaitingThreads =
      tally (waitsFor .get) state.pending :=
    carries.intact.waiting .get
  have positive : 0 < tally (waitsFor .get) state.pending := by
    have same := polls.waiting
    omega
  obtain ⟨thread, waits⟩ := exists_of_tally_pos positive
  rw [← carries.pending, ← polls.threads] at waits
  cases isState : teardown.threads thread with
  | idle =>
      rw [isState] at waits
      cases waits
  | waiting pending stage =>
      rw [isState] at waits
      cases pending with
      | put element block place =>
          cases waits
      | get =>
          by_cases isAsleep : stage = .asleep
          · subst isAsleep
            exact sleeper_resleeps isPoll polls.holder polls.count getters
              isState
          · have isBack :
                teardown.threads thread = .waiting .get .notified ∨
                  teardown.threads thread = .waiting .get .awake := by
              rw [isState]
              cases stage with
              | asleep =>
                  exact (isAsleep rfl).elim
              | notified =>
                  exact .inl rfl
              | awake =>
                  exact .inr rfl
            have notPast : teardown.point ≠ .past := by
              simp [isPoll]
            obtain ⟨events, resleeps⟩ :=
              getter_resleeps notPast polls.holder polls.count isBack
            let asleep : Teardown n :=
              { teardown with
                threads :=
                  Function.update teardown.threads thread
                    (.waiting .get .asleep) }
            have stillPoll : asleep.point = .poll :=
              isPoll
            have stillFree : asleep.holder = none :=
              polls.holder
            have stillEmpty : asleep.ch.count = 0 :=
              polls.count
            have nowAsleep : asleep.threads thread = .waiting .get .asleep :=
              Function.update_self _ _ _
            obtain ⟨steps, final, later, laterRuns, strands⟩ :=
              sleeper_resleeps stillPoll stillFree stillEmpty getters nowAsleep
            exact ⟨_, final, _, runCalls_append resleeps laterRuns, strands⟩

/-- With a thread inside a call, some run of the tear-down does not release. -/
theorem not_releases_of_inside
    {settings : Settings}
    {system : System n}
    {state : Fifo n}
    (carries : Carries settings system state)
    {thread : Fin n}
    (inside : system.threads thread ≠ .idle) :
    ∃ steps final events,
      runCalls teardownStep (destroying system) steps = .ok (final, events) ∧
        ¬ Releases final := by
  obtain ⟨teardown, events, runs, polls⟩ := destroy_polls carries
  have stays : teardown.threads thread ≠ .idle := by
    rw [polls.threads]
    exact inside
  cases isMode : system.ch.blocking with
  | false =>
      refine ⟨_, teardown, events, runs, ?_⟩
      intro releases
      refine stays (releases.gone ?_ thread)
      rw [polls.point, isMode]
      rfl
  | true =>
      have isPoll : teardown.point = .poll := by
        rw [polls.point, isMode]
        rfl
      by_cases getters : teardown.ch.getWaitingThreads > 0
      · obtain ⟨steps, final, later, laterRuns, strands⟩ :=
          getter_strands carries polls isPoll getters
        exact ⟨_, final, _, runCalls_append runs laterRuns, strands⟩
      · have passes :
            runCalls teardownStep teardown [.destroy] =
              .ok ({ teardown with point := .past }, [.nothing]) :=
          runCalls_cons (destroy_past isPoll getters) rfl
        refine ⟨_, _, _, runCalls_append runs passes, ?_⟩
        intro releases
        exact stays (releases.gone rfl thread)

/--
A tear-down releases the waiters in every interleaving exactly when no thread is
inside a call of the channel when `ch_destroy` is called.
-/
theorem destroy_releases_iff
    (n : Nat)
    (settings : Settings)
    (labels : List (Label n))
    {system : System n}
    {events : List ChEvent}
    (safe :
      AlwaysAllowed (StepOf systemStep) PeekSafe (start n settings) labels)
    (runs :
      runCalls systemStep (start n settings) labels = .ok (system, events)) :
    (∀ steps final outcomes,
      runCalls teardownStep (destroying system) steps =
          .ok (final, outcomes) →
        Releases final) ↔
      ∀ thread, system.threads thread = .idle := by
  constructor
  · intro releases thread
    by_contra inside
    obtain ⟨reached, _, sameRun, _, _, carries⟩ :=
      runCalls_invariant step_of_carried (start_isCarried n settings) safe
    cases runs.symm.trans sameRun
    obtain ⟨steps, final, outcomes, teardownRuns, strands⟩ :=
      not_releases_of_inside carries inside
    exact strands (releases steps final outcomes teardownRuns)
  · intro allIdle steps final outcomes teardownRuns
    exact releases_of_idle allIdle teardownRuns

attribute [local instance] neZero_one neZero_two

/-- A put and a get, after which nobody is inside a call. -/
def emptiedRun : List (Label 1) :=
  [.call 0 (.put ⟨100, [1]⟩ .std) 0, .call 0 (.get 1) 0]

/-- The tear-down of a channel that nobody is inside releases. -/
theorem destroy_releases_emptied :
    ∃ system events,
      runCalls systemStep (start 1 ⟨.voidp, true, 0⟩) emptiedRun =
          .ok (system, events) ∧
        ((∀ steps final outcomes,
            runCalls teardownStep (destroying system) steps =
                .ok (final, outcomes) →
              Releases final) ↔
          ∀ thread, system.threads thread = .idle) :=
  ⟨_, _, rfl, destroy_releases_iff 1 ⟨.voidp, true, 0⟩ emptiedRun
    (.step rfl trivial (.step rfl trivial trivial)) rfl⟩

/-- A getter sleeps on an empty channel. -/
def sleepingGetterRun : List (Label 1) :=
  [.call 0 (.get 1) 0]

/-- The getter is woken by the broadcast and tests the queue again. -/
def wakingTeardown : List (TeardownLabel 1) :=
  [.destroy, .destroy, .destroy, .destroy, .destroy, .enter 0, .retest 0]

/-- A putter sleeps on a full channel. -/
def sleepingPutterRun : List (Label 2) :=
  [.call 0 (.put ⟨100, [1]⟩ .std) 0, .call 1 (.put ⟨200, [2]⟩ .std) 0]

/-- The poll finds no getter. -/
def passingTeardown : List (TeardownLabel 2) :=
  [.destroy, .destroy, .destroy, .destroy]

/-- A run of the system, and then one of the tear-down. -/
def destroyedAfter
    (settings : Settings)
    (labels : List (Label n))
    (steps : List (TeardownLabel n)) :
    Checked (Teardown n × List ChEvent) := do
  let (system, _) ← runCalls systemStep (start n settings) labels
  runCalls teardownStep (destroying system) steps

/-- A tear-down with a run that does not release the waiters. -/
theorem strands_of_destroyedAfter
    {Seen : Type}
    {settings : Settings}
    {labels : List (Label n)}
    {steps : List (TeardownLabel n)}
    {seenAfter : Teardown n × List ChEvent → Seen}
    {seen : Seen}
    (saw : (seenAfter <$> destroyedAfter settings labels steps) = .ok seen)
    (strands : ∀ outcome, seenAfter outcome = seen → ¬ Releases outcome.1) :
    ∃ system events,
      runCalls systemStep (start n settings) labels = .ok (system, events) ∧
        ¬ ∀ steps final outcomes,
          runCalls teardownStep (destroying system) steps =
              .ok (final, outcomes) →
            Releases final := by
  obtain ⟨⟨final, outcomes⟩, destroyed, isSeen⟩ := Checked.map_eq_ok.mp saw
  obtain ⟨⟨system, events⟩, runs, teardownRuns⟩ :=
    Checked.bind_eq_ok.mp destroyed
  refine ⟨system, events, runs, ?_⟩
  intro releases
  exact strands _ isSeen (releases steps final outcomes teardownRuns)

/--
A getter that the broadcast of `ch_destroy` wakes sleeps again on the emptied
queue, and `ch_destroy` goes past its wake-up loop with a putter asleep inside
`ch_put`.
-/
theorem destroy_strands :
    (∃ system events,
      runCalls systemStep (start 1 ⟨.voidp, true, 0⟩) sleepingGetterRun =
          .ok (system, events) ∧
        ¬ ∀ steps final outcomes,
          runCalls teardownStep (destroying system) steps =
              .ok (final, outcomes) →
            Releases final) ∧
      ∃ system events,
        runCalls systemStep (start 2 ⟨.voidp, true, 1⟩) sleepingPutterRun =
            .ok (system, events) ∧
          ¬ ∀ steps final outcomes,
            runCalls teardownStep (destroying system) steps =
                .ok (final, outcomes) →
              Releases final := by
  constructor
  · have sleepsAgain :
        ((fun outcome => (outcome.1.threads 0, outcome.1.woken 0)) <$>
            destroyedAfter ⟨.voidp, true, 0⟩ sleepingGetterRun
              wakingTeardown) =
          .ok (.waiting .get .asleep, true) :=
      rfl
    refine strands_of_destroyedAfter sleepsAgain ?_
    intro outcome seen releases
    obtain ⟨isAsleep, isWoken⟩ := Prod.mk.inj seen
    exact releases.leaves 0 isWoken isAsleep
  · have passes :
        ((fun outcome => (outcome.1.point, outcome.1.threads 1)) <$>
            destroyedAfter ⟨.voidp, true, 1⟩ sleepingPutterRun
              passingTeardown) =
          .ok (.past, .waiting (.put 1 ⟨200, [2]⟩ .std) .asleep) :=
      rfl
    refine strands_of_destroyedAfter passes ?_
    intro outcome seen releases
    obtain ⟨isPast, isAsleep⟩ := Prod.mk.inj seen
    have gone := releases.gone isPast 1
    rw [isAsleep] at gone
    cases gone

end Teardown

end Clibs.Ch
