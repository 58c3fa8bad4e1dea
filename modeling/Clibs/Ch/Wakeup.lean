import Clibs.Ch.Refinement

namespace Clibs.Ch

/-!
# No wakeup is lost

In a blocking channel a getter sleeps only while enough notified getters are on
their way to take every element, and a putter only while enough notified
putters are on their way to fill the room.  A section changes the queue by one
element and, when somebody sleeps, notifies one more thread; the thread that
moved was at most one of the notified ones.
-/

/-- The number of threads that were notified of a condition. -/
def notifiedOf
    {n : Nat}
    (condvar : Condvar)
    (threads : Fin n → ThreadState) : Nat :=
  tally (ThreadState.waits condvar .notified) threads

/-- Some thread sleeps on the condition and was not notified. -/
def SomeSleeps
    {n : Nat}
    (condvar : Condvar)
    (threads : Fin n → ThreadState) : Prop :=
  ∃ thread, (threads thread).waits condvar .asleep = true

/-- Enough threads are on their way whenever one still sleeps. -/
structure Covered
    {n : Nat}
    (settings : Settings)
    (threads : Fin n → ThreadState)
    (queue : List Item) : Prop where
  getters :
    SomeSleeps .get threads →
    queue.length ≤ notifiedOf .get threads
  putters :
    SomeSleeps .put threads →
    settings.size ≤ queue.length + notifiedOf .put threads

section Signal

variable {n : Nat} {threads : Fin n → ThreadState} {choice : Nat}

/-- Who sleeps after a signal slept before it. -/
theorem SomeSleeps.of_signal
    {condvar : Condvar}
    {signals : Option Condvar}
    (sleeps : SomeSleeps condvar (signal threads choice signals)) :
    SomeSleeps condvar threads := by
  obtain ⟨thread, isAsleep⟩ := sleeps
  refine ⟨thread, ?_⟩
  cases signals with
  | none =>
      exact isAsleep
  | some signalled =>
      rcases wakeOne_cases (ThreadState.waits signalled .asleep)
          ThreadState.notify choice threads with
        ⟨-, nobody⟩ | ⟨sleeper, -, somebody⟩
      · rwa [signal, nobody] at isAsleep
      · rw [signal, somebody] at isAsleep
        by_cases isSleeper : thread = sleeper
        · subst isSleeper
          rw [Function.update_self] at isAsleep
          cases isState : threads thread <;>
            simp [isState, ThreadState.notify, ThreadState.waits] at isAsleep
        · rwa [Function.update_of_ne isSleeper] at isAsleep

/-- A thread that is notified counts for the condition it sleeps on. -/
theorem notifiedOf_notify
    {condvar signalled : Condvar}
    {sleeper : Fin n}
    (sleeps : (threads sleeper).waits signalled .asleep = true) :
    notifiedOf condvar
        (Function.update threads sleeper (threads sleeper).notify) =
      notifiedOf condvar threads + if signalled = condvar then 1 else 0 := by
  have counts :=
    tally_update (ThreadState.waits condvar .notified) threads sleeper
      (threads sleeper).notify
  unfold notifiedOf
  cases isState : threads sleeper with
  | idle =>
      rw [isState] at sleeps
      cases sleeps
  | waiting pending stage =>
      rw [isState] at counts sleeps
      simp only [ThreadState.waits, decide_eq_true_eq] at sleeps
      obtain ⟨isCondvar, rfl⟩ := sleeps
      simpa [ThreadState.waits, ThreadState.notify, isCondvar] using counts

/-- Signalling a condition that somebody sleeps on notifies one more thread. -/
theorem notifiedOf_signal
    {condvar : Condvar}
    (sleeps : SomeSleeps condvar threads) :
    notifiedOf condvar (signal threads choice (some condvar)) =
      notifiedOf condvar threads + 1 := by
  obtain ⟨thread, isAsleep⟩ := sleeps
  rcases wakeOne_cases (ThreadState.waits condvar .asleep)
      ThreadState.notify choice threads with
    ⟨nobody, -⟩ | ⟨sleeper, sleeperAsleep, somebody⟩
  · rw [nobody thread] at isAsleep
    cases isAsleep
  · rw [signal, somebody, notifiedOf_notify sleeperAsleep, if_pos rfl]

/-- Signalling one condition notifies no thread of the other. -/
theorem notifiedOf_signal_of_ne
    {condvar signalled : Condvar}
    (differs : condvar ≠ signalled) :
    notifiedOf condvar (signal threads choice (some signalled)) =
      notifiedOf condvar threads := by
  rcases wakeOne_cases (ThreadState.waits signalled .asleep)
      ThreadState.notify choice threads with
    ⟨-, nobody⟩ | ⟨sleeper, sleeperAsleep, somebody⟩
  · rw [signal, nobody]
  · rw [signal, somebody, notifiedOf_notify sleeperAsleep,
      if_neg differs.symm, Nat.add_zero]

/-- A signal takes no thread from those notified. -/
theorem notifiedOf_le_signal
    (condvar : Condvar)
    (signals : Option Condvar) :
    notifiedOf condvar threads ≤
      notifiedOf condvar (signal threads choice signals) := by
  cases signals with
  | none =>
      exact Nat.le_refl _
  | some signalled =>
      by_cases same : condvar = signalled
      · subst same
        by_cases sleeps : SomeSleeps condvar threads
        · rw [notifiedOf_signal sleeps]
          exact Nat.le_succ _
        · rcases wakeOne_cases (ThreadState.waits condvar .asleep)
              ThreadState.notify choice threads with
            ⟨-, nobody⟩ | ⟨sleeper, sleeperAsleep, -⟩
          · rw [signal, nobody]
          · exact (sleeps ⟨sleeper, sleeperAsleep⟩).elim
      · rw [notifiedOf_signal_of_ne same]

end Signal

section Moves

variable {n : Nat} {settings : Settings} {threads : Fin n → ThreadState}
  {thread : Fin n} {pending : Pending} {event : ChEvent}

/-- A thread can take a section of its call. -/
def CanMove
    (threads : Fin n → ThreadState)
    (thread : Fin n)
    (pending : Pending) : Prop :=
  threads thread = .idle ∨
    threads thread = .waiting pending .notified ∨
    threads thread = .waiting pending .awake

/-- Who sleeps after a section slept before, or is the thread that took it. -/
theorem SomeSleeps.of_section
    {condvar : Condvar}
    (sleeps :
      SomeSleeps condvar
        (Function.update threads thread (.afterSection pending event))) :
    SomeSleeps condvar threads ∨
      event = .sleeps ∧ pending.condvar = condvar := by
  obtain ⟨other, isAsleep⟩ := sleeps
  by_cases isThread : other = thread
  · subst isThread
    rw [Function.update_self] at isAsleep
    right
    cases event <;>
      simp [ThreadState.afterSection, ThreadState.waits] at isAsleep
    exact ⟨rfl, isAsleep⟩
  · rw [Function.update_of_ne isThread] at isAsleep
    exact .inl ⟨other, isAsleep⟩

/-- A section takes at most its own thread from those notified. -/
theorem notifiedOf_section
    (canMove : CanMove threads thread pending)
    (event : ChEvent)
    (condvar : Condvar) :
    notifiedOf condvar threads ≤
      notifiedOf condvar
          (Function.update threads thread (.afterSection pending event)) +
        (if pending.condvar = condvar then 1 else 0) := by
  have counts :=
    tally_update (ThreadState.waits condvar .notified) threads thread
      (.afterSection pending event)
  unfold notifiedOf
  have own :
      (if (threads thread).waits condvar .notified = true then 1 else 0) ≤
        if pending.condvar = condvar then 1 else 0 := by
    rcases canMove with isIdle | isNotified | isAwake
    · simp [isIdle, ThreadState.waits]
    · simp [isNotified, ThreadState.waits]
    · simp [isAwake, ThreadState.waits]
  omega

/-- A sleeping putter other than the thread that moves is counted. -/
theorem otherPutters_pos
    (sleeps : SomeSleeps .put threads)
    (notPutter :
      ∀ stage, (threads thread).waits .put stage = false) :
    0 < otherPutters threads thread := by
  obtain ⟨sleeper, isAsleep⟩ := sleeps
  have isOther : sleeper ≠ thread := by
    rintro rfl
    rw [notPutter .asleep] at isAsleep
    cases isAsleep
  unfold otherPutters
  apply tally_pos sleeper
  rw [Function.update_of_ne isOther]
  cases isState : threads sleeper with
  | idle =>
      rw [isState] at isAsleep
      cases isAsleep
  | waiting waiting stage =>
      rw [isState] at isAsleep
      simp only [ThreadState.waits, decide_eq_true_eq] at isAsleep
      simp [ThreadState.pending, waitsFor, isAsleep.1]

/-- A section of a get that takes an element keeps the sleepers covered. -/
theorem Covered.taken
    {item : Item}
    {queue : List Item}
    {code : Int}
    (covered : Covered settings threads (item :: queue))
    (canMove : CanMove threads thread .get)
    (choice : Nat) :
    Covered settings
      (signal
        (Function.update threads thread
          (.afterSection .get (.taken item code)))
        choice
        (signalled settings (otherPutters threads thread)
          (.taken item code)))
      queue := by
  have getters :=
    notifiedOf_section canMove (.taken item code) .get
  have putters :=
    notifiedOf_section canMove (.taken item code) .put
  simp only [Pending.condvar, ↓reduceIte, reduceCtorEq, Nat.add_zero]
    at getters putters
  have before :
      ∀ condvar,
        SomeSleeps condvar
          (Function.update threads thread
            (.afterSection .get (.taken item code))) →
        SomeSleeps condvar threads := by
    intro condvar sleeps
    rcases sleeps.of_section with slept | ⟨impossible, -⟩
    · exact slept
    · cases impossible
  constructor
  · intro sleeps
    have enough := covered.getters (before .get sleeps.of_signal)
    refine Nat.le_trans ?_ (notifiedOf_le_signal .get _)
    simp only [List.length_cons] at enough
    omega
  · intro sleeps
    have stillSleeps := sleeps.of_signal
    have slept := before .put stillSleeps
    have enough := covered.putters slept
    by_cases unlimited : settings.size = 0
    · rw [unlimited]
      exact Nat.zero_le _
    · have notPutter :
          ∀ stage, (threads thread).waits .put stage = false := by
        intro stage
        rcases canMove with isIdle | isNotified | isAwake
        · rw [isIdle]
          rfl
        · rw [isNotified]
          rfl
        · rw [isAwake]
          rfl
      have counted := otherPutters_pos slept notPutter
      have signals :
          signalled settings (otherPutters threads thread)
              (.taken item code) = some .put := by
        rw [signalled, if_pos ⟨unlimited, by omega⟩]
      rw [signals, notifiedOf_signal stillSleeps]
      simp only [List.length_cons] at enough
      omega

/-- A section of a put that links an element keeps the sleepers covered. -/
theorem Covered.linked
    {item : Item}
    {element : Nat}
    {block : Block}
    {place : Place}
    {queue after : List Item}
    {code : Int}
    (blocking : settings.blocking = true)
    (covered : Covered settings threads queue)
    (canMove : CanMove threads thread (.put element block place))
    (grows : after.length = queue.length + 1)
    (choice : Nat) :
    Covered settings
      (signal
        (Function.update threads thread
          (.afterSection (.put element block place) (.linked item code)))
        choice
        (signalled settings (otherPutters threads thread)
          (.linked item code)))
      after := by
  have getters :=
    notifiedOf_section canMove (.linked item code) .get
  have putters :=
    notifiedOf_section canMove (.linked item code) .put
  simp only [Pending.condvar, ↓reduceIte, reduceCtorEq, Nat.add_zero]
    at getters putters
  have before :
      ∀ condvar,
        SomeSleeps condvar
          (Function.update threads thread
            (.afterSection (.put element block place)
              (.linked item code))) →
        SomeSleeps condvar threads := by
    intro condvar sleeps
    rcases sleeps.of_section with slept | ⟨impossible, -⟩
    · exact slept
    · cases impossible
  have signals :
      signalled settings (otherPutters threads thread)
          (.linked item code) = some .get := by
    rw [signalled, if_pos blocking]
  rw [signals]
  constructor
  · intro sleeps
    have stillSleeps := sleeps.of_signal
    have enough := covered.getters (before .get stillSleeps)
    rw [notifiedOf_signal stillSleeps]
    omega
  · intro sleeps
    have enough := covered.putters (before .put sleeps.of_signal)
    rw [notifiedOf_signal_of_ne (by decide)]
    omega

/-- A blocked call that sleeps or returns keeps the sleepers covered. -/
theorem Covered.blocked
    {queue : List Item}
    (covered : Covered settings threads queue)
    (canMove : CanMove threads thread pending)
    (blocked : Blocked settings queue pending)
    (event : ChEvent) :
    Covered settings
      (Function.update threads thread (.afterSection pending event))
      queue := by
  have getters := notifiedOf_section canMove event .get
  have putters := notifiedOf_section canMove event .put
  cases pending with
  | put element block place =>
      have full : settings.size ≤ queue.length :=
        blocked
      simp only [Pending.condvar, ↓reduceIte, reduceCtorEq, Nat.add_zero]
        at getters putters
      constructor
      · intro sleeps
        rcases sleeps.of_section with slept | ⟨-, impossible⟩
        · exact (covered.getters slept).trans getters
        · cases impossible
      · intro _
        exact full.trans (Nat.le_add_right _ _)
  | get =>
      have empty : queue = [] :=
        blocked
      subst empty
      simp only [Pending.condvar, ↓reduceIte, reduceCtorEq, Nat.add_zero]
        at getters putters
      constructor
      · intro _
        exact Nat.zero_le _
      · intro sleeps
        rcases sleeps.of_section with slept | ⟨-, impossible⟩
        · exact (covered.putters slept).trans
            (Nat.add_le_add_left putters _)
        · cases impossible

/-- A section that goes to sleep keeps the sleepers covered. -/
theorem Covered.sleeps
    {queue after : List Item}
    (covered : Covered settings threads queue)
    (canMove : CanMove threads thread pending)
    (step : QueueStep settings pending queue .sleeps after) :
    Covered settings
      (Function.update threads thread (.afterSection pending .sleeps))
      after := by
  cases step with
  | putSleeps _ _ full =>
      exact covered.blocked canMove full .sleeps
  | getSleeps _ =>
      exact covered.blocked canMove rfl .sleeps

/-- A sleeper that wakes on its own keeps the sleepers covered. -/
theorem Covered.woken
    {queue : List Item}
    (covered : Covered settings threads queue)
    (isAsleep : threads thread = .waiting pending .asleep) :
    Covered settings
      (Function.update threads thread (.waiting pending .awake)) queue := by
  have before :
      ∀ condvar,
        SomeSleeps condvar
          (Function.update threads thread (.waiting pending .awake)) →
        SomeSleeps condvar threads := by
    rintro condvar ⟨other, sleeps⟩
    by_cases isThread : other = thread
    · subst isThread
      simp [ThreadState.waits] at sleeps
    · rw [Function.update_of_ne isThread] at sleeps
      exact ⟨other, sleeps⟩
  have same :
      ∀ condvar,
        notifiedOf condvar
            (Function.update threads thread (.waiting pending .awake)) =
          notifiedOf condvar threads := by
    intro condvar
    have counts :=
      tally_update (ThreadState.waits condvar .notified) threads thread
        (.waiting pending .awake)
    simpa [notifiedOf, isAsleep, ThreadState.waits] using counts
  constructor
  · intro sleeps
    rw [same]
    exact covered.getters (before .get sleeps)
  · intro sleeps
    rw [same]
    exact covered.putters (before .put sleeps)

/-- The label makes no call but `ch_put`, `ch_put_head` and `ch_get`. -/
def Label.isPutOrGet : Label n → Bool
  | .call _ (.put _ _) _ =>
      true
  | .call _ (.get _) _ =>
      true
  | .call _ _ _ =>
      false
  | _ =>
      true

/-- Every step of puts and gets on a blocking channel keeps sleepers covered. -/
theorem Covered.step
    {label : Label n}
    {next : Fin n → ThreadState}
    {queue after : List Item}
    (blocking : settings.blocking = true)
    (covered : Covered settings threads queue)
    (putOrGet : label.isPutOrGet = true)
    (moves : Scheduled settings label threads queue next after) :
    Covered settings next after := by
  cases moves with
  | still =>
      exact covered
  | wakes isAsleep =>
      exact covered.woken isAsleep
  | @moves _ _ _ _ thread pending event choice canMove step =>
      cases step with
      | putSleeps isBlocking fixed full =>
          exact covered.sleeps canMove (.putSleeps isBlocking fixed full)
      | putFull nonBlocking _ _ =>
          rw [blocking] at nonBlocking
          cases nonBlocking
      | @putLinks _ _ _ place _ _ room =>
          refine covered.linked blocking canMove ?_ choice
          cases place <;> simp [Place.insert]
      | getSleeps isBlocking =>
          exact covered.sleeps canMove (.getSleeps isBlocking)
      | getNodata nonBlocking =>
          rw [blocking] at nonBlocking
          cases nonBlocking
      | getTakes =>
          exact covered.taken canMove choice
  | cleaned =>
      cases putOrGet

end Moves

/--
No wakeup is lost: while a getter sleeps un-notified, at least as many notified
getters as there are elements have not re-entered, and while a putter does, at
least as many notified putters as there is room; nobody sleeps to put without a
size.  So if all threads are idle or sleep un-notified, getters sleep on an
empty channel only and putters on a full one only.
-/
structure NoLostWakeup
    {n : Nat}
    (settings : Settings)
    (system : System n) : Prop where
  getters :
    SomeSleeps .get system.threads →
    system.ch.count ≤ notifiedOf .get system.threads
  putters :
    SomeSleeps .put system.threads →
    settings.size - system.ch.count ≤ notifiedOf .put system.threads
  unlimited : settings.size = 0 → ¬ SomeSleeps .put system.threads
  notStuck :
    (∀ thread,
      system.threads thread = .idle ∨
        ∃ pending, system.threads thread = .waiting pending .asleep) →
    (SomeSleeps .get system.threads → system.ch.count = 0) ∧
      (SomeSleeps .put system.threads →
        settings.size ≠ 0 ∧ settings.size ≤ system.ch.count)

section Runs

variable {n : Nat} {settings : Settings}

/-- The system is a queue whose sleepers are covered. -/
def IsCovered
    (settings : Settings)
    (system : System n) : Prop :=
  ∃ state,
    Refines settings system state ∧
      Covered settings system.threads state.queue

/-- A putter that sleeps does so on a channel of fixed size. -/
theorem Refines.fixed_of_sleeps
    {system : System n}
    {state : Fifo n}
    (refines : Refines settings system state)
    (sleeps : SomeSleeps .put system.threads) :
    settings.size ≠ 0 := by
  obtain ⟨thread, isAsleep⟩ := sleeps
  cases isState : system.threads thread with
  | idle =>
      rw [isState] at isAsleep
      cases isAsleep
  | waiting pending stage =>
      rw [isState] at isAsleep
      simp only [ThreadState.waits, decide_eq_true_eq] at isAsleep
      have isPending : state.pending thread = some pending := by
        rw [← refines.pending, isState]
        rfl
      exact (refines.related.waits thread pending isPending).2 isAsleep.1

/-- When every thread is idle or sleeps, none is notified. -/
theorem notifiedOf_eq_zero
    {threads : Fin n → ThreadState}
    (stuck :
      ∀ thread,
        threads thread = .idle ∨
          ∃ pending, threads thread = .waiting pending .asleep)
    (condvar : Condvar) :
    notifiedOf condvar threads = 0 := by
  by_contra positive
  obtain ⟨thread, isNotified⟩ :=
    exists_of_tally_pos (Nat.pos_of_ne_zero positive)
  rcases stuck thread with isIdle | ⟨pending, isAsleep⟩
  · simp [isIdle, ThreadState.waits] at isNotified
  · simp [isAsleep, ThreadState.waits] at isNotified

/-- Covered sleepers lose no wakeup. -/
theorem noLostWakeup_of_covered
    {system : System n}
    (isCovered : IsCovered settings system) :
    NoLostWakeup settings system := by
  obtain ⟨state, refines, covered⟩ := isCovered
  have count := refines.related.holds.count
  refine ⟨?_, ?_, ?_, ?_⟩
  · intro sleeps
    rw [count]
    exact_mod_cast covered.getters sleeps
  · intro sleeps
    have enough := covered.putters sleeps
    rw [count]
    omega
  · intro noSize sleeps
    exact refines.fixed_of_sleeps sleeps noSize
  · intro stuck
    constructor
    · intro sleeps
      have enough := covered.getters sleeps
      rw [notifiedOf_eq_zero stuck] at enough
      rw [count]
      omega
    · intro sleeps
      have enough := covered.putters sleeps
      rw [notifiedOf_eq_zero stuck] at enough
      refine ⟨refines.fixed_of_sleeps sleeps, ?_⟩
      rw [count]
      omega

/-- A step of puts and gets on a blocking channel keeps its sleepers covered. -/
theorem step_of_covered
    {system : System n}
    {label : Label n}
    (isCovered : IsCovered settings system)
    (allowed : settings.blocking = true ∧ label.isPutOrGet = true) :
    ∃ next event,
      systemStep system label = .ok (next, event) ∧
        IsCovered settings next := by
  obtain ⟨state, refines, covered⟩ := isCovered
  obtain ⟨blocking, putOrGet⟩ := allowed
  have queueCall : label.keepsSettings = true ∧ PeekSafe system label := by
    cases label with
    | call thread call choice =>
        cases call with
        | put block place =>
            exact ⟨rfl, trivial⟩
        | get block =>
            exact ⟨rfl, trivial⟩
        | _ =>
            cases putOrGet
    | _ =>
        exact ⟨rfl, trivial⟩
  obtain ⟨next, event, after, steps, -, nextRefines, moves⟩ :=
    systemStep_refines refines queueCall.1 queueCall.2
  exact ⟨next, event, steps, after, nextRefines,
    covered.step blocking putOrGet moves⟩

/--
For any number of threads and every interleaving of puts and gets on a blocking
channel, with or without a fixed size, no wakeup is lost.
-/
theorem no_lost_wakeup
    (n : Nat)
    (datalen : Datalen)
    (size : Nat)
    (labels : List (Label n))
    (putsAndGets : ∀ label ∈ labels, label.isPutOrGet = true) :
    ∃ system events,
      runCalls systemStep (start n ⟨datalen, true, size⟩) labels =
          .ok (system, events) ∧
        NoLostWakeup ⟨datalen, true, size⟩ system := by
  have nobodySleeps :
      ∀ condvar, ¬ SomeSleeps condvar (start n ⟨datalen, true, size⟩).threads := by
    rintro condvar ⟨thread, isAsleep⟩
    cases isAsleep
  have starts :
      IsCovered ⟨datalen, true, size⟩ (start n ⟨datalen, true, size⟩) :=
    ⟨_, start_refines n _,
      ⟨fun sleeps => (nobodySleeps .get sleeps).elim,
        fun sleeps => (nobodySleeps .put sleeps).elim⟩⟩
  have permitted :
      AlwaysAllowed (StepOf systemStep)
        (fun (_ : System n) label =>
          (⟨datalen, true, size⟩ : Settings).blocking = true ∧
            label.isPutOrGet = true)
        (start n ⟨datalen, true, size⟩) labels :=
    alwaysAllowed_of_forall
      (fun label member _ => ⟨rfl, putsAndGets label member⟩) _
  obtain ⟨system, events, runs, isCovered⟩ :=
    runCalls_invariant step_of_covered starts permitted
  exact ⟨system, events, runs, noLostWakeup_of_covered isCovered⟩

/-- Two getters sleep, and one put notifies one of them. -/
def notifyingRun : List (Label 3) :=
  [.call 0 (.get 1) 0, .call 1 (.get 1) 0,
    .call 2 (.put ⟨100, [1]⟩ .std) 1]

/-- After the put one getter still sleeps, and one is notified. -/
theorem no_lost_wakeup_notifying :
    ∃ system events,
      runCalls systemStep (start 3 ⟨.voidp, true, 1⟩) notifyingRun =
          .ok (system, events) ∧
        NoLostWakeup ⟨.voidp, true, 1⟩ system :=
  no_lost_wakeup 3 .voidp 1 notifyingRun (by decide)

end Runs

end Clibs.Ch
