import Clibs.Ch.Intact

namespace Clibs.Ch

/-!
# The channel refines the queue

Under settings that stay, a queue never outgrows its size and a call waits only
where it may.  `Related` and `Refines` add this to an intact channel; every step
of the system is then a step of the abstract queue and keeps the two related.
-/

open CellHeap

/--
The channel holds the queue, owns its elements, those of the waiting calls and
those in hand, and counts the waiting calls.
-/
structure Related
    {n : Nat}
    (settings : Settings)
    (ch : ChH)
    (state : Fifo n)
    (inHand : List Nat) : Prop where
  holds : Holds settings ch state.queue
  capacity : settings.size ≠ 0 → state.queue.length ≤ settings.size
  owns :
    ch.heap.Owns
      (inHand ++ (cellsOf state.queue ++ collect heldElement state.pending))
  grants : ch.heap.AlwaysGrants
  fresh : ch.heap.next = state.fresh
  prepared :
    ∀ thread element block place,
      state.pending thread = some (.put element block place) →
      ch.heap.cell element =
        some ⟨storedBlock settings.datalen block, none⟩
  waits :
    ∀ thread pending,
      state.pending thread = some pending →
      settings.blocking = true ∧
        (pending.condvar = .put → settings.size ≠ 0)
  waiting :
    ∀ condvar,
      ch.waitingThreads condvar = tally (waitsFor condvar) state.pending

/-- The system stands for the abstract state. -/
structure Refines
    {n : Nat}
    (settings : Settings)
    (system : System n)
    (state : Fifo n) : Prop where
  related : Related settings system.ch state []
  pending : ∀ thread, (system.threads thread).pending = state.pending thread

section Related

variable {n : Nat} {settings : Settings} {ch : ChH} {state : Fifo n}

/-- A section keeps the queue within its size. -/
theorem QueueStep.capacity
    {pending : Pending}
    {queue after : List Item}
    {event : ChEvent}
    (step : QueueStep settings pending queue event after)
    (capacity : settings.size ≠ 0 → queue.length ≤ settings.size) :
    settings.size ≠ 0 → after.length ≤ settings.size := by
  intro fixed
  have before := capacity fixed
  cases step with
  | putSleeps _ _ _ =>
      exact before
  | putFull _ _ _ =>
      exact before
  | @putLinks _ _ _ place _ _ room =>
      have isRoom : queue.length < settings.size :=
        room.resolve_left fixed
      cases place <;> simp [Place.insert] <;> omega
  | getSleeps _ =>
      exact before
  | getNodata _ =>
      exact before
  | getTakes =>
      simp at before
      omega

/-- A call that sleeps after its section is one that may wait. -/
theorem QueueStep.sleeps
    {pending : Pending}
    {queue after : List Item}
    (step : QueueStep settings pending queue .sleeps after) :
    settings.blocking = true ∧
      (pending.condvar = .put → settings.size ≠ 0) := by
  cases step with
  | putSleeps blocking fixed _ =>
      exact ⟨blocking, fun _ => fixed⟩
  | getSleeps blocking =>
      exact ⟨blocking, by simp [Pending.condvar]⟩

/--
What the settings promise of an abstract state: the queue is within its size,
and every call that waits may.
-/
structure Fifo.Fits
    (settings : Settings)
    (state : Fifo n) : Prop where
  capacity : settings.size ≠ 0 → state.queue.length ≤ settings.size
  waits :
    ∀ thread pending,
      state.pending thread = some pending →
      settings.blocking = true ∧
        (pending.condvar = .put → settings.size ≠ 0)

/-- A section of a call keeps what the settings promise. -/
theorem Fifo.Fits.after
    {thread : Fin n}
    {pending : Pending}
    {event : ChEvent}
    {after : List Item}
    (fits : state.Fits settings)
    (step : QueueStep settings pending state.queue event after) :
    (state.after thread pending event after).Fits settings := by
  refine ⟨step.capacity fits.capacity, ?_⟩
  intro other waiting waits
  simp only [Fifo.after] at waits
  by_cases isThread : other = thread
  · subst isThread
    rw [Function.update_self] at waits
    obtain ⟨rfl, rfl⟩ := pendingAfter_eq_some waits
    exact step.sleeps
  · rw [Function.update_of_ne isThread] at waits
    exact fits.waits other waiting waits

/-- A step of the queue keeps what the settings promise. -/
theorem FifoStep.fits
    {next : Fifo n}
    {label : Label n}
    {event : ChEvent}
    (step : FifoStep settings state label event next)
    (fits : state.Fits settings) :
    next.Fits settings := by
  cases step with
  | put _ _ done =>
      have taken : state.take.Fits settings :=
        ⟨fits.capacity, fits.waits⟩
      exact taken.after done
  | get _ _ done =>
      exact fits.after done
  | resume _ done =>
      exact fits.after done
  | clean _ _ =>
      exact ⟨fun _ => Nat.zero_le _, fits.waits⟩
  | _ =>
      exact fits

/-- A system that refines a state carries it. -/
theorem Refines.carries
    {system : System n}
    (refines : Refines settings system state) :
    Carries settings system state :=
  have related := refines.related
  ⟨⟨related.holds, related.owns, related.grants, related.fresh,
    related.prepared, related.waiting⟩, refines.pending⟩

/-- A state that a system refines is as the settings promise. -/
theorem Refines.fits
    {system : System n}
    (refines : Refines settings system state) :
    state.Fits settings :=
  ⟨refines.related.capacity, refines.related.waits⟩

/-- A carried state as the settings promise is refined. -/
theorem Carries.refines
    {system : System n}
    (carries : Carries settings system state)
    (fits : state.Fits settings) :
    Refines settings system state :=
  have intact := carries.intact
  ⟨⟨intact.holds, fits.capacity, intact.owns, intact.grants, intact.fresh,
    intact.prepared, fits.waits, intact.waiting⟩, carries.pending⟩

/-- The queue steps and the schedule of a step of the system. -/
def StepRefines
    (settings : Settings)
    (system : System n)
    (state : Fifo n)
    (label : Label n) : Prop :=
  ∃ next event after,
    systemStep system label = .ok (next, event) ∧
      FifoStep settings state label event after ∧
      Refines settings next after ∧
      Scheduled settings label system.threads state.queue
        next.threads after.queue

/-- Going back to sleep is a section of the call when the call may wait. -/
theorem SleepsAgain.refines
    {system : System n}
    {thread : Fin n}
    {pending : Pending}
    {label : Label n}
    (again : SleepsAgain settings system state.queue thread pending label)
    (refines : Refines settings system state) :
    StepRefines settings system state label := by
  obtain ⟨isBack, blocked, ⟨choice, rfl⟩, steps⟩ := again
  have waits : (system.threads thread).pending = some pending := by
    rcases isBack with same | same <;> rw [same] <;> rfl
  have isPending : state.pending thread = some pending := by
    rw [← refines.pending, waits]
  have mayWait := refines.related.waits thread pending isPending
  have allowed :
      QueueStep settings pending state.queue .sleeps state.queue := by
    cases pending with
    | put element block place =>
        exact .putSleeps mayWait.1 (mayWait.2 rfl) blocked
    | get =>
        have empty : state.queue = [] :=
          blocked
        rw [empty]
        exact .getSleeps mayWait.1
  have stays : state.after thread pending .sleeps state.queue = state := by
    rw [Fifo.after, pendingAfter, ← isPending, Function.update_eq_self]
  have fifoSteps : FifoStep settings state (.resume thread choice) .sleeps
      (state.after thread pending .sleeps state.queue) :=
    .resume isPending allowed
  rw [stays] at fifoSteps
  have moves :
      Scheduled settings (.resume thread choice) system.threads state.queue
        (signal
          (Function.update system.threads thread
            (.afterSection pending .sleeps))
          choice
          (signalled settings (otherPutters system.threads thread) .sleeps))
        state.queue :=
    .moves (.inr isBack) allowed
  exact ⟨_, .sleeps, state, steps, fifoSteps,
    (refines.carries.restage waits .asleep).refines refines.fits,
    moves⟩

/-- Every step of the system is a step of the queue and keeps it refined. -/
theorem systemStep_refines
    {system : System n}
    {label : Label n}
    (refines : Refines settings system state)
    (keeps : label.keepsSettings = true)
    (safe : PeekSafe system label) :
    StepRefines settings system state label := by
  rcases systemStep_carries refines.carries keeps safe with
    ⟨next, event, after, steps, allowed, carries, moves⟩ |
      ⟨thread, pending, again⟩
  · exact ⟨next, event, after, steps, allowed,
      carries.refines (allowed.fits refines.fits), moves⟩
  · exact again.refines refines

/-- The empty queue, with no thread in a call. -/
def Fifo.initial (n : Nat) : Fifo n where
  queue :=
    []
  pending _ :=
    none
  fresh :=
    0

/-- What `ch_create` and the two calls of `ch_setattr` leave behind. -/
theorem configured_eq
    (settings : Settings) :
    configured settings =
      { chCreate settings.datalen fun _ => true with
        maxSize := settings.size
        attr := if settings.blocking then 1 else 0 } := by
  cases isBlocking : settings.blocking <;>
    simp [configured, isBlocking, chSetattr, chCreate, chFixedSize,
      chBlockingMode, chAttrBlockingGetput, chAttrNonBlockingGetput]

/-- Threads that have not called anything refine the empty queue. -/
theorem start_refines
    (n : Nat)
    (settings : Settings) :
    Refines settings (start n settings) (Fifo.initial n) := by
  have isBlocking : (configured settings).blocking = settings.blocking := by
    rw [configured_eq]
    cases settings.blocking <;>
      simp [ChH.blocking, chAttrBlockingGetput]
  have noItems :
      collect heldElement (Fifo.initial n).pending = ([] : List Nat) := by
    simp [collect, Fifo.initial, heldElement]
  have made : (start n settings).ch = configured settings :=
    rfl
  rw [configured_eq] at made isBlocking
  refine ⟨?_, fun _ => rfl⟩
  rw [made]
  refine ⟨⟨rfl, rfl, rfl, isBlocking, rfl, rfl, rfl⟩,
    fun _ => Nat.zero_le _, ?_, fun _ => rfl, rfl, ?_, ?_, ?_⟩
  · rw [noItems]
    exact Owns.empty _
  · intro thread element block place waits
    cases waits
  · intro thread pending waits
    cases waits
  · intro condvar
    have nobody :
        tally (waitsFor condvar) (Fifo.initial n).pending = 0 := by
      simp [tally, Fifo.initial]
    rw [nobody]
    cases condvar <;> rfl

end Related

end Clibs.Ch
