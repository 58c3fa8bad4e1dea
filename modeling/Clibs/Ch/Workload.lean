import Clibs.Ch.Wakeup
import Clibs.Foundation.Schedule

namespace Clibs.Ch

/-!
# Producers and consumers

The threads of a blocking channel have work to do: a producer puts a list of
blocks and a consumer gets a number of them.  A thread that runs takes the next
section of its work; while it sleeps it does nothing, and a sleeper may wake on
its own at any time.  Which sleeper a signal wakes, and who comes first when a
woken thread and a fresh caller race, is up to the schedule.
-/

/-- A block to put, and the place to put it. -/
structure Delivery where
  block : Block
  place : Place
  notNull : block.address ≠ 0

/-- What a thread still has to put, or where it stores what it gets. -/
inductive Work where
  | puts (deliveries : List Delivery)
  | gets (blocks : List ℕ+)

namespace Work

/-- The condition that the calls of a thread wait for. -/
def condvar : Work → Condvar
  | .puts _ =>
      .put
  | .gets _ =>
      .get

/-- The next call of a thread, and what it has to do after it. -/
def next : Work → Option (ChCall × Work)
  | .puts [] =>
      none
  | .puts (delivery :: rest) =>
      some (.put delivery.block delivery.place, .puts rest)
  | .gets [] =>
      none
  | .gets (block :: rest) =>
      some (.get block, .gets rest)

/-- The number of calls that wait for the condition, of those not yet made. -/
def left (work : Work) (condvar : Condvar) : Nat :=
  match work, condvar with
  | .puts deliveries, .put =>
      deliveries.length
  | .gets blocks, .get =>
      blocks.length
  | _, _ =>
      0

end Work

/-- A channel and threads that have work to do. -/
structure Workload (n : Nat) where
  system : System n
  work : Fin n → Work

/-- A thread runs, or wakes on its own. -/
inductive Move (n : Nat) where
  | run (thread : Fin n) (choice : Nat)
  | wake (thread : Fin n)
  deriving Repr, DecidableEq

/-- The thread runs. -/
def Move.runs
    {n : Nat}
    (thread : Fin n) : Move n → Prop
  | .run runner _ =>
      runner = thread
  | .wake _ =>
      False

/-- One move.  A thread without work does nothing, and nor does a sleeper. -/
def workStep
    {n : Nat}
    (load : Workload n) : Move n → Checked (Workload n × ChEvent)
  | .run thread choice =>
      match load.system.threads thread with
      | .idle =>
          match (load.work thread).next with
          | none =>
              .ok (load, .nothing)
          | some (call, rest) => do
              let (system, event) ←
                systemStep load.system (.call thread call choice)
              .ok (⟨system, Function.update load.work thread rest⟩, event)
      | .waiting _ _ => do
          let (system, event) ← systemStep load.system (.resume thread choice)
          .ok ({ load with system }, event)
  | .wake thread => do
      let (system, event) ← systemStep load.system (.wake thread)
      .ok ({ load with system }, event)

/-- Threads with work on a new channel. -/
def employ
    {n : Nat}
    (settings : Settings)
    (work : Fin n → Work) : Workload n where
  system :=
    start n settings
  work :=
    work

/-- The number of calls of all threads that wait for the condition. -/
def callsOf
    {n : Nat}
    (condvar : Condvar)
    (work : Fin n → Work) : Nat :=
  total (fun share => share.left condvar) work

/-- All calls of all threads have returned. -/
def Workload.Finished
    {n : Nat}
    (load : Workload n) : Prop :=
  ∀ thread,
    load.system.threads thread = .idle ∧ (load.work thread).next = none

/-- What is left of a thread's calls, with the one that it waits in. -/
def leftOf
    (condvar : Condvar)
    (share : ThreadState × Work) : Nat :=
  share.2.left condvar + if waitsFor condvar share.1.pending then 1 else 0

/-- What a thread is doing, and what it has to do. -/
def Workload.share
    {n : Nat}
    (load : Workload n)
    (thread : Fin n) : ThreadState × Work :=
  (load.system.threads thread, load.work thread)

/-- The calls that have not returned, of those that wait for the condition. -/
def Workload.left
    {n : Nat}
    (load : Workload n)
    (condvar : Condvar) : Nat :=
  total (leftOf condvar) load.share

/-- The calls that have not returned. -/
def Workload.unfinished
    {n : Nat}
    (load : Workload n) : Nat :=
  load.left .put + load.left .get

/-- A section of a call that waits for the condition would not sleep. -/
def Free
    (settings : Settings)
    (queue : List Item) : Condvar → Prop
  | .put =>
      settings.size = 0 ∨ queue.length < settings.size
  | .get =>
      queue ≠ []

/-- The thread can run and its section would not sleep. -/
def Workload.Ready
    {n : Nat}
    (load : Workload n)
    (thread : Fin n) : Prop :=
  ((load.system.threads thread = .idle ∧ (load.work thread).next ≠ none) ∨
      ∃ pending stage,
        stage ≠ .asleep ∧
          load.system.threads thread = .waiting pending stage) ∧
    match (load.work thread).condvar with
    | .put =>
        load.system.ch.maxSize = 0 ∨
          load.system.ch.count < load.system.ch.maxSize
    | .get =>
        load.system.ch.count ≠ 0

/--
The system is a queue whose sleepers are covered, every thread waits in a call
of its own work, and the elements in the queue, the calls that are left and those
that there were to make balance.
-/
structure Workload.Running
    {n : Nat}
    (settings : Settings)
    (puts gets : Nat)
    (load : Workload n)
    (state : Fifo n) : Prop where
  blocking : settings.blocking = true
  refines : Refines settings load.system state
  covered : Covered settings load.system.threads state.queue
  role :
    ∀ thread pending,
      (load.system.threads thread).pending = some pending →
      pending.condvar = (load.work thread).condvar
  balance :
    state.queue.length + load.left .put + gets = puts + load.left .get

/--
A move keeps the threads at work.  It ends a call, or it leaves every thread
ready that was, and none of these is the one that ran.
-/
def Workload.Moves
    {n : Nat}
    (settings : Settings)
    (puts gets : Nat)
    (load : Workload n)
    (move : Move n) : Prop :=
  ∃ next event,
    workStep load move = .ok (next, event) ∧
      (∃ after, next.Running settings puts gets after) ∧
      (next.unfinished < load.unfinished ∨
        next.unfinished = load.unfinished ∧
          ∀ thread,
            load.Ready thread → ¬ move.runs thread ∧ next.Ready thread)

section Workload

variable {n : Nat} {settings : Settings} {puts gets : Nat}
  {load : Workload n} {state : Fifo n}

/-- A thread without a next call has none left. -/
theorem Work.next_eq_none
    {work : Work} :
    work.next = none ↔ work.left work.condvar = 0 := by
  rcases work with ⟨_ | _⟩ | ⟨_ | _⟩ <;> simp [Work.next, Work.left, Work.condvar]

/-- A thread has calls of one kind only. -/
theorem Work.left_of_ne
    {work : Work}
    {condvar : Condvar}
    (differs : condvar ≠ work.condvar) :
    work.left condvar = 0 := by
  cases work <;> cases condvar <;> simp [Work.left, Work.condvar] at differs ⊢

/--
A section goes to sleep when it is not free to go on; otherwise its call ends
and the queue is longer or shorter by one.
-/
theorem QueueStep.sleeps_or_ends
    {pending : Pending}
    {queue after : List Item}
    {event : ChEvent}
    (blocking : settings.blocking = true)
    (step : QueueStep settings pending queue event after) :
    (event = .sleeps ∧ after = queue ∧ ¬ Free settings queue pending.condvar) ∨
      event ≠ .sleeps ∧
        after.length + (if pending.condvar = .get then 1 else 0) =
          queue.length + if pending.condvar = .put then 1 else 0 := by
  cases step with
  | putSleeps _ fixed full =>
      refine .inl ⟨rfl, rfl, ?_⟩
      rintro (unlimited | room)
      · exact fixed unlimited
      · exact Nat.not_lt_of_le full room
  | getSleeps _ =>
      exact .inl ⟨rfl, rfl, fun notEmpty => notEmpty rfl⟩
  | putFull nonBlocking _ _ | getNodata nonBlocking =>
      rw [blocking] at nonBlocking
      cases nonBlocking
  | @putLinks _ _ _ place _ _ room =>
      right
      cases place <;> simp [Pending.condvar, Place.insert]
  | getTakes =>
      right
      simp [Pending.condvar]

/-- Going back to sleep is a section of a call that may wait. -/
theorem SleepsAgain.taken
    {system : System n}
    {thread : Fin n}
    {pending : Pending}
    {choice : Nat}
    (again :
      SleepsAgain settings system state.queue thread pending
        (.resume thread choice))
    (refines : Refines settings system state) :
    SectionTaken settings system state thread pending choice
      (.resume thread choice) := by
  obtain ⟨isBack, blocked, -, steps⟩ := again
  have waits : (system.threads thread).pending = some pending := by
    rcases isBack with same | same <;> rw [same] <;> rfl
  have isPending : state.pending thread = some pending := by
    rw [← refines.pending, waits]
  have mayWait := refines.related.waits thread pending isPending
  have allowed :
      QueueStep settings pending state.queue .sleeps state.queue := by
    cases pending with
    | put element block place =>
        exact .putSleeps mayWait.1 (mayWait.2 rfl) blocked
    | get =>
        have empty : state.queue = [] :=
          blocked
        rw [empty]
        exact .getSleeps mayWait.1
  have stays : state.after thread pending .sleeps state.queue = state := by
    rw [Fifo.after, pendingAfter, ← isPending, Function.update_eq_self]
  refine ⟨_, .sleeps, state.queue, steps, allowed, ?_, rfl⟩
  rw [stays]
  exact refines.carries.restage waits .asleep

/-- What is left of the calls once a thread has taken a section of its own. -/
theorem left_after_section
    {system : System n}
    {thread : Fin n}
    {pending : Pending}
    {event : ChEvent}
    {rest : Work}
    {choice : Nat}
    {signals : Option Condvar}
    (moves :
      system.threads =
        signal
          (Function.update load.system.threads thread
            (.afterSection pending event))
          choice signals)
    (leaves :
      ∀ condvar,
        leftOf condvar (load.share thread) =
          rest.left condvar + if pending.condvar = condvar then 1 else 0)
    (condvar : Condvar) :
    (⟨system, Function.update load.work thread rest⟩ : Workload n).left condvar +
        (if pending.condvar = condvar then 1 else 0) =
      load.left condvar +
        if event = .sleeps ∧ pending.condvar = condvar then 1 else 0 := by
  have sameShares :
      (⟨system, Function.update load.work thread rest⟩ : Workload n).left
          condvar =
        total (leftOf condvar)
          (Function.update load.share thread
            (.afterSection pending event, rest)) := by
    rw [Workload.left, total, total]
    apply Finset.sum_congr rfl
    intro other _
    simp only [leftOf, Workload.share, moves, signal_pending]
    by_cases isThread : other = thread
    · subst isThread
      simp only [Function.update_self]
    · simp only [Function.update_of_ne isThread, Workload.share]
  have asleep :
      leftOf condvar (.afterSection pending event, rest) =
        rest.left condvar +
          if event = .sleeps ∧ pending.condvar = condvar then 1 else 0 := by
    cases event <;>
      simp [leftOf, ThreadState.afterSection, ThreadState.pending, waitsFor]
  have counts :=
    total_update (leftOf condvar) load.share thread
      (.afterSection pending event, rest)
  rw [leaves, asleep] at counts
  rw [sameShares]
  simp only [Workload.left] at counts ⊢
  omega

/--
A section of the work of a thread either goes to sleep, because it is not free
to go on, or ends the call.
-/
theorem Workload.Running.take_section
    {before : Fifo n}
    {thread : Fin n}
    {pending : Pending}
    {rest : Work}
    {choice : Nat}
    {label : Label n}
    (running : load.Running settings puts gets state)
    (canMove : CanMove load.system.threads thread pending)
    (isRole : pending.condvar = rest.condvar)
    (leaves :
      ∀ condvar,
        leftOf condvar (load.share thread) =
          rest.left condvar + if pending.condvar = condvar then 1 else 0)
    (sameQueue : before.queue = state.queue)
    (fits : before.Fits settings)
    (taken :
      SectionTaken settings load.system before thread pending choice label) :
    ∃ system event after,
      systemStep load.system label = .ok (system, event) ∧
        (⟨system, Function.update load.work thread rest⟩ : Workload n).Running
          settings puts gets after ∧
        (¬ Free settings state.queue pending.condvar ∧
            after.queue = state.queue ∧
            system.threads =
              Function.update load.system.threads thread
                (.waiting pending .asleep) ∧
            (⟨system, Function.update load.work thread rest⟩ :
                Workload n).unfinished = load.unfinished ∨
          (⟨system, Function.update load.work thread rest⟩ :
              Workload n).unfinished < load.unfinished) := by
  obtain ⟨system, event, after, steps, allowed, carries, moves⟩ := taken
  rw [sameQueue] at allowed
  have left := left_after_section moves leaves
  have leftPuts := left .put
  have leftGets := left .get
  have balance := running.balance
  have covered : Covered settings system.threads after := by
    have scheduled :
        Scheduled settings (.resume thread choice) load.system.threads
          state.queue system.threads after := by
      rw [moves]
      exact .moves canMove allowed
    exact running.covered.step running.blocking rfl scheduled
  have refines : Refines settings system (before.after thread pending event after) := by
    rw [← sameQueue] at allowed
    exact carries.refines (fits.after allowed)
  have role :
      ∀ other waiting,
        (system.threads other).pending = some waiting →
        waiting.condvar = (Function.update load.work thread rest other).condvar := by
    intro other waiting waits
    rw [moves, signal_pending] at waits
    by_cases isThread : other = thread
    · subst isThread
      rw [Function.update_self] at waits ⊢
      have sleeps : pendingAfter pending event = some waiting := by
        rw [← waits]
        cases event <;> rfl
      rw [(pendingAfter_eq_some sleeps).2]
      exact isRole
    · rw [Function.update_of_ne isThread] at waits ⊢
      exact running.role other waiting waits
  refine ⟨system, event, _, steps,
    ⟨running.blocking, refines, covered, role, ?_⟩, ?_⟩
  · rcases allowed.sleeps_or_ends running.blocking with
      ⟨rfl, rfl, -⟩ | ⟨ends, grows⟩
    · simp only [true_and, Nat.add_right_cancel_iff] at leftPuts leftGets
      simpa only [Fifo.after, leftPuts, leftGets] using balance
    · simp only [ends, false_and, ↓reduceIte, Nat.add_zero] at leftPuts leftGets
      simp only [Fifo.after]
      omega
  · rcases allowed.sleeps_or_ends running.blocking with
      ⟨rfl, rfl, notFree⟩ | ⟨ends, -⟩
    · left
      refine ⟨notFree, rfl, moves, ?_⟩
      simp only [true_and, Nat.add_right_cancel_iff] at leftPuts leftGets
      simp only [Workload.unfinished, leftPuts, leftGets]
    · right
      simp only [ends, false_and, ↓reduceIte, Nat.add_zero] at leftPuts leftGets
      simp only [Workload.unfinished]
      cases isCondvar : pending.condvar <;>
        simp only [isCondvar, reduceCtorEq, ↓reduceIte] at leftPuts leftGets <;>
        omega

/-- Whether a section would sleep is read off the channel. -/
theorem Workload.Running.ready_iff
    (running : load.Running settings puts gets state)
    (thread : Fin n) :
    load.Ready thread ↔
      ((load.system.threads thread = .idle ∧ (load.work thread).next ≠ none) ∨
          ∃ pending stage,
            stage ≠ .asleep ∧
              load.system.threads thread = .waiting pending stage) ∧
        Free settings state.queue (load.work thread).condvar := by
  have holds := running.refines.related.holds
  rw [Workload.Ready]
  apply and_congr_right
  intro _
  cases (load.work thread).condvar with
  | put =>
      simp only [Free, holds.count, holds.maxSize]
      norm_cast
  | get =>
      simp only [Free, ne_eq, holds.count_eq_zero]

/-- A thread that has nothing to run leaves everything as it is. -/
theorem Workload.Running.rests
    {move : Move n}
    (running : load.Running settings puts gets state)
    (rests : workStep load move = .ok (load, .nothing))
    (notReady : ∀ thread, move.runs thread → ¬ load.Ready thread) :
    load.Moves settings puts gets move :=
  ⟨load, .nothing, rests, ⟨state, running⟩,
    .inr ⟨rfl, fun thread isReady =>
      ⟨fun runs => notReady thread runs isReady, isReady⟩⟩⟩

/-- A thread that takes a section of its work. -/
theorem Workload.Running.runs_section
    {before : Fifo n}
    {thread : Fin n}
    {pending : Pending}
    {rest : Work}
    {choice : Nat}
    {label : Label n}
    (running : load.Running settings puts gets state)
    (canMove : CanMove load.system.threads thread pending)
    (isRole : pending.condvar = rest.condvar)
    (ownRole : (load.work thread).condvar = rest.condvar)
    (leaves :
      ∀ condvar,
        leftOf condvar (load.share thread) =
          rest.left condvar + if pending.condvar = condvar then 1 else 0)
    (sameQueue : before.queue = state.queue)
    (fits : before.Fits settings)
    (taken :
      SectionTaken settings load.system before thread pending choice label)
    (makes :
      ∀ system event,
        systemStep load.system label = .ok (system, event) →
        workStep load (.run thread choice) =
          .ok (⟨system, Function.update load.work thread rest⟩, event)) :
    load.Moves settings puts gets (.run thread choice) := by
  obtain ⟨system, event, after, steps, nextRunning, outcome⟩ :=
    running.take_section canMove isRole leaves sameQueue fits taken
  refine ⟨_, event, makes system event steps, ⟨after, nextRunning⟩, ?_⟩
  rcases outcome with ⟨notFree, sameState, moves, same⟩ | fewer
  · right
    refine ⟨same, ?_⟩
    intro other isReady
    rw [running.ready_iff] at isReady
    obtain ⟨canRun, isFree⟩ := isReady
    have isOther : other ≠ thread := by
      rintro rfl
      rw [ownRole, ← isRole] at isFree
      exact notFree isFree
    refine ⟨fun same => isOther same.symm, ?_⟩
    rw [nextRunning.ready_iff, sameState]
    simp only [moves, Function.update_of_ne isOther]
    exact ⟨canRun, isFree⟩
  · exact .inl fewer

/-- A thread that makes its next call. -/
theorem Workload.Running.starts
    {thread : Fin n}
    (running : load.Running settings puts gets state)
    (isIdle : load.system.threads thread = .idle)
    (choice : Nat) :
    load.Moves settings puts gets (.run thread choice) := by
  have carries := running.refines.carries
  have fits := running.refines.fits
  have nothingWaits :
      (load.system.threads thread).pending = none := by
    rw [isIdle]
    rfl
  cases isNext : (load.work thread).next with
  | none =>
      apply running.rests
      · simp only [workStep, isIdle, isNext]
      · rintro _ rfl ⟨⟨-, hasNext⟩ | ⟨pending, stage, -, waits⟩, -⟩
        · exact hasNext isNext
        · rw [isIdle] at waits
          cases waits
  | some following =>
      obtain ⟨call, rest⟩ := following
      have makes :
          ∀ system event,
            systemStep load.system (.call thread call choice) =
                .ok (system, event) →
            workStep load (.run thread choice) =
              .ok (⟨system, Function.update load.work thread rest⟩, event) := by
        intro system event steps
        simp only [workStep, isIdle, isNext, steps, Checked.ok_bind]
      cases isWork : load.work thread with
      | puts deliveries =>
          cases deliveries with
          | nil =>
              rw [isWork] at isNext
              cases isNext
          | cons delivery later =>
              rw [isWork] at isNext
              cases isNext
              have taken :=
                put_section carries isIdle delivery.notNull delivery.place
                  choice
              refine running.runs_section (.inl isIdle) rfl
                (by rw [isWork]; rfl) ?_ ?_ ?_ taken makes
              · intro condvar
                cases condvar <;>
                  simp [leftOf, Workload.share, isWork, nothingWaits,
                    Work.left, Pending.condvar]
              · rfl
              · exact ⟨fits.capacity, fits.waits⟩
      | gets blocks =>
          cases blocks with
          | nil =>
              rw [isWork] at isNext
              cases isNext
          | cons block later =>
              rw [isWork] at isNext
              cases isNext
              refine running.runs_section (.inl isIdle) rfl
                (by rw [isWork]; rfl) ?_ rfl fits
                (get_section carries isIdle block.ne_zero choice) makes
              intro condvar
              cases condvar <;>
                simp [leftOf, Workload.share, isWork, nothingWaits, Work.left,
                  Pending.condvar]

/-- A thread that comes back from its wait. -/
theorem Workload.Running.resumes
    {thread : Fin n}
    {pending : Pending}
    (running : load.Running settings puts gets state)
    (isBack :
      load.system.threads thread = .waiting pending .notified ∨
        load.system.threads thread = .waiting pending .awake)
    (choice : Nat) :
    load.Moves settings puts gets (.run thread choice) := by
  have waits : (load.system.threads thread).pending = some pending := by
    rcases isBack with same | same <;> rw [same] <;> rfl
  have isRole := running.role thread pending waits
  have taken :
      SectionTaken settings load.system state thread pending choice
        (.resume thread choice) := by
    rcases resume_section running.refines.carries isBack choice with
      taken | again
    · exact taken
    · exact again.taken running.refines
  refine running.runs_section (.inr isBack) isRole rfl ?_ rfl
    running.refines.fits taken ?_
  · intro condvar
    simp [leftOf, Workload.share, waits, waitsFor]
  · intro system event steps
    rw [Function.update_eq_self]
    rcases isBack with same | same <;>
      simp only [workStep, same, steps, Checked.ok_bind]

/-- A sleeper that wakes on its own. -/
theorem Workload.Running.wakes
    (running : load.Running settings puts gets state)
    (thread : Fin n) :
    load.Moves settings puts gets (.wake thread) := by
  cases isState : load.system.threads thread with
  | idle =>
      refine running.rests ?_ fun _ runs => False.elim runs
      simp only [workStep, systemStep, isState, Checked.ok_bind]
  | waiting pending stage =>
      cases stage with
      | notified | awake =>
          refine running.rests ?_ fun _ runs => False.elim runs
          simp only [workStep, systemStep, isState, Checked.ok_bind]
      | asleep =>
          have waits : (load.system.threads thread).pending = some pending := by
            rw [isState]
            rfl
          let system : System n :=
            { load.system with
              threads :=
                Function.update load.system.threads thread
                  (.waiting pending .awake) }
          have samePending :
              ∀ other,
                (system.threads other).pending =
                  (load.system.threads other).pending := by
            intro other
            by_cases isThread : other = thread
            · subst isThread
              simp only [system, Function.update_self, waits]
              rfl
            · simp only [system, Function.update_of_ne isThread]
          have sameLeft :
              ∀ condvar,
                ({ load with system := system } : Workload n).left condvar =
                  load.left condvar := by
            intro condvar
            rw [Workload.left, Workload.left, total, total]
            apply Finset.sum_congr rfl
            intro other _
            rw [leftOf, leftOf, Workload.share, Workload.share, samePending]
          have refines : Refines settings system state :=
            (running.refines.carries.restage waits .awake).refines
              running.refines.fits
          have nextRunning :
              ({ load with system := system } : Workload n).Running settings
                puts gets state := by
            refine ⟨running.blocking, refines, running.covered.woken isState,
              ?_, ?_⟩
            · intro other waiting isWaiting
              rw [samePending] at isWaiting
              exact running.role other waiting isWaiting
            · rw [sameLeft, sameLeft]
              exact running.balance
          refine ⟨{ load with system := system }, .nothing, ?_,
            ⟨state, nextRunning⟩, .inr ⟨?_, ?_⟩⟩
          · simp only [workStep, systemStep, isState, Checked.ok_bind, system]
          · simp only [Workload.unfinished, sameLeft]
          · intro other isReady
            refine ⟨fun runs => False.elim runs, ?_⟩
            rw [running.ready_iff] at isReady
            rw [nextRunning.ready_iff]
            obtain ⟨canRun, isFree⟩ := isReady
            refine ⟨?_, isFree⟩
            by_cases isThread : other = thread
            · subst isThread
              exact .inr ⟨pending, .awake, by simp, Function.update_self ..⟩
            · simpa only [system, Function.update_of_ne isThread] using canRun

/-- Every move keeps the threads at work. -/
theorem Workload.Running.moves
    (running : load.Running settings puts gets state)
    (move : Move n) :
    load.Moves settings puts gets move := by
  cases move with
  | wake thread =>
      exact running.wakes thread
  | run thread choice =>
      cases isState : load.system.threads thread with
      | idle =>
          exact running.starts isState choice
      | waiting pending stage =>
          cases stage with
          | notified =>
              exact running.resumes (.inl isState) choice
          | awake =>
              exact running.resumes (.inr isState) choice
          | asleep =>
              apply running.rests
              · simp only [workStep, systemStep, isState, Checked.ok_bind]
              · rintro _ rfl ⟨⟨isIdle, -⟩ | ⟨_, _, isAwake, waits⟩, -⟩
                · rw [isState] at isIdle
                  cases isIdle
                · rw [isState] at waits
                  cases waits
                  exact isAwake rfl

/-- No calls are left when no thread has any. -/
theorem Workload.left_eq_zero
    {condvar : Condvar} :
    load.left condvar = 0 ↔
      ∀ thread, leftOf condvar (load.share thread) = 0 := by
  simp [Workload.left, total]

/-- A thread with calls left makes calls of that kind. -/
theorem Workload.Running.condvar_of_left
    {thread : Fin n}
    {condvar : Condvar}
    (running : load.Running settings puts gets state)
    (isLeft : leftOf condvar (load.share thread) ≠ 0) :
    (load.work thread).condvar = condvar := by
  by_contra differs
  have noneLeft := Work.left_of_ne (Ne.symm differs)
  rw [leftOf, Workload.share, noneLeft] at isLeft
  cases isPending : (load.system.threads thread).pending with
  | none =>
      simp [isPending] at isLeft
  | some pending =>
      have isRole := running.role thread pending isPending
      simp [isPending, waitsFor, isRole, differs] at isLeft

/-- A thread that is not asleep and is free to go on is ready. -/
theorem Workload.Running.ready_of_stage
    {thread : Fin n}
    {pending : Pending}
    {stage : Stage}
    (running : load.Running settings puts gets state)
    (waits : load.system.threads thread = .waiting pending stage)
    (isAwake : stage ≠ .asleep)
    (isFree : Free settings state.queue pending.condvar) :
    load.Ready thread := by
  have isPending : (load.system.threads thread).pending = some pending := by
    rw [waits]
    rfl
  rw [running.ready_iff, ← running.role thread pending isPending]
  exact ⟨.inr ⟨pending, stage, isAwake, waits⟩, isFree⟩

/-- While a sleeper would be free to go on, a thread was notified. -/
theorem Workload.Running.notified_of_asleep
    {thread : Fin n}
    {pending : Pending}
    (running : load.Running settings puts gets state)
    (isAsleep : load.system.threads thread = .waiting pending .asleep)
    (isFree : Free settings state.queue pending.condvar) :
    0 < notifiedOf pending.condvar load.system.threads := by
  have sleeps : SomeSleeps pending.condvar load.system.threads :=
    ⟨thread, by simp [isAsleep, ThreadState.waits]⟩
  have isPending : state.pending thread = some pending := by
    rw [← running.refines.pending, isAsleep]
    rfl
  have mayWait := running.refines.related.waits thread pending isPending
  cases isCondvar : pending.condvar with
  | get =>
      rw [isCondvar] at sleeps isFree
      have someElement := List.length_pos_iff.mpr isFree
      exact lt_of_lt_of_le someElement (running.covered.getters sleeps)
  | put =>
      rw [isCondvar] at sleeps isFree
      have room := isFree.resolve_left (mayWait.2 isCondvar)
      have enough := running.covered.putters sleeps
      omega

/-- While calls are left that are free to go on, some thread is ready. -/
theorem Workload.Running.ready_of_left
    {condvar : Condvar}
    (running : load.Running settings puts gets state)
    (isLeft : load.left condvar ≠ 0)
    (isFree : Free settings state.queue condvar) :
    ∃ thread, load.Ready thread := by
  rw [ne_eq, Workload.left_eq_zero, not_forall] at isLeft
  obtain ⟨thread, threadLeft⟩ := isLeft
  have isCondvar := running.condvar_of_left threadLeft
  cases isState : load.system.threads thread with
  | idle =>
      refine ⟨thread, ?_⟩
      rw [running.ready_iff, isCondvar]
      refine ⟨.inl ⟨isState, ?_⟩, isFree⟩
      rw [ne_eq, Work.next_eq_none, isCondvar]
      simpa [leftOf, Workload.share, isState, ThreadState.pending] using threadLeft
  | waiting pending stage =>
      have isPending : (load.system.threads thread).pending = some pending := by
        rw [isState]
        rfl
      have isRole := running.role thread pending isPending
      rw [← isCondvar, ← isRole] at isFree
      by_cases isAsleep : stage = .asleep
      · rw [isAsleep] at isState
        obtain ⟨other, isNotified⟩ :=
          exists_of_tally_pos (running.notified_of_asleep isState isFree)
        cases otherState : load.system.threads other with
        | idle =>
            simp [otherState, ThreadState.waits] at isNotified
        | waiting waiting otherStage =>
            simp only [otherState, ThreadState.waits, decide_eq_true_eq]
              at isNotified
            obtain ⟨sameCondvar, rfl⟩ := isNotified
            rw [← sameCondvar] at isFree
            exact ⟨other, running.ready_of_stage otherState (by simp) isFree⟩
      · exact ⟨thread, running.ready_of_stage isState isAsleep isFree⟩

/-- All calls have returned when none is left. -/
theorem Workload.Running.finished_iff
    (running : load.Running settings puts gets state) :
    load.Finished ↔ load.unfinished = 0 := by
  constructor
  · intro finished
    have noneLeft : ∀ condvar, load.left condvar = 0 := by
      intro condvar
      rw [Workload.left_eq_zero]
      intro thread
      obtain ⟨isIdle, noNext⟩ := finished thread
      by_contra isLeft
      have isCondvar := running.condvar_of_left isLeft
      rw [Work.next_eq_none, isCondvar] at noNext
      simp [leftOf, Workload.share, isIdle, ThreadState.pending, noNext] at isLeft
    simp [Workload.unfinished, noneLeft]
  · intro noneLeft thread
    have nothing :
        ∀ condvar, leftOf condvar (load.share thread) = 0 := by
      intro condvar
      have isZero : load.left condvar = 0 := by
        cases condvar <;> simp only [Workload.unfinished] at noneLeft <;> omega
      exact Workload.left_eq_zero.mp isZero thread
    constructor
    · cases isState : load.system.threads thread with
      | idle =>
          rfl
      | waiting pending stage =>
          have isLeft := nothing pending.condvar
          simp [leftOf, Workload.share, isState, ThreadState.pending, waitsFor]
            at isLeft
    · rw [Work.next_eq_none]
      have isLeft := nothing (load.work thread).condvar
      simp only [leftOf, Workload.share, Nat.add_eq_zero_iff] at isLeft
      exact isLeft.1

/-- Work that balances leaves some thread ready until it is done. -/
theorem Workload.Running.someReady
    (running : load.Running settings puts gets state)
    (enough : gets ≤ puts)
    (fit : settings.size ≠ 0 → puts ≤ gets + settings.size) :
    load.Finished ∨ ∃ thread, load.Ready thread := by
  have balance := running.balance
  by_cases getters : load.left .get ≠ 0 ∧ Free settings state.queue .get
  · exact .inr (running.ready_of_left getters.1 getters.2)
  by_cases putters : load.left .put ≠ 0 ∧ Free settings state.queue .put
  · exact .inr (running.ready_of_left putters.1 putters.2)
  left
  rw [running.finished_iff, Workload.unfinished]
  rw [not_and_or, not_not, Free, not_not] at getters
  rw [not_and_or, not_not, Free, not_or, not_lt] at putters
  rcases getters with noGets | isEmpty
  · rcases putters with noPuts | ⟨fixed, full⟩
    · omega
    · have := fit fixed
      omega
  · rw [isEmpty, List.length_nil] at balance putters
    omega

/-- The threads are at work on a channel. -/
def Workload.AtWork
    (settings : Settings)
    (puts gets : Nat)
    (load : Workload n) : Prop :=
  ∃ state, load.Running settings puts gets state

/-- The calls that are left become fewer when a ready thread runs. -/
theorem atWork_descends
    (enough : gets ≤ puts)
    (fit : settings.size ≠ 0 → puts ≤ gets + settings.size) :
    Descends workStep Move.runs (fun _ : Move n => True)
      (Workload.AtWork settings puts gets) Workload.unfinished Workload.Ready
      Workload.Finished where
  keeps := by
    rintro load move ⟨state, running⟩ -
    obtain ⟨next, event, steps, atWork, -⟩ := running.moves move
    exact ⟨next, event, steps, atWork⟩
  falls := by
    rintro load move next event ⟨state, running⟩ - steps
    obtain ⟨_, _, made, -, fewer | ⟨same, -⟩⟩ := running.moves move
    · cases steps.symm.trans made
      exact Nat.le_of_lt fewer
    · cases steps.symm.trans made
      exact Nat.le_of_eq same
  someReady := by
    rintro load ⟨state, running⟩
    exact running.someReady enough fit
  taken := by
    rintro load move next event thread ⟨state, running⟩ - steps isReady runs
    obtain ⟨_, _, made, -, fewer | ⟨-, stays⟩⟩ := running.moves move
    · cases steps.symm.trans made
      exact fewer
    · exact ((stays thread isReady).1 runs).elim
  stays := by
    rintro load move next event thread ⟨state, running⟩ - steps isReady - same
    obtain ⟨_, _, made, -, fewer | ⟨-, stays⟩⟩ := running.moves move
    · cases steps.symm.trans made
      exact (Nat.ne_of_lt fewer same).elim
    · cases steps.symm.trans made
      exact (stays thread isReady).2

/-- Threads on a new channel are at work, with all their calls left. -/
theorem employ_atWork
    (datalen : Datalen)
    (size : Nat)
    (work : Fin n → Work) :
    (employ ⟨datalen, true, size⟩ work).AtWork ⟨datalen, true, size⟩
      (callsOf .put work) (callsOf .get work) := by
  have nobodySleeps :
      ∀ condvar, ¬ SomeSleeps condvar (start n ⟨datalen, true, size⟩).threads := by
    rintro condvar ⟨thread, isAsleep⟩
    cases isAsleep
  refine ⟨Fifo.initial n, rfl, start_refines n _,
    ⟨fun sleeps => (nobodySleeps .get sleeps).elim,
      fun sleeps => (nobodySleeps .put sleeps).elim⟩, ?_, ?_⟩
  · intro thread pending waits
    cases waits
  · have allLeft :
        ∀ condvar,
          (employ ⟨datalen, true, size⟩ work).left condvar =
            callsOf condvar work :=
      fun _ => rfl
    rw [allLeft, allLeft]
    simp only [Fifo.initial, List.length_nil]
    omega

/-- Work that is done has left in the queue what was put and not taken. -/
theorem Workload.Running.count_of_finished
    (running : load.Running settings puts gets state)
    (finished : load.Finished) :
    load.system.ch.count + gets = puts ∧
      (settings.size ≠ 0 → load.system.ch.count ≤ settings.size) := by
  rw [running.finished_iff, Workload.unfinished] at finished
  have balance := running.balance
  have capacity := running.refines.related.capacity
  rw [running.refines.related.holds.count]
  refine ⟨by omega, ?_⟩
  intro fixed
  exact_mod_cast capacity fixed

end Workload

/--
Producers and consumers on a blocking channel of any size, or without one.
Whatever the schedule, no move faults, and when all calls have returned the
count is the number of puts less that of gets.  Every fair schedule gets there,
whoever it wakes and however often sleepers wake on their own, exactly when there
are enough puts for the gets and the channel has room for what is left.
-/
theorem fair_schedules_finish_iff
    (n : Nat)
    (datalen : Datalen)
    (size : Nat)
    (work : Fin n → Work)
    (schedule : Nat → Move n)
    (fair : Fair Move.runs schedule) :
    (∀ time,
      ∃ load events,
        runCalls workStep (employ ⟨datalen, true, size⟩ work)
            (firstCalls schedule time) =
          .ok (load, events) ∧
        (load.Finished →
          load.system.ch.count + callsOf .get work = callsOf .put work)) ∧
    ((∃ time load events,
        runCalls workStep (employ ⟨datalen, true, size⟩ work)
            (firstCalls schedule time) =
          .ok (load, events) ∧
        load.Finished) ↔
      callsOf .get work ≤ callsOf .put work ∧
        (size ≠ 0 → callsOf .put work ≤ callsOf .get work + size)) := by
  have starts := employ_atWork datalen size work
  have anyRun :
      ∀ time,
        ∃ load events,
          runCalls workStep (employ ⟨datalen, true, size⟩ work)
              (firstCalls schedule time) =
            .ok (load, events) ∧
          load.AtWork ⟨datalen, true, size⟩ (callsOf .put work)
            (callsOf .get work) := by
    intro time
    exact @runCalls_invariant _ _ _ workStep (fun _ _ => True)
      (Workload.AtWork ⟨datalen, true, size⟩ (callsOf .put work)
        (callsOf .get work))
      (by
        rintro load move ⟨state, running⟩ -
        obtain ⟨next, event, steps, atWork, -⟩ := running.moves move
        exact ⟨next, event, steps, atWork⟩)
      _ starts _ (alwaysAllowed_of_forall (fun _ _ _ => trivial) _)
  refine ⟨?_, ?_, ?_⟩
  · intro time
    obtain ⟨load, events, runs, state, running⟩ := anyRun time
    exact ⟨load, events, runs,
      fun finished => (running.count_of_finished finished).1⟩
  · rintro ⟨time, load, events, runs, finished⟩
    obtain ⟨_, _, made, state, running⟩ := anyRun time
    cases runs.symm.trans made
    obtain ⟨count, capacity⟩ := running.count_of_finished finished
    have counted := running.refines.related.holds.count
    refine ⟨by omega, ?_⟩
    intro fixed
    have within : load.system.ch.count ≤ size :=
      capacity fixed
    omega
  · rintro ⟨enough, fit⟩
    obtain ⟨time, load, events, runs, -, finished⟩ :=
      (atWork_descends enough fit).eventually fair (fun _ => trivial) starts
    exact ⟨time, load, events, runs, finished⟩

attribute [local instance] neZero_two

/-- Two threads that run in turn. -/
def inTurn (time : Nat) : Move 2 :=
  if time % 2 = 0 then
    .run 0 0
  else
    .run 1 0

/-- Running in turn is fair. -/
theorem inTurn_fair :
    Fair Move.runs inTurn := by
  intro thread time
  match thread with
  | 0 =>
      refine ⟨2 * time, by omega, ?_⟩
      have isEven : 2 * time % 2 = 0 := by
        omega
      rw [inTurn, if_pos isEven]
      rfl
  | 1 =>
      refine ⟨2 * time + 1, by omega, ?_⟩
      have isOdd : ¬ (2 * time + 1) % 2 = 0 := by
        omega
      rw [inTurn, if_neg isOdd]
      rfl

/-- A producer of two blocks, and a consumer of two. -/
def twoBlocks : Fin 2 → Work
  | 0 =>
      .puts [⟨⟨100, []⟩, .std, by decide⟩, ⟨⟨200, []⟩, .top, by decide⟩]
  | 1 =>
      .gets [⟨1, Nat.one_pos⟩, ⟨1, Nat.one_pos⟩]

/-- Both finish over a channel of one place. -/
theorem fair_schedules_finish_two :
    ∃ time load events,
      runCalls workStep (employ ⟨.voidp, true, 1⟩ twoBlocks)
          (firstCalls inTurn time) =
        .ok (load, events) ∧
      load.Finished :=
  (fair_schedules_finish_iff 2 .voidp 1 twoBlocks inTurn inTurn_fair).2.mpr
    (by decide)

end Clibs.Ch
