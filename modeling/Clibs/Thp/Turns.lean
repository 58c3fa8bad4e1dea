import Clibs.Foundation.Schedule
import Clibs.Thp.Refinement

namespace Clibs.Thp

/-!
# The turns of the threads

A turn is the next step of a thread inside the library, or the end of the job
that it runs.  A turn is ready when taking it does something.  A step that is
another thread's turn moves no thread that does not sleep, so a ready turn stays
ready while nothing else happens.
-/

open Ch (ThreadState ChEvent)

/-- A turn of a thread: its next step inside the library, or the end of its job. -/
inductive Turn (k : Nat) where
  | go (thread : Fin k)
  | finish (thread : Fin k)
  deriving Repr, DecidableEq

/-- The label is the turn of the thread. -/
def Turn.takes
    {k : Nat} : Turn k → PoolLabel k → Prop
  | .go thread, label =>
      ∃ choice, label = .go thread choice
  | .finish thread, label =>
      label = .finish thread

/-- The thread that takes a section with the label. -/
def PoolLabel.runner
    {k : Nat} : PoolLabel k → Option (Fin k)
  | .go thread _ =>
      some thread
  | _ =>
      none

/-- The turn can be taken, and does something. -/
def Pool.Ready
    {k : Nat}
    (pool : Pool k) : Turn k → Prop
  | .finish thread =>
      ∃ job, pool.activity thread = .executing job
  | .go thread =>
      match pool.activity thread with
      | .sending _ =>
          True
      | .joining joined =>
          pool.numThreads ≤ joined ∨ pool.hasExited joined = true
      | .waiting _ =>
          pool.mutex = none
      | .collecting _ _ =>
          True
      | .handing _ =>
          True
      | .taking =>
          pool.inQueue.ch.count ≠ 0 ∧ Ch.CanGet pool.inQueue thread
      | _ =>
          False

/-- A channel after a step of the pool: the same, or one step of its own later. -/
def MovedBy
    {k : Nat}
    (queue next : Ch.System k)
    (runner : Option (Fin k)) : Prop :=
  next = queue ∨
    ∃ label event,
      Ch.systemStep queue label = .ok (next, event) ∧ label.runner = runner

section Queues

variable {k : Nat} {pool next : Pool k} {label : PoolLabel k}
  {event : PoolEvent k} {thread : Fin k}

/-- The label of a put is one of the thread that puts. -/
theorem putLabel_runner
    (queue : Ch.System k)
    (thread : Fin k)
    (pointer choice : Nat) :
    (putLabel queue thread pointer choice).runner = some thread := by
  rw [putLabel]
  split <;> rfl

/-- The label of a get is one of the thread that gets. -/
theorem getLabel_runner
    (queue : Ch.System k)
    (thread : Fin k)
    (choice : Nat) :
    (Ch.getLabel queue thread choice).runner = some thread := by
  rw [Ch.getLabel]
  split <;> rfl

/-- The start of `thp_add` leaves the channels. -/
theorem addStart_queues
    {caller : Caller}
    {job : ThpJob}
    (steps : addStart pool thread caller job = (next, event)) :
    next.inQueue = pool.inQueue ∧ next.waitQueue = pool.waitQueue := by
  rw [addStart] at steps
  split at steps <;>
  · cases steps
    exact ⟨rfl, rfl⟩

/-- `thp_add` puts into the input queue. -/
theorem addStep_queues
    {caller : Caller}
    {job choice : Nat}
    {point : AddPoint}
    (steps :
      addStep pool thread caller job choice point = .ok (next, event)) :
    MovedBy pool.inQueue next.inQueue (some thread) ∧
      next.waitQueue = pool.waitQueue := by
  cases point with
  | lock =>
      rw [addStep] at steps
      split at steps <;>
      · cases steps
        exact ⟨.inl rfl, rfl⟩
  | put =>
      obtain ⟨⟨inQueue, rc⟩, puts, rest⟩ := Checked.bind_eq_ok.mp steps
      have moved : MovedBy pool.inQueue inQueue (some thread) :=
        .inr ⟨_, _, puts, putLabel_runner _ _ _ _⟩
      cases rc with
      | returned code =>
          simp only at rest
          split at rest <;>
          · cases rest
            exact ⟨moved, rfl⟩
      | _ =>
          cases rest
          exact ⟨moved, rfl⟩
  | count | read =>
      cases steps
      exact ⟨.inl rfl, rfl⟩

/-- `thp_wait` leaves the channels up to its loop. -/
theorem waitStart_queues
    {destroys : Bool}
    (steps : waitStart pool thread destroys = (next, event)) :
    next.inQueue = pool.inQueue ∧ next.waitQueue = pool.waitQueue := by
  rw [waitStart] at steps
  split_ifs at steps <;>
  · cases steps
    exact ⟨rfl, rfl⟩

/-- The loop of `thp_wait` gets from the completion queue. -/
theorem collectStep_queues
    {destroys : Bool}
    {count : Int}
    {choice : Nat}
    (steps :
      collectStep pool thread destroys count choice = .ok (next, event)) :
    next.inQueue = pool.inQueue ∧
      MovedBy pool.waitQueue next.waitQueue (some thread) := by
  rw [collectStep] at steps
  split at steps
  next =>
    cases steps
    exact ⟨rfl, .inl rfl⟩
  next =>
    obtain ⟨⟨waitQueue, rc⟩, gets, rest⟩ := Checked.bind_eq_ok.mp steps
    have moved : MovedBy pool.waitQueue waitQueue (some thread) :=
      .inr ⟨_, _, gets, getLabel_runner _ _ _⟩
    cases isFetched : fetched rc with
    | none =>
        simp only [isFetched] at rest
        cases rest
        exact ⟨rfl, moved⟩
    | some tj =>
        simp only [isFetched] at rest
        obtain ⟨jobs, -, same⟩ := Checked.bind_eq_ok.mp rest
        cases same
        exact ⟨rfl, moved⟩

/-- The loop of a worker gets from the input queue. -/
theorem takeStep_queues
    {choice : Nat}
    (steps : takeStep pool thread choice = .ok (next, event)) :
    MovedBy pool.inQueue next.inQueue (some thread) ∧
      next.waitQueue = pool.waitQueue := by
  obtain ⟨⟨inQueue, rc⟩, gets, rest⟩ := Checked.bind_eq_ok.mp steps
  have moved : MovedBy pool.inQueue inQueue (some thread) :=
    .inr ⟨_, _, gets, getLabel_runner _ _ _⟩
  simp only at rest
  split at rest
  next =>
    cases rest
    exact ⟨moved, rfl⟩
  next =>
    cases isFetched : fetched rc with
    | none =>
        simp only [isFetched] at rest
        cases rest
        exact ⟨moved, rfl⟩
    | some tj =>
        simp only [isFetched] at rest
        obtain ⟨run, -, same⟩ := Checked.bind_eq_ok.mp rest
        cases same
        exact ⟨moved, rfl⟩

/-- A worker puts its job into the completion queue. -/
theorem handStep_queues
    {job choice : Nat}
    (steps : handStep pool thread job choice = .ok (next, event)) :
    next.inQueue = pool.inQueue ∧
      MovedBy pool.waitQueue next.waitQueue (some thread) := by
  obtain ⟨⟨waitQueue, rc⟩, puts, rest⟩ := Checked.bind_eq_ok.mp steps
  have moved : MovedBy pool.waitQueue waitQueue (some thread) :=
    .inr ⟨_, _, puts, putLabel_runner _ _ _ _⟩
  cases rc <;>
  · cases rest
    exact ⟨rfl, moved⟩

/-- `thp_destroy` puts its markers into the input queue. -/
theorem sendStep_queues
    {sent choice : Nat}
    (steps : sendStep pool thread sent choice = .ok (next, event)) :
    MovedBy pool.inQueue next.inQueue (some thread) ∧
      next.waitQueue = pool.waitQueue := by
  rw [sendStep] at steps
  split at steps
  next =>
    obtain ⟨⟨inQueue, rc⟩, puts, rest⟩ := Checked.bind_eq_ok.mp steps
    have moved : MovedBy pool.inQueue inQueue (some thread) :=
      .inr ⟨_, _, puts, putLabel_runner _ _ _ _⟩
    cases rc <;>
    · cases rest
      exact ⟨moved, rfl⟩
  next =>
    cases steps
    exact ⟨.inl rfl, rfl⟩

/-- Joining the workers leaves the channels. -/
theorem joinStep_queues
    {joined : Nat}
    (steps : joinStep pool thread joined = (next, event)) :
    next.inQueue = pool.inQueue ∧ next.waitQueue = pool.waitQueue := by
  rw [joinStep] at steps
  split_ifs at steps <;>
  · cases steps
    exact ⟨rfl, rfl⟩

/-- A step of a thread moves each channel by one section at most. -/
theorem goStep_queues
    {choice : Nat}
    (steps : goStep pool thread choice = .ok (next, event)) :
    MovedBy pool.inQueue next.inQueue (some thread) ∧
      MovedBy pool.waitQueue next.waitQueue (some thread) := by
  rw [goStep] at steps
  split at steps
  next =>
    exact (addStep_queues steps).imp_right .inl
  next =>
    exact (waitStart_queues (Except.ok.inj steps)).imp .inl .inl
  next =>
    exact (collectStep_queues steps).imp_left .inl
  next =>
    exact (sendStep_queues steps).imp_right .inl
  next =>
    exact (joinStep_queues (Except.ok.inj steps)).imp .inl .inl
  next =>
    exact (takeStep_queues steps).imp_right .inl
  next =>
    exact (handStep_queues steps).imp_left .inl
  next =>
    cases steps
    exact ⟨.inl rfl, .inl rfl⟩

/-- A step of the pool moves each of its channels by one step at most. -/
theorem poolStep_queues
    (steps : poolStep pool label = .ok (next, event)) :
    MovedBy pool.inQueue next.inQueue label.runner ∧
      MovedBy pool.waitQueue next.waitQueue label.runner := by
  cases label with
  | add thread funP funParam =>
      simp only [poolStep] at steps
      split at steps
      next =>
        exact (addStart_queues (Except.ok.inj steps)).imp .inl .inl
      next =>
        exact (addStart_queues (Except.ok.inj steps)).imp .inl .inl
      next =>
        cases steps
        exact ⟨.inl rfl, .inl rfl⟩
  | wait thread | destroy thread | finish thread =>
      simp only [poolStep] at steps
      split at steps <;>
      · cases steps
        exact ⟨.inl rfl, .inl rfl⟩
  | wakeIn thread =>
      obtain ⟨⟨inQueue, woken⟩, wakes, same⟩ := Checked.bind_eq_ok.mp steps
      cases same
      exact ⟨.inr ⟨_, _, wakes, rfl⟩, .inl rfl⟩
  | wakeOut thread =>
      obtain ⟨⟨waitQueue, woken⟩, wakes, same⟩ := Checked.bind_eq_ok.mp steps
      cases same
      exact ⟨.inl rfl, .inr ⟨_, _, wakes, rfl⟩⟩
  | go thread choice =>
      exact goStep_queues steps

/-- A channel that another thread moved leaves a thread that does not sleep. -/
theorem MovedBy.of_other
    {queue after : Ch.System k}
    {runner : Option (Fin k)}
    (moved : MovedBy queue after runner)
    (isOther : runner ≠ some thread)
    (notAsleep :
      ∀ pending, queue.threads thread ≠ .waiting pending .asleep) :
    after.threads thread = queue.threads thread := by
  rcases moved with rfl | ⟨label, event, steps, rfl⟩
  · rfl
  · exact Ch.systemStep_of_other steps isOther notAsleep

end Queues

section Ready

variable {k : Nat} {pool next : Pool k} {label : PoolLabel k}
  {event : PoolEvent k} {queued : List (Option Nat)} {done : List Nat}
  {thread : Fin k}

/-- A worker that takes from a queue with entries shows that one is ready. -/
theorem Stands.someTakes
    (stands : Stands pool queued done)
    (someEntry : queued ≠ [])
    (isAt : pool.activity thread = .taking) :
    ∃ turn, pool.Ready turn := by
  have isLength := stands.inQueue.count
  rw [List.length_map] at isLength
  have positive := List.length_pos_iff.mpr someEntry
  obtain ⟨taker, takes, canGet⟩ := stands.someTaker someEntry isAt
  refine ⟨.go taker, ?_⟩
  simp only [Pool.Ready, takes]
  exact ⟨by omega, canGet⟩

end Ready

end Clibs.Thp
