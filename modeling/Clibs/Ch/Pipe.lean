import Clibs.Ch.Wakeup

namespace Clibs.Ch

/-!
# Pipes

A pipe is a channel as `ch_create` makes it for pointers: it blocks and has no
fixed size.  A put never waits, a get waits on an empty pipe only, and the
pointers come out in the order in which they went in.  `Pipes` says which
pointers a pipe holds, and each operation is specified by what it does to them
and to the threads inside the pipe.
-/

/-- How a pipe is set up. -/
def pipeSettings : Settings where
  datalen :=
    .voidp
  blocking :=
    true
  size :=
    0

/-- The pipe holds the pointers, in order. -/
def Pipes
    {n : Nat}
    (system : System n)
    (pointers : List Nat) : Prop :=
  ∃ state,
    Carries pipeSettings system state ∧
      state.Fits pipeSettings ∧
      Covered pipeSettings system.threads state.queue ∧
      state.queue.map Prod.snd = pointers.map ElemBlock.pointer

/-- The blocks of some elements of a channel, from an element on. -/
def blocksFrom
    (heap : CellHeap ChElem) : Nat → Option Nat → List ElemBlock
  | 0, _ =>
      []
  | _, none =>
      []
  | elements + 1, some element =>
      match heap.cell element with
      | none =>
          []
      | some elem =>
          elem.block :: blocksFrom heap elements elem.prev

/-- The blocks that a channel holds, from the top of its queue on. -/
def ChH.blocks (ch : ChH) : List ElemBlock :=
  blocksFrom ch.heap ch.count.toNat ch.head

/-- What `ch_get` returns for a pointer. -/
def pointerCode (pointer : Nat) : Int :=
  if pointer = chEndoftransmission then
    chGetEndoftransmission
  else
    chOk

/-- A thread that can take a section of a call of `ch_get`. -/
def CanGet
    {n : Nat}
    (system : System n)
    (thread : Fin n) : Prop :=
  CanMove system.threads thread .get

/-- The label with which a thread takes a section of a call of `ch_get`. -/
def getLabel
    {n : Nat}
    (system : System n)
    (thread : Fin n)
    (choice : Nat) : Label n :=
  match system.threads thread with
  | .idle =>
      .call thread (.get 1) choice
  | .waiting _ _ =>
      .resume thread choice

/-- The thread whose section a step is. -/
def Label.runner
    {n : Nat} : Label n → Option (Fin n)
  | .call thread _ _ =>
      some thread
  | .resume thread _ =>
      some thread
  | .wake _ =>
      none

section Others

variable {n : Nat} {threads : Fin n → ThreadState} {thread : Fin n}

/-- A signal leaves a thread that does not sleep. -/
theorem signal_of_not_asleep
    (notAsleep : ∀ pending, threads thread ≠ .waiting pending .asleep)
    (choice : Nat)
    (condvar : Option Condvar) :
    signal threads choice condvar thread = threads thread := by
  cases condvar with
  | none =>
      rfl
  | some condvar =>
      rcases wakeOne_cases (ThreadState.waits condvar .asleep)
          ThreadState.notify choice threads with
        ⟨-, nobody⟩ | ⟨sleeper, isAsleep, somebody⟩
      · rw [signal, nobody]
      · rw [signal, somebody, Function.update_of_ne]
        rintro rfl
        cases isState : threads thread with
        | idle =>
            rw [isState] at isAsleep
            cases isAsleep
        | waiting pending stage =>
            simp only [isState, ThreadState.waits, decide_eq_true_eq]
              at isAsleep
            rw [isAsleep.2] at isState
            exact notAsleep pending isState

/-- A section of another thread leaves a thread that does not sleep. -/
theorem finish_of_other
    {runner : Fin n}
    (isOther : thread ≠ runner)
    (notAsleep : ∀ pending, threads thread ≠ .waiting pending .asleep)
    (choice : Nat)
    (pending : Pending)
    (done : Section) :
    (finish threads runner choice pending done).1.threads thread =
      threads thread := by
  obtain ⟨ch, event, condvar⟩ := done
  have isSame :
      Function.update threads runner (.afterSection pending event) thread =
        threads thread :=
    Function.update_of_ne isOther _ _
  simp only [finish]
  rw [signal_of_not_asleep, isSame]
  rw [isSame]
  exact notAsleep

/-- A step that is no section of a thread that does not sleep leaves it. -/
theorem systemStep_of_other
    {system next : System n}
    {label : Label n}
    {event : ChEvent}
    (steps : systemStep system label = .ok (next, event))
    (isOther : label.runner ≠ some thread)
    (notAsleep :
      ∀ pending, system.threads thread ≠ .waiting pending .asleep) :
    next.threads thread = system.threads thread := by
  cases label with
  | call runner call choice =>
      have differs : thread ≠ runner := by
        rintro rfl
        exact isOther rfl
      simp only [systemStep] at steps
      split at steps
      · cases call with
        | put block place =>
            simp only [callStep] at steps
            split at steps
            · cases steps
              rfl
            · obtain ⟨done, -, same⟩ := Checked.bind_eq_ok.mp steps
              cases same
              exact finish_of_other differs notAsleep choice _ done
        | get block =>
            obtain ⟨done, -, same⟩ := Checked.bind_eq_ok.mp steps
            cases same
            exact finish_of_other differs notAsleep choice _ done
        | peek block | clean delFunc =>
            obtain ⟨done, -, same⟩ := Checked.bind_eq_ok.mp steps
            cases same
            rfl
        | setattr attr val =>
            cases steps
            rfl
      · cases steps
        rfl
  | resume runner choice =>
      have differs : thread ≠ runner := by
        rintro rfl
        exact isOther rfl
      simp only [systemStep] at steps
      split at steps
      · obtain ⟨done, -, same⟩ := Checked.bind_eq_ok.mp steps
        cases same
        exact finish_of_other differs notAsleep choice _ done
      · obtain ⟨done, -, same⟩ := Checked.bind_eq_ok.mp steps
        cases same
        exact finish_of_other differs notAsleep choice _ done
      · cases steps
        rfl
  | wake sleeper =>
      simp only [systemStep] at steps
      split at steps
      next pending isAsleep =>
        cases steps
        apply Function.update_of_ne
        rintro rfl
        exact notAsleep pending isAsleep
      next =>
        cases steps
        rfl

end Others

section Pipes

variable {n : Nat} {system : System n} {pointers : List Nat}

/-- A new pipe is empty. -/
theorem pipes_new
    (n : Nat) :
    Pipes (⟨chCreate .voidp fun _ => true, fun _ => .idle⟩ : System n) [] := by
  have refines := start_refines n pipeSettings
  have nobodySleeps :
      ∀ condvar, ¬ SomeSleeps condvar (start n pipeSettings).threads := by
    rintro condvar ⟨thread, isAsleep⟩
    cases isAsleep
  exact ⟨Fifo.initial n, refines.carries, refines.fits,
    ⟨fun sleeps => (nobodySleeps .get sleeps).elim,
      fun sleeps => (nobodySleeps .put sleeps).elim⟩, rfl⟩

/-- The count of a pipe is the number of its pointers. -/
theorem Pipes.count
    (pipes : Pipes system pointers) :
    system.ch.count = pointers.length := by
  obtain ⟨state, carries, -, -, same⟩ := pipes
  have sameLength := congrArg List.length same
  simp only [List.length_map] at sameLength
  rw [carries.intact.holds.count, sameLength]

/-- The blocks along a chain are those of its elements. -/
theorem blocksFrom_of_chain
    {heap : CellHeap ChElem}
    {first : Option Nat}
    {queue : List Item}
    (chain : Segment (links heap) first queue none) :
    blocksFrom heap queue.length first = queue.map Prod.snd := by
  induction queue generalizing first with
  | nil =>
      rfl
  | cons item rest inductionHypothesis =>
      obtain ⟨element, block⟩ := item
      obtain ⟨next, rfl, linked, later⟩ := chain
      obtain ⟨elem, isCell, same⟩ := Option.map_eq_some_iff.mp linked
      cases same
      simp only [List.length_cons, blocksFrom, isCell, List.map_cons,
        inductionHypothesis later]

/-- The blocks of a pipe are its pointers. -/
theorem Pipes.blocks
    (pipes : Pipes system pointers) :
    system.ch.blocks = pointers.map ElemBlock.pointer := by
  obtain ⟨state, carries, -, -, same⟩ := pipes
  have holds := carries.intact.holds
  rw [ChH.blocks, holds.count, Int.toNat_natCast,
    blocksFrom_of_chain holds.chain, same]

/-- The elements of a pipe in memory are one for each of its pointers. -/
theorem Pipes.owns
    (pipes : Pipes system pointers) :
    ∃ elements,
      system.ch.heap.Owns elements ∧ elements.length = pointers.length := by
  obtain ⟨state, carries, fits, -, same⟩ := pipes
  have nobodyHolds : collect heldElement state.pending = [] := by
    have holdsNone : ∀ thread, heldElement (state.pending thread) = none := by
      intro thread
      cases isPending : state.pending thread with
      | none =>
          rfl
      | some pending =>
          have mayWait := fits.waits thread pending isPending
          cases pending with
          | get =>
              rfl
          | put element block place =>
              exact (mayWait.2 rfl rfl).elim
    simp [collect, holdsNone]
  have owns := carries.intact.owns
  rw [nobodyHolds, List.nil_append, List.append_nil] at owns
  have sameLength := congrArg List.length same
  rw [List.length_map, List.length_map] at sameLength
  refine ⟨cellsOf state.queue, owns, ?_⟩
  rw [cellsOf, List.length_map, sameLength]

/-- Threads wait in `ch_get` only. -/
theorem Pipes.pending
    (pipes : Pipes system pointers)
    (thread : Fin n) :
    (system.threads thread).pending = none ∨
      (system.threads thread).pending = some .get := by
  obtain ⟨state, carries, fits, -, -⟩ := pipes
  cases isPending : (system.threads thread).pending with
  | none =>
      exact .inl rfl
  | some pending =>
      right
      rw [carries.pending] at isPending
      have mayWait := fits.waits thread pending isPending
      cases pending with
      | get =>
          rfl
      | put element block place =>
          exact (mayWait.2 rfl rfl).elim

/-- While a thread sleeps, enough others are on their way. -/
theorem Pipes.covered
    (pipes : Pipes system pointers)
    (sleeps : SomeSleeps .get system.threads) :
    pointers.length ≤ notifiedOf .get system.threads := by
  obtain ⟨state, -, -, covered, same⟩ := pipes
  have sameLength := congrArg List.length same
  simp only [List.length_map] at sameLength
  rw [← sameLength]
  exact covered.getters sleeps

/-- Putting a pointer appends it and signals a getter. -/
theorem Pipes.put
    {thread : Fin n}
    {pointer : Nat}
    (pipes : Pipes system pointers)
    (isIdle : system.threads thread = .idle)
    (wanted : pointer ≠ 0)
    (choice : Nat) :
    ∃ next item,
      systemStep system (.call thread (.put ⟨pointer, []⟩ .std) choice) =
          .ok (next, .linked item (pointers.length + 1)) ∧
        Pipes next (pointers ++ [pointer]) ∧
        next.threads = signal system.threads choice (some .get) := by
  obtain ⟨state, carries, fits, covered, same⟩ := pipes
  have sameLength := congrArg List.length same
  simp only [List.length_map] at sameLength
  have taken : state.take.Fits pipeSettings :=
    ⟨fits.capacity, fits.waits⟩
  have nonNull : (⟨pointer, []⟩ : Block).address ≠ 0 :=
    wanted
  obtain ⟨next, event, after, steps, allowed, nextCarries, moves⟩ :=
    put_section carries isIdle nonNull .std choice
  have stored :
      ∀ {value : ElemBlock},
        Block.QueuedAs ⟨pointer, []⟩ pipeSettings.datalen value →
        value = .pointer pointer := by
    intro value queues
    cases queues with
    | endMark isEnd =>
        exact congrArg ElemBlock.pointer isEnd.symm
    | pointer notEnd =>
        rfl
  cases allowed with
  | putSleeps _ fixed _ =>
      exact (fixed rfl).elim
  | putFull nonBlocking _ _ =>
      cases nonBlocking
  | putLinks queues room =>
      have stays :
          Function.update system.threads thread .idle = system.threads := by
        rw [← isIdle, Function.update_eq_self]
      have queued : state.take.queue = state.queue :=
        rfl
      rw [queued, sameLength] at steps
      refine ⟨next, _, steps, ⟨_, nextCarries, taken.after (.putLinks queues room), ?_,
        ?_⟩, ?_⟩
      · rw [moves]
        exact covered.linked rfl (.inl isIdle)
          (by simp [Fifo.after, Place.insert, queued]) choice
      · simp [Fifo.after, Place.insert, queued, same, stored queues]
      · rw [moves]
        simp only [ThreadState.afterSection, stays, signalled, pipeSettings,
          ↓reduceIte]

/-- A thread that takes a section of `ch_get` makes a step of its pipe. -/
theorem Pipes.get_section
    {thread : Fin n}
    {state : Fifo n}
    (carries : Carries pipeSettings system state)
    (canGet : CanGet system thread)
    (choice : Nat) :
    SectionTaken pipeSettings system state thread .get choice
        (getLabel system thread choice) ∨
      SleepsAgain pipeSettings system state.queue thread .get
        (getLabel system thread choice) := by
  rcases canGet with isIdle | isBack
  · left
    rw [getLabel, isIdle]
    exact Ch.get_section carries isIdle (by decide) choice
  · have isResume : getLabel system thread choice = .resume thread choice := by
      rcases isBack with same | same <;> rw [getLabel, same]
    rw [isResume]
    exact resume_section carries isBack choice

/-- A section of `ch_get` on an empty pipe goes to sleep. -/
theorem Pipes.get_empty
    {thread : Fin n}
    (pipes : Pipes system [])
    (canGet : CanGet system thread)
    (choice : Nat) :
    ∃ next,
      systemStep system (getLabel system thread choice) =
          .ok (next, .sleeps) ∧
        Pipes next [] ∧
        next.threads =
          Function.update system.threads thread (.waiting .get .asleep) := by
  obtain ⟨state, carries, fits, covered, same⟩ := pipes
  have isEmpty : state.queue = [] := by
    simpa using same
  rcases Pipes.get_section carries canGet choice with
    ⟨next, event, after, steps, allowed, nextCarries, moves⟩ | again
  · rw [isEmpty] at allowed
    rw [isEmpty] at covered
    cases allowed with
    | getSleeps isBlocking =>
        refine ⟨next, steps, ⟨_, nextCarries, ?_, ?_, rfl⟩, moves⟩
        · refine fits.after ?_
          rw [isEmpty]
          exact .getSleeps isBlocking
        · rw [moves]
          exact covered.blocked canGet rfl .sleeps
    | getNodata nonBlocking =>
        cases nonBlocking
  · have waits : (system.threads thread).pending = some .get := by
      rcases again.isBack with isBack | isBack <;> rw [isBack] <;> rfl
    exact ⟨_, again.steps,
      ⟨state, carries.restage waits .asleep, fits,
        covered.blocked canGet again.blocked .sleeps, same⟩, rfl⟩

/-- A section of `ch_get` on a pipe that holds a pointer takes it. -/
theorem Pipes.get_pointer
    {thread : Fin n}
    {pointer : Nat}
    {rest : List Nat}
    (pipes : Pipes system (pointer :: rest))
    (canGet : CanGet system thread)
    (choice : Nat) :
    ∃ next element,
      systemStep system (getLabel system thread choice) =
          .ok (next,
            .taken (element, .pointer pointer) (pointerCode pointer)) ∧
        Pipes next rest ∧
        next.threads = Function.update system.threads thread .idle := by
  obtain ⟨state, carries, fits, covered, same⟩ := pipes
  cases isQueue : state.queue with
  | nil =>
      rw [isQueue] at same
      cases same
  | cons item queue =>
      obtain ⟨element, block⟩ := item
      rw [isQueue, List.map_cons, List.map_cons] at same
      obtain ⟨rfl, sameRest⟩ := List.cons.inj same
      rcases Pipes.get_section carries canGet choice with
        ⟨next, event, after, steps, allowed, nextCarries, moves⟩ | again
      · rw [isQueue] at allowed
        rw [isQueue] at covered
        cases allowed with
        | getTakes =>
            have code : takenCode (.pointer pointer) = pointerCode pointer := by
              by_cases isEnd : pointer = chEndoftransmission
              · simp [takenCode, pointerCode, isEnd]
              · simp [takenCode, pointerCode, isEnd]
            rw [code] at steps
            refine ⟨next, element, steps, ⟨_, nextCarries, ?_, ?_, sameRest⟩,
              moves⟩
            · refine fits.after ?_
              rw [isQueue]
              exact .getTakes
            · rw [moves]
              exact covered.taken canGet choice
      · have blocked : state.queue = [] :=
          again.blocked
        rw [isQueue] at blocked
        cases blocked

/-- A thread that wakes on its own leaves the pipe as it is. -/
theorem Pipes.wake
    {thread : Fin n}
    (pipes : Pipes system pointers)
    (isAsleep : system.threads thread = .waiting .get .asleep) :
    Pipes
      { system with
        threads :=
          Function.update system.threads thread (.waiting .get .awake) }
      pointers := by
  obtain ⟨state, carries, fits, covered, same⟩ := pipes
  have waits : (system.threads thread).pending = some .get := by
    rw [isAsleep]
    rfl
  exact ⟨state, carries.restage waits .awake, fits, covered.woken isAsleep,
    same⟩

end Pipes

end Clibs.Ch
