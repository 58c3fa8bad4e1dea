import Clibs.Ch.Fifo

namespace Clibs.Ch

/-!
# An intact channel

`Intact` ties a channel to an abstract state while one thread may have an
element in its hands, and says nothing about how full the channel is or why a
call waits; `Carries` adds the table of threads.  A step keeps a system carried
under any settings, and a call of `ch_setattr` only exchanges the settings, so
the channel stays intact when it is set up anew while threads wait.
-/

open CellHeap

/--
The channel holds the queue, owns its elements, those of the waiting calls and
those in hand, and counts the waiting calls.
-/
structure Intact
    {n : Nat}
    (settings : Settings)
    (ch : ChH)
    (state : Fifo n)
    (inHand : List Nat) : Prop where
  holds : Holds settings ch state.queue
  owns :
    ch.heap.Owns
      (inHand ++ (cellsOf state.queue ++ collect heldElement state.pending))
  grants : ch.heap.AlwaysGrants
  fresh : ch.heap.next = state.fresh
  prepared :
    ∀ thread element block place,
      state.pending thread = some (.put element block place) →
      ch.heap.cell element =
        some ⟨storedBlock settings.datalen block, none⟩
  waiting :
    ∀ condvar,
      ch.waitingThreads condvar = tally (waitsFor condvar) state.pending

/-- The system carries the abstract state. -/
structure Carries
    {n : Nat}
    (settings : Settings)
    (system : System n)
    (state : Fifo n) : Prop where
  intact : Intact settings system.ch state []
  pending : ∀ thread, (system.threads thread).pending = state.pending thread

/-- The state without the call of one thread. -/
def Fifo.remove
    {n : Nat}
    (state : Fifo n)
    (thread : Fin n) : Fifo n where
  queue :=
    state.queue
  pending :=
    Function.update state.pending thread none
  fresh :=
    state.fresh

section Intact

variable {n : Nat} {settings : Settings} {ch : ChH} {state : Fifo n}

/-- Only a call that sleeps still waits after its section. -/
theorem pendingAfter_eq_some
    {pending waiting : Pending}
    {event : ChEvent}
    (waits : pendingAfter pending event = some waiting) :
    event = .sleeps ∧ waiting = pending := by
  cases event <;> simp [pendingAfter] at waits
  exact ⟨rfl, waits.symm⟩

/--
A section of a call, taken while the other threads' calls are as in the state,
is a step of the queue and leaves the channel intact.
-/
theorem Intact.after_section
    {thread : Fin n}
    {pending : Pending}
    {inHand : List Nat}
    {code : Checked Section}
    (intact : Intact settings ch state inHand)
    (isIdle : state.pending thread = none)
    (prepared :
      ∀ element block place,
        pending = .put element block place →
        ch.heap.cell element =
          some ⟨storedBlock settings.datalen block, none⟩)
    (spec :
      SectionSpec settings pending state.queue
        (collect heldElement state.pending) ch code) :
    ∃ next event after,
      code =
          .ok (next, event,
            signalled settings ch.putWaitingThreads event) ∧
        QueueStep settings pending state.queue event after ∧
        Intact settings next (state.after thread pending event after) [] := by
  obtain ⟨next, event, after, returns, done⟩ := spec
  have stays :
      Function.update state.pending thread none = state.pending := by
    rw [← isIdle, Function.update_eq_self]
  refine ⟨next, event, after, returns, done.allowed, done.holds,
    ?_, ?_, ?_, ?_, ?_⟩
  · have items :
        (collect heldElement
            (Function.update state.pending thread
              (pendingAfter pending event))).Perm
          ((heldElement (pendingAfter pending event)).toList ++
            collect heldElement
              (Function.update state.pending thread none)) :=
      collect_update rfl _ _ _
    rw [stays] at items
    exact done.owns.perm (items.symm.append_left _)
  · intro request
    rw [done.noAllocation.grants]
    exact intact.grants request
  · rw [done.noAllocation.next]
    exact intact.fresh
  · intro other element block place waits
    simp only [Fifo.after] at waits
    by_cases isThread : other = thread
    · subst isThread
      rw [Function.update_self] at waits
      obtain ⟨rfl, isPending⟩ := pendingAfter_eq_some waits
      rw [done.agree element (by simp [waits, heldElement])]
      exact prepared element block place isPending.symm
    · rw [Function.update_of_ne isThread] at waits
      have held : element ∈ collect heldElement state.pending :=
        mem_collect
          (by rw [waits]; rfl :
            heldElement (state.pending other) = some element)
      rw [done.agree element (by simp [held])]
      exact intact.prepared other element block place waits
  · intro condvar
    have counts :=
      tally_update (waitsFor condvar) state.pending thread
        (pendingAfter pending event)
    rw [isIdle, waitsFor_none] at counts
    simp only [Bool.false_eq_true, ↓reduceIte, Nat.add_zero] at counts
    rw [done.waiting, intact.waiting, Fifo.after, counts]
    split <;> simp

/-- Work on other cells, which may change what is in hand. -/
theorem Intact.with_heap
    {inHand others : List Nat}
    {heap : CellHeap ChElem}
    {fresh : Nat}
    (intact : Intact settings ch state inHand)
    (owns :
      heap.Owns
        (others ++ (cellsOf state.queue ++ collect heldElement state.pending)))
    (grants : heap.AlwaysGrants)
    (isFresh : heap.next = fresh)
    (agree :
      AgreeOn (cellsOf state.queue ++ collect heldElement state.pending)
        ch.heap heap) :
    Intact settings { ch with heap := heap }
      { state with fresh := fresh } others where
  holds :=
    { intact.holds with
      chain :=
        chain_congr intact.holds.chain
          (agree.mono (List.subset_append_left _ _)) }
  owns :=
    owns
  grants :=
    grants
  fresh :=
    isFresh
  prepared thread element block place waits := by
    have held : element ∈ collect heldElement state.pending :=
      mem_collect
        (by rw [waits]; rfl :
          heldElement (state.pending thread) = some element)
    rw [agree element (List.mem_append_right _ held)]
    exact intact.prepared thread element block place waits
  waiting condvar := by
    have counted := intact.waiting condvar
    cases condvar <;> exact counted

/-- Preparing an element puts it in hand, with its block stored. -/
theorem Intact.prepare
    {block : Block}
    (intact : Intact settings ch state [])
    (wanted : block.address ≠ 0) :
    ∃ next,
      chPutPrepare ch block = (next, .inr state.fresh) ∧
        next.heap.cell state.fresh =
          some ⟨storedBlock settings.datalen block, none⟩ ∧
        Intact settings next state.take [state.fresh] := by
  have accepted : ¬ (block.address = 0 ∨ ch.magic ≠ chMagicId) := by
    simp [wanted, intact.holds.magic]
  rw [← intact.fresh]
  have isNext : ch.heap.next + 1 = state.fresh + 1 := by
    rw [intact.fresh]
  let elem : ChElem := ⟨storedBlock ch.datalen block, none⟩
  have agree := intact.owns.store_agreeOn elem
  have isCell :
      (ch.heap.store elem).cell ch.heap.next =
        some ⟨storedBlock settings.datalen block, none⟩ := by
    simp [CellHeap.store, elem, intact.holds.datalen]
  have allocates :
      ch.heap.allocate elem = (some ch.heap.next, ch.heap.store elem) := by
    rw [CellHeap.allocate, if_pos (intact.grants _)]
  have granted : (ch.heap.store elem).request.1 = true :=
    intact.grants _
  rw [chPutPrepare, if_neg accepted, allocates]
  simp only []
  split
  · refine ⟨{ ch with heap := (ch.heap.store elem).request.2 }, ?_, isCell,
      intact.with_heap (intact.owns.store elem).request intact.grants
        isNext agree⟩
    rw [← Prod.eta (ch.heap.store elem).request, granted]
  · exact ⟨{ ch with heap := ch.heap.store elem }, rfl, isCell,
      intact.with_heap (intact.owns.store elem) intact.grants
        isNext agree⟩

/-- The channel with one waiter of a condition less. -/
def ChH.dropWaiter
    (ch : ChH) : Condvar → ChH
  | .get =>
      { ch with getWaitingThreads := ch.getWaitingThreads - 1 }
  | .put =>
      { ch with putWaitingThreads := ch.putWaitingThreads - 1 }

/-- Only the condition's own count drops. -/
theorem waitingThreads_dropWaiter
    (ch : ChH)
    (pending : Pending)
    (condvar : Condvar) :
    (ch.dropWaiter pending.condvar).waitingThreads condvar =
      ch.waitingThreads condvar -
        (if waitsFor condvar (some pending) then 1 else 0) := by
  cases pending <;> cases condvar <;>
    simp [waitsFor, Pending.condvar, ChH.dropWaiter, ChH.waitingThreads]

/-- A call that comes back has its element in hand and is not counted. -/
theorem Intact.resume
    {thread : Fin n}
    {pending : Pending}
    (intact : Intact settings ch state [])
    (waits : state.pending thread = some pending) :
    Intact settings (ch.dropWaiter pending.condvar) (state.remove thread)
      (heldElement (some pending)).toList := by
  have items :
      (collect heldElement state.pending).Perm
        ((heldElement (state.pending thread)).toList ++
          collect heldElement (state.remove thread).pending) :=
    collect_split rfl _ _
  rw [waits] at items
  have holds : Holds settings (ch.dropWaiter pending.condvar) state.queue := by
    obtain ⟨magic, datalen, maxSize, blocking, count, chain, tail⟩ :=
      intact.holds
    cases pending.condvar <;>
      exact ⟨magic, datalen, maxSize, blocking, count, chain, tail⟩
  have sameHeap : (ch.dropWaiter pending.condvar).heap = ch.heap := by
    cases pending.condvar <;> rfl
  have keeps :
      ∀ other waiting,
        (state.remove thread).pending other = some waiting →
        state.pending other = some waiting := by
    intro other waiting isWaiting
    by_cases isThread : other = thread
    · subst isThread
      simp [Fifo.remove] at isWaiting
    · simpa [Fifo.remove, isThread] using isWaiting
  refine ⟨holds, ?_, ?_, ?_, ?_, ?_⟩
  · rw [sameHeap]
    refine intact.owns.perm ?_
    refine (items.append_left (cellsOf state.queue)).trans ?_
    rw [← List.append_assoc, ← List.append_assoc]
    exact List.perm_append_comm.append_right _
  · rw [sameHeap]
    exact intact.grants
  · rw [sameHeap]
    exact intact.fresh
  · intro other element block place isWaiting
    rw [sameHeap]
    exact intact.prepared other element block place
      (keeps other _ isWaiting)
  · intro condvar
    have counts :=
      tally_update (waitsFor condvar) state.pending thread none
    rw [waits, waitsFor_none] at counts
    simp only [Bool.false_eq_true, ↓reduceIte, Nat.add_zero] at counts
    rw [waitingThreads_dropWaiter, intact.waiting, Fifo.remove, ← counts]
    split <;> simp

/-- A thread that waits in no call has none to remove. -/
theorem Fifo.remove_of_idle
    {thread : Fin n}
    (isIdle : state.pending thread = none) :
    state.remove thread = state := by
  rw [Fifo.remove, ← isIdle, Function.update_eq_self]

/-- A section replaces the call of its thread. -/
theorem Fifo.after_remove
    (state : Fifo n)
    (thread : Fin n)
    (pending : Pending)
    (event : ChEvent)
    (queue : List Item) :
    (state.remove thread).after thread pending event queue =
      state.after thread pending event queue := by
  simp [Fifo.after, Fifo.remove]

/-- A signal leaves every thread in its call. -/
theorem signal_pending
    (threads : Fin n → ThreadState)
    (choice : Nat)
    (condvar : Option Condvar)
    (thread : Fin n) :
    (signal threads choice condvar thread).pending =
      (threads thread).pending := by
  cases condvar with
  | none =>
      rfl
  | some condvar =>
      rcases wakeOne_cases (ThreadState.waits condvar .asleep)
          ThreadState.notify choice threads with
        ⟨-, nobody⟩ | ⟨sleeper, -, somebody⟩
      · rw [signal, nobody]
      · rw [signal, somebody]
        by_cases isSleeper : thread = sleeper
        · subst isSleeper
          rw [Function.update_self]
          cases threads thread <;> rfl
        · rw [Function.update_of_ne isSleeper]

/-- The number of calls other than a thread's own that wait to put. -/
def otherPutters
    (threads : Fin n → ThreadState)
    (thread : Fin n) : Nat :=
  tally (waitsFor .put)
    (Function.update (fun other => (threads other).pending) thread none)

/--
How a step moves the threads and the queue: not at all, by waking a sleeper, by
a section of a call, or by cleaning.
-/
inductive Scheduled
    (settings : Settings) :
    Label n → (Fin n → ThreadState) → List Item →
      (Fin n → ThreadState) → List Item → Prop where
  | still
      {label : Label n}
      {threads : Fin n → ThreadState}
      {queue : List Item} :
      Scheduled settings label threads queue threads queue
  | wakes
      {label : Label n}
      {threads : Fin n → ThreadState}
      {queue : List Item}
      {thread : Fin n}
      {pending : Pending} :
      threads thread = .waiting pending .asleep →
      Scheduled settings label threads queue
        (Function.update threads thread (.waiting pending .awake)) queue
  | moves
      {label : Label n}
      {threads : Fin n → ThreadState}
      {queue after : List Item}
      {thread : Fin n}
      {pending : Pending}
      {event : ChEvent}
      {choice : Nat} :
      (threads thread = .idle ∨
        threads thread = .waiting pending .notified ∨
        threads thread = .waiting pending .awake) →
      QueueStep settings pending queue event after →
      Scheduled settings label threads queue
        (signal
          (Function.update threads thread (.afterSection pending event))
          choice
          (signalled settings (otherPutters threads thread) event))
        after
  | cleaned
      {thread : Fin n}
      {delFunc : Bool}
      {choice : Nat}
      {threads : Fin n → ThreadState}
      {queue : List Item} :
      Scheduled settings (.call thread (.clean delFunc) choice)
        threads queue threads []

/--
A section of a call of a thread, with the calls of the others as in the state,
leaves the system carrying the queue.
-/
theorem carries_section
    {system : System n}
    {thread : Fin n}
    {pending : Pending}
    {inHand : List Nat}
    {code : Checked Section}
    (samePending :
      ∀ other, (system.threads other).pending = state.pending other)
    (intact : Intact settings ch (state.remove thread) inHand)
    (prepared :
      ∀ element block place,
        pending = .put element block place →
        ch.heap.cell element =
          some ⟨storedBlock settings.datalen block, none⟩)
    (spec :
      SectionSpec settings pending state.queue
        (collect heldElement (state.remove thread).pending) ch code)
    (choice : Nat) :
    ∃ next event after,
      (do
          let done ← code
          .ok (finish system.threads thread choice pending done)) =
          .ok (next, event) ∧
        QueueStep settings pending state.queue event after ∧
        Carries settings next (state.after thread pending event after) ∧
        next.threads =
          signal
            (Function.update system.threads thread
              (.afterSection pending event))
            choice
            (signalled settings (otherPutters system.threads thread)
              event) := by
  have isRemoved : (state.remove thread).pending thread = none := by
    simp [Fifo.remove]
  obtain ⟨next, event, after, returns, allowed, nextIntact⟩ :=
    intact.after_section isRemoved prepared spec
  rw [Fifo.after_remove] at nextIntact
  have putters :
      ch.putWaitingThreads = otherPutters system.threads thread := by
    have counted := intact.waiting .put
    have sameTable :
        (fun other => (system.threads other).pending) = state.pending :=
      funext samePending
    rw [otherPutters, sameTable]
    exact counted
  rw [putters] at returns
  refine ⟨_, event, after, by rw [returns]; rfl, allowed,
    ⟨nextIntact, ?_⟩, rfl⟩
  intro other
  simp only []
  rw [signal_pending]
  by_cases isThread : other = thread
  · subst isThread
    simp only [Function.update_self, Fifo.after]
    cases event <;> rfl
  · simp only [Fifo.after, Function.update_of_ne isThread]
    exact samePending other

/-- The label makes no `ch_setattr` call. -/
def Label.keepsSettings : Label n → Bool
  | .call _ (.setattr _ _) _ =>
      false
  | _ =>
      true

/-- A `ch_peek` that looks at an element does not find an end marker. -/
def PeekSafe
    (system : System n) : Label n → Prop
  | .call thread (.peek block) _ =>
      system.threads thread = .idle →
      block ≠ 0 →
      ∀ element elem,
        system.ch.head = some element →
        system.ch.heap.cell element = some elem →
        elem.block.isEndoftransmission = false
  | _ =>
      True

/-- The queue steps and the schedule of a step of the system. -/
def StepCarries
    (settings : Settings)
    (system : System n)
    (state : Fifo n)
    (label : Label n) : Prop :=
  ∃ next event after,
    systemStep system label = .ok (next, event) ∧
      FifoStep settings state label event after ∧
      Carries settings next after ∧
      Scheduled settings label system.threads state.queue
        next.threads after.queue

/--
A thread took a section of its call: the section is a step of the queue, and the
threads are as the section and its signal leave them.
-/
def SectionTaken
    (settings : Settings)
    (system : System n)
    (state : Fifo n)
    (thread : Fin n)
    (pending : Pending)
    (choice : Nat)
    (label : Label n) : Prop :=
  ∃ next event after,
    systemStep system label = .ok (next, event) ∧
      QueueStep settings pending state.queue event after ∧
      Carries settings next (state.after thread pending event after) ∧
      next.threads =
        signal
          (Function.update system.threads thread
            (.afterSection pending event))
          choice
          (signalled settings (otherPutters system.threads thread) event)

/-- The first section of a call of `ch_put` or `ch_put_head`. -/
theorem put_section
    {system : System n}
    {thread : Fin n}
    {block : Block}
    (carries : Carries settings system state)
    (isIdle : system.threads thread = .idle)
    (wanted : block.address ≠ 0)
    (place : Place)
    (choice : Nat) :
    SectionTaken settings system state.take thread
      (.put state.fresh block place) choice
      (.call thread (.put block place) choice) := by
  have notPending : state.pending thread = none := by
    rw [← carries.pending, isIdle]
    rfl
  obtain ⟨ch, prepares, prepared, intact⟩ :=
    carries.intact.prepare wanted
  have takenPending :
      ∀ other,
        (system.threads other).pending = state.take.pending other :=
    carries.pending
  have takenIdle : state.take.pending thread = none :=
    notPending
  have others :
      Intact settings ch (state.take.remove thread) [state.fresh] := by
    rwa [Fifo.remove_of_idle takenIdle]
  have spec :
      SectionSpec settings (.put state.fresh block place) state.queue
        (collect heldElement (state.take.remove thread).pending) ch
        (chPutEnter ch state.fresh block place) :=
    chPutEnter_section others.holds others.owns prepared
  obtain ⟨next, event, after, steps, allowed, nextCarries, moves⟩ :=
    carries_section takenPending others
      (by
        rintro _ _ _ ⟨rfl, rfl, rfl⟩
        exact prepared)
      spec choice
  refine ⟨next, event, after, ?_, allowed, nextCarries, moves⟩
  simp only [systemStep, isIdle, callStep, prepares]
  exact steps

/-- A call of `ch_put` or `ch_put_head`. -/
theorem put_carries
    {system : System n}
    {thread : Fin n}
    (carries : Carries settings system state)
    (isIdle : system.threads thread = .idle)
    (block : Block)
    (place : Place)
    (choice : Nat) :
    StepCarries settings system state
      (.call thread (.put block place) choice) := by
  have notPending : state.pending thread = none := by
    rw [← carries.pending, isIdle]
    rfl
  by_cases isNull : block.address = 0
  · refine ⟨system, .returned chWrongParam, state, ?_,
      .putNull notPending isNull, carries, .still⟩
    simp only [systemStep, isIdle, callStep, chPutPrepare, isNull,
      true_or, ↓reduceIte]
  · obtain ⟨next, event, after, steps, allowed, nextCarries, moves⟩ :=
      put_section carries isIdle isNull place choice
    refine ⟨next, event, _, steps, .put notPending isNull allowed,
      nextCarries, ?_⟩
    rw [moves]
    exact .moves (.inl isIdle) allowed

/-- The first section of a call of `ch_get`. -/
theorem get_section
    {system : System n}
    {thread : Fin n}
    {block : Nat}
    (carries : Carries settings system state)
    (isIdle : system.threads thread = .idle)
    (wanted : block ≠ 0)
    (choice : Nat) :
    SectionTaken settings system state thread .get choice
      (.call thread (.get block) choice) := by
  have notPending : state.pending thread = none := by
    rw [← carries.pending, isIdle]
    rfl
  have others :
      Intact settings system.ch (state.remove thread) [] := by
    rw [Fifo.remove_of_idle notPending]
    exact carries.intact
  have spec :
      SectionSpec settings .get state.queue
        (collect heldElement (state.remove thread).pending) system.ch
        (chGetEnter system.ch block) :=
    chGetEnter_section others.holds others.owns wanted
  obtain ⟨next, event, after, steps, allowed, nextCarries, moves⟩ :=
    carries_section carries.pending others (by rintro _ _ _ ⟨⟩) spec choice
  refine ⟨next, event, after, ?_, allowed, nextCarries, moves⟩
  simp only [systemStep, isIdle, callStep]
  exact steps

/-- A call of `ch_get`. -/
theorem get_carries
    {system : System n}
    {thread : Fin n}
    (carries : Carries settings system state)
    (isIdle : system.threads thread = .idle)
    (block choice : Nat) :
    StepCarries settings system state
      (.call thread (.get block) choice) := by
  have notPending : state.pending thread = none := by
    rw [← carries.pending, isIdle]
    rfl
  by_cases isNull : block = 0
  · subst isNull
    refine ⟨system, .returned chWrongParam, state, ?_,
      .getNull notPending, carries, .still⟩
    have stays :
        Function.update system.threads thread .idle = system.threads := by
      rw [← isIdle, Function.update_eq_self]
    simp [systemStep, isIdle, callStep, chGetEnter, finish, signal,
      ThreadState.afterSection, stays]
  · obtain ⟨next, event, after, steps, allowed, nextCarries, moves⟩ :=
      get_section carries isIdle isNull choice
    refine ⟨next, event, _, steps, .get notPending isNull allowed,
      nextCarries, ?_⟩
    rw [moves]
    exact .moves (.inl isIdle) allowed

/-- The first element that a safe peek looks at is not a marker. -/
theorem PeekSafe.unmarked
    {system : System n}
    {thread : Fin n}
    {block choice : Nat}
    {queue : List Item}
    (safe : PeekSafe system (.call thread (.peek block) choice))
    (holds : Holds settings system.ch queue)
    (isIdle : system.threads thread = .idle)
    (wanted : block ≠ 0) :
    ∀ item ∈ queue.head?, item.2.isEndoftransmission = false := by
  intro item isFirst
  obtain ⟨rest, rfl⟩ := List.head?_eq_some_iff.mp isFirst
  obtain ⟨prev, isHead, headCell, -⟩ := holds.exists_head
  exact safe isIdle wanted _ _ isHead headCell

/-- A call of `ch_peek` that does not meet an end marker. -/
theorem peek_carries
    {system : System n}
    {thread : Fin n}
    {block choice : Nat}
    (carries : Carries settings system state)
    (isIdle : system.threads thread = .idle)
    (safe : PeekSafe system (.call thread (.peek block) choice)) :
    StepCarries settings system state
      (.call thread (.peek block) choice) := by
  have notPending : state.pending thread = none := by
    rw [← carries.pending, isIdle]
    rfl
  have holds := carries.intact.holds
  by_cases isNull : block = 0
  · subst isNull
    refine ⟨system, .returned chWrongParam, state, ?_,
      .peekNull notPending, carries, .still⟩
    simp [systemStep, isIdle, callStep, chPeek]
  · have unmarked := safe.unmarked holds isIdle isNull
    have peeks := chPeek_spec holds isNull unmarked
    cases isQueue : state.queue with
    | nil =>
        rw [isQueue] at peeks
        refine ⟨system, .returned chGetNodata, state, ?_,
          .peekNodata notPending isNull isQueue, carries, ?_⟩
        · simp [systemStep, isIdle, callStep, peeks, peekedAt]
        · exact .still
    | cons item rest =>
        have isData : item.2.isEndoftransmission = false :=
          unmarked item (by simp [isQueue])
        rw [isQueue] at peeks
        refine ⟨system, .peeked (some item.2) chOk, state, ?_,
          .peek notPending isNull isQueue isData, carries, ?_⟩
        · simp [systemStep, isIdle, callStep, peeks, peekedAt]
        · exact .still

/-- A call of `ch_clean`. -/
theorem clean_carries
    {system : System n}
    {thread : Fin n}
    (carries : Carries settings system state)
    (isIdle : system.threads thread = .idle)
    (delFunc : Bool)
    (choice : Nat) :
    StepCarries settings system state
      (.call thread (.clean delFunc) choice) := by
  have notPending : state.pending thread = none := by
    rw [← carries.pending, isIdle]
    rfl
  have intact := carries.intact
  by_cases requested : delFunc = true → settings.datalen = .voidp
  · obtain ⟨next, cleans, nextHolds, nextOwns, noAllocation, agree, waiting⟩ :=
      chClean_spec intact.holds intact.owns requested
    rw [deletedFrom_handedOver requested] at cleans
    refine ⟨⟨next, system.threads⟩, _, { state with queue := [] }, ?_,
      .clean notPending requested, ⟨?_, carries.pending⟩, .cleaned⟩
    · simp only [systemStep, isIdle, callStep, cleans, Checked.ok_bind]
    · refine ⟨nextHolds, nextOwns, ?_, ?_, ?_, ?_⟩
      · intro request
        rw [noAllocation.grants]
        exact intact.grants request
      · rw [noAllocation.next]
        exact intact.fresh
      · intro other element block place waits
        have held : element ∈ collect heldElement state.pending :=
          mem_collect
            (by rw [waits]; rfl :
              heldElement (state.pending other) = some element)
        rw [agree element held]
        exact intact.prepared other element block place waits
      · intro condvar
        rw [waiting]
        exact intact.waiting condvar
  · obtain ⟨rfl, notVoidp⟩ := Classical.not_imp.mp requested
    refine ⟨system, .returned chFreeNotRequested, state, ?_,
      .cleanRefused notPending notVoidp, carries, .still⟩
    simp [systemStep, isIdle, callStep, chClean, intact.holds.magic,
      intact.holds.datalen, notVoidp]

/-- A call that comes back and goes to sleep again. -/
def Blocked
    (settings : Settings)
    (queue : List Item) : Pending → Prop
  | .put _ _ _ =>
      settings.size ≤ queue.length
  | .get =>
      queue = []

/-- Going back to sleep leaves the channel as it was. -/
theorem resumeSection_of_blocked
    {pending : Pending}
    {queue : List Item}
    (holds : Holds settings ch queue)
    (blocked : Blocked settings queue pending) :
    resumeSection ch pending = .ok (ch, .sleeps, none) := by
  cases pending with
  | put element block place =>
      have full : ch.count ≥ ch.maxSize := by
        rw [holds.count, holds.maxSize]
        exact_mod_cast blocked
      simp [resumeSection, chPutResume, chPutLoop, full]
  | get =>
      have empty : ch.count = 0 :=
        holds.count_eq_zero.mpr blocked
      simp only [resumeSection, chGetResume, chGetLoop]
      rw [if_pos empty]
      simp

/-- A call that comes back and does not go to sleep again does its section. -/
theorem resumeSection_of_free
    {pending : Pending}
    {queue : List Item}
    {frame : List Nat}
    (holds : Holds settings (ch.dropWaiter pending.condvar) queue)
    (owns :
      (ch.dropWaiter pending.condvar).heap.Owns
        ((heldElement (some pending)).toList ++ (cellsOf queue ++ frame)))
    (prepared :
      ∀ element block place,
        pending = .put element block place →
        (ch.dropWaiter pending.condvar).heap.cell element =
          some ⟨storedBlock settings.datalen block, none⟩)
    (free : ¬ Blocked settings queue pending) :
    SectionSpec settings pending queue frame
      (ch.dropWaiter pending.condvar) (resumeSection ch pending) := by
  cases pending with
  | put element block place =>
      have room : queue.length < settings.size :=
        Nat.lt_of_not_le free
      have notFull :
          ¬ (ch.dropWaiter .put).count ≥ (ch.dropWaiter .put).maxSize := by
        have count := holds.count
        have maxSize := holds.maxSize
        simp only [Pending.condvar] at count maxSize
        omega
      have resumes :
          resumeSection ch (.put element block place) =
            chPutLink (ch.dropWaiter .put) element block place :=
        if_neg notFull
      rw [resumes]
      exact chPutLink_section holds owns (prepared element block place rfl)
        (.inr room)
  | get =>
      exact chGetLoop_section holds owns fun empty => (free empty).elim

/-- The step sends a thread that came back to sleep again. -/
structure SleepsAgain
    (settings : Settings)
    (system : System n)
    (queue : List Item)
    (thread : Fin n)
    (pending : Pending)
    (label : Label n) : Prop where
  isBack :
    system.threads thread = .waiting pending .notified ∨
      system.threads thread = .waiting pending .awake
  blocked : Blocked settings queue pending
  resumes : ∃ choice, label = .resume thread choice
  steps :
    systemStep system label =
      .ok ({ system with
        threads :=
          Function.update system.threads thread (.waiting pending .asleep) },
        .sleeps)

/-- A thread that changes its stage keeps the system carried. -/
theorem Carries.restage
    {system : System n}
    {thread : Fin n}
    {pending : Pending}
    (carries : Carries settings system state)
    (waits : (system.threads thread).pending = some pending)
    (next : Stage) :
    Carries settings
      { system with
        threads :=
          Function.update system.threads thread (.waiting pending next) }
      state := by
  refine ⟨carries.intact, ?_⟩
  intro other
  rw [← carries.pending]
  by_cases isThread : other = thread
  · subst isThread
    rw [waits]
    simp [ThreadState.pending]
  · simp [isThread]

/--
A call that comes back from `pthread_cond_wait` takes its section, unless it
sleeps again.
-/
theorem resume_section
    {system : System n}
    {thread : Fin n}
    {pending : Pending}
    (carries : Carries settings system state)
    (isBack :
      system.threads thread = .waiting pending .notified ∨
        system.threads thread = .waiting pending .awake)
    (choice : Nat) :
    SectionTaken settings system state thread pending choice
        (.resume thread choice) ∨
      SleepsAgain settings system state.queue thread pending
        (.resume thread choice) := by
  have isPending : state.pending thread = some pending := by
    rw [← carries.pending]
    rcases isBack with same | same <;> rw [same] <;> rfl
  have resumes :
      systemStep system (.resume thread choice) =
        resumeStep system thread choice pending := by
    rcases isBack with same | same <;> simp only [systemStep, same]
  by_cases blocked : Blocked settings state.queue pending
  · right
    refine ⟨isBack, blocked, ⟨choice, rfl⟩, ?_⟩
    rw [resumes, resumeStep,
      resumeSection_of_blocked carries.intact.holds blocked]
    rfl
  · left
    have others := carries.intact.resume isPending
    have prepared :
        ∀ element block place,
          pending = .put element block place →
          (system.ch.dropWaiter pending.condvar).heap.cell element =
            some ⟨storedBlock settings.datalen block, none⟩ := by
      rintro element block place rfl
      exact carries.intact.prepared thread element block place isPending
    have spec :
        SectionSpec settings pending state.queue
          (collect heldElement (state.remove thread).pending)
          (system.ch.dropWaiter pending.condvar)
          (resumeSection system.ch pending) :=
      resumeSection_of_free others.holds others.owns prepared blocked
    obtain ⟨next, event, after, steps, allowed, nextCarries, moves⟩ :=
      carries_section carries.pending others prepared spec choice
    exact ⟨next, event, after, resumes.trans steps, allowed, nextCarries,
      moves⟩

/-- A call that comes back from `pthread_cond_wait`. -/
theorem resume_carries
    {system : System n}
    {thread : Fin n}
    {pending : Pending}
    (carries : Carries settings system state)
    (isBack :
      system.threads thread = .waiting pending .notified ∨
        system.threads thread = .waiting pending .awake)
    (choice : Nat) :
    StepCarries settings system state (.resume thread choice) ∨
      SleepsAgain settings system state.queue thread pending
        (.resume thread choice) := by
  have isPending : state.pending thread = some pending := by
    rw [← carries.pending]
    rcases isBack with same | same <;> rw [same] <;> rfl
  refine (resume_section carries isBack choice).imp_left ?_
  rintro ⟨next, event, after, steps, allowed, nextCarries, moves⟩
  refine ⟨next, event, _, steps, .resume isPending allowed, nextCarries, ?_⟩
  rw [moves]
  exact .moves (.inr isBack) allowed

/-- A sleeper that wakes on its own. -/
theorem wake_carries
    {system : System n}
    (carries : Carries settings system state)
    (thread : Fin n) :
    StepCarries settings system state (.wake thread) := by
  cases isState : system.threads thread with
  | idle =>
      refine ⟨system, .nothing, state, ?_, .wake, carries, .still⟩
      simp only [systemStep, isState]
  | waiting pending stage =>
      cases stage with
      | asleep =>
          have waits : (system.threads thread).pending = some pending := by
            rw [isState]
            rfl
          refine ⟨_, .nothing, state, ?_, .wake,
            carries.restage waits .awake, .wakes isState⟩
          simp only [systemStep, isState]
      | notified =>
          refine ⟨system, .nothing, state, ?_, .wake, carries, .still⟩
          simp only [systemStep, isState]
      | awake =>
          refine ⟨system, .nothing, state, ?_, .wake, carries, .still⟩
          simp only [systemStep, isState]

/--
Every step that keeps the settings is a step of the queue, or sends a thread
that came back to sleep again.
-/
theorem systemStep_carries
    {system : System n}
    {label : Label n}
    (carries : Carries settings system state)
    (keeps : label.keepsSettings = true)
    (safe : PeekSafe system label) :
    StepCarries settings system state label ∨
      ∃ thread pending,
        SleepsAgain settings system state.queue thread pending label := by
  cases label with
  | call thread call choice =>
      left
      cases isState : system.threads thread with
      | waiting pending stage =>
          have isPending : state.pending thread ≠ none := by
            rw [← carries.pending, isState]
            simp [ThreadState.pending]
          refine ⟨system, .nothing, state, ?_, .busy isPending, carries,
            .still⟩
          simp only [systemStep, isState]
      | idle =>
          cases call with
          | put block place =>
              exact put_carries carries isState block place choice
          | get block =>
              exact get_carries carries isState block choice
          | peek block =>
              exact peek_carries carries isState safe
          | clean delFunc =>
              exact clean_carries carries isState delFunc choice
          | setattr attr val =>
              cases keeps
  | resume thread choice =>
      cases isState : system.threads thread with
      | idle =>
          left
          refine ⟨system, .nothing, state, ?_, .asleep, carries, .still⟩
          simp only [systemStep, isState]
      | waiting pending stage =>
          cases stage with
          | asleep =>
              left
              refine ⟨system, .nothing, state, ?_, .asleep, carries, .still⟩
              simp only [systemStep, isState]
          | notified =>
              exact (resume_carries carries (.inl isState) choice).imp_right
                fun again => ⟨thread, pending, again⟩
          | awake =>
              exact (resume_carries carries (.inr isState) choice).imp_right
                fun again => ⟨thread, pending, again⟩
  | wake thread =>
      exact .inl (wake_carries carries thread)

end Intact

end Clibs.Ch
