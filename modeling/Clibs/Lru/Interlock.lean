import Clibs.Foundation.LockOrder
import Clibs.Lru.Sections

namespace Clibs.Lru

open Fh Ll

/-!
# The locks of a cache do not deadlock

The locks are asked for in one order: a thread that holds the lock of a chain
asks for that of the list or for `e_lock`, and while it holds one of these it
asks for none.  `lru_check` gives the lock of the chain back whenever it has it,
since every object in the table points to a record.  The state between the steps
is that of the whole calls, each made when its section runs.
-/

/-- The order in which the locks are asked for. -/
def LockName.rank : LockName → Nat
  | .chain _ =>
      0
  | .list =>
      1
  | .counter =>
      1

/-- What the thread is doing, when the section of a call is the whole call. -/
def LockState.state : LockState → ThreadState
  | .ready state =>
      state
  | .inside _ state =>
      state
  | .leaving _ _ after _ =>
      after
  | .counting _ after _ =>
      after
  | .inCounter _ after _ =>
      after
  | .leavingCounter after _ =>
      after

/-- The lock of a call is the one it needs, and it takes only one of a chain. -/
def LockState.Entered
    (lru : LruT) : LockState → Prop
  | .inside entry state =>
      state.entry lru = .ok (some entry)
  | .leaving (.chain _) _ after _ =>
      after.lockedSlot = none
  | _ =>
      True

/-- The state is that of whole calls, and the locks are those of the threads. -/
structure LockSystem.Stands
    {n : Nat}
    (system : LockSystem n)
    (capacity : Nat)
    (whole : System n)
    (pool : LockPool) : Prop where
  good : whole.Good (fun _ _ => True) capacity
  lru :
    system.lru =
      whole.lru.refit system.lru.fh.hElements system.lru.fh.locks
  nLock : system.lru.fh.locks.nLock = whole.lru.fh.locks.nLock
  threads : ∀ thread, (system.threads thread).state = whole.threads thread
  uses : system.lru.fh.locks.Uses pool
  guarded : Guarded (system.taken pool) system.Holds
  entered : ∀ thread, (system.threads thread).Entered system.lru

/-- The state is that of some whole calls. -/
def LockSystem.Good
    {n : Nat}
    (system : LockSystem n)
    (capacity : Nat) : Prop :=
  ∃ whole pool, system.Stands capacity whole pool

section Order

variable {n : Nat}
  {system : LockSystem n}
  {capacity : Nat}
  {whole : System n}
  {pool : LockPool}

/-- What is kept between two calls is the lock of a chain. -/
theorem rank_of_kept
    {nLock : Nat}
    {state : ThreadState}
    {lock : LockName}
    (isKept : lock ∈ state.keptLocks nLock) :
    lock.rank = 0 := by
  rw [ThreadState.keptLocks, Option.mem_toList, Option.map_eq_some_iff] at isKept
  obtain ⟨slot, -, rfl⟩ := isKept
  rfl

/-- A thread without the lock of a chain keeps none. -/
theorem keptLocks_none
    {nLock : Nat}
    {state : ThreadState}
    (noLock : state.lockedSlot = none) :
    state.keptLocks nLock = [] := by
  rw [ThreadState.keptLocks, noLock]
  rfl

/-- A thread holds what it keeps between two calls. -/
theorem kept_holds
    {nLock : Nat}
    {state : LockState}
    {lock : LockName}
    (isKept : lock ∈ state.state.keptLocks nLock) :
    lock ∈ state.locks nLock := by
  cases state with
  | ready state =>
      exact isKept
  | counting use after event =>
      exact isKept
  | _ =>
      exact List.mem_cons_of_mem _ isKept

/-- Locks are asked for in order. -/
theorem asks_above
    (system : LockSystem n) :
    AsksAbove LockName.rank system.Holds system.asks := by
  intro thread lock isAsked other holds
  unfold LockSystem.asks at isAsked
  unfold LockSystem.Holds at holds
  cases isState : system.threads thread with
  | ready state =>
      simp only [isState] at isAsked holds
      split at isAsked
      next entry enters =>
        cases isAsked
        cases entry with
        | list =>
            rw [rank_of_kept holds]
            exact Nat.one_pos
        | chain slot =>
            rw [LockState.locks, keptLocks_none (entry_chain enters)] at holds
            cases holds
      next =>
        cases isAsked
  | counting use after event =>
      simp only [isState] at isAsked holds
      cases isAsked
      rw [rank_of_kept holds]
      exact Nat.one_pos
  | _ =>
      simp only [isState] at isAsked
      cases isAsked

/-- A thread that holds a lock is inside a function. -/
theorem busy_of_holds
    {thread : Fin n}
    {lock : LockName}
    (holds : system.Holds thread lock) :
    system.Busy thread := by
  intro isIdle
  rw [LockSystem.Holds, isIdle] at holds
  cases holds

end Order

section Moves

variable {n : Nat}
  {system next : LockSystem n}
  {capacity : Nat}
  {whole : System n}
  {pool nextPool : LockPool}
  {thread : Fin n}
  {state : LockState}

/-- Where the threads are between two calls depends on where they enter. -/
theorem LockState.Entered.congr
    {lru next : LruT}
    {state : LockState}
    (entered : state.Entered lru)
    (same : state.state.entry next = state.state.entry lru) :
    state.Entered next := by
  cases state with
  | inside entry state =>
      exact same.trans entered
  | leaving entry use after event =>
      cases entry with
      | list =>
          trivial
      | chain slot =>
          exact entered
  | _ =>
      trivial

/-- The locks of the other threads are what they were. -/
theorem holds_other
    (threads : next.threads = Function.update system.threads thread state)
    (nLock : next.lru.fh.locks.nLock = system.lru.fh.locks.nLock)
    {other : Fin n}
    (isOther : other ≠ thread)
    (lock : LockName) :
    next.Holds other lock ↔ system.Holds other lock := by
  rw [LockSystem.Holds, LockSystem.Holds, threads, nLock,
    Function.update_of_ne isOther]

/-- The locks of the thread that moved. -/
theorem holds_self
    (threads : next.threads = Function.update system.threads thread state)
    (nLock : next.lru.fh.locks.nLock = system.lru.fh.locks.nLock)
    (lock : LockName) :
    next.Holds thread lock ↔
      lock ∈ state.locks system.lru.fh.locks.nLock := by
  rw [LockSystem.Holds, threads, nLock, Function.update_self]

/-- One lock was taken or given back; the threads and the table are as before. -/
structure Relocked
    (system next : LockSystem n)
    (pool nextPool : LockPool)
    (lock : LockName)
    (isTaken : Bool) : Prop where
  threads : next.threads = system.threads
  lru :
    next.lru =
      system.lru.refit system.lru.fh.hElements next.lru.fh.locks
  nLock : next.lru.fh.locks.nLock = system.lru.fh.locks.nLock
  uses : next.lru.fh.locks.Uses nextPool
  taken :
    ∀ other,
      next.taken nextPool other =
        Function.update (system.taken pool) lock isTaken other

/-- The lock of a chain was taken or given back. -/
theorem relocked_chain
    (uses : system.lru.fh.locks.Uses pool)
    (number : Nat)
    (isTaken : Bool) :
    Relocked system
      { system with
        lru :=
          { system.lru with
            fh :=
              { system.lru.fh with
                locks :=
                  system.lru.fh.locks.withPool
                    (Function.update pool number isTaken) } } }
      pool (Function.update pool number isTaken) (.chain number) isTaken := by
  refine ⟨rfl, rfl, FhLocks.withPool_nLock _ _, uses.withPool _, ?_⟩
  intro other
  cases other with
  | chain otherNumber =>
      by_cases same : otherNumber = number
      · subst same
        simp [LockSystem.taken]
      · simp [LockSystem.taken, same]
  | list =>
      rfl
  | counter =>
      rfl

/-- The lock of the list was taken or given back. -/
theorem relocked_list
    (uses : system.lru.fh.locks.Uses pool)
    (isTaken : Bool) :
    Relocked system
      { system with
        llLock := isTaken }
      pool pool .list isTaken := by
  refine ⟨rfl, rfl, rfl, uses, ?_⟩
  intro other
  cases other <;> rfl

/-- The lock of the counter was taken or given back. -/
theorem relocked_counter
    (uses : system.lru.fh.locks.Uses pool)
    (isTaken : Bool) :
    Relocked system
      { system with
        eLock := isTaken }
      pool pool .counter isTaken := by
  refine ⟨rfl, rfl, rfl, uses, ?_⟩
  intro other
  cases other <;> rfl

/-- A call takes its lock, or finds it taken. -/
theorem enter_cases
    (uses : system.lru.fh.locks.Uses pool)
    (entry : Entry) :
    (system.taken pool (entry.name system.lru.fh.locks.nLock) = true ∧
        system.enter entry = .error .lockAlreadyHeld) ∨
      (system.taken pool (entry.name system.lru.fh.locks.nLock) = false ∧
        ∃ entered nextPool,
          system.enter entry = .ok entered ∧
            Relocked system entered pool nextPool
              (entry.name system.lru.fh.locks.nLock) true) := by
  cases entry with
  | list =>
      cases isTaken : system.llLock with
      | true =>
          left
          refine ⟨isTaken, ?_⟩
          rw [LockSystem.enter, isTaken]
          rfl
      | false =>
          right
          refine ⟨isTaken, _, _, ?_, relocked_list uses true⟩
          rw [LockSystem.enter, isTaken]
          rfl
  | chain slot =>
      cases isTaken : pool (slot % system.lru.fh.locks.nLock) with
      | true =>
          left
          refine ⟨isTaken, ?_⟩
          simp only [LockSystem.enter, uses.wlock_taken isTaken,
            Checked.error_bind]
      | false =>
          right
          refine ⟨isTaken, _, _, ?_, relocked_chain uses _ true⟩
          simp only [LockSystem.enter, uses.wlock isTaken, Checked.ok_bind]

/-- A lock that is taken can be given back. -/
theorem leave_ok
    (uses : system.lru.fh.locks.Uses pool)
    (entry : Entry)
    (isTaken :
      system.taken pool (entry.name system.lru.fh.locks.nLock) = true) :
    ∃ left nextPool,
      system.leave entry = .ok left ∧
        Relocked system left pool nextPool
          (entry.name system.lru.fh.locks.nLock) false := by
  cases entry with
  | list =>
      have isLocked : system.llLock = true := isTaken
      refine ⟨_, _, ?_, relocked_list uses false⟩
      rw [LockSystem.leave, isLocked]
      rfl
  | chain slot =>
      have isLocked : pool (slot % system.lru.fh.locks.nLock) = true := isTaken
      refine ⟨_, _, ?_, relocked_chain uses _ false⟩
      simp only [LockSystem.leave, uses.unlock isLocked, Checked.ok_bind]

/-- A thread moved, and so did the whole calls. -/
theorem LockSystem.Stands.advance
    (stands : system.Stands capacity whole pool)
    (next : LockSystem n)
    (wholeNext : System n)
    (good : wholeNext.Good (fun _ _ => True) capacity)
    (lru :
      next.lru =
        wholeNext.lru.refit next.lru.fh.hElements next.lru.fh.locks)
    (nLock : next.lru.fh.locks.nLock = system.lru.fh.locks.nLock)
    (wholeNLock : wholeNext.lru.fh.locks.nLock = whole.lru.fh.locks.nLock)
    (threads : next.threads = Function.update system.threads thread state)
    (wholeThreads :
      wholeNext.threads = Function.update whole.threads thread state.state)
    (sameEntry :
      ∀ other,
        other ≠ thread →
        (whole.threads other).entry wholeNext.lru =
          (whole.threads other).entry whole.lru)
    (entered : state.Entered next.lru)
    (uses : next.lru.fh.locks.Uses nextPool)
    (guarded : Guarded (next.taken nextPool) next.Holds) :
    next.Good capacity := by
  refine ⟨wholeNext, nextPool, good, lru,
    nLock.trans (stands.nLock.trans wholeNLock.symm), ?_, uses, guarded, ?_⟩
  · intro other
    rw [threads, wholeThreads]
    by_cases isThread : other = thread
    · subst isThread
      rw [Function.update_self, Function.update_self]
    · rw [Function.update_of_ne isThread, Function.update_of_ne isThread,
        stands.threads]
  · intro other
    rw [threads]
    by_cases isThread : other = thread
    · subst isThread
      rw [Function.update_self]
      exact entered
    · rw [Function.update_of_ne isThread]
      apply (stands.entered other).congr
      rw [lru, stands.lru, entry_refit, entry_refit, stands.threads]
      exact sameEntry other isThread

/-- A thread moved, and only locks and the counter changed. -/
theorem LockSystem.Stands.refitted
    (stands : system.Stands capacity whole pool)
    (next : LockSystem n)
    (hElements : Int)
    (locks : FhLocks)
    (lru : next.lru = system.lru.refit hElements locks)
    (nLock : next.lru.fh.locks.nLock = system.lru.fh.locks.nLock)
    (threads : next.threads = Function.update system.threads thread state)
    (sameState : state.state = (system.threads thread).state)
    (entered : state.Entered system.lru)
    (uses : next.lru.fh.locks.Uses nextPool)
    (guarded : Guarded (next.taken nextPool) next.Holds) :
    next.Good capacity := by
  refine stands.advance next whole stands.good ?_ nLock rfl threads ?_
    (fun _ _ => rfl) ?_ uses guarded
  · rw [lru, stands.lru]
    rfl
  · rw [sameState, stands.threads, Function.update_eq_self]
  · apply entered.congr
    rw [lru, entry_refit]

/-- The thread that takes or gives a lock is the only one that moves. -/
theorem Relocked.move_threads
    {middle : LockSystem n}
    {lock : LockName}
    {isTaken : Bool}
    (relocked : Relocked system middle pool nextPool lock isTaken)
    (thread : Fin n)
    (state : LockState) :
    (middle.move thread state).threads =
      Function.update system.threads thread state := by
  rw [← relocked.threads]
  rfl

/-- A move of a thread takes and gives no other lock. -/
theorem Relocked.move_taken
    {middle : LockSystem n}
    {lock : LockName}
    {isTaken : Bool}
    (relocked : Relocked system middle pool nextPool lock isTaken)
    (thread : Fin n)
    (state : LockState)
    (other : LockName) :
    (middle.move thread state).taken nextPool other =
      Function.update (system.taken pool) lock isTaken other := by
  rw [← relocked.taken]
  cases other <;> rfl

/-- A thread takes a lock. -/
theorem LockSystem.Stands.takes
    (stands : system.Stands capacity whole pool)
    (thread : Fin n)
    (state : LockState)
    {middle : LockSystem n}
    {lock : LockName}
    (relocked : Relocked system middle pool nextPool lock true)
    (isFree : system.taken pool lock = false)
    (sameState : state.state = (system.threads thread).state)
    (entered : state.Entered system.lru)
    (sameLocks :
      ∀ other,
        other ∈ state.locks system.lru.fh.locks.nLock ↔
          other = lock ∨ system.Holds thread other) :
    (middle.move thread state).Good capacity := by
  have threads := relocked.move_threads thread state
  apply stands.refitted (middle.move thread state) _ _ relocked.lru
    relocked.nLock threads sameState entered relocked.uses
  apply stands.guarded.take isFree
  · exact relocked.move_taken thread state
  · intro other
    rw [holds_self threads relocked.nLock, sameLocks]
  · exact fun other isOther => holds_other threads relocked.nLock isOther

/-- A thread gives a lock back. -/
theorem LockSystem.Stands.gives
    (stands : system.Stands capacity whole pool)
    (thread : Fin n)
    (state : LockState)
    {middle : LockSystem n}
    {lock : LockName}
    (relocked : Relocked system middle pool nextPool lock false)
    (holds : system.Holds thread lock)
    (sameState : state.state = (system.threads thread).state)
    (entered : state.Entered system.lru)
    (sameLocks :
      ∀ other,
        other ∈ state.locks system.lru.fh.locks.nLock ↔
          other ≠ lock ∧ system.Holds thread other) :
    (middle.move thread state).Good capacity := by
  have threads := relocked.move_threads thread state
  apply stands.refitted (middle.move thread state) _ _ relocked.lru
    relocked.nLock threads sameState entered relocked.uses
  apply stands.guarded.give holds
  · exact relocked.move_taken thread state
  · intro other
    rw [holds_self threads relocked.nLock, sameLocks]
  · exact fun other isOther => holds_other threads relocked.nLock isOther

end Moves

/-- A step of a thread waits for a lock that is taken, or goes on. -/
def StepStands
    {n : Nat}
    (system : LockSystem n)
    (capacity : Nat)
    (pool : LockPool)
    (thread : Fin n)
    (outcome : Checked (LockSystem n × LruEvent)) : Prop :=
  (∃ lock,
    system.asks thread = some lock ∧
      system.taken pool lock = true ∧
      outcome = .error .lockAlreadyHeld) ∨
    ∃ next event,
      outcome = .ok (next, event) ∧
        next.Good capacity ∧
        (system.Busy thread → next.threads thread ≠ system.threads thread)

section Steps

variable {n : Nat}
  {system : LockSystem n}
  {capacity : Nat}
  {whole : System n}
  {pool : LockPool}
  {thread : Fin n}
  {use : CounterUse}
  {after : ThreadState}
  {event : LruEvent}

/-- Taking the lock that a call needs. -/
theorem enter_stands
    (stands : system.Stands capacity whole pool)
    {state : ThreadState}
    {entry : Entry}
    (isState : system.threads thread = .ready state)
    (enters : state.entry system.lru = .ok (some entry))
    (grants : AddGrants) :
    StepStands system capacity pool thread
      (system.threadStep thread grants) := by
  have asks :
      system.asks thread = some (entry.name system.lru.fh.locks.nLock) := by
    simp only [LockSystem.asks, isState, enters]
  rcases enter_cases stands.uses entry with
      ⟨isTaken, blocks⟩ | ⟨isFree, entered, nextPool, takes, relocked⟩
  · left
    refine ⟨_, asks, isTaken, ?_⟩
    simp only [LockSystem.threadStep, isState, enters, blocks, Checked.ok_bind,
      Checked.error_bind]
  · right
    refine ⟨entered.move thread (.inside entry state), .nothing, ?_, ?_, ?_⟩
    · simp only [LockSystem.threadStep, isState, enters, takes,
        Checked.ok_bind]
    · apply stands.takes thread (.inside entry state) relocked isFree
      · rw [isState]
        rfl
      · exact enters
      · intro other
        rw [LockSystem.Holds, isState]
        exact List.mem_cons
    · intro _
      rw [isState]
      simp [LockSystem.move]

/-- Taking the lock of the counter. -/
theorem counting_stands
    (stands : system.Stands capacity whole pool)
    (isState : system.threads thread = .counting use after event)
    (grants : AddGrants) :
    StepStands system capacity pool thread
      (system.threadStep thread grants) := by
  have asks : system.asks thread = some .counter := by
    simp only [LockSystem.asks, isState]
  cases isTaken : system.eLock with
  | true =>
      left
      refine ⟨_, asks, isTaken, ?_⟩
      simp only [LockSystem.threadStep, isState, isTaken, if_true]
  | false =>
      right
      refine ⟨_, .nothing, ?_,
        stands.takes thread (.inCounter use after event)
          (relocked_counter stands.uses true) isTaken ?_ trivial ?_,
        ?_⟩
      · simp only [LockSystem.threadStep, isState, isTaken]
        rfl
      · rw [isState]
        rfl
      · intro other
        rw [LockSystem.Holds, isState]
        exact List.mem_cons
      · intro _
        rw [isState]
        simp [LockSystem.move]

/-- Using the counter. -/
theorem inCounter_stands
    (stands : system.Stands capacity whole pool)
    (isState : system.threads thread = .inCounter use after event)
    (grants : AddGrants) :
    StepStands system capacity pool thread
      (system.threadStep thread grants) := by
  right
  refine ⟨(system.useCounter use).move thread (.leavingCounter after event),
    .nothing, ?_, ?_, ?_⟩
  · simp only [LockSystem.threadStep, isState]
  · have uses :
        ∃ hElements,
          system.useCounter use =
            { system with
              lru := system.lru.refit hElements system.lru.fh.locks } := by
      cases use with
      | change change =>
          cases change with
          | incElem =>
              exact ⟨_, rfl⟩
          | decElem =>
              exact ⟨_, rfl⟩
      | getElem =>
          exact ⟨system.lru.fh.hElements, rfl⟩
    obtain ⟨hElements, uses⟩ := uses
    rw [uses]
    have threads :
        (LockSystem.move
            { system with
              lru := system.lru.refit hElements system.lru.fh.locks }
            thread (.leavingCounter after event)).threads =
          Function.update system.threads thread
            (.leavingCounter after event) := rfl
    apply stands.refitted
      (LockSystem.move
        { system with
          lru := system.lru.refit hElements system.lru.fh.locks }
        thread (.leavingCounter after event))
      hElements system.lru.fh.locks rfl rfl threads
    · rw [isState]
      rfl
    · trivial
    · exact stands.uses
    · apply stands.guarded.congr
      · intro lock
        cases lock <;> rfl
      · intro other lock
        by_cases isThread : other = thread
        · subst isThread
          rw [holds_self threads rfl, LockSystem.Holds, isState]
          rfl
        · exact holds_other threads rfl isThread lock
  · intro _
    rw [isState]
    simp [LockSystem.move]

/-- Giving back the lock of the counter. -/
theorem leavingCounter_stands
    (stands : system.Stands capacity whole pool)
    (isState : system.threads thread = .leavingCounter after event)
    (grants : AddGrants) :
    StepStands system capacity pool thread
      (system.threadStep thread grants) := by
  right
  have holds : system.Holds thread .counter := by
    rw [LockSystem.Holds, isState]
    exact List.mem_cons_self
  have isTaken : system.eLock = true :=
    (stands.guarded.taken_iff .counter).mpr ⟨thread, holds⟩
  refine ⟨_, event, ?_,
    stands.gives thread (.ready after) (relocked_counter stands.uses false)
      holds ?_ trivial ?_,
    ?_⟩
  · simp only [LockSystem.threadStep, isState, isTaken, if_true]
  · rw [isState]
    rfl
  · intro other
    rw [LockSystem.Holds, isState, LockState.locks, LockState.locks,
      List.mem_cons]
    constructor
    · intro isKept
      refine ⟨?_, .inr isKept⟩
      rintro rfl
      cases rank_of_kept isKept
    · rintro ⟨isOther, isKept⟩
      exact isKept.resolve_left isOther
  · intro _
    rw [isState]
    simp [LockSystem.move]

/-- Where a thread goes when it has given back the lock of a call. -/
theorem goOn_cases
    (system : LockSystem n)
    (thread : Fin n)
    (use : Option CounterUse)
    (after : ThreadState)
    (event : LruEvent) :
    ∃ state told,
      system.goOn thread use after event = (system.move thread state, told) ∧
        state.state = after ∧
        (∀ nLock, state.locks nLock = after.keptLocks nLock) ∧
        (∀ lru, state.Entered lru) ∧
        (state = .ready after ∨ ∃ use event, state = .counting use after event) := by
  cases use with
  | none =>
      exact ⟨.ready after, event, rfl, rfl, fun _ => rfl, fun _ => trivial,
        .inl rfl⟩
  | some use =>
      exact ⟨.counting use after event, .nothing, rfl, rfl, fun _ => rfl,
        fun _ => trivial, .inr ⟨use, event, rfl⟩⟩

/-- Giving back the lock of a call. -/
theorem leaving_stands
    (stands : system.Stands capacity whole pool)
    {entry : Entry}
    {use : Option CounterUse}
    (isState : system.threads thread = .leaving entry use after event)
    (grants : AddGrants) :
    StepStands system capacity pool thread
      (system.threadStep thread grants) := by
  right
  have entered := stands.entered thread
  rw [isState] at entered
  have holds :
      system.Holds thread (entry.name system.lru.fh.locks.nLock) := by
    rw [LockSystem.Holds, isState]
    exact List.mem_cons_self
  obtain ⟨left, nextPool, leaves, relocked⟩ :=
    leave_ok stands.uses entry ((stands.guarded.taken_iff _).mpr ⟨thread, holds⟩)
  obtain ⟨state, told, goes, sameState, sameLocks, isEntered, isNext⟩ :=
    goOn_cases left thread use after event
  refine ⟨left.move thread state, told, ?_,
    stands.gives thread state relocked holds ?_ (isEntered _) ?_, ?_⟩
  · simp only [LockSystem.threadStep, isState, leaves, goes, Checked.ok_bind]
  · rw [isState]
    exact sameState
  · intro other
    rw [sameLocks, LockSystem.Holds, isState, LockState.locks, List.mem_cons]
    constructor
    · intro isKept
      refine ⟨?_, .inr isKept⟩
      rintro rfl
      cases entry with
      | list =>
          cases rank_of_kept isKept
      | chain slot =>
          rw [keptLocks_none entered] at isKept
          cases isKept
    · rintro ⟨isOther, isKept⟩
      exact isKept.resolve_left isOther
  · intro _
    simp only [isState, LockSystem.move, Function.update_self]
    rcases isNext with rfl | ⟨next, told, rfl⟩
    · nofun
    · nofun

/-- The lock of a chain that a call has is available to the whole call. -/
theorem inside_available
    (stands : system.Stands capacity whole pool)
    {entry : Entry}
    {state : ThreadState}
    (isState : system.threads thread = .inside entry state)
    {slot : Nat}
    (enters : state.entry system.lru = .ok (some (.chain slot))) :
    whole.lru.fh.locks.Available slot := by
  obtain ⟨map, recency, free, hands, wholePool, ok⟩ := stands.good
  have entered := stands.entered thread
  rw [isState] at entered
  cases Option.some.inj (Except.ok.inj (entered.symm.trans enters))
  refine ⟨wholePool, ok.locks.uses, ?_⟩
  cases isTaken : wholePool (slot % whole.lru.fh.locks.nLock) with
  | false =>
      rfl
  | true =>
      obtain ⟨other, otherSlot, isLocked, sameLock⟩ :=
        (ok.locks.held _).mp isTaken
      rw [← stands.threads] at isLocked
      have otherHolds :
          system.Holds other
            (.chain (slot % system.lru.fh.locks.nLock)) := by
        have isKept :
            LockName.chain (slot % system.lru.fh.locks.nLock) ∈
              (system.threads other).state.keptLocks
                system.lru.fh.locks.nLock := by
          rw [ThreadState.keptLocks, isLocked, stands.nLock, ← sameLock]
          exact List.mem_singleton_self _
        exact kept_holds isKept
      have threadHolds :
          system.Holds thread
            (.chain (slot % system.lru.fh.locks.nLock)) := by
        rw [LockSystem.Holds, isState]
        exact List.mem_cons_self
      cases stands.guarded.alone other thread _ otherHolds threadHolds
      rw [isState] at isLocked
      cases (entry_chain enters).symm.trans isLocked

/-- A section that a thread can run. -/
structure SectionRuns
    (system : LockSystem n)
    (capacity : Nat)
    (thread : Fin n)
    (grants : AddGrants)
    (state : ThreadState)
    (done : Section) : Prop where
  runs : runSection system.lru grants state = .ok done
  keeps :
    done.keepsLock = true →
      ∃ slot,
        state.entry system.lru = .ok (some (.chain slot)) ∧
          done.after.lockedSlot = some slot
  leaves :
    done.keepsLock = false → done.after.lockedSlot = state.lockedSlot
  moves : state ≠ .idle → done.after ≠ state
  stands :
    ∀ next : LockState,
      next.state = done.after →
      (∀ lock,
        lock ∈ next.locks system.lru.fh.locks.nLock ↔
          system.Holds thread lock) →
      (∀ lru, next.Entered lru) →
      LockSystem.Good
        (LockSystem.move
          { system with
            lru := done.lru }
          thread next)
        capacity

/-- A section whose lock is available can be run. -/
theorem section_runs
    (stands : system.Stands capacity whole pool)
    (thread : Fin n)
    (available :
      ∀ slot,
        (system.threads thread).state.entry system.lru =
          .ok (some (.chain slot)) →
        whole.lru.fh.locks.Available slot)
    (notReleasing :
      ∀ key payload fhslot,
        (system.threads thread).state ≠
          .checking key (.release payload fhslot))
    (grants : AddGrants) :
    ∃ done,
      SectionRuns system capacity thread grants (system.threads thread).state
        done := by
  obtain ⟨map, recency, free, hands, wholePool, ok⟩ := stands.good
  have sameEntry :
      ∀ any : ThreadState, any.entry system.lru = any.entry whole.lru := by
    intro any
    rw [stands.lru, entry_refit]
  simp only [stands.threads, sameEntry] at available notReleasing ⊢
  obtain ⟨next, after, event, isDone⟩ :=
    section_done ok thread available notReleasing grants
  obtain ⟨done, runs, sameLru, rfl, rfl, keeps, leaves⟩ :=
    isDone.runs system.lru.fh.hElements system.lru.fh.locks
  rw [← stands.lru] at runs
  refine ⟨done, runs, ?_, leaves, ?_, ?_⟩
  · rw [sameEntry]
    exact keeps
  · exact fun notIdle => (threadStep_move isDone.steps).goes_on notIdle
  · intro moved isAfter sameLocks isEntered
    have adds : Label.Adds (fun _ _ => True) (Label.step thread grants) :=
      trivial
    obtain ⟨wholeNext, told, wholeSteps, good, -⟩ :=
      systemStep_keeps stands.good adds
    have steps :
        systemStep whole (.step thread grants) =
          .ok
            ({ lru := next
               threads :=
                 Function.update whole.threads thread done.after },
              done.event) := by
      simp only [systemStep, isDone.steps]
    cases Except.ok.inj (steps.symm.trans wholeSteps)
    have threads :
        (LockSystem.move
            { system with
              lru := done.lru }
            thread moved).threads =
          Function.update system.threads thread moved := rfl
    have nLock :
        (LockSystem.move
            { system with
              lru := done.lru }
            thread moved).lru.fh.locks.nLock =
          system.lru.fh.locks.nLock :=
      congrArg (·.fh.locks.nLock) sameLru
    have uses : done.lru.fh.locks.Uses pool := by
      have sameLocks : done.lru.fh.locks = system.lru.fh.locks := by
        rw [sameLru]
        rfl
      exact sameLocks ▸ stands.uses
    refine stands.advance _ _ good ?_ nLock isDone.nLock threads ?_ ?_
      (isEntered _) uses ?_
    · exact sameLru.trans (congrArg (fun lru =>
        next.refit lru.fh.hElements lru.fh.locks) sameLru.symm)
    · rw [isAfter]
    · intro other isOther
      apply entry_congr isDone.hMagic isDone.same
      intro slot isRecord
      exact isDone.others slot (ok.records_apart (Ne.symm isOther) isRecord)
    · apply stands.guarded.congr
      · intro lock
        cases lock <;> rfl
      · intro other lock
        by_cases isThread : other = thread
        · subst isThread
          rw [holds_self threads nLock, sameLocks]
        · exact holds_other threads nLock isThread lock

/-- The locks that are kept depend on the lock of the chain only. -/
theorem keptLocks_congr
    {state : ThreadState}
    (same : after.lockedSlot = state.lockedSlot)
    (nLock : Nat) :
    after.keptLocks nLock = state.keptLocks nLock := by
  rw [ThreadState.keptLocks, ThreadState.keptLocks, same]

/-- Running the section of a call that has its lock. -/
theorem inside_stands
    (stands : system.Stands capacity whole pool)
    {entry : Entry}
    {state : ThreadState}
    (isState : system.threads thread = .inside entry state)
    (grants : AddGrants) :
    StepStands system capacity pool thread
      (system.threadStep thread grants) := by
  right
  have entered := stands.entered thread
  rw [isState] at entered
  have isWhole : (system.threads thread).state = state := by
    rw [isState]
    rfl
  have notReleasing :
      ∀ key payload fhslot,
        (system.threads thread).state ≠
          .checking key (.release payload fhslot) := by
    intro key payload fhslot isRelease
    rw [isWhole] at isRelease
    subst isRelease
    cases Except.ok.inj entered
  obtain ⟨done, isRun⟩ :=
    section_runs stands thread
      (fun slot enters => inside_available stands isState (isWhole ▸ enters))
      notReleasing grants
  rw [isWhole] at isRun
  cases keeps : done.keepsLock with
  | true =>
      obtain ⟨slot, enters, isLocked⟩ := isRun.keeps keeps
      cases Option.some.inj (Except.ok.inj (entered.symm.trans enters))
      refine ⟨_, done.event, ?_, isRun.stands (.ready done.after) rfl ?_ ?_, ?_⟩
      · simp only [LockSystem.threadStep, isState, isRun.runs, keeps, if_true,
          Checked.ok_bind]
      · intro lock
        rw [LockSystem.Holds, isState, LockState.locks, LockState.locks,
          keptLocks_none (entry_chain enters), ThreadState.keptLocks, isLocked]
        rfl
      · exact fun _ => trivial
      · intro _
        simp [LockSystem.move, isState]
  | false =>
      have sameLock := isRun.leaves keeps
      refine ⟨_, .nothing, ?_,
        isRun.stands (.leaving entry done.use done.after done.event) rfl ?_ ?_,
        ?_⟩
      · simp only [LockSystem.threadStep, isState, isRun.runs, keeps,
          Checked.ok_bind]
        rfl
      · intro lock
        rw [LockSystem.Holds, isState, LockState.locks, LockState.locks,
          keptLocks_congr sameLock]
      · intro lru
        cases entry with
        | list =>
            trivial
        | chain slot =>
            exact sameLock.trans (entry_chain entered)
      · intro _
        simp [LockSystem.move, isState]

/-- Running a section that needs no lock. -/
theorem unlocked_stands
    (stands : system.Stands capacity whole pool)
    {state : ThreadState}
    (isState : system.threads thread = .ready state)
    (enters : state.entry system.lru = .ok none)
    (notReleasing :
      ∀ key payload fhslot, state ≠ .checking key (.release payload fhslot))
    (grants : AddGrants) :
    StepStands system capacity pool thread
      (system.threadStep thread grants) := by
  right
  have isWhole : (system.threads thread).state = state := by
    rw [isState]
    rfl
  have noLock :
      ∀ slot,
        (system.threads thread).state.entry system.lru =
          .ok (some (.chain slot)) →
        whole.lru.fh.locks.Available slot := by
    intro slot entersChain
    rw [isWhole, enters] at entersChain
    cases entersChain
  obtain ⟨done, isRun⟩ :=
    section_runs stands thread noLock (isWhole ▸ notReleasing) grants
  rw [isWhole] at isRun
  have sameLock : done.after.lockedSlot = state.lockedSlot := by
    cases keeps : done.keepsLock with
    | true =>
        obtain ⟨slot, entersChain, -⟩ := isRun.keeps keeps
        rw [enters] at entersChain
        cases entersChain
    | false =>
        exact isRun.leaves keeps
  obtain ⟨next, told, goes, sameState, sameLocks, isEntered, isNext⟩ :=
    goOn_cases
      { system with
        lru := done.lru }
      thread done.use done.after done.event
  refine ⟨_, told, ?_, isRun.stands next sameState ?_ isEntered, ?_⟩
  · simp only [LockSystem.threadStep, isState, enters, isRun.runs, goes,
      Checked.ok_bind]
  · intro lock
    rw [sameLocks, LockSystem.Holds, isState, LockState.locks,
      keptLocks_congr sameLock]
  · intro busy
    have notIdle : state ≠ .idle := by
      rintro rfl
      exact busy isState
    simp only [isState, LockSystem.move, Function.update_self]
    rcases isNext with rfl | ⟨use, event, rfl⟩
    · intro same
      exact isRun.moves notIdle (LockState.ready.inj same)
    · nofun

/-- Giving back the lock that `lru_check` kept. -/
theorem release_stands
    (stands : system.Stands capacity whole pool)
    {key : CString}
    {payload : Nat}
    {fhslot : Option Nat}
    (isState :
      system.threads thread = .ready (.checking key (.release payload fhslot)))
    (grants : AddGrants) :
    StepStands system capacity pool thread
      (system.threadStep thread grants) := by
  right
  obtain ⟨map, recency, free, hands, wholePool, ok⟩ := stands.good
  have isWhole :
      whole.threads thread = .checking key (.release payload fhslot) := by
    rw [← stands.threads, isState]
    rfl
  have checks := ok.checks thread
  rw [isWhole] at checks
  obtain ⟨rfl, -⟩ := checks
  generalize isSlot : whole.lru.fh.table.indexOf key = slot at isState isWhole
  have isLocked : (whole.threads thread).lockedSlot = some slot := by
    rw [isWhole]
    rfl
  have wholeTaken := (ok.locks.held _).mpr ⟨thread, slot, isLocked, rfl⟩
  have wholeReleases :=
    releaseKey_eq ok.ok (ok.locks.uses.unlock wholeTaken)
  have wholeSteps :
      systemStep whole (.step thread grants) =
        .ok
          ({ lru :=
               whole.lru.refit whole.lru.fh.hElements
                 (whole.lru.fh.locks.withPool
                   (Function.update wholePool
                     (slot % whole.lru.fh.locks.nLock) false))
             threads := Function.update whole.threads thread .idle },
            .returned (.check key) ⟨lruOk, some payload⟩) := by
    simp only [systemStep, isWhole, Lru.threadStep, checkStep, wholeReleases,
      Checked.ok_bind]
    rfl
  have adds : Label.Adds (fun _ _ => True) (Label.step thread grants) :=
    trivial
  obtain ⟨wholeNext, told, stepsToo, good, -⟩ :=
    systemStep_keeps stands.good adds
  cases Except.ok.inj (wholeSteps.symm.trans stepsToo)
  have holds :
      system.Holds thread (.chain (slot % system.lru.fh.locks.nLock)) := by
    rw [LockSystem.Holds, isState]
    exact List.mem_singleton_self _
  have isTaken : pool (slot % system.lru.fh.locks.nLock) = true :=
    (stands.guarded.taken_iff _).mpr ⟨thread, holds⟩
  have magic : system.lru.fh.hMagic = fhMagicId := by
    rw [stands.lru]
    exact ok.ok.stores.magic
  have unlocks :
      fhReleaselock system.lru.fh slot =
        .ok
          ({ system.lru.fh with
              locks :=
                system.lru.fh.locks.withPool
                  (Function.update pool (slot % system.lru.fh.locks.nLock)
                    false) },
            fhOk) :=
    fhReleaselock_eq magic (stands.uses.unlock isTaken)
  obtain ⟨middle, isMiddle⟩ :
      ∃ middle : LockSystem n,
        middle =
          { system with
            lru :=
              { system.lru with
                fh :=
                  { system.lru.fh with
                    locks :=
                      system.lru.fh.locks.withPool
                        (Function.update pool
                          (slot % system.lru.fh.locks.nLock) false) } } } :=
    ⟨_, rfl⟩
  have relocked :=
    relocked_chain stands.uses (slot % system.lru.fh.locks.nLock) false
  rw [← isMiddle] at relocked
  have threads :
      (middle.move thread (.ready .idle)).threads =
        Function.update system.threads thread (.ready .idle) := by
    rw [← relocked.threads]
    rfl
  refine ⟨middle.move thread (.ready .idle),
    .returned (.check key) ⟨lruOk, some payload⟩, ?_,
    stands.advance _ _ good ?_ relocked.nLock (FhLocks.withPool_nLock _ _)
      threads rfl (fun _ _ => entry_congr rfl (.refl _) fun _ _ => rfl) trivial
      relocked.uses ?_,
    ?_⟩
  · simp only [LockSystem.threadStep, isState, ThreadState.entry, runSection,
      Lru.threadStep, checkStep, releaseKey, unlocks, isMiddle,
      Checked.ok_bind]
    rfl
  · have sameCount : middle.lru.fh.hElements = system.lru.fh.hElements := by
      rw [relocked.lru]
      rfl
    have sameLru := relocked.lru
    rw [← sameCount] at sameLru
    have isRefit :=
      congrArg (fun lru : LruT =>
        lru.refit middle.lru.fh.hElements middle.lru.fh.locks) stands.lru
    exact sameLru.trans isRefit
  · apply stands.guarded.give holds
    · intro other
      rw [← relocked.taken]
      cases other <;> rfl
    · intro other
      rw [holds_self threads relocked.nLock, LockSystem.Holds, isState]
      simp [LockState.locks, ThreadState.keptLocks, ThreadState.lockedSlot]
    · exact fun other isOther => holds_other threads relocked.nLock isOther
  · intro _
    simp [LockSystem.move, isState]

/-- A step of a thread waits for a lock that is taken, or goes on. -/
theorem threadStep_stands
    (stands : system.Stands capacity whole pool)
    (thread : Fin n)
    (grants : AddGrants) :
    StepStands system capacity pool thread
      (system.threadStep thread grants) := by
  cases isState : system.threads thread with
  | ready state =>
      have isOk :
          ∃ entry, state.entry system.lru = .ok entry := by
        obtain ⟨map, recency, free, hands, wholePool, ok⟩ := stands.good
        obtain ⟨entry, enters⟩ := entry_isOk ok thread
        rw [← stands.threads, isState] at enters
        refine ⟨entry, ?_⟩
        rw [stands.lru, entry_refit]
        exact enters
      obtain ⟨entry, enters⟩ := isOk
      cases entry with
      | some entry =>
          exact enter_stands stands isState enters grants
      | none =>
          by_cases releases :
              ∃ key payload fhslot,
                state = .checking key (.release payload fhslot)
          · obtain ⟨key, payload, fhslot, rfl⟩ := releases
            exact release_stands stands isState grants
          · apply unlocked_stands stands isState enters _ grants
            intro key payload fhslot isRelease
            exact releases ⟨key, payload, fhslot, isRelease⟩
  | inside entry state =>
      exact inside_stands stands isState grants
  | leaving entry use after event =>
      exact leaving_stands stands isState grants
  | counting use after event =>
      exact counting_stands stands isState grants
  | inCounter use after event =>
      exact inCounter_stands stands isState grants
  | leavingCounter after event =>
      exact leavingCounter_stands stands isState grants

/-- The first step of a call takes no lock. -/
theorem start_stands
    (stands : system.Stands capacity whole pool)
    (isIdle : system.threads thread = .ready .idle)
    (call : LruCall) :
    (system.move thread (.ready call.start)).Good capacity := by
  obtain ⟨map, recency, free, hands, wholePool, ok⟩ := stands.good
  have wholeIdle : whole.threads thread = .idle := by
    rw [← stands.threads, isIdle]
    rfl
  have adds :
      ∀ key payload, call = .add key payload → True :=
    fun _ _ _ => trivial
  have good := start_keeps ok wholeIdle adds
  have threads :
      (system.move thread (.ready call.start)).threads =
        Function.update system.threads thread (.ready call.start) := rfl
  have noLock : call.start.lockedSlot = none := by
    cases call <;> rfl
  refine stands.advance _ _ good stands.lru rfl rfl threads rfl
    (fun _ _ => rfl) trivial stands.uses ?_
  apply stands.guarded.congr
  · intro lock
    cases lock <;> rfl
  · intro other lock
    by_cases isThread : other = thread
    · subst isThread
      rw [holds_self threads rfl, LockSystem.Holds, isIdle, LockState.locks,
        LockState.locks, keptLocks_none noLock]
      rfl
    · exact holds_other threads rfl isThread lock

/-- A step of the system keeps the locks in order. -/
theorem lockStep_good
    (good : system.Good capacity)
    (label : Label n) :
    ∃ next event,
      lockStep system label = .ok (next, event) ∧ next.Good capacity := by
  obtain ⟨whole, pool, stands⟩ := good
  cases label with
  | call thread call =>
      by_cases isIdle : system.threads thread = .ready .idle
      · have magic : system.lru.magic = lruMagicId := by
          obtain ⟨map, recency, free, hands, wholePool, ok⟩ := stands.good
          rw [stands.lru]
          exact ok.ok.magic
        refine ⟨_, .nothing, ?_, start_stands stands isIdle call⟩
        simp only [lockStep, isIdle, magic, ne_eq, not_true_eq_false, if_false]
      · refine ⟨system, .nothing, ?_, whole, pool, stands⟩
        rw [lockStep]
        split
        next isReady =>
          exact (isIdle isReady).elim
        next =>
          rfl
  | step thread grants =>
      rcases threadStep_stands stands thread grants with
          ⟨lock, -, -, blocks⟩ | ⟨next, event, steps, nextGood, -⟩
      · exact ⟨system, .nothing, by simp only [lockStep, blocks], whole, pool,
          stands⟩
      · exact ⟨next, event, by simp only [lockStep, steps], nextGood⟩

/-- A thread that asks for no lock that is taken goes on. -/
theorem canStep_of_free
    (stands : system.Stands capacity whole pool)
    (isBusy : system.Busy thread)
    (isFree :
      ∀ lock, system.asks thread = some lock → system.taken pool lock = false) :
    system.CanStep thread := by
  intro grants
  rcases threadStep_stands stands thread grants with
      ⟨lock, isAsked, isTaken, -⟩ | ⟨next, event, steps, -, moves⟩
  · rw [isFree lock isAsked] at isTaken
    cases isTaken
  · exact ⟨next, event, by simp only [lockStep, steps], moves isBusy⟩

/-- If a thread is inside a function, some thread inside one goes on. -/
theorem exists_canStep
    (stands : system.Stands capacity whole pool)
    (isBusy : system.Busy thread) :
    ∃ other, system.Busy other ∧ system.CanStep other := by
  have bounded : ∀ lock : LockName, lock.rank < 2 := by
    intro lock
    cases lock with
    | chain number =>
        exact Nat.two_pos
    | list =>
        exact Nat.one_lt_two
    | counter =>
        exact Nat.one_lt_two
  obtain ⟨other, otherBusy, isFree⟩ :=
    (asks_above system).exists_unblocked bounded stands.guarded
      (fun _ _ => busy_of_holds) isBusy
  exact ⟨other, otherBusy, canStep_of_free stands otherBusy isFree⟩

end Steps

/-- In a new cache no lock is taken. -/
theorem lockStart_good
    {dim : Int32}
    {hashFunction : CString → UInt64}
    {grants : LruGrants}
    {lru : LruT}
    (created : lruCreate dim hashFunction grants = .ok (some lru))
    (n : Nat) :
    (lockStart n lru).Good dim.toInt.toNat := by
  refine ⟨start n lru, fun _ => false, ?_⟩
  exact {
    good := start_good created n _
    lru := rfl
    nLock := rfl
    threads := fun _ => rfl
    uses := (lruCreate_ok created).2.1
    guarded := {
      taken_iff := by
        intro lock
        refine iff_of_false ?_ ?_
        · cases lock <;> nofun
        · rintro ⟨thread, holds⟩
          cases holds
      alone := by
        intro first second lock holds
        cases holds }
    entered := fun _ => trivial }

/--
Whatever the threads do, and whichever allocations fail, no step faults, the
locks that are taken are those that threads inside a function hold, some thread
inside a function goes on whenever there is one, and no thread asks for a lock
that it holds.
-/
theorem lru_never_deadlocks
    {dim : Int32}
    {hashFunction : CString → UInt64}
    {grants : LruGrants}
    {lru : LruT}
    (created : lruCreate dim hashFunction grants = .ok (some lru))
    (n : Nat)
    (labels : List (Label n)) :
    ∃ final events,
      runCalls lockStep (lockStart n lru) labels = .ok (final, events) ∧
        (∃ pool,
          final.lru.fh.locks.Uses pool ∧
            Guarded (final.taken pool) final.Holds) ∧
        (∀ thread,
          final.Busy thread →
          ∃ other, final.Busy other ∧ final.CanStep other) ∧
        ∀ thread lock,
          final.asks thread = some lock → ¬ final.Holds thread lock := by
  have permitted :
      AlwaysAllowed (StepOf lockStep) (fun _ _ => True) (lockStart n lru)
        labels :=
    alwaysAllowed_of_forall (fun _ _ _ => trivial) _
  obtain ⟨final, events, runs, whole, pool, stands⟩ :=
    runCalls_invariant
      (fun good _ => lockStep_good good _) (lockStart_good created n) permitted
  exact ⟨final, events, runs, ⟨pool, stands.uses, stands.guarded⟩,
    fun _ isBusy => exists_canStep stands isBusy,
    fun _ _ isAsked => (asks_above final).not_held isAsked⟩

/-- One thread adds a key while another one looks for it. -/
theorem lru_never_deadlocks_two :
    ∃ lru final events,
      lruCreate 1 (fun _ => 7) .all = .ok (some lru) ∧
        runCalls lockStep (lockStart 2 lru)
            [.call 0 (.add ⟨[97], by decide⟩ 1),
              .call 1 (.check ⟨[97], by decide⟩),
              .step 0 .all, .step 1 .all, .step 0 .all, .step 1 .all] =
          .ok (final, events) ∧
        ∀ thread,
          final.Busy thread →
          ∃ other, final.Busy other ∧ final.CanStep other := by
  have created : lruCreate 1 (fun _ => 7) .all = .ok (some _) := rfl
  obtain ⟨final, events, runs, -, goesOn, -⟩ :=
    lru_never_deadlocks created 2
      [.call 0 (.add ⟨[97], by decide⟩ 1), .call 1 (.check ⟨[97], by decide⟩),
        .step 0 .all, .step 1 .all, .step 0 .all, .step 1 .all]
  exact ⟨_, final, events, created, runs, goesOn⟩

end Clibs.Lru
