import Mathlib.Data.List.DropRight
import Clibs.Thp.Ledger

namespace Clibs.Thp

/-!
# The mutex of the pool, and its waits

A thread holds the mutex from the lock of `thp_add` to the counting of the job,
and through the whole loop of `thp_wait`.  So at most one thread is in the loop,
and no job is between its put and its counting while it is.  `WaitMove` says
what a step does to the waits of the pool: nothing, or it opens, continues or
ends one.
-/

/-- The thread is inside a critical section of the pool. -/
def Activity.locks : Activity → Bool
  | .adding _ _ .put =>
      true
  | .adding _ _ .count =>
      true
  | .collecting _ _ =>
      true
  | _ =>
      false

/-- The mutex belongs to the thread inside a critical section. -/
def View.Locked
    {k : Nat}
    (view : View k) : Prop :=
  ∀ thread, (view.activity thread).locks = true ↔ view.mutex = some thread

/-- A call of `thp_wait` waited: it did not return `THP_TOO_MANY_WAIT`. -/
def completesWait
    {k : Nat} : PoolEvent k → Bool
  | .waited _ count =>
      count ≠ thpTooManyWait
  | _ =>
      false

/-- The events after the last completed `thp_wait`. -/
def sinceWait
    {k : Nat}
    (past : List (PoolEvent k)) : List (PoolEvent k) :=
  past.rtakeWhile fun event => !completesWait event

/-- What a step does to the waits of the pool. -/
inductive WaitMove
    {k : Nat}
    (view : View k)
    (event : PoolEvent k)
    (next : View k) : Prop where
  | quiet
      (goesOn : completesWait event = false)
      (nothing : collectedOf event = [])
      (flag : next.waitRunning = view.waitRunning)
      (same :
        ∀ thread destroys count,
          next.activity thread = .collecting destroys count ↔
            view.activity thread = .collecting destroys count)
  | opens
      (thread : Fin k)
      (destroys : Bool)
      (isEvent : event = .nothing)
      (isAt : view.activity thread = .waiting destroys)
      (isFree : view.mutex = none)
      (activity :
        next.activity =
          Function.update view.activity thread (.collecting destroys 0))
  | collects
      (thread : Fin k)
      (destroys : Bool)
      (count : Int)
      (job : Nat)
      (isEvent : event = .collected thread job)
      (isAt : view.activity thread = .collecting destroys count)
      (flag : next.waitRunning = view.waitRunning)
      (activity :
        next.activity =
          Function.update view.activity thread
            (.collecting destroys (count + 1)))
  | finds
      (thread : Fin k)
      (isEvent : event = .waited thread 0)
      (flag : next.waitRunning = 0)
      (wasFree : view.mutex = none)
      (isFree : next.mutex = none)
      (nothing : view.toBeWaited = 0)
  | closes
      (thread : Fin k)
      (destroys : Bool)
      (count : Int)
      (isEvent : event = .waited thread count)
      (isAt : view.activity thread = .collecting destroys count)
      (flag : next.waitRunning = 0)
      (isFree : next.mutex = none)
      (nothing : view.toBeWaited = 0)

section Locking

variable {k : Nat} {view next : View k} {label : PoolLabel k}
  {event : PoolEvent k} {thread : Fin k} {own : Activity}

/-- After `thp_wait` a thread is in no critical section. -/
@[simp] theorem locks_afterWait
    (destroys : Bool) :
    (afterWait destroys).locks = false := by
  cases destroys <;> rfl

/-- A thread that calls `thp_add` is in no critical section. -/
@[simp] theorem locks_resumes
    (caller : Caller) :
    caller.resumes.locks = false := by
  cases caller <;> rfl

/-- A thread goes on, without the mutex or with it. -/
theorem View.Locked.goOn
    {base : View k}
    (locked : view.Locked)
    (sameMutex : base.mutex = view.mutex)
    (sameActivity : base.activity = view.activity)
    (sameLocks : own.locks = (view.activity thread).locks) :
    (base.goOn thread own).Locked := by
  intro other
  simp only [View.goOn, sameMutex, sameActivity]
  rw [← locked other]
  by_cases isThread : other = thread
  · subst isThread
    rw [Function.update_self, sameLocks]
  · rw [Function.update_of_ne isThread]

/-- A thread takes the free mutex. -/
theorem View.Locked.take
    {base : View k}
    (locked : view.Locked)
    (isFree : view.mutex = none)
    (sameMutex : base.mutex = some thread)
    (sameActivity : base.activity = view.activity)
    (locks : own.locks = true) :
    (base.goOn thread own).Locked := by
  intro other
  simp only [View.goOn, sameMutex, sameActivity]
  by_cases isThread : other = thread
  · subst isThread
    simp [locks]
  · rw [Function.update_of_ne isThread, locked other, isFree]
    simp [Ne.symm isThread]

/-- A thread gives the mutex back. -/
theorem View.Locked.give
    {base : View k}
    (locked : view.Locked)
    (held : (view.activity thread).locks = true)
    (sameMutex : base.mutex = none)
    (sameActivity : base.activity = view.activity)
    (leaves : own.locks = false) :
    (base.goOn thread own).Locked := by
  intro other
  simp only [View.goOn, sameMutex, sameActivity]
  by_cases isThread : other = thread
  · subst isThread
    simp [leaves]
  · rw [Function.update_of_ne isThread, locked other,
      (locked thread).mp held]
    simp [Ne.symm isThread]

/-- The mutex changes hands as the critical sections say. -/
theorem PoolMove.locked
    (move : PoolMove view label event next)
    (locked : view.Locked) :
    next.Locked := by
  cases move with
  | still =>
      exact locked
  | addStart mayAdd =>
      refine locked.goOn rfl rfl ?_
      rw [mayAdd.resumes, locks_resumes]
      rfl
  | addLock isAt isFree =>
      exact locked.take isFree rfl rfl rfl
  | addPut isAt =>
      refine locked.goOn rfl rfl ?_
      simp [isAt, Activity.locks]
  | addCount isAt =>
      exact locked.give (by simp [isAt, Activity.locks]) rfl rfl rfl
  | addRead isAt =>
      refine locked.goOn rfl rfl ?_
      rw [isAt, locks_resumes]
      rfl
  | waitRefused isAt _ _ | waitNothing isAt _ _ _ =>
      refine locked.goOn rfl rfl ?_
      rw [isAt, locks_afterWait]
      rfl
  | waitLoop isAt isFree _ _ =>
      exact locked.take isFree rfl rfl rfl
  | waitDone isAt _ =>
      refine locked.give (by simp [isAt, Activity.locks]) rfl rfl ?_
      simp
  | waitCall isAt | collect isAt _ | take isAt _ | exit isAt _ | finish isAt
  | hand isAt | destroyCall isAt | send isAt _ | sent isAt _ | join isAt _ _
  | joined isAt _ =>
      refine locked.goOn rfl rfl ?_
      simp [isAt, Activity.locks]

/-- Threads in a critical section hold the mutex, so there is one at most. -/
theorem View.Locked.alone
    (locked : view.Locked)
    {first second : Fin k}
    (firstLocks : (view.activity first).locks = true)
    (secondLocks : (view.activity second).locks = true) :
    first = second :=
  Option.some.inj
    (((locked first).mp firstLocks).symm.trans ((locked second).mp secondLocks))

/-- While the mutex is free, no thread is in a critical section. -/
theorem View.Locked.nobody
    (locked : view.Locked)
    (isFree : view.mutex = none)
    (thread : Fin k) :
    (view.activity thread).locks = false := by
  cases isLocked : (view.activity thread).locks with
  | false =>
      rfl
  | true =>
      rw [(locked thread).mp isLocked] at isFree
      cases isFree

/-- A thread goes on and stays of its kind. -/
theorem kind_goOn
    {kind : Activity → Bool}
    (kept : kind own = kind (view.activity thread))
    (other : Fin k) :
    kind (Function.update view.activity thread own other) =
      kind (view.activity other) := by
  by_cases isThread : other = thread
  · subst isThread
    rw [Function.update_self, kept]
  · rw [Function.update_of_ne isThread]

/-- A thread goes on and is of a kind only if it was. -/
theorem of_kind_goOn
    {kind : Activity → Bool}
    (kept : kind own = true → kind (view.activity thread) = true)
    {other : Fin k}
    (isKind : kind (Function.update view.activity thread own other) = true) :
    kind (view.activity other) = true := by
  by_cases isThread : other = thread
  · subst isThread
    rw [Function.update_self] at isKind
    exact kept isKind
  · rwa [Function.update_of_ne isThread] at isKind

/-- A thread outside the loop of `thp_wait` goes on outside it. -/
theorem collecting_goOn
    (wasOutside :
      ∀ destroys count, view.activity thread ≠ .collecting destroys count)
    (isOutside : ∀ destroys count, own ≠ .collecting destroys count)
    (other : Fin k)
    (destroys : Bool)
    (count : Int) :
    Function.update view.activity thread own other =
        .collecting destroys count ↔
      view.activity other = .collecting destroys count := by
  by_cases isThread : other = thread
  · subst isThread
    rw [Function.update_self]
    exact iff_of_false (isOutside destroys count) (wasOutside destroys count)
  · rw [Function.update_of_ne isThread]

/-- Every move of the pool is one of the five moves of its waits. -/
theorem PoolMove.waits
    (move : PoolMove view label event next) :
    WaitMove view event next := by
  cases move with
  | still =>
      exact .quiet rfl rfl rfl fun _ _ _ => Iff.rfl
  | waitLoop isAt isFree _ _ =>
      exact .opens _ _ rfl isAt isFree rfl
  | collect isAt _ =>
      exact .collects _ _ _ _ rfl isAt rfl rfl
  | waitNothing isAt isFree notRunning nothing =>
      exact .finds _ rfl notRunning isFree isFree nothing
  | waitDone isAt nothing =>
      exact .closes _ _ _ rfl isAt rfl rfl nothing
  | @addStart _ _ _ caller mayAdd =>
      refine .quiet rfl rfl rfl (collecting_goOn ?_ (by simp))
      rw [mayAdd.resumes]
      cases caller <;> simp [Caller.resumes]
  | @addRead _ caller _ _ isAt =>
      refine .quiet rfl rfl rfl (collecting_goOn (by simp [isAt]) ?_)
      cases caller <;> simp [Caller.resumes]
  | @waitRefused _ destroys _ isAt _ _ =>
      refine .quiet rfl rfl rfl (collecting_goOn (by simp [isAt]) ?_)
      cases destroys <;> simp [afterWait]
  | addLock isAt _ | addPut isAt | addCount isAt | waitCall isAt | take isAt _
  | exit isAt _ | finish isAt | hand isAt | destroyCall isAt | send isAt _
  | sent isAt _ | join isAt _ _ | joined isAt _ =>
      exact .quiet rfl rfl rfl (collecting_goOn (by simp [isAt]) (by simp))

end Locking

end Clibs.Thp
