import Mathlib.Logic.Function.Basic
import Mathlib.Tactic.Common

namespace Clibs

/-!
# Locks taken in an order

A lock is taken by one thread at a time, and a thread that asks for a lock that
is taken waits.  `Guarded` says that the taken locks are those that threads
hold, one thread each.  If every thread asks only for locks above all that it
holds, then no thread waits for itself, and some thread that has not finished
does not wait.
-/

/-- The locks that are taken are those that threads hold, one thread each. -/
structure Guarded
    {Thread Lock : Type}
    (taken : Lock → Bool)
    (held : Thread → Lock → Prop) : Prop where
  taken_iff : ∀ lock, taken lock = true ↔ ∃ thread, held thread lock
  alone :
    ∀ first second lock,
      held first lock → held second lock → first = second

/-- A thread asks only for a lock above all that it holds. -/
def AsksAbove
    {Thread Lock : Type}
    (rank : Lock → Nat)
    (held : Thread → Lock → Prop)
    (asks : Thread → Option Lock) : Prop :=
  ∀ thread lock,
    asks thread = some lock →
    ∀ other, held thread other → rank other < rank lock

section Guarded

variable {Thread Lock : Type}
  {taken : Lock → Bool}
  {held : Thread → Lock → Prop}

/-- Which locks the threads hold, but not how, matters. -/
theorem Guarded.congr
    (guarded : Guarded taken held)
    {nextTaken : Lock → Bool}
    {nextHeld : Thread → Lock → Prop}
    (sameTaken : ∀ lock, nextTaken lock = taken lock)
    (sameHeld : ∀ thread lock, nextHeld thread lock ↔ held thread lock) :
    Guarded nextTaken nextHeld where
  taken_iff := by
    intro lock
    rw [sameTaken, guarded.taken_iff]
    exact exists_congr fun thread => (sameHeld thread lock).symm
  alone := by
    intro first second lock firstHolds secondHolds
    exact guarded.alone first second lock ((sameHeld first lock).mp firstHolds)
      ((sameHeld second lock).mp secondHolds)

variable [DecidableEq Lock]

/-- A thread takes a lock that was not taken. -/
theorem Guarded.take
    (guarded : Guarded taken held)
    {thread : Thread}
    {lock : Lock}
    (isFree : taken lock = false)
    {nextTaken : Lock → Bool}
    {nextHeld : Thread → Lock → Prop}
    (sameTaken : ∀ other, nextTaken other = Function.update taken lock true other)
    (takes :
      ∀ other, nextHeld thread other ↔ other = lock ∨ held thread other)
    (others :
      ∀ other, other ≠ thread → ∀ any, nextHeld other any ↔ held other any) :
    Guarded nextTaken nextHeld := by
  have notHeld : ∀ other, ¬ held other lock := by
    intro other holds
    have isTaken := (guarded.taken_iff lock).mpr ⟨other, holds⟩
    rw [isFree] at isTaken
    cases isTaken
  have split :
      ∀ other any,
        nextHeld other any ↔
          (other = thread ∧ any = lock) ∨ held other any := by
    intro other any
    by_cases isThread : other = thread
    · subst isThread
      rw [takes]
      exact or_congr_left (by simp)
    · rw [others other isThread]
      simp [isThread]
  refine ⟨?_, ?_⟩
  · intro any
    simp only [sameTaken, split]
    by_cases isLock : any = lock
    · subst isLock
      rw [Function.update_self]
      exact iff_of_true rfl ⟨thread, .inl ⟨rfl, rfl⟩⟩
    · rw [Function.update_of_ne isLock, guarded.taken_iff]
      simp [isLock]
  · intro first second any firstHolds secondHolds
    rw [split] at firstHolds secondHolds
    rcases firstHolds with ⟨rfl, rfl⟩ | firstHolds
    · rcases secondHolds with ⟨rfl, -⟩ | secondHolds
      · rfl
      · exact (notHeld _ secondHolds).elim
    · rcases secondHolds with ⟨rfl, rfl⟩ | secondHolds
      · exact (notHeld _ firstHolds).elim
      · exact guarded.alone first second any firstHolds secondHolds

/-- A thread gives back a lock that it holds. -/
theorem Guarded.give
    (guarded : Guarded taken held)
    {thread : Thread}
    {lock : Lock}
    (holds : held thread lock)
    {nextTaken : Lock → Bool}
    {nextHeld : Thread → Lock → Prop}
    (sameTaken :
      ∀ other, nextTaken other = Function.update taken lock false other)
    (gives :
      ∀ other, nextHeld thread other ↔ other ≠ lock ∧ held thread other)
    (others :
      ∀ other, other ≠ thread → ∀ any, nextHeld other any ↔ held other any) :
    Guarded nextTaken nextHeld := by
  have split :
      ∀ other any, nextHeld other any ↔ any ≠ lock ∧ held other any := by
    intro other any
    by_cases isThread : other = thread
    · subst isThread
      exact gives any
    · rw [others other isThread]
      refine ⟨fun otherHolds => ⟨?_, otherHolds⟩, And.right⟩
      rintro rfl
      exact isThread (guarded.alone other thread any otherHolds holds)
  refine ⟨?_, ?_⟩
  · intro any
    simp only [sameTaken, split]
    by_cases isLock : any = lock
    · subst isLock
      rw [Function.update_self]
      simp
    · rw [Function.update_of_ne isLock, guarded.taken_iff]
      simp [isLock]
  · intro first second any firstHolds secondHolds
    exact guarded.alone first second any ((split _ _).mp firstHolds).2
      ((split _ _).mp secondHolds).2

end Guarded

section Order

variable {Thread Lock : Type}
  {rank : Lock → Nat}
  {taken : Lock → Bool}
  {held : Thread → Lock → Prop}
  {asks : Thread → Option Lock}

/-- A thread that asks for locks in order never asks for one that it holds. -/
theorem AsksAbove.not_held
    (above : AsksAbove rank held asks)
    {thread : Thread}
    {lock : Lock}
    (isAsked : asks thread = some lock) :
    ¬ held thread lock :=
  fun holds => Nat.lt_irrefl _ (above thread lock isAsked lock holds)

/--
If threads ask for locks in order, and a thread that holds a lock is not done,
then some thread that is not done does not wait for a lock.
-/
theorem AsksAbove.exists_unblocked
    (above : AsksAbove rank held asks)
    {bound : Nat}
    (bounded : ∀ lock, rank lock < bound)
    (guarded : Guarded taken held)
    {busy : Thread → Prop}
    (holdersBusy : ∀ thread lock, held thread lock → busy thread)
    {thread : Thread}
    (isBusy : busy thread) :
    ∃ other,
      busy other ∧ ∀ lock, asks other = some lock → taken lock = false := by
  by_contra allBlocked
  have blocked :
      ∀ other, busy other →
        ∃ lock, asks other = some lock ∧ taken lock = true := by
    intro other otherBusy
    by_contra notBlocked
    refine allBlocked ⟨other, otherBusy, fun lock isAsked => ?_⟩
    cases isTaken : taken lock with
    | false =>
        rfl
    | true =>
        exact (notBlocked ⟨lock, isAsked, isTaken⟩).elim
  have higher :
      ∀ height,
        ∃ other lock,
          busy other ∧ asks other = some lock ∧ height ≤ rank lock := by
    intro height
    induction height with
    | zero =>
        obtain ⟨lock, isAsked, -⟩ := blocked thread isBusy
        exact ⟨thread, lock, isBusy, isAsked, Nat.zero_le _⟩
    | succ height inductionHypothesis =>
        obtain ⟨other, lock, otherBusy, isAsked, atLeast⟩ := inductionHypothesis
        obtain ⟨sameLock, isAgain, isTaken⟩ := blocked other otherBusy
        cases Option.some.inj (isAsked.symm.trans isAgain)
        obtain ⟨holder, holds⟩ := (guarded.taken_iff lock).mp isTaken
        have holderBusy := holdersBusy holder lock holds
        obtain ⟨next, isNext, -⟩ := blocked holder holderBusy
        exact ⟨holder, next, holderBusy, isNext,
          Nat.lt_of_le_of_lt atLeast (above holder next isNext lock holds)⟩
  obtain ⟨other, lock, -, -, tooHigh⟩ := higher bound
  exact Nat.lt_irrefl _ (Nat.lt_of_lt_of_le (bounded lock) tooHigh)

end Order

end Clibs
