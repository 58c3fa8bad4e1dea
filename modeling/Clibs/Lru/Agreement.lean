import Clibs.Lru.Threads

namespace Clibs.Lru

open Fh Ll

/-!
# The table and the list agree under concurrency

In every state that any number of threads can reach, each slot is free, listed
or in the hands of one unfinished operation, and the table maps the keys of the
listed slots, and of those in hands that have yet to be linked or deleted, to
their records.  A thread that holds the lock of a chain between the two halves
of `lru_check` keeps the others from deleting its key, so the record it reads is
still that of the key.
-/

/-- What is in the hands of a thread. -/
inductive Holds : ThreadState → Option Hand → Prop where
  | idle :
      Holds .idle none
  | take (key : CString) (payload : Nat) :
      Holds (.adding key payload .take) none
  | evict (key : CString) (payload : Nat) :
      Holds (.adding key payload .evict) none
  | delete (key : CString) (payload : Nat) (card : Card) :
      Holds (.adding key payload (.delete card.slot card.slot))
        (some (.removed card))
  | free (key : CString) (payload : Nat) (card : Card) :
      Holds (.adding key payload (.free card.slot card.slot))
        (some (.deleted card))
  | fill (key : CString) (payload slot : Nat) :
      Holds (.adding key payload (.fill slot slot)) (some (.taken slot))
  | unfilled (key : CString) (payload slot : Nat) :
      Holds (.adding key payload (.unfilled slot)) (some (.taken slot))
  | insert (key : CString) (payload slot : Nat) :
      Holds (.adding key payload (.insert slot slot))
        (some (.keyed ⟨slot, key, payload⟩))
  | undo (key : CString) (payload slot : Nat) (code : Int) :
      Holds (.adding key payload (.undo slot slot code))
        (some (.keyed ⟨slot, key, payload⟩))
  | link (key : CString) (payload slot : Nat) :
      Holds (.adding key payload (.link slot))
        (some (.inserted ⟨slot, key, payload⟩))
  | check (key : CString) (point : CheckPoint) :
      Holds (.checking key point) none
  | remove :
      Holds (.clearing .remove) none
  | clearDelete (card : Card) :
      Holds (.clearing (.delete card.slot card.slot)) (some (.removed card))
  | clearFree (card : Card) :
      Holds (.clearing (.free card.slot card.slot)) (some (.deleted card))

/-- What a thread that holds the lock of a chain relies on. -/
def CheckOk
    (wasAdded : CString → Nat → Prop)
    (table : FhTable)
    (cards : List Card) : ThreadState → Prop
  | .checking key (.move pload fhslot) =>
      fhslot = some (table.indexOf key) ∧
        ∃ card ∈ cards, card.slot = pload ∧ card.key = key
  | .checking key (.release payload fhslot) =>
      fhslot = some (table.indexOf key) ∧ wasAdded key payload
  | _ =>
      True

/-- The payload a thread is adding was passed to `lru_add` with its key. -/
def AddOk
    (wasAdded : CString → Nat → Prop) : ThreadState → Prop
  | .adding key payload _ =>
      wasAdded key payload
  | _ =>
      True

/-- The locks that are taken are those that threads hold, one thread each. -/
structure LocksHeld
    {n : Nat}
    (locks : FhLocks)
    (pool : LockPool)
    (threads : Fin n → ThreadState) : Prop where
  uses : locks.Uses pool
  held :
    ∀ lock,
      pool lock = true ↔
        ∃ thread slot,
          (threads thread).lockedSlot = some slot ∧
            slot % locks.nLock = lock
  alone :
    ∀ first second firstSlot secondSlot,
      (threads first).lockedSlot = some firstSlot →
      (threads second).lockedSlot = some secondSlot →
      firstSlot % locks.nLock = secondSlot % locks.nLock →
      first = second

/-- The cards in the hands of the threads. -/
def handsOf
    {n : Nat}
    (hands : Fin n → Option Hand) : List Hand :=
  collect id hands

/-- The invariant of a cache and its threads. -/
structure System.Ok
    {n : Nat}
    (system : System n)
    (wasAdded : CString → Nat → Prop)
    (capacity : Nat)
    (map : CString → Option (Option OpaqueObj))
    (recency : List Card)
    (free : List Nat)
    (hands : Fin n → Option Hand)
    (pool : LockPool) : Prop where
  ok : system.lru.Ok map recency free (handsOf hands)
  size : system.lru.ll.size = capacity
  holds : ∀ thread, Holds (system.threads thread) (hands thread)
  added :
    ∀ card ∈ recency ++ (handsOf hands).filterMap Hand.card,
      wasAdded card.key card.payload
  adds : ∀ thread, AddOk wasAdded (system.threads thread)
  locks : LocksHeld system.lru.fh.locks pool system.threads
  checks :
    ∀ thread,
      CheckOk wasAdded system.lru.fh.table
        (cachedCards recency (handsOf hands)) (system.threads thread)

/-- The invariant holds, for some places of the slots. -/
def System.Good
    {n : Nat}
    (system : System n)
    (wasAdded : CString → Nat → Prop)
    (capacity : Nat) : Prop :=
  ∃ map recency free hands pool,
    system.Ok wasAdded capacity map recency free hands pool

section Frames

variable {n : Nat}
  {system : System n}
  {wasAdded : CString → Nat → Prop}
  {capacity : Nat}
  {map : CString → Option (Option OpaqueObj)}
  {recency : List Card}
  {free : List Nat}
  {hands : Fin n → Option Hand}
  {pool : LockPool}
  {thread : Fin n}

/-- The hands of the other threads. -/
def othersOf
    (hands : Fin n → Option Hand)
    (thread : Fin n) : List Hand :=
  handsOf (Function.update hands thread none)

/-- The hands are those of one thread and of the others. -/
theorem handsOf_split
    (hands : Fin n → Option Hand)
    (thread : Fin n) :
    (handsOf hands).Perm
      ((hands thread).toList ++ othersOf hands thread) :=
  collect_split rfl hands thread

/-- The hands after one thread moved. -/
theorem handsOf_update
    (hands : Fin n → Option Hand)
    (thread : Fin n)
    (hand : Option Hand) :
    (handsOf (Function.update hands thread hand)).Perm
      (hand.toList ++ othersOf hands thread) :=
  collect_update rfl hands thread hand

/-- The agreement, with the hands of one thread set apart. -/
theorem System.Ok.split
    (good : system.Ok wasAdded capacity map recency free hands pool)
    {hand : Option Hand}
    (isHand : hands thread = hand) :
    system.lru.Ok map recency free
      (hand.toList ++ othersOf hands thread) := by
  subst isHand
  exact good.ok.perm (handsOf_split hands thread).symm

/-- The cached cards do not depend on the order of the hands. -/
theorem mem_cachedCards
    {first second : List Hand}
    (same : first.Perm second)
    {card : Card} :
    card ∈ cachedCards recency first ↔ card ∈ cachedCards recency second :=
  ((same.filterMap Hand.cached).append_left recency).mem_iff

/-- What a step of one thread has to keep for the others. -/
structure Moves
    (system : System n)
    (wasAdded : CString → Nat → Prop)
    (recency : List Card)
    (hands : Fin n → Option Hand)
    (thread : Fin n)
    (lru : LruT)
    (state : ThreadState)
    (map : CString → Option (Option OpaqueObj))
    (nextRecency : List Card)
    (free : List Nat)
    (hand : Option Hand) : Prop where
  ok : lru.Ok map nextRecency free (hand.toList ++ othersOf hands thread)
  size : lru.ll.size = system.lru.ll.size
  same : lru.fh.table.SameSettings system.lru.fh.table
  holds : Holds state hand
  adds : AddOk wasAdded state
  added :
    ∀ card ∈ nextRecency ++ hand.toList.filterMap Hand.card,
      card ∈ recency ++ (hands thread).toList.filterMap Hand.card ∨
        wasAdded card.key card.payload
  keeps :
    ∀ card ∈ cachedCards recency (handsOf hands),
      card ∈ cachedCards nextRecency (hand.toList ++ othersOf hands thread) ∨
        system.lru.fh.locks.Available
          (system.lru.fh.table.indexOf card.key)

/-- A lock that a thread holds is not available. -/
theorem LocksHeld.not_available
    {locks : FhLocks}
    {threads : Fin n → ThreadState}
    (held : LocksHeld locks pool threads)
    {slot : Nat}
    (isLocked : (threads thread).lockedSlot = some slot) :
    ¬ locks.Available slot := by
  rintro ⟨other, uses, notTaken⟩
  have isTaken := (held.held (slot % locks.nLock)).mpr
    ⟨thread, slot, isLocked, rfl⟩
  have samePool : other = pool := by
    have first := held.uses
    cases uses with
    | mutexes =>
        cases first
        rfl
    | rwlocks =>
        cases first
        rfl
  rw [samePool, isTaken] at notTaken
  cases notTaken

/-- A lock is available, or a thread holds it. -/
theorem LocksHeld.available_or
    {locks : FhLocks}
    {threads : Fin n → ThreadState}
    (held : LocksHeld locks pool threads)
    (slot : Nat) :
    locks.Available slot ∨ pool (slot % locks.nLock) = true := by
  cases isTaken : pool (slot % locks.nLock) with
  | false =>
      exact .inl ⟨pool, held.uses, isTaken⟩
  | true =>
      exact .inr rfl

/-- Where the thread that moved relies on a lock, it is shown anew. -/
theorem System.Ok.moved
    (good : system.Ok wasAdded capacity map recency free hands pool)
    {lru : LruT}
    {state : ThreadState}
    {nextMap : CString → Option (Option OpaqueObj)}
    {nextRecency : List Card}
    {nextFree : List Nat}
    {hand : Option Hand}
    {nextPool : LockPool}
    (moves :
      Moves system wasAdded recency hands thread lru state nextMap
        nextRecency nextFree hand)
    (locks :
      LocksHeld lru.fh.locks nextPool
        (Function.update system.threads thread state))
    (checks :
      CheckOk wasAdded lru.fh.table
        (cachedCards nextRecency (hand.toList ++ othersOf hands thread))
        state) :
    System.Good
      { lru := lru
        threads := Function.update system.threads thread state }
      wasAdded capacity := by
  have newHands := handsOf_update hands thread hand
  refine ⟨nextMap, nextRecency, nextFree, Function.update hands thread hand,
    nextPool, ?_⟩
  exact {
    ok := moves.ok.perm newHands
    size := moves.size.trans good.size
    holds := by
      intro other
      by_cases same : other = thread
      · subst same
        simp only [Function.update_self]
        exact moves.holds
      · simp only [Function.update_of_ne same]
        exact good.holds other
    added := by
      intro card member
      have newCards := (newHands.filterMap Hand.card).append_left nextRecency
      have oldCards :=
        ((handsOf_split hands thread).filterMap Hand.card).append_left recency
      rw [newCards.mem_iff, List.filterMap_append, ← List.append_assoc,
        List.mem_append] at member
      have isOld :
          card ∈ recency ++ (hands thread).toList.filterMap Hand.card ∨
              card ∈ (othersOf hands thread).filterMap Hand.card →
            wasAdded card.key card.payload := by
        intro places
        apply good.added card
        rw [oldCards.mem_iff, List.filterMap_append, ← List.append_assoc,
          List.mem_append]
        exact places
      rcases member with isMoved | isOther
      · rcases moves.added card isMoved with wasThere | isNew
        · exact isOld (.inl wasThere)
        · exact isNew
      · exact isOld (.inr isOther)
    adds := by
      intro other
      by_cases same : other = thread
      · subst same
        simp only [Function.update_self]
        exact moves.adds
      · simp only [Function.update_of_ne same]
        exact good.adds other
    locks := locks
    checks := by
      intro other
      by_cases same : other = thread
      · subst same
        simp only [Function.update_self]
        generalize state = final at checks
        revert checks
        unfold CheckOk
        split
        next key pload fhslot =>
          rintro ⟨isSlot, card, member, isCard⟩
          exact ⟨isSlot, card, (mem_cachedCards newHands).mpr member, isCard⟩
        next =>
          exact id
        next =>
          exact id
      · have oldChecks := good.checks other
        simp only [Function.update_of_ne same]
        generalize isState : system.threads other = final at oldChecks
        revert oldChecks
        unfold CheckOk
        split
        next key pload fhslot =>
          rintro ⟨isSlot, card, member, isPload, isKey⟩
          rw [moves.same.indexOf]
          refine ⟨isSlot, card, ?_, isPload, isKey⟩
          rcases moves.keeps card member with isKept | available
          · exact (mem_cachedCards newHands).mpr isKept
          · have isLocked :
                (system.threads other).lockedSlot =
                  some (system.lru.fh.table.indexOf card.key) := by
              rw [isState, isKey]
              exact isSlot
            exact (good.locks.not_available isLocked available).elim
        next key payload fhslot =>
          rw [moves.same.indexOf]
          exact id
        next =>
          exact id }

/-- A thread without a lock moves on and takes none. -/
theorem LocksHeld.move
    {locks : FhLocks}
    {threads : Fin n → ThreadState}
    (held : LocksHeld locks pool threads)
    {state : ThreadState}
    (same : state.lockedSlot = (threads thread).lockedSlot) :
    LocksHeld locks pool (Function.update threads thread state) := by
  have sameSlots :
      ∀ other,
        (Function.update threads thread state other).lockedSlot =
          (threads other).lockedSlot := by
    intro other
    by_cases isThread : other = thread
    · subst isThread
      rw [Function.update_self, same]
    · rw [Function.update_of_ne isThread]
  exact {
    uses := held.uses
    held := by
      intro lock
      simp only [sameSlots]
      exact held.held lock
    alone := by
      intro first second firstSlot secondSlot
      simp only [sameSlots]
      exact held.alone first second firstSlot secondSlot }

/-- A thread takes the lock of a chain that is available. -/
theorem LocksHeld.take
    {locks : FhLocks}
    {threads : Fin n → ThreadState}
    (held : LocksHeld locks pool threads)
    {state : ThreadState}
    {slot : Nat}
    (hadNone : (threads thread).lockedSlot = none)
    (takesLock : state.lockedSlot = some slot)
    (isFree : pool (slot % locks.nLock) = false) :
    LocksHeld
      (locks.withPool (Function.update pool (slot % locks.nLock) true))
      (Function.update pool (slot % locks.nLock) true)
      (Function.update threads thread state) where
  uses := held.uses.withPool _
  held := by
    intro lock
    rw [FhLocks.withPool_nLock]
    by_cases isLock : lock = slot % locks.nLock
    · subst isLock
      rw [Function.update_self]
      refine iff_of_true rfl ⟨thread, slot, ?_, rfl⟩
      rw [Function.update_self, takesLock]
    · rw [Function.update_of_ne isLock, held.held lock]
      constructor
      · rintro ⟨other, otherSlot, isLocked, sameLock⟩
        refine ⟨other, otherSlot, ?_, sameLock⟩
        have isOther : other ≠ thread := by
          rintro rfl
          rw [hadNone] at isLocked
          cases isLocked
        rwa [Function.update_of_ne isOther]
      · rintro ⟨other, otherSlot, isLocked, sameLock⟩
        refine ⟨other, otherSlot, ?_, sameLock⟩
        have isOther : other ≠ thread := by
          rintro rfl
          rw [Function.update_self, takesLock] at isLocked
          cases isLocked
          exact isLock sameLock.symm
        rwa [Function.update_of_ne isOther] at isLocked
  alone := by
    intro first second firstSlot secondSlot firstLocked secondLocked sameLock
    rw [FhLocks.withPool_nLock] at sameLock
    have notTaken :
        ∀ other otherSlot,
          other ≠ thread →
          (threads other).lockedSlot = some otherSlot →
          otherSlot % locks.nLock ≠ slot % locks.nLock := by
      intro other otherSlot _ isLocked isLock
      have isTaken := (held.held _).mpr ⟨other, otherSlot, isLocked, isLock⟩
      rw [isFree] at isTaken
      cases isTaken
    by_cases isFirst : first = thread
    · by_cases isSecond : second = thread
      · rw [isFirst, isSecond]
      · rw [isFirst, Function.update_self, takesLock] at firstLocked
        rw [Function.update_of_ne isSecond] at secondLocked
        cases firstLocked
        exact (notTaken second secondSlot isSecond secondLocked
          sameLock.symm).elim
    · rw [Function.update_of_ne isFirst] at firstLocked
      by_cases isSecond : second = thread
      · rw [isSecond, Function.update_self, takesLock] at secondLocked
        cases secondLocked
        exact (notTaken first firstSlot isFirst firstLocked sameLock).elim
      · rw [Function.update_of_ne isSecond] at secondLocked
        exact held.alone first second firstSlot secondSlot firstLocked
          secondLocked sameLock

/-- A thread gives back the lock it holds. -/
theorem LocksHeld.give
    {locks : FhLocks}
    {threads : Fin n → ThreadState}
    (held : LocksHeld locks pool threads)
    {state : ThreadState}
    {slot : Nat}
    (hadLock : (threads thread).lockedSlot = some slot)
    (hasNone : state.lockedSlot = none) :
    LocksHeld
      (locks.withPool (Function.update pool (slot % locks.nLock) false))
      (Function.update pool (slot % locks.nLock) false)
      (Function.update threads thread state) where
  uses := held.uses.withPool _
  held := by
    intro lock
    rw [FhLocks.withPool_nLock]
    have notThread :
        ∀ other otherSlot,
          (Function.update threads thread state other).lockedSlot =
              some otherSlot →
            other ≠ thread ∧ (threads other).lockedSlot = some otherSlot := by
      intro other otherSlot isLocked
      have isOther : other ≠ thread := by
        rintro rfl
        rw [Function.update_self, hasNone] at isLocked
        cases isLocked
      rw [Function.update_of_ne isOther] at isLocked
      exact ⟨isOther, isLocked⟩
    by_cases isLock : lock = slot % locks.nLock
    · subst isLock
      rw [Function.update_self]
      refine iff_of_false (by decide) ?_
      rintro ⟨other, otherSlot, isLocked, sameLock⟩
      obtain ⟨isOther, wasLocked⟩ := notThread other otherSlot isLocked
      exact isOther
        (held.alone other thread otherSlot slot wasLocked hadLock sameLock)
    · rw [Function.update_of_ne isLock, held.held lock]
      constructor
      · rintro ⟨other, otherSlot, isLocked, sameLock⟩
        refine ⟨other, otherSlot, ?_, sameLock⟩
        have isOther : other ≠ thread := by
          rintro rfl
          rw [hadLock] at isLocked
          cases isLocked
          exact isLock sameLock.symm
        rwa [Function.update_of_ne isOther]
      · rintro ⟨other, otherSlot, isLocked, sameLock⟩
        exact ⟨other, otherSlot, (notThread other otherSlot isLocked).2,
          sameLock⟩
  alone := by
    intro first second firstSlot secondSlot firstLocked secondLocked sameLock
    rw [FhLocks.withPool_nLock] at sameLock
    have isFirst : first ≠ thread := by
      rintro rfl
      rw [Function.update_self, hasNone] at firstLocked
      cases firstLocked
    have isSecond : second ≠ thread := by
      rintro rfl
      rw [Function.update_self, hasNone] at secondLocked
      cases secondLocked
    rw [Function.update_of_ne isFirst] at firstLocked
    rw [Function.update_of_ne isSecond] at secondLocked
    exact held.alone first second firstSlot secondSlot firstLocked
      secondLocked sameLock

end Frames

end Clibs.Lru
