import Clibs.Lru.Agreement

namespace Clibs.Lru

open Fh Ll

/-!
# Every interleaving keeps the agreement

Each step of `lru_add`, `lru_check` and `lru_clear` moves at most one slot: from
the free list into the hands of the thread, through the stages of an insertion
or an eviction, and back into one of the lists.  A run of any number of threads
therefore never faults and ends in a state where the table and the list agree.
-/

/-- What an event has to say. -/
def LruEvent.Sound
    (wasAdded : CString → Nat → Prop) : LruEvent → Prop
  | .nothing =>
      True
  | .deleted code =>
      0 ≤ code
  | .returned (.check key) result =>
      ∀ payload, result.payload = some payload → wasAdded key payload
  | .returned (.add _ _) _ =>
      True
  | .returned .clear result =>
      result.code = lruOk

/-- A step of a thread waits for a lock, or keeps the invariant. -/
def StepKeeps
    {n : Nat}
    (system : System n)
    (wasAdded : CString → Nat → Prop)
    (capacity : Nat)
    (thread : Fin n)
    (outcome : Checked Step) : Prop :=
  outcome = .error .lockAlreadyHeld ∨
    ∃ lru state event,
      outcome = .ok (lru, state, event) ∧
        System.Good
          { lru := lru
            threads := Function.update system.threads thread state }
          wasAdded capacity ∧
        event.Sound wasAdded

section Steps

variable {n : Nat}
  {system : System n}
  {wasAdded : CString → Nat → Prop}
  {capacity : Nat}
  {map : CString → Option (Option OpaqueObj)}
  {recency : List Card}
  {free : List Nat}
  {hands : Fin n → Option Hand}
  {pool : LockPool}
  {thread : Fin n}

/-- A step that takes and gives no lock. -/
theorem System.Ok.keeps
    (good : system.Ok wasAdded capacity map recency free hands pool)
    {outcome : Checked Step}
    {lru : LruT}
    {state : ThreadState}
    {nextMap : CString → Option (Option OpaqueObj)}
    {nextRecency : List Card}
    {nextFree : List Nat}
    {hand nextHand : Option Hand}
    (isHand : hands thread = hand)
    (event : LruEvent)
    (steps : outcome = .ok (lru, state, event))
    (ok :
      lru.Ok nextMap nextRecency nextFree
        (nextHand.toList ++ othersOf hands thread))
    (size : lru.ll.size = system.lru.ll.size)
    (same : lru.fh.table.SameSettings system.lru.fh.table)
    (sameLocks : lru.fh.locks = system.lru.fh.locks)
    (holds : Holds state nextHand)
    (sameLock : state.lockedSlot = (system.threads thread).lockedSlot)
    (adds : AddOk wasAdded state)
    (added :
      ∀ card ∈ nextRecency ++ nextHand.toList.filterMap Hand.card,
        card ∈ recency ++ hand.toList.filterMap Hand.card ∨
          wasAdded card.key card.payload)
    (kept :
      ∀ card ∈ cachedCards recency (hand.toList ++ othersOf hands thread),
        card ∈
            cachedCards nextRecency
              (nextHand.toList ++ othersOf hands thread) ∨
          system.lru.fh.locks.Available
            (system.lru.fh.table.indexOf card.key))
    (checks :
      CheckOk wasAdded lru.fh.table
        (cachedCards nextRecency (nextHand.toList ++ othersOf hands thread))
        state)
    (sound : event.Sound wasAdded) :
    StepKeeps system wasAdded capacity thread outcome := by
  subst isHand
  right
  have moves :
      Moves system wasAdded recency hands thread lru state nextMap
        nextRecency nextFree nextHand := {
    ok := ok
    size := size
    same := same
    holds := holds
    adds := adds
    added := added
    keeps := fun card member =>
      kept card ((mem_cachedCards (handsOf_split hands thread)).mp member) }
  have locks := good.locks.move sameLock
  rw [← sameLocks] at locks
  exact ⟨lru, state, event, steps, good.moved moves locks checks, sound⟩

/-- A step that changes neither the table nor which cards are cached. -/
theorem System.Ok.keeps_of_list
    (good : system.Ok wasAdded capacity map recency free hands pool)
    {outcome : Checked Step}
    {lru : LruT}
    {state : ThreadState}
    {nextRecency : List Card}
    {nextFree : List Nat}
    {hand nextHand : Option Hand}
    (isHand : hands thread = hand)
    (event : LruEvent)
    (steps : outcome = .ok (lru, state, event))
    (ok :
      lru.Ok map nextRecency nextFree
        (nextHand.toList ++ othersOf hands thread))
    (size : lru.ll.size = system.lru.ll.size)
    (sameFh : lru.fh = system.lru.fh)
    (holds : Holds state nextHand)
    (sameLock : state.lockedSlot = (system.threads thread).lockedSlot)
    (adds : AddOk wasAdded state)
    (added :
      ∀ card ∈ nextRecency ++ nextHand.toList.filterMap Hand.card,
        card ∈ recency ++ hand.toList.filterMap Hand.card ∨
          wasAdded card.key card.payload)
    (kept :
      ∀ card ∈ cachedCards recency (hand.toList ++ othersOf hands thread),
        card ∈
          cachedCards nextRecency
            (nextHand.toList ++ othersOf hands thread))
    (checks :
      CheckOk wasAdded lru.fh.table
        (cachedCards nextRecency (nextHand.toList ++ othersOf hands thread))
        state)
    (sound : event.Sound wasAdded) :
    StepKeeps system wasAdded capacity thread outcome := by
  refine good.keeps isHand event steps ok size ?_ ?_ holds sameLock adds added
    (fun card member => .inl (kept card member)) checks sound
  · rw [sameFh]
    exact .refl _
  · rw [sameFh]

/-- The thread has nothing in hands, or the hand its place says. -/
theorem System.Ok.hand
    (good : system.Ok wasAdded capacity map recency free hands pool)
    {state : ThreadState}
    (isState : system.threads thread = state) :
    ∃ hand, hands thread = hand ∧ Holds state hand :=
  ⟨hands thread, rfl, isState ▸ good.holds thread⟩

section Adding

variable {key : CString}
  {payload : Nat}
  {grants : AddGrants}

/-- A thread that is adding does so for one of the calls. -/
theorem System.Ok.adding
    (good : system.Ok wasAdded capacity map recency free hands pool)
    {point : AddPoint}
    (isState : system.threads thread = .adding key payload point) :
    wasAdded key payload ∧
      (system.threads thread).lockedSlot = none := by
  have adds := good.adds thread
  rw [isState] at adds ⊢
  exact ⟨adds, rfl⟩

/-- Taking a slot. -/
theorem take_keeps
    (good : system.Ok wasAdded capacity map recency free hands pool)
    (isState : system.threads thread = .adding key payload .take) :
    StepKeeps system wasAdded capacity thread
      (addStep system.lru key payload grants .take) := by
  obtain ⟨adds, noLock⟩ := good.adding isState
  obtain ⟨hand, isHand, holds⟩ := good.hand isState
  cases holds with
  | take =>
      have ok := good.split isHand
      cases free with
      | nil =>
          have takes : slotNew system.lru = (system.lru, none) :=
            slotNew_none ok
          exact good.keeps_of_list isHand .nothing
            (by simp only [addStep, takes]) ok rfl rfl (.evict key payload)
            noLock.symm adds
            (fun _ member => .inl member) (fun _ member => member) trivial
            trivial
      | cons slot free =>
          obtain ⟨ll, takes, nextOk, size⟩ := slotNew_some ok
          have steps :
              addStep system.lru key payload grants .take =
                .ok
                  ({ system.lru with
                      ll := ll },
                    .adding key payload (.fill slot slot), .nothing) := by
            simp only [addStep, takes]
          exact good.keeps_of_list isHand .nothing steps nextOk size rfl
            (.fill key payload slot) noLock.symm adds
            (fun _ member => .inl member) (fun _ member => member) trivial
            trivial

/-- Removing the slot at the bottom of the list. -/
theorem removeLast_keeps
    (good : system.Ok wasAdded capacity map recency free hands pool)
    (isHand : hands thread = none)
    (noLock : (system.threads thread).lockedSlot = none)
    {outcome : Checked Step}
    (state : Nat → ThreadState)
    (event : LruEvent)
    (empties :
      removeLast system.lru = (system.lru, none) →
        outcome = .ok (system.lru, .idle, event))
    (steps :
      ∀ lru (slot : Nat),
        removeLast system.lru = (lru, some (slot, slot)) →
          outcome = .ok (lru, state slot, .nothing))
    (holds : ∀ card : Card, Holds (state card.slot) (some (.removed card)))
    (adds : ∀ slot, AddOk wasAdded (state slot))
    (noLockAfter : ∀ slot, (state slot).lockedSlot = none)
    (checks : ∀ slot table cards, CheckOk wasAdded table cards (state slot))
    (sound : event.Sound wasAdded) :
    StepKeeps system wasAdded capacity thread outcome := by
  have ok := good.split isHand
  rcases List.eq_nil_or_concat' recency with rfl | ⟨kept, card, rfl⟩
  · exact good.keeps_of_list isHand event (empties (removeLast_none ok)) ok
      rfl rfl .idle noLock.symm trivial (fun _ member => .inl member)
      (fun _ member => member) trivial sound
  · obtain ⟨ll, removes, nextOk, size⟩ := removeLast_some ok
    refine good.keeps_of_list isHand .nothing (steps _ _ removes) nextOk size
      rfl (holds card) ((noLockAfter card.slot).trans noLock.symm)
      (adds card.slot) ?_ ?_ (checks card.slot _ _) trivial
    · intro other member
      left
      simpa [Hand.card, or_comm, or_left_comm] using member
    · intro other member
      simpa [cachedCards, Hand.cached, or_assoc] using member

/-- Removing the slot at the bottom of the list for an eviction. -/
theorem evict_keeps
    (good : system.Ok wasAdded capacity map recency free hands pool)
    (isState : system.threads thread = .adding key payload .evict) :
    StepKeeps system wasAdded capacity thread
      (addStep system.lru key payload grants .evict) := by
  obtain ⟨adds, noLock⟩ := good.adding isState
  obtain ⟨hand, isHand, holds⟩ := good.hand isState
  cases holds with
  | evict =>
      refine removeLast_keeps good isHand noLock
        (fun slot => .adding key payload (.delete slot slot))
        (.returned (.add key payload) ⟨lruNoMemory, none⟩) ?_ ?_
        (.delete key payload) (fun _ => adds) (fun _ => rfl)
        (fun _ _ _ => trivial) trivial
      · intro removes
        simp only [addStep, removes]
      · intro lru slot removes
        simp only [addStep, removes]

/-- Deleting the key of a removed slot. -/
theorem delKey_keeps
    (good : system.Ok wasAdded capacity map recency free hands pool)
    {card : Card}
    (isHand : hands thread = some (.removed card))
    (noLock : (system.threads thread).lockedSlot = none)
    {outcome : Checked Step}
    {state : ThreadState}
    (blocks :
      delKey system.lru card.slot = .error .lockAlreadyHeld →
        outcome = .error .lockAlreadyHeld)
    (steps :
      ∀ lru (index : Nat),
        delKey system.lru card.slot = .ok (lru, index) →
          outcome = .ok (lru, state, .deleted index))
    (holds : Holds state (some (.deleted card)))
    (adds : AddOk wasAdded state)
    (noLockAfter : state.lockedSlot = none)
    (checks : ∀ table cards, CheckOk wasAdded table cards state) :
    StepKeeps system wasAdded capacity thread outcome := by
  have ok := good.split isHand
  have record : system.lru.payloads card.slot = card.record :=
    ok.records card (by simp [Hand.card])
  rcases good.locks.available_or (system.lru.fh.table.indexOf card.key) with
      available | isTaken
  · obtain ⟨fh, deletes, nextOk, becomes⟩ := delKey_removed ok available
    refine good.keeps isHand _ (steps _ _ deletes) nextOk rfl
      becomes.same becomes.locks holds (noLockAfter.trans noLock.symm) adds
      ?_ ?_
      (checks _ _) (Int.natCast_nonneg _)
    · exact fun _ member => .inl member
    · intro other member
      have places :
          other = card ∨
            other ∈ cachedCards recency (othersOf hands thread) := by
        simpa [cachedCards, Hand.cached, or_left_comm] using member
      rcases places with rfl | isOther
      · exact .inr available
      · left
        simpa [cachedCards, Hand.cached] using isOther
  · left
    apply blocks
    have isBlocked :=
      fhDel_blocked ok.stores.magic (good.locks.uses.wlock_taken isTaken)
    simp only [delKey, record, Card.record, KeyPointer.read, isBlocked,
      Checked.ok_bind, Checked.error_bind]

/-- Deleting the key of the evicted slot. -/
theorem addDelete_keeps
    (good : system.Ok wasAdded capacity map recency free hands pool)
    {slotToFree hashpayload : Nat}
    (isState :
      system.threads thread =
        .adding key payload (.delete slotToFree hashpayload)) :
    StepKeeps system wasAdded capacity thread
      (addStep system.lru key payload grants
        (.delete slotToFree hashpayload)) := by
  obtain ⟨adds, noLock⟩ := good.adding isState
  obtain ⟨hand, isHand, holds⟩ := good.hand isState
  cases holds with
  | delete _ _ card =>
      refine delKey_keeps good isHand noLock ?_ ?_ (.free key payload card)
        adds rfl fun _ _ => trivial
      · intro blocks
        simp only [addStep, blocks, Checked.error_bind]
      · intro lru index deletes
        simp only [addStep, deletes, Checked.ok_bind]

/-- Freeing a key that is not in the table, and its slot. -/
theorem freeKeyAndSlot_keeps
    (good : system.Ok wasAdded capacity map recency free hands pool)
    {card : Card}
    {hand : Hand}
    (isHand : hands thread = some hand)
    (event : LruEvent)
    (isCard : hand.card = some card)
    (notCached : hand.cached = none)
    (noLock : (system.threads thread).lockedSlot = none)
    {outcome : Checked Step}
    {state : ThreadState}
    (steps :
      ∀ lru,
        freeKeyAndSlot system.lru card.slot card.slot = .ok lru →
          outcome = .ok (lru, state, event))
    (holds : Holds state none)
    (adds : AddOk wasAdded state)
    (noLockAfter : state.lockedSlot = none)
    (checks : ∀ table cards, CheckOk wasAdded table cards state)
    (sound : event.Sound wasAdded) :
    StepKeeps system wasAdded capacity thread outcome := by
  have ok := good.split isHand
  obtain ⟨lru, frees, nextOk, sameFh, size⟩ :=
    freeKeyAndSlot_ok ok isCard notCached
  refine good.keeps_of_list isHand event (steps lru frees) nextOk size
    sameFh holds (noLockAfter.trans noLock.symm) adds ?_ ?_ (checks _ _) sound
  · intro other member
    left
    exact List.mem_append_left _ (by simpa using member)
  · intro other member
    simpa [cachedCards, notCached] using member

/-- Freeing the key and the slot of an evicted card. -/
theorem addFree_keeps
    (good : system.Ok wasAdded capacity map recency free hands pool)
    {slotToFree hashpayload : Nat}
    (isState :
      system.threads thread =
        .adding key payload (.free slotToFree hashpayload)) :
    StepKeeps system wasAdded capacity thread
      (addStep system.lru key payload grants
        (.free slotToFree hashpayload)) := by
  obtain ⟨adds, noLock⟩ := good.adding isState
  obtain ⟨hand, isHand, holds⟩ := good.hand isState
  cases holds with
  | free _ _ card =>
      refine freeKeyAndSlot_keeps good isHand .nothing rfl rfl noLock ?_
        (.take key payload) adds rfl (fun _ _ => trivial) trivial
      intro lru frees
      simp only [addStep, frees, Checked.ok_bind]

/-- Filling in the record of the new slot. -/
theorem fill_keeps
    (good : system.Ok wasAdded capacity map recency free hands pool)
    {slot new : Nat}
    (isState :
      system.threads thread = .adding key payload (.fill slot new)) :
    StepKeeps system wasAdded capacity thread
      (addStep system.lru key payload grants (.fill slot new)) := by
  obtain ⟨adds, noLock⟩ := good.adding isState
  obtain ⟨hand, isHand, holds⟩ := good.hand isState
  cases holds with
  | fill =>
      have ok := good.split isHand
      have filled := fillRecord_taken ok key payload grants.key
      cases granted : grants.key with
      | false =>
          rw [granted] at filled
          have steps :
              addStep system.lru key payload grants (.fill slot slot) =
                .ok
                  (fillRecord system.lru slot slot key payload false,
                    .adding key payload (.unfilled slot), .nothing) := by
            rw [addStep, granted]
            rfl
          exact good.keeps_of_list isHand .nothing steps filled rfl rfl
            (.unfilled key payload slot) noLock.symm adds
            (fun _ member => .inl member) (fun _ member => member) trivial
            trivial
      | true =>
          rw [granted] at filled
          have steps :
              addStep system.lru key payload grants (.fill slot slot) =
                .ok
                  (fillRecord system.lru slot slot key payload true,
                    .adding key payload (.insert slot slot), .nothing) := by
            rw [addStep, granted]
            rfl
          refine good.keeps_of_list isHand .nothing steps filled rfl rfl
            (.insert key payload slot) noLock.symm adds ?_
            (fun _ member => member) trivial trivial
          intro card member
          have places :
              card ∈ recency ∨ card = ⟨slot, key, payload⟩ := by
            simpa [Hand.card] using member
          rcases places with isListed | rfl
          · exact .inl (List.mem_append_left _ isListed)
          · exact .inr adds

/-- Putting back a slot whose key could not be allocated. -/
theorem unfilled_keeps
    (good : system.Ok wasAdded capacity map recency free hands pool)
    {slot : Nat}
    (isState :
      system.threads thread = .adding key payload (.unfilled slot)) :
    StepKeeps system wasAdded capacity thread
      (addStep system.lru key payload grants (.unfilled slot)) := by
  obtain ⟨-, noLock⟩ := good.adding isState
  obtain ⟨hand, isHand, holds⟩ := good.hand isState
  cases holds with
  | unfilled =>
      have ok := good.split isHand
      exact good.keeps_of_list isHand
        (.returned (.add key payload) ⟨lruNoMemory, none⟩) rfl
        (freeSlotOnly_taken ok) rfl rfl .idle noLock.symm trivial
        (fun _ member => .inl member) (fun _ member => member) trivial trivial

/-- The table refuses the key of the new slot. -/
theorem insert_refused_keeps
    (good : system.Ok wasAdded capacity map recency free hands pool)
    {slot : Nat}
    (isState :
      system.threads thread = .adding key payload (.insert slot slot))
    (isHand : hands thread = some (.keyed ⟨slot, key, payload⟩))
    {fh : FhT}
    {lruErr code : Int}
    (inserts :
      insertKey system.lru slot grants.insert =
        .ok
          ({ system.lru with
              fh := fh },
            lruErr))
    (isError : insertError lruErr = some code)
    (nextOk :
      LruT.Ok
        { system.lru with
          fh := fh }
        map recency free (.keyed ⟨slot, key, payload⟩ :: othersOf hands thread))
    (becomes : system.lru.fh.Becomes fh map) :
    StepKeeps system wasAdded capacity thread
      (addStep system.lru key payload grants (.insert slot slot)) := by
  obtain ⟨adds, noLock⟩ := good.adding isState
  have steps :
      addStep system.lru key payload grants (.insert slot slot) =
        .ok
          ({ system.lru with
              fh := fh },
            .adding key payload (.undo slot slot code), .nothing) := by
    simp only [addStep, inserts, isError, Checked.ok_bind]
  exact good.keeps isHand .nothing steps nextOk rfl becomes.same becomes.locks
    (.undo key payload slot code) noLock.symm adds
    (fun _ member => .inl member) (fun _ member => .inl member) trivial trivial

/-- The table takes the key of the new slot. -/
theorem insert_accepted_keeps
    (good : system.Ok wasAdded capacity map recency free hands pool)
    {slot : Nat}
    (isState :
      system.threads thread = .adding key payload (.insert slot slot))
    (isHand : hands thread = some (.keyed ⟨slot, key, payload⟩))
    (available :
      system.lru.fh.locks.Available (system.lru.fh.table.indexOf key))
    (isBound : map key = none)
    (memory :
      grants.insert.bucket = true ∨
        ¬ ChainFull
          (system.lru.fh.table.hashTable (system.lru.fh.table.indexOf key))) :
    StepKeeps system wasAdded capacity thread
      (addStep system.lru key payload grants (.insert slot slot)) := by
  obtain ⟨adds, noLock⟩ := good.adding isState
  obtain ⟨fh, nextMap, inserts, nextOk, becomes, -⟩ :=
    insertKey_new (good.split isHand) available isBound memory
  have steps :
      addStep system.lru key payload grants (.insert slot slot) =
        .ok
          ({ system.lru with
              fh := fh },
            .adding key payload (.link slot), .nothing) := by
    simp only [addStep, inserts, insertError_index, Checked.ok_bind]
  refine good.keeps isHand .nothing steps nextOk rfl becomes.same
    becomes.locks (.link key payload slot) noLock.symm adds ?_ ?_ trivial
    trivial
  · exact fun _ member => .inl member
  · intro card member
    left
    have places : card ∈ cachedCards recency (othersOf hands thread) := by
      simpa [cachedCards, Hand.cached] using member
    simp only [cachedCards, List.mem_append] at places ⊢
    rcases places with isListed | isHeld
    · exact .inl isListed
    · obtain ⟨hand, inHands, isCached⟩ := List.mem_filterMap.mp isHeld
      exact .inr (List.mem_filterMap.mpr
        ⟨hand, List.mem_cons_of_mem _ inHands, isCached⟩)

/-- Inserting the key of the new slot into the table. -/
theorem insert_keeps
    (good : system.Ok wasAdded capacity map recency free hands pool)
    {slot new : Nat}
    (isState :
      system.threads thread = .adding key payload (.insert slot new)) :
    StepKeeps system wasAdded capacity thread
      (addStep system.lru key payload grants (.insert slot new)) := by
  obtain ⟨hand, isHand, holds⟩ := good.hand isState
  cases holds with
  | insert =>
      have ok := good.split isHand
      have record :
          system.lru.payloads slot = Card.record ⟨slot, key, payload⟩ :=
        ok.records ⟨slot, key, payload⟩ (by simp [Hand.card])
      rcases good.locks.available_or (system.lru.fh.table.indexOf key) with
          available | isTaken
      · cases isBound : map key with
        | some object =>
            obtain ⟨fh, inserts, nextOk, becomes⟩ :=
              insertKey_bound ok available isBound grants.insert
            exact insert_refused_keeps good isState isHand inserts rfl nextOk
              becomes
        | none =>
            by_cases memory :
                grants.insert.bucket = true ∨
                  ¬ ChainFull
                    (system.lru.fh.table.hashTable
                      (system.lru.fh.table.indexOf key))
            · exact insert_accepted_keeps good isState isHand available isBound
                memory
            · obtain ⟨noBucket, full⟩ := not_or.mp memory
              obtain ⟨fh, inserts, nextOk, becomes⟩ :=
                insertKey_noBucket ok available isBound
                  (by simpa using noBucket) (not_not.mp full)
              exact insert_refused_keeps good isState isHand inserts rfl nextOk
                becomes
      · left
        have isBlocked :=
          fhInsert_blocked ok.stores.magic
            (good.locks.uses.wlock_taken isTaken)
            (some (recordBlock slot)) grants.insert
        simp only [addStep, insertKey, record, Card.record, KeyPointer.read,
          isBlocked, Checked.ok_bind, Checked.error_bind]

/-- Putting back a slot whose key the table refused. -/
theorem undo_keeps
    (good : system.Ok wasAdded capacity map recency free hands pool)
    {slot new : Nat}
    {code : Int}
    (isState :
      system.threads thread = .adding key payload (.undo slot new code)) :
    StepKeeps system wasAdded capacity thread
      (addStep system.lru key payload grants (.undo slot new code)) := by
  obtain ⟨-, noLock⟩ := good.adding isState
  obtain ⟨hand, isHand, holds⟩ := good.hand isState
  cases holds with
  | undo =>
      refine freeKeyAndSlot_keeps good isHand
        (.returned (.add key payload) ⟨code, none⟩) rfl rfl noLock ?_
        .idle trivial rfl (fun _ _ => trivial) trivial
      intro lru frees
      simp only [addStep, frees, Checked.ok_bind]

/-- Linking the new slot at the top of the list. -/
theorem link_keeps
    (good : system.Ok wasAdded capacity map recency free hands pool)
    {slot : Nat}
    (isState :
      system.threads thread = .adding key payload (.link slot)) :
    StepKeeps system wasAdded capacity thread
      (addStep system.lru key payload grants (.link slot)) := by
  obtain ⟨-, noLock⟩ := good.adding isState
  obtain ⟨hand, isHand, holds⟩ := good.hand isState
  cases holds with
  | link =>
      have ok := good.split isHand
      obtain ⟨nextOk, size⟩ := addToTop_inserted ok
      refine good.keeps_of_list isHand
        (.returned (.add key payload) ⟨lruOk, none⟩) rfl nextOk size rfl .idle
        noLock.symm trivial ?_ ?_ trivial trivial
      · intro card member
        left
        simpa [Hand.card, or_comm] using member
      · intro card member
        simpa [cachedCards, Hand.cached, or_left_comm] using member

/-- A step of `lru_add` keeps the invariant. -/
theorem addStep_keeps
    (good : system.Ok wasAdded capacity map recency free hands pool)
    {point : AddPoint}
    (isState : system.threads thread = .adding key payload point) :
    StepKeeps system wasAdded capacity thread
      (addStep system.lru key payload grants point) := by
  cases point with
  | take =>
      exact take_keeps good isState
  | evict =>
      exact evict_keeps good isState
  | delete slotToFree hashpayload =>
      exact addDelete_keeps good isState
  | free slotToFree hashpayload =>
      exact addFree_keeps good isState
  | fill slot new =>
      exact fill_keeps good isState
  | unfilled slot =>
      exact unfilled_keeps good isState
  | insert slot new =>
      exact insert_keeps good isState
  | undo slot new code =>
      exact undo_keeps good isState
  | link slot =>
      exact link_keeps good isState

end Adding

/-- A step that only takes or gives a lock, or begins a call. -/
theorem relock_moves
    (good : system.Ok wasAdded capacity map recency free hands pool)
    (isHand : hands thread = none)
    (locks : FhLocks)
    {state : ThreadState}
    (holds : Holds state none)
    (adds : AddOk wasAdded state) :
    Moves system wasAdded recency hands thread
      { system.lru with
        fh :=
          { system.lru.fh with
            locks := locks } }
      state map recency free none where
  ok := (good.split isHand).with_locks locks
  size := rfl
  same := .refl _
  holds := holds
  adds := adds
  added card member :=
    .inl (List.mem_append_left _ (by simpa using member))
  keeps card member := by
    left
    have inSplit := (mem_cachedCards (handsOf_split hands thread)).mp member
    rwa [isHand] at inSplit

section Checking

variable {key : CString}

/-- Searching for the key, and keeping the lock of its chain if it is found. -/
theorem search_keeps
    (good : system.Ok wasAdded capacity map recency free hands pool)
    (isState : system.threads thread = .checking key .search) :
    StepKeeps system wasAdded capacity thread
      (checkStep system.lru key .search) := by
  have noLock : (system.threads thread).lockedSlot = none := by
    rw [isState]
    rfl
  obtain ⟨hand, isHand, holds⟩ := good.hand isState
  cases holds with
  | check =>
      have ok := good.split isHand
      cases isTaken :
          pool
            (system.lru.fh.table.indexOf key % system.lru.fh.locks.nLock) with
      | true =>
          left
          have isBlocked :=
            fhSearchlock_blocked ok.stores.magic
              (good.locks.uses.wlock_taken isTaken)
          simp only [checkStep, searchKey, isBlocked, Checked.error_bind]
      | false =>
          cases isBound : map key with
          | none =>
              have available :
                  system.lru.fh.locks.Available
                    (system.lru.fh.table.indexOf key) :=
                ⟨pool, good.locks.uses, isTaken⟩
              have steps :
                  checkStep system.lru key .search =
                    .ok
                      (system.lru, .idle,
                        .returned (.check key)
                          ⟨lruElementNotFound, none⟩) := by
                simp only [checkStep, searchKey_unbound ok available isBound,
                  Checked.ok_bind]
                rfl
              refine good.keeps_of_list isHand _ steps ok rfl rfl .idle
                noLock.symm trivial (fun _ member => .inl member)
                (fun _ member => member) trivial ?_
              intro payload isPayload
              cases isPayload
          | some object =>
              obtain ⟨card, member, rfl, -⟩ := ok.exists_card isBound
              have searches :=
                searchKey_bound ok (good.locks.uses.wlock isTaken) member
              have steps :
                  checkStep system.lru card.key .search =
                    .ok
                      ({ system.lru with
                          fh :=
                            { system.lru.fh with
                              locks :=
                                system.lru.fh.locks.withPool
                                  (Function.update pool
                                    (system.lru.fh.table.indexOf card.key %
                                      system.lru.fh.locks.nLock)
                                    true) } },
                        .checking card.key
                          (.move card.slot
                            (some (system.lru.fh.table.indexOf card.key))),
                        .nothing) := by
                simp only [checkStep, searches, recordOf, recordBlock,
                  Checked.ok_bind]
              right
              refine ⟨_, _, _, steps, ?_, trivial⟩
              apply good.moved (relock_moves good isHand _ (.check _ _) trivial)
              · exact good.locks.take noLock rfl isTaken
              · exact ⟨rfl, card, member, rfl, rfl⟩

/-- Reading the payload of the record and moving its slot to the top. -/
theorem move_keeps
    (good : system.Ok wasAdded capacity map recency free hands pool)
    {pload : Nat}
    {fhslot : Option Nat}
    (isState : system.threads thread = .checking key (.move pload fhslot)) :
    StepKeeps system wasAdded capacity thread
      (checkStep system.lru key (.move pload fhslot)) := by
  have checks := good.checks thread
  rw [isState] at checks
  obtain ⟨isSlot, card, member, rfl, rfl⟩ := checks
  have sameLock :
      (system.threads thread).lockedSlot = fhslot := by
    rw [isState]
    rfl
  obtain ⟨hand, isHand, holds⟩ := good.hand isState
  cases holds with
  | check =>
      have ok := good.split isHand
      rw [mem_cachedCards (handsOf_split hands thread), isHand] at member
      have wasHanded : wasAdded card.key card.payload := by
        apply good.added card
        have whole :=
          ((handsOf_split hands thread).filterMap Hand.card).append_left
            recency
        rw [whole.mem_iff, isHand]
        exact mem_of_cached member
      rcases List.mem_append.mp member with isListed | isHeld
      · obtain ⟨front, back, rfl⟩ := List.append_of_mem isListed
        obtain ⟨ll, moves, nextOk, size⟩ := moveToTop_listed ok
        have steps :
            checkStep system.lru card.key (.move card.slot fhslot) =
              .ok
                ({ system.lru with
                    ll := ll },
                  .checking card.key (.release card.payload fhslot),
                  .nothing) := by
          simp only [checkStep, moves, Checked.ok_bind]
        refine good.keeps_of_list isHand .nothing steps nextOk size rfl
          (.check _ _) sameLock.symm trivial ?_ ?_ ⟨isSlot, wasHanded⟩ trivial
        · intro other isOther
          left
          simpa [or_left_comm] using isOther
        · intro other isOther
          simpa [cachedCards, or_left_comm, or_assoc] using isOther
      · obtain ⟨held, inHands, isCached⟩ := List.mem_filterMap.mp isHeld
        have moves := moveToTop_held ok inHands isCached
        have steps :
            checkStep system.lru card.key (.move card.slot fhslot) =
              .ok
                (system.lru,
                  .checking card.key (.release card.payload fhslot),
                  .nothing) := by
          simp only [checkStep, moves, Checked.ok_bind]
        exact good.keeps_of_list isHand .nothing steps ok rfl rfl
          (.check _ _) sameLock.symm trivial (fun _ isOther => .inl isOther)
          (fun _ isOther => isOther) ⟨isSlot, wasHanded⟩ trivial

/-- Releasing the lock of the chain. -/
theorem release_keeps
    (good : system.Ok wasAdded capacity map recency free hands pool)
    {payload : Nat}
    {fhslot : Option Nat}
    (isState :
      system.threads thread = .checking key (.release payload fhslot)) :
    StepKeeps system wasAdded capacity thread
      (checkStep system.lru key (.release payload fhslot)) := by
  have checks := good.checks thread
  rw [isState] at checks
  obtain ⟨rfl, wasHanded⟩ := checks
  have hasLock :
      (system.threads thread).lockedSlot =
        some (system.lru.fh.table.indexOf key) := by
    rw [isState]
    rfl
  obtain ⟨hand, isHand, holds⟩ := good.hand isState
  cases holds with
  | check =>
      have ok := good.split isHand
      have isTaken :=
        (good.locks.held _).mpr ⟨thread, _, hasLock, rfl⟩
      have releases := releaseKey_eq ok (good.locks.uses.unlock isTaken)
      have steps :
          checkStep system.lru key
              (.release payload (some (system.lru.fh.table.indexOf key))) =
            .ok
              ({ system.lru with
                  fh :=
                    { system.lru.fh with
                      locks :=
                        system.lru.fh.locks.withPool
                          (Function.update pool
                            (system.lru.fh.table.indexOf key %
                              system.lru.fh.locks.nLock)
                            false) } },
                .idle, .returned (.check key) ⟨lruOk, some payload⟩) := by
        simp only [checkStep, releases, Checked.ok_bind]
      right
      refine ⟨_, _, _, steps, ?_, ?_⟩
      · apply good.moved (relock_moves good isHand _ .idle trivial)
        · exact good.locks.give hasLock rfl
        · trivial
      · intro other isPayload
        cases isPayload
        exact wasHanded

/-- A step of `lru_check` keeps the invariant. -/
theorem checkStep_keeps
    (good : system.Ok wasAdded capacity map recency free hands pool)
    {point : CheckPoint}
    (isState : system.threads thread = .checking key point) :
    StepKeeps system wasAdded capacity thread
      (checkStep system.lru key point) := by
  cases point with
  | search =>
      exact search_keeps good isState
  | move pload fhslot =>
      exact move_keeps good isState
  | release payload fhslot =>
      exact release_keeps good isState

end Checking

/-- A step of `lru_clear` keeps the invariant. -/
theorem clearStep_keeps
    (good : system.Ok wasAdded capacity map recency free hands pool)
    {point : ClearPoint}
    (isState : system.threads thread = .clearing point) :
    StepKeeps system wasAdded capacity thread
      (clearStep system.lru point) := by
  have noLock : (system.threads thread).lockedSlot = none := by
    rw [isState]
    rfl
  obtain ⟨hand, isHand, holds⟩ := good.hand isState
  cases holds with
  | remove =>
      refine removeLast_keeps good isHand noLock
        (fun slot => .clearing (.delete slot slot))
        (.returned .clear ⟨lruOk, none⟩) ?_ ?_ .clearDelete
        (fun _ => trivial) (fun _ => rfl) (fun _ _ _ => trivial) rfl
      · intro removes
        simp only [clearStep, removes]
      · intro lru slot removes
        simp only [clearStep, removes]
  | clearDelete card =>
      refine delKey_keeps good isHand noLock ?_ ?_ (.clearFree card) trivial rfl
        fun _ _ => trivial
      · intro blocks
        simp only [clearStep, blocks, Checked.error_bind]
      · intro lru index deletes
        have noError : ¬ (index : Int) < 0 := by omega
        simp only [clearStep, deletes, noError, if_false, Checked.ok_bind]
  | clearFree card =>
      refine freeKeyAndSlot_keeps good isHand .nothing rfl rfl noLock ?_
        .remove trivial rfl (fun _ _ => trivial) trivial
      intro lru frees
      simp only [clearStep, frees, Checked.ok_bind]

/-- A step of a thread keeps the invariant. -/
theorem threadStep_keeps
    (good : system.Ok wasAdded capacity map recency free hands pool)
    (thread : Fin n)
    (grants : AddGrants) :
    StepKeeps system wasAdded capacity thread
      (threadStep system.lru grants (system.threads thread)) := by
  cases isState : system.threads thread with
  | idle =>
      right
      refine ⟨system.lru, .idle, .nothing, rfl, ?_, trivial⟩
      rw [← isState, Function.update_eq_self]
      exact ⟨map, recency, free, hands, pool, good⟩
  | adding key payload point =>
      exact addStep_keeps good isState
  | checking key point =>
      exact checkStep_keeps good isState
  | clearing point =>
      exact clearStep_keeps good isState

/-- The first step of a call keeps the invariant. -/
theorem start_keeps
    (good : system.Ok wasAdded capacity map recency free hands pool)
    (isIdle : system.threads thread = .idle)
    {call : LruCall}
    (adds : ∀ key payload, call = .add key payload → wasAdded key payload) :
    System.Good
      { system with
        threads := Function.update system.threads thread call.start }
      wasAdded capacity := by
  have noLock : (system.threads thread).lockedSlot = none := by
    rw [isIdle]
    rfl
  have startsFree : call.start.lockedSlot = none := by
    cases call with
    | check key =>
        rfl
    | add key payload =>
        rfl
    | clear =>
        rfl
  obtain ⟨hand, isHand, holds⟩ := good.hand isIdle
  cases holds with
  | idle =>
      have moves :
          Moves system wasAdded recency hands thread system.lru call.start
            map recency free none := by
        cases call with
        | check key =>
            exact relock_moves good isHand _ (.check key .search) trivial
        | add key payload =>
            exact relock_moves good isHand _ (.take key payload)
              (adds key payload rfl)
        | clear =>
            exact relock_moves good isHand _ .remove trivial
      apply good.moved moves
        (good.locks.move (startsFree.trans noLock.symm))
      cases call with
      | check key =>
          trivial
      | add key payload =>
          trivial
      | clear =>
          trivial

/-- A label whose call, if it adds, adds one of the given payloads. -/
def Label.Adds
    (wasAdded : CString → Nat → Prop) : Label n → Prop
  | .call _ (.add key payload) =>
      wasAdded key payload
  | _ =>
      True

/-- A step of the system keeps the invariant, and its event is sound. -/
theorem systemStep_keeps
    (good : system.Good wasAdded capacity)
    {label : Label n}
    (adds : label.Adds wasAdded) :
    ∃ next event,
      systemStep system label = .ok (next, event) ∧
        next.Good wasAdded capacity ∧
        event.Sound wasAdded := by
  obtain ⟨map, recency, free, hands, pool, ok⟩ := good
  have unchanged : system.Good wasAdded capacity :=
    ⟨map, recency, free, hands, pool, ok⟩
  cases label with
  | call thread call =>
      cases isState : system.threads thread with
      | idle =>
          have starts :
              systemStep system (.call thread call) =
                .ok
                  ({ system with
                      threads :=
                        Function.update system.threads thread call.start },
                    .nothing) := by
            simp only [systemStep, isState, ok.ok.magic, ne_eq,
              not_true_eq_false, if_false]
          refine ⟨_, _, starts, start_keeps ok isState ?_, trivial⟩
          rintro key payload rfl
          exact adds
      | adding key payload point =>
          exact ⟨system, .nothing, by simp only [systemStep, isState],
            unchanged, trivial⟩
      | checking key point =>
          exact ⟨system, .nothing, by simp only [systemStep, isState],
            unchanged, trivial⟩
      | clearing point =>
          exact ⟨system, .nothing, by simp only [systemStep, isState],
            unchanged, trivial⟩
  | step thread grants =>
      rcases threadStep_keeps ok thread grants with
          blocks | ⟨lru, state, event, steps, nextGood, sound⟩
      · exact ⟨system, .nothing, by simp only [systemStep, blocks],
          unchanged, trivial⟩
      · exact ⟨_, event, by simp only [systemStep, steps], nextGood, sound⟩

/-- A run of the system keeps the invariant, and its events are sound. -/
theorem systemRun_keeps
    (good : system.Good wasAdded capacity)
    {labels : List (Label n)}
    (adds : ∀ label ∈ labels, label.Adds wasAdded) :
    ∃ final events,
      runCalls systemStep system labels = .ok (final, events) ∧
        final.Good wasAdded capacity ∧
        ∀ event ∈ events, event.Sound wasAdded := by
  induction labels generalizing system with
  | nil =>
      exact ⟨system, [], rfl, good, fun _ member =>
        (List.not_mem_nil member).elim⟩
  | cons label labels inductionHypothesis =>
      rw [List.forall_mem_cons] at adds
      obtain ⟨next, event, steps, nextGood, sound⟩ :=
        systemStep_keeps good adds.1
      obtain ⟨final, events, runs, finalGood, allSound⟩ :=
        inductionHypothesis nextGood adds.2
      refine ⟨final, event :: events, ?_, finalGood,
        List.forall_mem_cons.mpr ⟨sound, allSound⟩⟩
      simp only [runCalls, steps, runs, Checked.ok_bind]

end Steps

/-- The table and the list agree, with the slots of the threads in hands. -/
structure System.Agrees
    {n : Nat}
    (system : System n)
    (capacity : Nat)
    (map : CString → Option (Option OpaqueObj))
    (listed free : List Nat) : Prop where
  /-- Each slot is listed, free or in the hands of one thread. -/
  places :
    (listed ++ free ++ collect ThreadState.slot system.threads).Perm
      (List.range capacity)
  linked :
    system.lru.ll.Ok listed free (collect ThreadState.slot system.threads)
  stores : system.lru.fh.Stores map
  /-- A key is mapped to the record of a slot that holds it. -/
  mapped :
    ∀ key object,
      map key = some object →
      ∃ slot,
        object = some (.pointer (recordBlock slot)) ∧
          (system.lru.payloads slot).fhKey = .allocated key ∧
          (slot ∈ listed ∨
            ∃ thread, (system.threads thread).slot = some slot)
  /-- The key of a listed slot is mapped to its record. -/
  listedMapped :
    ∀ slot ∈ listed,
      ∃ key,
        (system.lru.payloads slot).fhKey = .allocated key ∧
          map key = some (some (.pointer (recordBlock slot)))
  atMost :
    ∀ keys : List CString,
      keys.Nodup →
      (∀ key ∈ keys, map key ≠ none) →
      keys.length ≤ capacity
  /-- The slot a search is about to move still holds the searched key. -/
  moves :
    ∀ thread key pload fhslot,
      system.threads thread = .checking key (.move pload fhslot) →
      system.lru.payloads pload =
          { payload := (system.lru.payloads pload).payload
            llSlot := some pload
            fhKey := .allocated key } ∧
        pload ∉ free
  /-- The locks that are taken are held by threads inside `lru_check`. -/
  locks : ∃ pool, LocksHeld system.lru.fh.locks pool system.threads

section Agrees

variable {n : Nat}
  {system : System n}
  {wasAdded : CString → Nat → Prop}
  {capacity : Nat}
  {map : CString → Option (Option OpaqueObj)}
  {recency : List Card}
  {free : List Nat}
  {hands : Fin n → Option Hand}
  {pool : LockPool}

/-- The slot in the hands of a thread is the one its place says. -/
theorem Holds.slot
    {state : ThreadState}
    {hand : Option Hand}
    (holds : Holds state hand) :
    hand.map Hand.slot = state.slot := by
  cases holds with
  | check key point =>
      cases point with
      | search =>
          rfl
      | move pload fhslot =>
          rfl
      | release payload fhslot =>
          rfl
  | _ =>
      rfl

/-- The slots in hands are those the places of the threads say. -/
theorem System.Ok.slots
    (good : system.Ok wasAdded capacity map recency free hands pool) :
    (handsOf hands).map Hand.slot =
      collect ThreadState.slot system.threads := by
  rw [handsOf, collect, collect, List.map_filterMap]
  apply List.filterMap_congr
  intro thread _
  exact (good.holds thread).slot

/-- A card that is cached is listed or in hands. -/
theorem System.Ok.place
    (good : system.Ok wasAdded capacity map recency free hands pool)
    {card : Card}
    (member : card ∈ cachedCards recency (handsOf hands)) :
    card.slot ∈ recency.map Card.slot ∨
      card.slot ∈ collect ThreadState.slot system.threads := by
  rcases List.mem_append.mp member with isListed | isHeld
  · exact .inl (List.mem_map_of_mem isListed)
  · right
    obtain ⟨hand, inHands, isCached⟩ := List.mem_filterMap.mp isHeld
    have sameSlot : hand.slot = card.slot := by
      cases hand with
      | inserted held =>
          cases isCached
          rfl
      | removed held =>
          cases isCached
          rfl
      | _ =>
          cases isCached
    rw [← good.slots, ← sameSlot]
    exact List.mem_map_of_mem inHands

/-- The invariant is the agreement. -/
theorem System.Ok.agrees
    (good : system.Ok wasAdded capacity map recency free hands pool) :
    system.Agrees capacity map (recency.map Card.slot) free := by
  have llOk := good.ok.ll
  rw [good.slots] at llOk
  exact {
    places := by
      rw [← good.size]
      exact llOk.partition
    linked := llOk
    stores := good.ok.stores
    mapped := by
      intro key object bound
      obtain ⟨card, member, rfl, isObject⟩ := good.ok.exists_card bound
      have record := good.ok.record member
      refine ⟨card.slot, isObject, by rw [record]; rfl, ?_⟩
      rcases good.place member with isListed | isHeld
      · exact .inl isListed
      · right
        obtain ⟨thread, -, isSlot⟩ := List.mem_filterMap.mp isHeld
        exact ⟨thread, isSlot⟩
    listedMapped := by
      intro slot isListed
      obtain ⟨card, member, rfl⟩ := List.mem_map.mp isListed
      have isCached : card ∈ cachedCards recency (handsOf hands) :=
        List.mem_append_left _ member
      refine ⟨card.key, ?_, good.ok.bound isCached⟩
      rw [good.ok.record isCached]
      rfl
    atMost := by
      intro keys distinct areBound
      have inside :
          keys ⊆ (cachedCards recency (handsOf hands)).map Card.key := by
        intro key member
        obtain ⟨object, bound⟩ :=
          Option.ne_none_iff_exists'.mp (areBound key member)
        obtain ⟨card, isCached, rfl, -⟩ := good.ok.exists_card bound
        exact List.mem_map_of_mem isCached
      have fewer := (List.subperm_of_subset distinct inside).length_le
      rw [List.length_map] at fewer
      exact fewer.trans (good.size ▸ good.ok.cached_le)
    moves := by
      intro thread key pload fhslot isState
      have checks := good.checks thread
      rw [isState] at checks
      obtain ⟨-, card, isCached, rfl, rfl⟩ := checks
      have record := good.ok.record isCached
      refine ⟨by rw [record]; rfl, ?_⟩
      rcases good.place isCached with isListed | isHeld
      · exact (llOk.listed_apart isListed).1
      · exact (llOk.held_apart isHeld).2
    locks := ⟨pool, good.locks⟩ }

/-- A new cache and its idle threads satisfy the invariant. -/
theorem start_good
    {dim : Int32}
    {hashFunction : CString → UInt64}
    {grants : LruGrants}
    {lru : LruT}
    (created : lruCreate dim hashFunction grants = .ok (some lru))
    (n : Nat)
    (wasAdded : CString → Nat → Prop) :
    (start n lru).Good wasAdded dim.toInt.toNat := by
  obtain ⟨ok, locks, size, -⟩ := lruCreate_ok created
  have noHands : handsOf (fun _ : Fin n => none) = [] := by
    simp [handsOf, collect]
  refine ⟨fun _ => none, [], List.range dim.toInt.toNat, fun _ => none,
    fun _ => false, ?_⟩
  exact {
    ok := by
      rw [noHands]
      exact ok
    size := size
    holds := fun _ => .idle
    added := by
      rw [noHands]
      exact fun _ member => (List.not_mem_nil member).elim
    adds := fun _ => trivial
    locks := {
      uses := locks
      held := by
        intro lock
        refine iff_of_false (by decide) ?_
        rintro ⟨thread, slot, isLocked, -⟩
        cases isLocked
      alone := by
        intro first second firstSlot secondSlot isLocked
        cases isLocked }
    checks := fun _ => trivial }

end Agrees

/--
However the threads interleave, and whichever allocations fail, no step faults,
the table and the list agree in the state reached, every deletion of an eviction
or a clear succeeds, and a search returns a payload added for its key.
-/
theorem lru_agrees_under_concurrency
    {dim : Int32}
    {hashFunction : CString → UInt64}
    {grants : LruGrants}
    {lru : LruT}
    (created : lruCreate dim hashFunction grants = .ok (some lru))
    (n : Nat)
    (labels : List (Label n)) :
    ∃ final events,
      runCalls systemStep (start n lru) labels = .ok (final, events) ∧
        (∃ map listed free,
          final.Agrees dim.toInt.toNat map listed free) ∧
        ∀ event ∈ events,
          event.Sound fun key payload =>
            ∃ thread, Label.call thread (.add key payload) ∈ labels := by
  have adds :
      ∀ label ∈ labels,
        label.Adds fun key payload =>
          ∃ thread, Label.call thread (.add key payload) ∈ labels := by
    intro label member
    cases label with
    | call thread call =>
        cases call with
        | add key payload =>
            exact ⟨thread, member⟩
        | check key =>
            trivial
        | clear =>
            trivial
    | step thread grants =>
        trivial
  obtain ⟨final, events, runs, good, sound⟩ :=
    systemRun_keeps (start_good created n _) adds
  obtain ⟨map, recency, free, hands, pool, ok⟩ := good
  exact ⟨final, events, runs, ⟨map, _, free, ok.agrees⟩, sound⟩

/-- Two threads add keys to a cache with one slot, in turns. -/
theorem lru_agrees_under_concurrency_turns :
    ∃ lru final events,
      lruCreate 1 (fun _ => 7) .all = .ok (some lru) ∧
        runCalls systemStep (start 2 lru)
            [.call 0 (.add ⟨[97], by decide⟩ 1),
              .call 1 (.add ⟨[98], by decide⟩ 2),
              .step 0 .all, .step 1 .all, .step 0 .all, .step 1 .all] =
          .ok (final, events) ∧
        ∃ map listed free, final.Agrees 1 map listed free := by
  have creates :
      ∃ lru, lruCreate 1 (fun _ => 7) .all = .ok (some lru) := ⟨_, rfl⟩
  obtain ⟨lru, created⟩ := creates
  obtain ⟨final, events, runs, agrees, -⟩ :=
    lru_agrees_under_concurrency created 2
      [.call 0 (.add ⟨[97], by decide⟩ 1),
        .call 1 (.add ⟨[98], by decide⟩ 2),
        .step 0 .all, .step 1 .all, .step 0 .all, .step 1 .all]
  exact ⟨lru, final, events, created, runs, agrees⟩

end Clibs.Lru
