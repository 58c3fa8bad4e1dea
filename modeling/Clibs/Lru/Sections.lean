import Clibs.Lru.Interleaving
import Clibs.Lru.Locks
import Clibs.Lru.Moves

namespace Clibs.Lru

open Fh Ll

/-!
# A section does what the whole call does

When the lock that a call needs is available, the call as one step and its
section leave the same list, the same table and the same records; they differ in
the locks and in the element counter only.  Neither touches the record of a slot
in another thread's hands.
-/

/-- The cache with other locks taken and another number of elements. -/
def LruT.refit
    (lru : LruT)
    (hElements : Int)
    (locks : FhLocks) : LruT :=
  { lru with
    fh :=
      { lru.fh with
        hElements := hElements
        locks := locks } }

/-- The next call of the thread is one of the table. -/
def ThreadState.callsTable : ThreadState → Bool
  | .adding _ _ (.delete _ _) =>
      true
  | .adding _ _ (.insert _ _) =>
      true
  | .checking _ .search =>
      true
  | .checking _ (.release _ _) =>
      true
  | .clearing (.delete _ _) =>
      true
  | _ =>
      false

/-- The record of the slot in the hands of a thread, where it is used. -/
def ThreadState.record : ThreadState → Option Nat
  | .adding _ _ point =>
      match point with
      | .delete _ hashpayload =>
          some hashpayload
      | .free _ hashpayload =>
          some hashpayload
      | .fill _ new =>
          some new
      | .insert _ new =>
          some new
      | .undo _ new _ =>
          some new
      | _ =>
          none
  | .clearing (.delete _ hashpayload) =>
      some hashpayload
  | .clearing (.free _ hashpayload) =>
      some hashpayload
  | _ =>
      none

section Lists

variable {lru next : LruT}
  {grants : AddGrants}
  {state after : ThreadState}
  {event : LruEvent}

/-- Taking a slot looks at the list only. -/
theorem slotNew_refit
    (lru : LruT)
    (hElements : Int)
    (locks : FhLocks) :
    slotNew (lru.refit hElements locks) =
      ((slotNew lru).1.refit hElements locks, (slotNew lru).2) :=
  rfl

/-- Removing a slot looks at the list only. -/
theorem removeLast_refit
    (lru : LruT)
    (hElements : Int)
    (locks : FhLocks) :
    removeLast (lru.refit hElements locks) =
      ((removeLast lru).1.refit hElements locks, (removeLast lru).2) :=
  rfl

/-- Freeing a slot looks at the list and at the records only. -/
theorem freeKeyAndSlot_refit
    {hashpayload slot : Nat}
    (frees : freeKeyAndSlot lru hashpayload slot = .ok next)
    (hElements : Int)
    (locks : FhLocks) :
    freeKeyAndSlot (lru.refit hElements locks) hashpayload slot =
        .ok (next.refit hElements locks) ∧
      next.fh = lru.fh ∧
      ∀ other, other ≠ hashpayload → next.payloads other = lru.payloads other := by
  obtain ⟨fhKey, freed, same⟩ := Checked.bind_eq_ok.mp frees
  cases same
  refine ⟨?_, rfl, fun other isOther => Function.update_of_ne isOther ..⟩
  simp only [freeKeyAndSlot, LruT.refit, freed, Checked.ok_bind]

/-- Moving a slot to the top looks at the list and at the records only. -/
theorem moveToTop_refit
    {pload payload : Nat}
    (moves : moveToTop lru pload = .ok (next, payload))
    (hElements : Int)
    (locks : FhLocks) :
    moveToTop (lru.refit hElements locks) pload =
        .ok (next.refit hElements locks, payload) ∧
      next.fh = lru.fh ∧
      next.payloads = lru.payloads := by
  unfold moveToTop at moves
  split at moves
  next =>
    cases moves
  next slot isSlot =>
    cases moves
    refine ⟨?_, rfl, rfl⟩
    simp only [moveToTop, LruT.refit, isSlot]

/-- A step that calls no function of the table uses nothing of it. -/
structure LeavesTable
    (lru : LruT)
    (grants : AddGrants)
    (state : ThreadState)
    (next : LruT)
    (after : ThreadState)
    (event : LruEvent) : Prop where
  steps :
    ∀ hElements locks,
      threadStep (lru.refit hElements locks) grants state =
        .ok (next.refit hElements locks, after, event)
  fh : next.fh = lru.fh
  lockedSlot : after.lockedSlot = state.lockedSlot
  others :
    ∀ other, state.record ≠ some other → next.payloads other = lru.payloads other

/-- A step that frees a key and a slot. -/
theorem frees_leavesTable
    {hashpayload slot : Nat}
    (frees : freeKeyAndSlot lru hashpayload slot = .ok next)
    (isRecord : state.record = some hashpayload)
    (lockedSlot : after.lockedSlot = state.lockedSlot)
    (steps :
      ∀ refit : LruT,
        threadStep refit grants state =
          freeKeyAndSlot refit hashpayload slot >>= fun made =>
            .ok (made, after, event)) :
    LeavesTable lru grants state next after event where
  steps hElements locks := by
    obtain ⟨freesToo, -, -⟩ := freeKeyAndSlot_refit frees hElements locks
    rw [steps, freesToo, Checked.ok_bind]
  fh := (freeKeyAndSlot_refit frees 0 lru.fh.locks).2.1
  lockedSlot := lockedSlot
  others other isOther := by
    apply (freeKeyAndSlot_refit frees 0 lru.fh.locks).2.2
    rintro rfl
    exact isOther isRecord

/-- A step that calls no function of the table. -/
theorem threadStep_leavesTable
    (noTable : state.callsTable = false)
    (steps : threadStep lru grants state = .ok (next, after, event)) :
    LeavesTable lru grants state next after event := by
  cases threadStep_move steps with
  | idle =>
      exact ⟨fun _ _ => rfl, rfl, rfl, fun _ _ => rfl⟩
  | takes takes =>
      refine ⟨fun hElements locks => ?_, congrArg (·.1.fh) takes.symm, rfl,
        fun other _ => congrArg (·.1.payloads other) takes.symm⟩
      simp only [threadStep, addStep, slotNew_refit, takes]
  | takesNone takes =>
      refine ⟨fun hElements locks => ?_, congrArg (·.1.fh) takes.symm, rfl,
        fun other _ => congrArg (·.1.payloads other) takes.symm⟩
      simp only [threadStep, addStep, slotNew_refit, takes]
  | evicts removes =>
      refine ⟨fun hElements locks => ?_, congrArg (·.1.fh) removes.symm, rfl,
        fun other _ => congrArg (·.1.payloads other) removes.symm⟩
      simp only [threadStep, addStep, removeLast_refit, removes]
  | evictsNone removes =>
      refine ⟨fun hElements locks => ?_, congrArg (·.1.fh) removes.symm, rfl,
        fun other _ => congrArg (·.1.payloads other) removes.symm⟩
      simp only [threadStep, addStep, removeLast_refit, removes]
  | frees frees =>
      exact frees_leavesTable frees rfl rfl fun _ => rfl
  | fills granted =>
      refine ⟨fun hElements locks => ?_, rfl, rfl, fun other isOther => ?_⟩
      · rw [threadStep, addStep, granted]
        rfl
      · apply Function.update_of_ne
        rintro rfl
        exact isOther rfl
  | fillsNot refused =>
      refine ⟨fun hElements locks => ?_, rfl, rfl, fun other isOther => ?_⟩
      · rw [threadStep, addStep, refused]
        rfl
      · apply Function.update_of_ne
        rintro rfl
        exact isOther rfl
  | gives =>
      exact ⟨fun _ _ => rfl, rfl, rfl, fun _ _ => rfl⟩
  | undoes frees =>
      exact frees_leavesTable frees rfl rfl fun _ => rfl
  | links =>
      exact ⟨fun _ _ => rfl, rfl, rfl, fun _ _ => rfl⟩
  | moves moves =>
      refine ⟨fun hElements locks => ?_, ?_, rfl, fun other _ => ?_⟩
      · obtain ⟨movesToo, -, -⟩ := moveToTop_refit moves hElements locks
        simp only [threadStep, checkStep, movesToo, Checked.ok_bind]
      · exact (moveToTop_refit moves 0 lru.fh.locks).2.1
      · rw [(moveToTop_refit moves 0 lru.fh.locks).2.2]
  | removes removes =>
      refine ⟨fun hElements locks => ?_, congrArg (·.1.fh) removes.symm, rfl,
        fun other _ => congrArg (·.1.payloads other) removes.symm⟩
      simp only [threadStep, clearStep, removeLast_refit, removes]
  | removesNone removes =>
      refine ⟨fun hElements locks => ?_, congrArg (·.1.fh) removes.symm, rfl,
        fun other _ => congrArg (·.1.payloads other) removes.symm⟩
      simp only [threadStep, clearStep, removeLast_refit, removes]
  | clearFrees frees =>
      exact frees_leavesTable frees rfl rfl fun _ => rfl
  | _ =>
      cases noTable

/-- Freeing a key and a slot waits for no lock. -/
theorem freeKeyAndSlot_notBlocked
    (lru : LruT)
    (hashpayload slot : Nat) :
    freeKeyAndSlot lru hashpayload slot ≠ .error .lockAlreadyHeld := by
  cases isKey : (lru.payloads hashpayload).fhKey with
  | _ =>
      simp [freeKeyAndSlot, isKey, KeyPointer.free]

/-- A step that calls no function of the table waits for no lock of it. -/
theorem threadStep_notBlocked
    (lru : LruT)
    (grants : AddGrants)
    (noTable : state.callsTable = false) :
    threadStep lru grants state ≠ .error .lockAlreadyHeld := by
  have frees :
      ∀ (hashpayload slot : Nat) (rest : LruT → Step),
        (freeKeyAndSlot lru hashpayload slot >>= fun made =>
            Except.ok (rest made)) ≠
          .error .lockAlreadyHeld := by
    intro hashpayload slot rest
    have notBlocked := freeKeyAndSlot_notBlocked lru hashpayload slot
    cases freed : freeKeyAndSlot lru hashpayload slot with
    | ok made =>
        exact Checked.ok_ne_error
    | error fault =>
        rw [freed] at notBlocked
        rw [Checked.error_bind]
        simpa using notBlocked
  cases state with
  | idle =>
      exact Checked.ok_ne_error
  | adding key payload point =>
      cases point with
      | take =>
          rw [threadStep, addStep]
          split <;> exact Checked.ok_ne_error
      | evict =>
          rw [threadStep, addStep]
          split <;> exact Checked.ok_ne_error
      | delete slotToFree hashpayload =>
          cases noTable
      | free slotToFree hashpayload =>
          exact frees hashpayload slotToFree _
      | fill slot new =>
          exact Checked.ok_ne_error
      | unfilled slot =>
          exact Checked.ok_ne_error
      | insert slot new =>
          cases noTable
      | undo slot new code =>
          exact frees new slot _
      | link slot =>
          exact Checked.ok_ne_error
  | checking key point =>
      cases point with
      | search =>
          cases noTable
      | move pload fhslot =>
          cases isSlot : (lru.payloads pload).llSlot with
          | none =>
              simp [threadStep, checkStep, moveToTop, isSlot]
          | some slot =>
              simp [threadStep, checkStep, moveToTop, isSlot]
      | release payload fhslot =>
          cases noTable
  | clearing point =>
      cases point with
      | remove =>
          rw [threadStep, clearStep]
          split <;> exact Checked.ok_ne_error
      | delete removed hashpayload =>
          cases noTable
      | free removed hashpayload =>
          exact frees hashpayload removed _

end Lists

section Tables

variable {lru next : LruT}

/-- The section of a deletion does what `fh_del` does. -/
theorem delKey_section
    {hashpayload : Nat}
    {code : Int}
    (deletes : delKey lru hashpayload = .ok (next, code))
    (hElements : Int)
    (locks : FhLocks) :
    delSection (lru.refit hElements locks) hashpayload =
      .ok (next.refit hElements locks, code) := by
  obtain ⟨key, reads, rest⟩ := Checked.bind_eq_ok.mp deletes
  obtain ⟨⟨fh, made⟩, deleted, same⟩ := Checked.bind_eq_ok.mp rest
  cases same
  unfold fhDel at deleted
  by_cases magic : lru.fh.hMagic = fhMagicId
  · rw [if_neg (not_not.mpr magic)] at deleted
    cases key with
    | none =>
        cases deleted
        simp [delSection, LruT.refit, reads, magic]
    | some key =>
        obtain ⟨held, -, unlocks⟩ := Checked.bind_eq_ok.mp deleted
        obtain ⟨⟨table, found⟩, removes, rest⟩ := Checked.bind_eq_ok.mp unlocks
        obtain ⟨given, -, same⟩ := Checked.bind_eq_ok.mp rest
        have removesToo :
            fhDelUnlocked lru.fh.table key (lru.fh.table.indexOf key)
                (makeMinihash (lru.fh.table.hashFunction key)) =
              .ok (table, found) := removes
        have isFound : found = code := by
          unfold countDeletion at same
          split at same <;> cases same <;> rfl
        have sameTable : fh.hMagic = lru.fh.hMagic ∧ fh.table = table := by
          unfold countDeletion at same
          split at same <;> cases same <;> exact ⟨rfl, rfl⟩
        simp [delSection, LruT.refit, reads, magic, removesToo, isFound,
          sameTable]
  · rw [if_pos magic] at deleted
    cases deleted
    simp [delSection, LruT.refit, reads, magic]

/-- The section of an insertion does what `fh_insert` does. -/
theorem insertKey_section
    {new : Nat}
    {grants : InsertGrants}
    {code : Int}
    (inserts : insertKey lru new grants = .ok (next, code))
    (hElements : Int)
    (locks : FhLocks) :
    ∃ use,
      insertSection (lru.refit hElements locks) new grants =
        .ok (next.refit hElements locks, use, code) := by
  obtain ⟨key, reads, rest⟩ := Checked.bind_eq_ok.mp inserts
  obtain ⟨⟨fh, made⟩, inserted, same⟩ := Checked.bind_eq_ok.mp rest
  cases same
  unfold fhInsert at inserted
  by_cases magic : lru.fh.hMagic = fhMagicId
  · rw [if_neg (not_not.mpr magic)] at inserted
    cases key with
    | none =>
        cases inserted
        exact ⟨none, by simp [insertSection, LruT.refit, reads, magic]⟩
    | some key =>
        obtain ⟨held, -, unlocks⟩ := Checked.bind_eq_ok.mp inserted
        obtain ⟨⟨table, found⟩, fills, rest⟩ := Checked.bind_eq_ok.mp unlocks
        obtain ⟨given, -, same⟩ := Checked.bind_eq_ok.mp rest
        cases found with
        | error refusal =>
            cases same
            exact ⟨none, by
              simp [insertSection, LruT.refit, reads, magic, fills]⟩
        | ok address =>
            cases same
            exact ⟨some (.change .incElem), by
              simp [insertSection, LruT.refit, reads, magic, fills,
                FhTable.indexOf]⟩
  · rw [if_pos magic] at inserted
    cases inserted
    exact ⟨none, by simp [insertSection, LruT.refit, reads, magic]⟩

/-- The section of a search finds what `fh_searchlock` finds. -/
theorem searchKey_section
    {key : CString}
    {found : LockedResult}
    (searches : searchKey lru key = .ok (next, found))
    (hElements : Int)
    (locks : FhLocks) :
    searchSection (lru.refit hElements locks) key = .ok found ∧
      next.refit hElements locks = lru.refit hElements locks := by
  obtain ⟨⟨fh, made⟩, searched, same⟩ := Checked.bind_eq_ok.mp searches
  cases same
  unfold fhSearchlock at searched
  by_cases magic : lru.fh.hMagic = fhMagicId
  · rw [if_neg (not_not.mpr magic)] at searched
    obtain ⟨held, -, rest⟩ := Checked.bind_eq_ok.mp searched
    obtain ⟨slot, finds, rest⟩ := Checked.bind_eq_ok.mp rest
    cases slot with
    | none =>
        obtain ⟨given, -, same⟩ := Checked.bind_eq_ok.mp rest
        cases same
        refine ⟨?_, rfl⟩
        simp [searchSection, LruT.refit, magic, finds]
    | some slot =>
        cases rest
        refine ⟨?_, rfl⟩
        simp [searchSection, LruT.refit, magic, finds, FhTable.indexOf]
  · rw [if_pos magic] at searched
    cases searched
    refine ⟨?_, rfl⟩
    simp [searchSection, LruT.refit, magic]

end Tables

section Entries

variable {lru next : LruT}
  {grants : AddGrants}
  {state after : ThreadState}
  {event : LruEvent}

/-- A key is looked up in the chain that its hash says. -/
theorem keyEntry_allocated
    (magic : lru.fh.hMagic = fhMagicId)
    (key : CString) :
    keyEntry lru (.allocated key) =
      .ok (some (.chain (lru.fh.table.indexOf key))) := by
  simp [keyEntry, KeyPointer.read, magic]

/-- Only a thread that holds no lock of a chain takes one. -/
theorem entry_chain
    {slot : Nat}
    (enters : state.entry lru = .ok (some (.chain slot))) :
    state.lockedSlot = none := by
  cases state with
  | checking key point =>
      cases point with
      | search =>
          rfl
      | move pload fhslot =>
          cases enters
      | release payload fhslot =>
          cases enters
  | _ =>
      rfl

/-- Where a thread enters depends on its record and on the table's settings. -/
theorem entry_congr
    (magic : next.fh.hMagic = lru.fh.hMagic)
    (same : next.fh.table.SameSettings lru.fh.table)
    (records :
      ∀ slot, state.record = some slot → next.payloads slot = lru.payloads slot) :
    state.entry next = state.entry lru := by
  have sameEntry : ∀ key, keyEntry next key = keyEntry lru key := by
    intro key
    simp only [keyEntry, magic, same.indexOf]
  cases state with
  | idle =>
      rfl
  | adding key payload point =>
      cases point with
      | delete slotToFree hashpayload =>
          simp only [ThreadState.entry, records hashpayload rfl, sameEntry]
      | insert slot new =>
          simp only [ThreadState.entry, records new rfl, sameEntry]
      | _ =>
          rfl
  | checking key point =>
      cases point with
      | search =>
          exact sameEntry _
      | _ =>
          rfl
  | clearing point =>
      cases point with
      | delete removed hashpayload =>
          simp only [ThreadState.entry, records hashpayload rfl, sameEntry]
      | _ =>
          rfl

/-- The locks and the counter do not matter for where a thread enters. -/
theorem entry_refit
    (lru : LruT)
    (hElements : Int)
    (locks : FhLocks) :
    state.entry (lru.refit hElements locks) = state.entry lru :=
  entry_congr rfl (.refl _) fun _ _ => rfl

/-- The section of a call that uses nothing of the table is the whole call. -/
theorem runSection_eq
    (noTable : state.callsTable = false)
    (steps : threadStep lru grants state = .ok (next, after, event)) :
    runSection lru grants state =
      .ok
        { lru := next
          keepsLock := false
          use := none
          after := after
          event := event } := by
  have isCall :
      runSection lru grants state =
        (threadStep lru grants state >>= fun made =>
          Except.ok
            { lru := made.1
              keepsLock := false
              use := none
              after := made.2.1
              event := made.2.2 }) := by
    cases state with
    | idle =>
        rfl
    | adding key payload point =>
        cases point with
        | delete slotToFree hashpayload =>
            cases noTable
        | insert slot new =>
            cases noTable
        | _ =>
            rfl
    | checking key point =>
        cases point with
        | search =>
            cases noTable
        | _ =>
            rfl
    | clearing point =>
        cases point with
        | delete removed hashpayload =>
            cases noTable
        | _ =>
            rfl
  rw [isCall, steps, Checked.ok_bind]

end Entries

/-- The section of a thread does what its whole call does. -/
structure SectionDone
    (lru : LruT)
    (grants : AddGrants)
    (state : ThreadState)
    (next : LruT)
    (after : ThreadState)
    (event : LruEvent) : Prop where
  steps : threadStep lru grants state = .ok (next, after, event)
  runs :
    ∀ hElements locks,
      ∃ done,
        runSection (lru.refit hElements locks) grants state = .ok done ∧
          done.lru = next.refit hElements locks ∧
          done.after = after ∧
          done.event = event ∧
          (done.keepsLock = true →
            ∃ slot,
              state.entry lru = .ok (some (.chain slot)) ∧
                after.lockedSlot = some slot) ∧
          (done.keepsLock = false → after.lockedSlot = state.lockedSlot)
  nLock : next.fh.locks.nLock = lru.fh.locks.nLock
  hMagic : next.fh.hMagic = lru.fh.hMagic
  same : next.fh.table.SameSettings lru.fh.table
  others :
    ∀ other, state.record ≠ some other → next.payloads other = lru.payloads other

section Sections

variable {n : Nat}
  {system : System n}
  {wasAdded : CString → Nat → Prop}
  {capacity : Nat}
  {map : CString → Option (Option OpaqueObj)}
  {recency : List Card}
  {free : List Nat}
  {hands : Fin n → Option Hand}
  {pool : LockPool}
  {thread : Fin n}

/-- A section that uses nothing of the table. -/
theorem list_done
    (good : system.Ok wasAdded capacity map recency free hands pool)
    (thread : Fin n)
    (noTable : (system.threads thread).callsTable = false)
    (grants : AddGrants) :
    ∃ next after event,
      SectionDone system.lru grants (system.threads thread) next after
        event := by
  rcases threadStep_keeps good thread grants with
      blocks | ⟨next, after, event, steps, -, -⟩
  · exact (threadStep_notBlocked system.lru grants noTable blocks).elim
  · have leaves := threadStep_leavesTable noTable steps
    refine ⟨next, after, event, steps, ?_, ?_, ?_, ?_, leaves.others⟩
    · intro hElements locks
      exact ⟨_, runSection_eq noTable (leaves.steps hElements locks), rfl, rfl,
        rfl, nofun, fun _ => leaves.lockedSlot⟩
    · rw [leaves.fh]
    · rw [leaves.fh]
    · rw [leaves.fh]
      exact .refl _

/-- The section of the deletion of the key of a removed card. -/
theorem delete_done
    (good : system.Ok wasAdded capacity map recency free hands pool)
    {card : Card}
    (isHand : hands thread = some (.removed card))
    {grants : AddGrants}
    {state : ThreadState}
    (after : ThreadState)
    (enters :
      state.entry system.lru =
        keyEntry system.lru (system.lru.payloads card.slot).fhKey)
    (available :
      ∀ slot,
        state.entry system.lru = .ok (some (.chain slot)) →
        system.lru.fh.locks.Available slot)
    (steps :
      ∀ lru (index : Nat),
        delKey system.lru card.slot = .ok (lru, index) →
          threadStep system.lru grants state =
            .ok (lru, after, .deleted index))
    (runs :
      ∀ hElements locks lru (index : Nat),
        delSection (system.lru.refit hElements locks) card.slot =
            .ok (lru, index) →
          ∃ use,
            runSection (system.lru.refit hElements locks) grants state =
              .ok
                { lru := lru
                  keepsLock := false
                  use := use
                  after := after
                  event := .deleted index })
    (sameLock : after.lockedSlot = state.lockedSlot) :
    ∃ next after event,
      SectionDone system.lru grants state next after event := by
  have ok := good.split isHand
  have record : system.lru.payloads card.slot = card.record :=
    ok.records card (by simp [Hand.card])
  have entersChain :
      state.entry system.lru =
        .ok (some (.chain (system.lru.fh.table.indexOf card.key))) := by
    rw [enters, record]
    exact keyEntry_allocated ok.stores.magic card.key
  obtain ⟨fh, deletes, -, becomes⟩ :=
    delKey_removed ok (available _ entersChain)
  refine ⟨_, _, _, steps _ _ deletes, ?_, ?_, ?_, becomes.same, fun _ _ => rfl⟩
  · intro hElements locks
    obtain ⟨use, done⟩ :=
      runs hElements locks _ _ (delKey_section deletes hElements locks)
    exact ⟨_, done, rfl, rfl, rfl,
      fun keeps => absurd keeps Bool.false_ne_true, fun _ => sameLock⟩
  · exact congrArg FhLocks.nLock becomes.locks
  · exact becomes.stores.magic.trans ok.stores.magic.symm

/-- Where `lru_add` goes on after its insertion, which may have failed. -/
def afterInsert
    (key : CString)
    (payload slot : Nat) : Option Int → ThreadState
  | some code =>
      .adding key payload (.undo slot slot code)
  | none =>
      .adding key payload (.link slot)

/-- The section of the insertion of the key of a new slot. -/
theorem insert_done
    (good : system.Ok wasAdded capacity map recency free hands pool)
    {key : CString}
    {payload slot new : Nat}
    (isState :
      system.threads thread = .adding key payload (.insert slot new))
    (available :
      ∀ chain,
        ThreadState.entry system.lru
            (.adding key payload (.insert slot new)) =
          .ok (some (.chain chain)) →
        system.lru.fh.locks.Available chain)
    (grants : AddGrants) :
    ∃ next after event,
      SectionDone system.lru grants (.adding key payload (.insert slot new))
        next after event := by
  obtain ⟨hand, isHand, holds⟩ := good.hand isState
  cases holds with
  | insert =>
      have ok := good.split isHand
      have record :
          system.lru.payloads slot = Card.record ⟨slot, key, payload⟩ :=
        ok.records ⟨slot, key, payload⟩ (by simp [Hand.card])
      have entersChain :
          ThreadState.entry system.lru
              (.adding key payload (.insert slot slot)) =
            .ok (some (.chain (system.lru.fh.table.indexOf key))) := by
        simp only [ThreadState.entry, record]
        exact keyEntry_allocated ok.stores.magic key
      have isFree := available _ entersChain
      have inserts :
          ∃ fh lruErr nextMap,
            insertKey system.lru slot grants.insert =
                .ok
                  ({ system.lru with
                      fh := fh },
                    lruErr) ∧
              system.lru.fh.Becomes fh nextMap := by
        cases isBound : map key with
        | some object =>
            obtain ⟨fh, made, -, becomes⟩ :=
              insertKey_bound ok isFree isBound grants.insert
            exact ⟨fh, _, map, made, becomes⟩
        | none =>
            by_cases memory :
                grants.insert.bucket = true ∨
                  ¬ ChainFull
                    (system.lru.fh.table.hashTable
                      (system.lru.fh.table.indexOf key))
            · obtain ⟨fh, nextMap, made, -, becomes, -⟩ :=
                insertKey_new ok isFree isBound memory
              exact ⟨fh, _, nextMap, made, becomes⟩
            · obtain ⟨noBucket, full⟩ := not_or.mp memory
              obtain ⟨fh, made, -, becomes⟩ :=
                insertKey_noBucket ok isFree isBound
                  (by simpa using noBucket) (not_not.mp full)
              exact ⟨fh, _, map, made, becomes⟩
      obtain ⟨fh, lruErr, nextMap, inserts, becomes⟩ := inserts
      have steps :
          threadStep system.lru grants
              (.adding key payload (.insert slot slot)) =
            .ok
              ({ system.lru with
                  fh := fh },
                afterInsert key payload slot (insertError lruErr),
                .nothing) := by
        simp only [threadStep, addStep, inserts, Checked.ok_bind]
        cases insertError lruErr with
        | none =>
            rfl
        | some code =>
            rfl
      refine ⟨_, _, _, steps, ?_, ?_, ?_, becomes.same, fun _ _ => rfl⟩
      · intro hElements locks
        obtain ⟨use, runs⟩ := insertKey_section inserts hElements locks
        refine
          ⟨{ lru := _
             keepsLock := false
             use := use
             after := _
             event := .nothing },
            ?_, rfl, rfl, rfl,
      fun keeps => absurd keeps Bool.false_ne_true, fun _ => ?_⟩
        · simp only [runSection, runs, Checked.ok_bind]
          rfl
        · cases insertError lruErr with
          | none =>
              rfl
          | some code =>
              rfl
      · exact congrArg FhLocks.nLock becomes.locks
      · exact becomes.stores.magic.trans ok.stores.magic.symm

/-- The section of the search for a key. -/
theorem search_done
    (good : system.Ok wasAdded capacity map recency free hands pool)
    {key : CString}
    (isState : system.threads thread = .checking key .search)
    (available :
      ∀ slot,
        ThreadState.entry system.lru (.checking key .search) =
          .ok (some (.chain slot)) →
        system.lru.fh.locks.Available slot)
    (grants : AddGrants) :
    ∃ next after event,
      SectionDone system.lru grants (.checking key .search) next after
        event := by
  obtain ⟨hand, isHand, holds⟩ := good.hand isState
  cases holds with
  | check =>
      have ok := good.split isHand
      have entersChain :
          ThreadState.entry system.lru (.checking key .search) =
            .ok (some (.chain (system.lru.fh.table.indexOf key))) :=
        keyEntry_allocated ok.stores.magic key
      have isFree := available _ entersChain
      cases isBound : map key with
      | none =>
          have searches := searchKey_unbound ok isFree isBound
          refine ⟨system.lru, .idle,
            .returned (.check key) ⟨lruElementNotFound, none⟩, ?_, ?_, rfl,
            rfl, .refl _, fun _ _ => rfl⟩
          · simp only [threadStep, checkStep, searches, Checked.ok_bind]
            rfl
          · intro hElements locks
            have runs := (searchKey_section searches hElements locks).1
            refine
              ⟨{ lru := system.lru.refit hElements locks
                 keepsLock := false
                 use := none
                 after := .idle
                 event :=
                   .returned (.check key) ⟨lruElementNotFound, none⟩ },
                ?_, rfl, rfl, rfl,
      fun keeps => absurd keeps Bool.false_ne_true, fun _ => rfl⟩
            simp only [runSection, runs, Checked.ok_bind]
            rfl
      | some object =>
          obtain ⟨card, member, rfl, -⟩ := ok.exists_card isBound
          obtain ⟨taken, uses, isOpen⟩ := isFree
          have searches := searchKey_bound ok (uses.wlock isOpen) member
          have steps :
              threadStep system.lru grants (.checking card.key .search) =
                .ok
                  ({ system.lru with
                      fh :=
                        { system.lru.fh with
                          locks :=
                            system.lru.fh.locks.withPool
                              (Function.update taken
                                (system.lru.fh.table.indexOf card.key %
                                  system.lru.fh.locks.nLock)
                                true) } },
                    .checking card.key
                      (.move card.slot
                        (some (system.lru.fh.table.indexOf card.key))),
                    .nothing) := by
            simp only [threadStep, checkStep, searches, recordOf, recordBlock,
              Checked.ok_bind]
          refine ⟨_, _, _, steps, ?_, FhLocks.withPool_nLock _ _, rfl, .refl _,
            fun _ _ => rfl⟩
          · intro hElements locks
            obtain ⟨runs, sameLru⟩ :=
              searchKey_section searches hElements locks
            refine
              ⟨{ lru := system.lru.refit hElements locks
                 keepsLock := true
                 use := none
                 after :=
                   .checking card.key
                     (.move card.slot
                       (some (system.lru.fh.table.indexOf card.key)))
                 event := .nothing },
                ?_, sameLru.symm, rfl, rfl,
                fun _ => ⟨_, entersChain, rfl⟩,
                fun drops => absurd drops.symm Bool.false_ne_true⟩
            simp only [runSection, runs, Checked.ok_bind]
            rfl

/-- A thread's next call knows which lock it needs. -/
theorem entry_isOk
    (good : system.Ok wasAdded capacity map recency free hands pool)
    (thread : Fin n) :
    ∃ entry, (system.threads thread).entry system.lru = .ok entry := by
  have ofCard :
      ∀ card : Card,
        hands thread = some (.removed card) ∨
            hands thread = some (.keyed card) →
          ∃ entry,
            keyEntry system.lru (system.lru.payloads card.slot).fhKey =
              .ok entry := by
    intro card isHand
    have record : system.lru.payloads card.slot = card.record := by
      rcases isHand with isHand | isHand
      · exact (good.split isHand).records card (by simp [Hand.card])
      · exact (good.split isHand).records card (by simp [Hand.card])
    rw [record]
    exact ⟨_, keyEntry_allocated good.ok.stores.magic card.key⟩
  cases isState : system.threads thread with
  | idle =>
      exact ⟨none, rfl⟩
  | adding key payload point =>
      obtain ⟨hand, isHand, holds⟩ := good.hand isState
      cases holds with
      | delete _ _ card =>
          exact ofCard card (.inl isHand)
      | insert _ _ slot =>
          exact ofCard ⟨slot, key, payload⟩ (.inr isHand)
      | _ =>
          exact ⟨_, rfl⟩
  | checking key point =>
      cases point with
      | search =>
          exact ⟨_, keyEntry_allocated good.ok.stores.magic key⟩
      | _ =>
          exact ⟨_, rfl⟩
  | clearing point =>
      obtain ⟨hand, isHand, holds⟩ := good.hand isState
      cases holds with
      | clearDelete card =>
          exact ofCard card (.inl isHand)
      | _ =>
          exact ⟨_, rfl⟩

/-- The record that a thread uses is that of the slot in its hands. -/
theorem Holds.record
    {state : ThreadState}
    {hand : Option Hand}
    (holds : Holds state hand)
    {slot : Nat}
    (isRecord : state.record = some slot) :
    state.slot = some slot := by
  cases holds with
  | take key payload =>
      cases isRecord
  | evict key payload =>
      cases isRecord
  | unfilled key payload slot =>
      cases isRecord
  | link key payload slot =>
      cases isRecord
  | _ =>
      exact isRecord

/-- No two threads use the same record. -/
theorem System.Ok.records_apart
    (good : system.Ok wasAdded capacity map recency free hands pool)
    {other : Fin n}
    (differ : other ≠ thread)
    {slot : Nat}
    (isRecord : (system.threads thread).record = some slot) :
    (system.threads other).record ≠ some slot := by
  intro isOther
  have distinct : (collect ThreadState.slot system.threads).Nodup := by
    rw [← good.slots]
    exact (List.nodup_append.mp good.ok.ll.nodup).2.1
  have holdsNothing : ThreadState.slot .idle = none := rfl
  exact differ (eq_of_collect_nodup holdsNothing distinct
    ((good.holds thread).record isRecord) ((good.holds other).record isOther))

/-- The section of a call does what the whole call does. -/
theorem section_done
    (good : system.Ok wasAdded capacity map recency free hands pool)
    (thread : Fin n)
    (available :
      ∀ slot,
        (system.threads thread).entry system.lru = .ok (some (.chain slot)) →
        system.lru.fh.locks.Available slot)
    (notReleasing :
      ∀ key payload fhslot,
        system.threads thread ≠ .checking key (.release payload fhslot))
    (grants : AddGrants) :
    ∃ next after event,
      SectionDone system.lru grants (system.threads thread) next after
        event := by
  have listDone := fun noTable => list_done good thread noTable grants
  cases isState : system.threads thread with
  | idle =>
      rw [isState] at listDone
      exact listDone rfl
  | adding key payload point =>
      rw [isState] at listDone available
      cases point with
      | delete slotToFree hashpayload =>
          obtain ⟨hand, isHand, holds⟩ := good.hand isState
          cases holds with
          | delete _ _ card =>
              refine delete_done good isHand
                (.adding key payload (.free card.slot card.slot)) rfl available
                ?_ ?_ rfl
              · intro lru index deletes
                simp only [threadStep, addStep, deletes, Checked.ok_bind]
              · intro hElements locks lru index runs
                refine ⟨delUse (system.lru.refit hElements locks) index, ?_⟩
                simp only [runSection, runs, Checked.ok_bind]
      | insert slot new =>
          exact insert_done good isState available grants
      | _ =>
          exact listDone rfl
  | checking key point =>
      rw [isState] at listDone available
      cases point with
      | search =>
          exact search_done good isState available grants
      | move pload fhslot =>
          exact listDone rfl
      | release payload fhslot =>
          exact (notReleasing key payload fhslot isState).elim
  | clearing point =>
      rw [isState] at listDone available
      cases point with
      | delete removed hashpayload =>
          obtain ⟨hand, isHand, holds⟩ := good.hand isState
          cases holds with
          | clearDelete card =>
              refine delete_done good isHand
                (.clearing (.free card.slot card.slot)) rfl available ?_ ?_ rfl
              · intro lru index deletes
                have noError : ¬ (index : Int) < 0 := by omega
                simp only [threadStep, clearStep, deletes, noError, if_false,
                  Checked.ok_bind]
              · intro hElements locks lru index runs
                have noError : ¬ (index : Int) < 0 := by omega
                refine ⟨delUse (system.lru.refit hElements locks) index, ?_⟩
                simp only [runSection, runs, noError, if_false,
                  Checked.ok_bind]
      | _ =>
          exact listDone rfl

end Sections

end Clibs.Lru
