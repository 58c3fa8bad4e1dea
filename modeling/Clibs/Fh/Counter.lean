import Clibs.Fh.Updates

namespace Clibs.Fh

/-!
# The element counter under concurrency

Whatever the threads do, the element counter and the insertions that have filled
a slot and not yet counted it make up the used slots and the deletions that have
cleared a slot and not yet counted it.  The locks that are taken are those the
threads keep, one thread each, so every step that does not wait returns.
-/

/-- The change of the counter that a thread has still to make. -/
def ThreadState.pending
    (state : ThreadState) : Option CountChange :=
  match state.work with
  | .counting change _ =>
      some change
  | _ =>
      none

/-- The number of insertions that have filled their slot and not counted it. -/
def System.pendingInserts
    {n : Nat}
    (system : System n) : Nat :=
  tally (fun state => state.pending = some .incElem) system.threads

/-- The number of deletions that have cleared their slot and not counted it. -/
def System.pendingDeletes
    {n : Nat}
    (system : System n) : Nat :=
  tally (fun state => state.pending = some .decElem) system.threads

/-- The locks that a thread keeps. -/
def ThreadState.locksKept
    (locks : FhLocks)
    (state : ThreadState) : List Nat :=
  state.held.map fun slot => slot % locks.nLock

/-- The locks that the threads keep. -/
def System.locksKept
    {n : Nat}
    (system : System n) : List Nat :=
  gather (ThreadState.locksKept system.fh.locks) (List.finRange n)
    system.threads

/-- The locks that are taken are the given ones, each taken once. -/
structure FhLocks.Taken
    (locks : FhLocks)
    (pool : LockPool)
    (kept : List Nat) : Prop where
  uses : locks.Uses pool
  taken : ∀ lock, pool lock = true ↔ lock ∈ kept
  distinct : kept.Nodup

/-- What a thread relies on in its next step. -/
def ThreadState.Ok (state : ThreadState) : Prop :=
  match state.work with
  | .entered call =>
      call.keepsLock state.held = true
  | .visiting _ _ _ recorded =>
      ∀ element ∈ recorded, element.key.isSome = true
  | _ =>
      True

/-- The invariant of a table and its threads. -/
structure System.Ok
    {n : Nat}
    (system : System n)
    (pool : LockPool) : Prop where
  magic : system.fh.hMagic = fhMagicId
  sound : system.fh.table.Sound
  counted :
    system.fh.hElements + system.pendingInserts =
      system.fh.table.entries.length + system.pendingDeletes
  locks : system.fh.locks.Taken pool system.locksKept
  inRange :
    ∀ thread,
      ∀ slot ∈ (system.threads thread).held, slot < system.fh.table.hDim
  works : ∀ thread, (system.threads thread).Ok

/-- What a step of one thread does. -/
structure Moves
    (fh : FhT)
    (state : ThreadState)
    (next : FhT)
    (after : ThreadState) : Prop where
  magic : next.hMagic = fh.hMagic
  sound : next.table.Sound
  hDim : next.table.hDim = fh.table.hDim
  indexOf : next.table.indexOf = fh.table.indexOf
  balance :
    next.hElements + changeAmount after.pending +
        fh.table.entries.length =
      fh.hElements + changeAmount state.pending +
        next.table.entries.length
  locks : LockMove fh.table.hDim fh.locks state.held next.locks after.held
  ok : after.Ok

section Locks

variable {locks : FhLocks}
  {pool : LockPool}
  {kept : List Nat}

/-- The order in which the kept locks are listed does not matter. -/
theorem FhLocks.Taken.perm
    (taken : locks.Taken pool kept)
    {others : List Nat}
    (same : others.Perm kept) :
    locks.Taken pool others where
  uses := taken.uses
  taken lock := by
    rw [taken.taken lock, same.mem_iff]
  distinct := same.nodup_iff.mpr taken.distinct

/-- A lock that is taken is a new one. -/
theorem FhLocks.Taken.wlock
    (taken : locks.Taken pool kept)
    {slot : Nat}
    {next : FhLocks}
    (takes : locks.wlock slot = .ok next) :
    next.nLock = locks.nLock ∧
      next.Taken (Function.update pool (slot % locks.nLock) true)
        (slot % locks.nLock :: kept) := by
  cases isTaken : pool (slot % locks.nLock) with
  | true =>
      rw [taken.uses.wlock_taken isTaken] at takes
      cases takes
  | false =>
      rw [taken.uses.wlock isTaken] at takes
      cases takes
      refine ⟨locks.withPool_nLock _, taken.uses.withPool _, ?_, ?_⟩
      · intro lock
        by_cases same : lock = slot % locks.nLock
        · simp [same]
        · simp [same, taken.taken lock]
      · rw [List.nodup_cons]
        refine ⟨?_, taken.distinct⟩
        rw [← taken.taken, isTaken]
        exact Bool.false_ne_true

/-- A lock that is given back was one of the kept ones. -/
theorem FhLocks.Taken.unlock
    {slot : Nat}
    (taken : locks.Taken pool (slot % locks.nLock :: kept)) :
    ∃ next,
      locks.unlock slot = .ok next ∧
        next.nLock = locks.nLock ∧
        next.Taken (Function.update pool (slot % locks.nLock) false)
          kept := by
  have isTaken : pool (slot % locks.nLock) = true :=
    (taken.taken _).mpr (List.mem_cons_self ..)
  obtain ⟨isNew, distinct⟩ := List.nodup_cons.mp taken.distinct
  refine ⟨_, taken.uses.unlock isTaken, locks.withPool_nLock _,
    taken.uses.withPool _, ?_, distinct⟩
  intro lock
  by_cases same : lock = slot % locks.nLock
  · simp [same, isNew]
  · simp [same, taken.taken lock]

/-- A kept lock comes first in the list of those a thread keeps. -/
theorem locksKept_erase
    (locks : FhLocks)
    {held : List Nat}
    {slot : Nat}
    (isHeld : slot ∈ held) :
    (held.map fun slot => slot % locks.nLock).Perm
      (slot % locks.nLock ::
        (held.erase slot).map fun slot => slot % locks.nLock) :=
  (List.perm_cons_erase isHeld).map _

/-- A move of one thread keeps the account of the locks. -/
theorem FhLocks.Taken.move
    {dim : Nat}
    {held nextHeld others : List Nat}
    {next : FhLocks}
    (taken :
      locks.Taken pool
        ((held.map fun slot => slot % locks.nLock) ++ others))
    (moves : LockMove dim locks held next nextHeld) :
    next.nLock = locks.nLock ∧
      ∃ nextPool,
        next.Taken nextPool
          ((nextHeld.map fun slot => slot % locks.nLock) ++ others) := by
  cases moves with
  | same =>
      exact ⟨rfl, pool, taken⟩
  | taken inRange takes =>
      obtain ⟨sameLocks, nextTaken⟩ := taken.wlock takes
      exact ⟨sameLocks, _, nextTaken⟩
  | released isHeld gives =>
      have first := (locksKept_erase locks isHeld).append_right others
      obtain ⟨given, givesIt, sameLocks, nextTaken⟩ :=
        (taken.perm first.symm).unlock
      cases gives.symm.trans givesIt
      exact ⟨sameLocks, _, nextTaken⟩

end Locks

/-- Whether keys are copied is not part of what makes a table sound. -/
theorem FhTable.Sound.withAttr
    {table : FhTable}
    (sound : table.Sound)
    (attr : UInt32) :
    FhTable.Sound
      { table with
        hAttr := attr } where
  ok :=
    { dim := sound.ok.dim
      slots := sound.ok.slots
      noneEmpty := sound.ok.noneEmpty
      distinct := sound.ok.distinct
      below := sound.ok.below }
  distinct := sound.distinct

section Thread

variable {fh : FhT}
  {state : ThreadState}

/-- A step that leaves the table and the locks. -/
theorem Moves.of_thread
    (sound : fh.table.Sound)
    {after : ThreadState}
    (pending : after.pending = state.pending)
    (held : after.held = state.held)
    (ok : after.Ok) :
    Moves fh state fh after where
  magic := rfl
  sound := sound
  hDim := rfl
  indexOf := rfl
  balance := by rw [pending]
  locks := by
    rw [held]
    exact .same
  ok := ok

/-- What a thread has to count after its locked section. -/
theorem Resume.after_pending
    (fh : FhT)
    (held : List Nat)
    (resume : Resume)
    (change : Option CountChange) :
    (resume.after fh held change).1 = fh ∧
      (resume.after fh held change).2.1.pending = change ∧
      (resume.after fh held change).2.1.held = held ∧
      (resume.after fh held change).2.1.Ok := by
  cases change with
  | some change =>
      exact ⟨rfl, rfl, rfl, trivial⟩
  | none =>
      cases resume with
      | returns call result =>
          exact ⟨rfl, rfl, rfl, trivial⟩
      | cleans withDelFunc fhe =>
          exact ⟨rfl, rfl, rfl, trivial⟩

/-- A step that ends the locked section of a call. -/
theorem Moves.of_section
    {table : FhTable}
    {locks : FhLocks}
    {change : Option CountChange}
    (updated : fh.table.Updated table change)
    {held : List Nat}
    (moves : LockMove fh.table.hDim fh.locks state.held locks held)
    (settled : state.pending = none)
    {after : ThreadState}
    (pending : after.pending = change)
    (keeps : after.held = held)
    (ok : after.Ok) :
    Moves fh state
      { fh with
        table := table
        locks := locks }
      after where
  magic := rfl
  sound := updated.sound
  hDim := updated.same.hDim
  indexOf := funext updated.same.indexOf
  balance := by
    change fh.hElements + changeAmount after.pending +
        fh.table.entries.length =
      fh.hElements + changeAmount state.pending + table.entries.length
    rw [pending, settled, updated.entries, changeAmount]
    omega
  locks := by
    rw [keeps]
    exact moves
  ok := ok

/-- The step that updates a chain, for a call that gives its lock back. -/
theorem Moves.of_updatedTo
    {next : FhT}
    {change : Option CountChange}
    (updated : fh.UpdatedTo next change)
    (settled : state.pending = none)
    (resume : Resume) :
    Moves fh state (resume.after next state.held change).1
      (resume.after next state.held change).2.1 := by
  obtain ⟨table, rfl, updated⟩ := updated
  obtain ⟨sameFh, pending, keeps, ok⟩ :=
    resume.after_pending
      { fh with
        table := table }
      state.held change
  rw [sameFh]
  exact Moves.of_section updated .same settled pending keeps ok

/-- The step that updates a chain, for a call that keeps its lock. -/
theorem Moves.of_lockedTo
    {next : FhT}
    {change : Option CountChange}
    {result : LockedResult}
    (locked : fh.LockedTo state.held next change result)
    (settled : state.pending = none)
    (resume : Resume) :
    Moves fh state
      (resume.after next (result.lockedSlot.toList ++ state.held) change).1
      (resume.after next (result.lockedSlot.toList ++ state.held)
        change).2.1 := by
  obtain ⟨table, locks, rfl, updated, moves⟩ := locked
  obtain ⟨sameFh, pending, keeps, ok⟩ :=
    resume.after_pending
      { fh with
        table := table
        locks := locks }
      (result.lockedSlot.toList ++ state.held) change
  rw [sameFh]
  exact Moves.of_section updated moves settled pending keeps ok

variable (sound : fh.table.Sound)
  (uses : ∃ pool, fh.locks.Uses pool)
  (inRange : ∀ slot ∈ state.held, slot < fh.table.hDim)

include sound

/-- The step of a call that updates a chain. -/
theorem updateStep_moves
    (uses : ∃ pool, fh.locks.Uses pool)
    (inRange : ∀ slot ∈ state.held, slot < fh.table.hDim)
    (settled : state.pending = none)
    {call : UpdateCall}
    (keeps : (ThreadCall.update call).keepsLock state.held = true) :
    (updateStep fh state.held call).BlocksOr fun done =>
      Moves fh state done.1 done.2.1 := by
  cases call with
  | insert key block =>
      apply (insertUpdate_blocksOr sound uses key block).bind
      rintro ⟨next, change, code⟩ updated
      exact Moves.of_updatedTo updated settled _
  | insertlock key block slotGiven addrGiven =>
      apply (insertlockUpdate_blocksOr sound uses key block slotGiven
        addrGiven state.held).bind
      rintro ⟨next, change, result⟩ locked
      exact Moves.of_lockedTo locked settled _
  | del key =>
      apply (delUpdate_blocksOr sound uses key).bind
      rintro ⟨next, change, code⟩ updated
      exact Moves.of_updatedTo updated settled _
  | dellocked key lockedBucket =>
      have isHeld : lockedBucket ∈ state.held := by
        simpa [ThreadCall.keepsLock] using keeps
      apply (dellockedUpdate_blocksOr sound key
        (inRange lockedBucket isHeld)).bind
      rintro ⟨next, change, code⟩ updated
      exact Moves.of_updatedTo updated settled _

/-- The step of a call that reads the counter. -/
theorem readStep_moves
    (settled : state.pending = none)
    (call : ReadCall) :
    Moves fh state (readStep fh state.held call).1
      (readStep fh state.held call).2.1 := by
  unfold readStep
  split
  · exact Moves.of_thread sound settled.symm rfl trivial
  · split
    · exact Moves.of_thread sound settled.symm rfl trivial
    · exact Moves.of_thread sound settled.symm rfl trivial

/-- The step that decides on the value of the counter. -/
theorem decideStep_moves
    (settled : state.pending = none)
    (elements : Int)
    (grants : EnumGrants)
    (call : ReadCall) :
    Moves fh state (decideStep fh state.held elements grants call).1
      (decideStep fh state.held elements grants call).2.1 := by
  cases call with
  | getattrElement =>
      exact Moves.of_thread sound settled.symm rfl trivial
  | setattrDontcopykey =>
      rw [decideStep]
      split
      · exact Moves.of_thread sound settled.symm rfl trivial
      · exact {
          magic := rfl
          sound := sound.withAttr (fh.table.hAttr ||| fhSetattrDontcopykey)
          hDim := rfl
          indexOf := rfl
          balance := by rw [settled]; rfl
          locks := .same
          ok := trivial }
  | enumerate call =>
      rw [decideStep]
      split
      · exact Moves.of_thread sound settled.symm rfl trivial
      · split
        · exact Moves.of_thread sound settled.symm rfl trivial
        · split
          · exact Moves.of_thread sound settled.symm rfl trivial
          · exact Moves.of_thread sound settled.symm rfl
              fun _ member => (List.not_mem_nil member).elim

/-- The step that changes the counter. -/
theorem go_moves
    {change : CountChange}
    {resume : Resume}
    (counts : state.work = .counting change resume) :
    Moves fh state (resume.go (fh.changeElem change) state.held).1
      (resume.go (fh.changeElem change) state.held).2.1 := by
  have pending : state.pending = some change := by
    simp [ThreadState.pending, counts]
  have counted :
      (fh.changeElem change).hElements =
        fh.hElements + changeAmount (some change) := by
    cases change with
    | incElem =>
        rfl
    | decElem =>
        rfl
  have others :
      (fh.changeElem change).hMagic = fh.hMagic ∧
        (fh.changeElem change).table = fh.table ∧
        (fh.changeElem change).locks = fh.locks := by
    cases change with
    | incElem =>
        exact ⟨rfl, rfl, rfl⟩
    | decElem =>
        exact ⟨rfl, rfl, rfl⟩
  obtain ⟨magic, table, locks⟩ := others
  have moves :
      ∀ after : ThreadState,
        after.pending = none →
        after.held = state.held →
        after.Ok →
        Moves fh state (fh.changeElem change) after := by
    intro after settled held ok
    constructor
    · exact magic
    · exact table ▸ sound
    · rw [table]
    · rw [table]
    · rw [counted, table, pending, settled, changeAmount]
      omega
    · rw [locks, held]
      exact .same
    · exact ok
  cases resume with
  | returns call result =>
      exact moves ⟨.idle, state.held⟩ rfl rfl trivial
  | cleans withDelFunc fhe =>
      exact moves ⟨.cleaning withDelFunc fhe, state.held⟩ rfl rfl trivial

/-- Every element that the scan of a chain records has a key. -/
theorem recordChain_keys
    {elements : Nat}
    (index : Nat)
    {recorded : List FhElem}
    (keys : ∀ element ∈ recorded, element.key.isSome = true)
    (hasRoom : recorded.length ≤ elements) :
    ∀ element ∈ recordChain elements (fh.table.hashTable index) recorded,
      element.key.isSome = true := by
  rw [recordChain_take _ hasRoom]
  intro element member
  rcases List.mem_append.mp (List.mem_of_mem_take member) with isOld | isNew
  · exact keys element isOld
  · obtain ⟨key, isKey, -⟩ := chainElems_key sound.ok isNew
    rw [isKey]
    rfl

/-- The step that visits a chain, or ends the enumeration. -/
theorem visitStep_moves
    (uses : ∃ pool, fh.locks.Uses pool)
    (settled : state.pending = none)
    (call : EnumCall)
    (elements index : Nat)
    {recorded : List FhElem}
    (keys : ∀ element ∈ recorded, element.key.isSome = true) :
    (visitStep fh state.held call elements index recorded).BlocksOr
      fun done => Moves fh state done.1 done.2.1 := by
  unfold visitStep
  split
  next more =>
    apply (visitChain_blocksOr uses elements index recorded).bind
    rintro ⟨locks, next⟩ same
    cases same
    exact Moves.of_thread sound settled.symm rfl
      (recordChain_keys sound index keys more.2.le)
  next =>
    cases call with
    | create sortOrder =>
        obtain ⟨sorted, sorts⟩ := sortElems_keys keys sortOrder
        rw [finishEnum, sorts]
        exact Moves.of_thread sound settled.symm rfl trivial
    | clean withDelFunc =>
        obtain ⟨sorted, sorts⟩ := sortElems_keys keys 0
        rw [finishEnum, sorts]
        exact Moves.of_thread sound settled.symm rfl trivial

/-- The step of the loop of `fh_clean`. -/
theorem cleanStep_moves
    (uses : ∃ pool, fh.locks.Uses pool)
    (settled : state.pending = none)
    (withDelFunc : Bool)
    (fhe : FhEnum) :
    (cleanStep fh state.held withDelFunc fhe).BlocksOr fun done =>
      Moves fh state done.1 done.2.1 := by
  unfold cleanStep
  split
  next =>
    split
    next =>
      exact Moves.of_thread sound settled.symm rfl trivial
    next element error isValue =>
      apply (delUpdate_blocksOr sound uses _).bind
      rintro ⟨next, change, code⟩ updated
      exact Moves.of_updatedTo updated settled _
  next =>
    exact Moves.of_thread sound settled.symm rfl trivial

/-- Giving back a lock that the thread keeps. -/
theorem fhReleaselock_moves
    {pool : LockPool}
    (uses : fh.locks.Uses pool)
    {slot : Nat}
    (isHeld : slot ∈ state.held)
    (isTaken : pool (slot % fh.locks.nLock) = true)
    (settled : state.pending = none) :
    (fhReleaselock fh slot).BlocksOr fun done =>
      Moves fh state done.1
        ⟨.idle, if done.2 = fhOk then state.held.erase slot else state.held⟩ := by
  unfold fhReleaselock
  split
  next =>
    exact Moves.of_thread sound settled.symm rfl trivial
  next =>
    rw [uses.unlock isTaken]
    exact {
      magic := rfl
      sound := sound
      hDim := rfl
      indexOf := rfl
      balance := by rw [settled]; rfl
      locks := .released isHeld (uses.unlock isTaken)
      ok := trivial }

/-- A step of a thread waits for a lock or returns. -/
theorem threadStep_moves
    {pool : LockPool}
    (uses : fh.locks.Uses pool)
    (inRange : ∀ slot ∈ state.held, slot < fh.table.hDim)
    (isTaken : ∀ slot ∈ state.held, pool (slot % fh.locks.nLock) = true)
    (ok : state.Ok)
    (grants : EnumGrants) :
    (threadStep fh grants state).BlocksOr fun done =>
      Moves fh state done.1 done.2.1 := by
  cases state with
  | mk work held =>
      cases work with
      | idle =>
          exact Moves.of_thread sound rfl rfl trivial
      | entered call =>
          cases call with
          | update call =>
              exact updateStep_moves sound ⟨pool, uses⟩ inRange rfl ok
          | searchlock key =>
              apply (fhSearchlock_blocksOr sound ⟨pool, uses⟩ key held).bind
              rintro ⟨next, result⟩ ⟨table, locks, rfl, updated, moves⟩
              exact Moves.of_section updated moves rfl rfl rfl trivial
          | releaselock slot =>
              have isHeld : slot ∈ held := by
                simpa [ThreadState.Ok, ThreadCall.keepsLock] using ok
              have settled :
                  ThreadState.pending ⟨.entered (.releaselock slot), held⟩ =
                    none :=
                rfl
              apply (fhReleaselock_moves sound uses isHeld
                (isTaken slot isHeld) settled).bind
              exact fun done moves => moves
          | read call =>
              exact readStep_moves sound rfl call
      | counting change resume =>
          exact go_moves sound rfl
      | hasRead call elements =>
          exact decideStep_moves sound rfl elements grants call
      | visiting call elements index recorded =>
          exact visitStep_moves sound ⟨pool, uses⟩ rfl call elements index ok
      | cleaning withDelFunc fhe =>
          exact cleanStep_moves sound ⟨pool, uses⟩ rfl withDelFunc fhe

end Thread

section System

variable {n : Nat}
  {system : System n}
  {pool : LockPool}
  {thread : Fin n}

/-- The changes of the counter that are left after one thread moved. -/
theorem pending_update
    (system : System n)
    (thread : Fin n)
    (fh : FhT)
    (state : ThreadState) :
    (System.pendingInserts
            { fh := fh
              threads := Function.update system.threads thread state } -
          System.pendingDeletes
            { fh := fh
              threads := Function.update system.threads thread state } :
          Int) +
        changeAmount (system.threads thread).pending =
      (system.pendingInserts - system.pendingDeletes : Int) +
        changeAmount state.pending := by
  have inserts :=
    tally_update (fun state => state.pending = some .incElem)
      system.threads thread state
  have deletes :=
    tally_update (fun state => state.pending = some .decElem)
      system.threads thread state
  unfold System.pendingInserts System.pendingDeletes
  rcases isOld : (system.threads thread).pending with _ | _ | _ <;>
    rcases isNew : state.pending with _ | _ | _ <;>
      simp [isOld, isNew, changeAmount] at inserts deletes ⊢ <;> omega

/-- The locks that a thread keeps are taken. -/
theorem System.Ok.isTaken
    (ok : system.Ok pool)
    (thread : Fin n) :
    ∀ slot ∈ (system.threads thread).held,
      pool (slot % system.fh.locks.nLock) = true := by
  intro slot isHeld
  apply (ok.locks.taken _).mpr
  exact mem_gather.mpr
    ⟨thread, List.mem_finRange thread, List.mem_map_of_mem isHeld⟩

/-- Taking or giving back a lock leaves the kept slots in range. -/
theorem LockMove.inRange
    {dim : Nat}
    {locks next : FhLocks}
    {held nextHeld : List Nat}
    (moves : LockMove dim locks held next nextHeld)
    (inRange : ∀ slot ∈ held, slot < dim) :
    ∀ slot ∈ nextHeld, slot < dim := by
  cases moves with
  | same =>
      exact inRange
  | taken small takes =>
      exact List.forall_mem_cons.mpr ⟨small, inRange⟩
  | released isHeld gives =>
      exact fun slot member => inRange slot (List.mem_of_mem_erase member)

/-- A step of one thread keeps the account of the locks. -/
theorem System.Ok.locks_moves
    (ok : system.Ok pool)
    {fh : FhT}
    {state : ThreadState}
    (moves : Moves system.fh (system.threads thread) fh state) :
    ∃ nextPool,
      fh.locks.Taken nextPool
        (System.locksKept
          { fh := fh
            threads := Function.update system.threads thread state }) := by
  obtain ⟨others, whole, replaced⟩ :=
    gather_update (ThreadState.locksKept system.fh.locks)
      (List.nodup_finRange n) (List.mem_finRange thread) system.threads
  have taken := ok.locks.perm whole.symm
  obtain ⟨sameLocks, nextPool, nextTaken⟩ := taken.move moves.locks
  have sameKept :
      ThreadState.locksKept fh.locks =
        ThreadState.locksKept system.fh.locks := by
    funext state
    simp only [ThreadState.locksKept, sameLocks]
  refine ⟨nextPool, ?_⟩
  unfold System.locksKept
  rw [sameKept]
  exact nextTaken.perm (replaced state)

/-- A step of one thread keeps the invariant of the system. -/
theorem System.Ok.moves
    (ok : system.Ok pool)
    {fh : FhT}
    {state : ThreadState}
    (moves : Moves system.fh (system.threads thread) fh state) :
    ∃ nextPool,
      System.Ok
        { fh := fh
          threads := Function.update system.threads thread state }
        nextPool := by
  obtain ⟨nextPool, locks⟩ := ok.locks_moves moves
  refine ⟨nextPool, ?_⟩
  constructor
  · exact moves.magic.trans ok.magic
  · exact moves.sound
  · have pending := pending_update system thread fh state
    have balance := moves.balance
    have counted := ok.counted
    dsimp only
    omega
  · exact locks
  · intro other
    by_cases same : other = thread
    · subst same
      simp only [Function.update_self, moves.hDim]
      exact moves.locks.inRange (ok.inRange other)
    · simp only [Function.update_of_ne same, moves.hDim]
      exact ok.inRange other
  · intro other
    by_cases same : other = thread
    · subst same
      simp only [Function.update_self]
      exact moves.ok
    · simp only [Function.update_of_ne same]
      exact ok.works other

/-- A step that a thread takes moves as its function says. -/
theorem System.Ok.moves_of_step
    (ok : system.Ok pool)
    {grants : EnumGrants}
    {fh : FhT}
    {state : ThreadState}
    {event : FhEvent}
    (isStep :
      threadStep system.fh grants (system.threads thread) =
        .ok (fh, state, event)) :
    Moves system.fh (system.threads thread) fh state := by
  have returns :=
    threadStep_moves ok.sound ok.locks.uses (ok.inRange thread)
      (ok.isTaken thread) (ok.works thread) grants
  rw [isStep] at returns
  exact returns

/-- Every step of a system returns and keeps the invariant. -/
theorem System.Ok.step
    (ok : system.Ok pool)
    (label : Label n) :
    ∃ next event nextPool,
      systemStep system label = .ok (next, event) ∧ next.Ok nextPool := by
  cases label with
  | call thread call =>
      cases isState : system.threads thread with
      | mk work held =>
          cases work with
          | idle =>
              by_cases keeps : call.keepsLock held = true
              · have moves :
                    Moves system.fh (system.threads thread) system.fh
                      ⟨.entered call, held⟩ := by
                  rw [isState]
                  exact Moves.of_thread ok.sound rfl rfl keeps
                obtain ⟨nextPool, nextOk⟩ := ok.moves moves
                exact ⟨_, .nothing, nextPool,
                  by simp only [systemStep, isState, keeps, if_true], nextOk⟩
              · exact ⟨system, .nothing, pool,
                  by simp [systemStep, isState, keeps], ok⟩
          | _ =>
              exact ⟨system, .nothing, pool,
                by simp only [systemStep, isState], ok⟩
  | step thread grants =>
      have returns :=
        threadStep_moves ok.sound ok.locks.uses (ok.inRange thread)
          (ok.isTaken thread) (ok.works thread) grants
      cases isStep :
          threadStep system.fh grants (system.threads thread) with
      | error fault =>
          rw [isStep] at returns
          cases returns
          exact ⟨system, .nothing, pool, by simp [systemStep, isStep], ok⟩
      | ok done =>
          obtain ⟨fh, state, event⟩ := done
          rw [isStep] at returns
          obtain ⟨nextPool, nextOk⟩ := ok.moves returns
          exact ⟨_, event, nextPool, by simp [systemStep, isStep], nextOk⟩

end System

/-- Every run of the threads returns and keeps the invariant. -/
theorem run_ok
    {n : Nat}
    {system : System n}
    (ok : ∃ pool, system.Ok pool)
    (labels : List (Label n)) :
    ∃ final events,
      runCalls systemStep system labels = .ok (final, events) ∧
        ∃ pool, final.Ok pool := by
  have stepKeeps :
      ∀ {state : System n} {label : Label n},
        (∃ pool, state.Ok pool) →
        True →
        ∃ next event,
          systemStep state label = .ok (next, event) ∧
            ∃ pool, next.Ok pool := by
    rintro state label ⟨pool, ok⟩ -
    obtain ⟨next, event, nextPool, steps, nextOk⟩ := ok.step label
    exact ⟨next, event, steps, nextPool, nextOk⟩
  exact runCalls_invariant stepKeeps ok
    (alwaysAllowed_of_forall (fun _ _ _ => trivial) system)

/--
A table that one thread has created and used, and whose locks it has given back.
-/
def FhT.Prepared (fh : FhT) : Prop :=
  ∃ dim datalen hashFunction grants created calls results,
    fhCreate dim datalen hashFunction grants = .ok (some created) ∧
      AlwaysAllowed (StepOf tableStep) (fun fh call => call.Safe fh) created
        calls ∧
      runCalls tableStep created calls = .ok (fh, results) ∧
      fh.locks.Free

/-- A prepared table is in use. -/
theorem FhT.Prepared.inUse
    {fh : FhT}
    (prepared : fh.Prepared) :
    fh.InUse := by
  obtain ⟨dim, datalen, hashFunction, grants, created, calls, results,
      creates, safe, runs, -⟩ := prepared
  exact (createdFh_inUse creates).run safe runs

/-- The invariant of a table in use says that it is sound. -/
theorem FhT.InUse.sound
    {fh : FhT}
    (inUse : fh.InUse) :
    fh.table.Sound := by
  obtain ⟨map, pool, stores, -⟩ := inUse
  have ok := stores.ok.okFor
  refine ⟨?_, stores.binds.distinct⟩
  exact {
    dim := ok.dim
    slots := by
      intro index bucket isBucket position
      have slotOk := ok.slots index bucket isBucket position
      generalize bucket.slot position = slot at slotOk
      cases slotOk with
      | cleared =>
          exact .cleared
      | used isPlaced =>
          exact .used ⟨isPlaced.1, trivial⟩
    noneEmpty := ok.noneEmpty
    distinct := ok.distinct
    below := ok.below }

/-- Before their first calls the threads and the table satisfy the invariant. -/
theorem FhT.Prepared.start_ok
    {fh : FhT}
    (prepared : fh.Prepared)
    (n : Nat) :
    (start n fh).Ok fun _ => false := by
  have sound := prepared.inUse.sound
  obtain ⟨map, pool, stores, -⟩ := prepared.inUse
  obtain ⟨-, -, -, -, -, -, -, -, -, -, free⟩ := prepared
  have noneKept : (start n fh).locksKept = [] :=
    gather_eq_nil fun _ _ => rfl
  have noneCounts :
      ∀ change : CountChange,
        tally
            (fun state : ThreadState => state.pending = some change)
            (start n fh).threads =
          0 := by
    exact fun change => tally_eq_zero fun thread => rfl
  constructor
  · exact stores.magic
  · exact sound
  · rw [System.pendingInserts, System.pendingDeletes, noneCounts, noneCounts]
    exact congrArg (· + 0) stores.counted
  · rw [noneKept]
    exact ⟨free, by simp, List.nodup_nil⟩
  · intro thread slot member
    cases member
  · intro thread
    trivial

/--
In every state that threads can reach, the element counter is the number of used
slots less the insertions that have yet to be counted, plus the deletions that
have yet to be counted; when no call is in progress it is the number of keys.
-/
theorem element_counter_accounts
    {fh : FhT}
    (prepared : fh.Prepared)
    {n : Nat}
    (labels : List (Label n)) :
    ∃ final events,
      runCalls systemStep (start n fh) labels = .ok (final, events) ∧
        final.fh.hElements =
          final.fh.table.usedSlots - final.pendingInserts +
            final.pendingDeletes ∧
        (final.fh.table.entries.map Prod.fst).Nodup ∧
        ((∀ thread, (final.threads thread).work = .idle) →
          final.fh.hElements =
            (final.fh.table.entries.map Prod.fst).length) := by
  obtain ⟨final, events, runs, pool, ok⟩ :=
    run_ok ⟨_, prepared.start_ok n⟩ labels
  have counted := ok.counted
  refine ⟨final, events, runs, ?_, ok.sound.distinct, ?_⟩
  · rw [usedSlots_entries ok.sound.ok]
    omega
  · intro noCall
    have noneCounts :
        ∀ change : CountChange,
          tally
              (fun state : ThreadState => state.pending = some change)
              final.threads =
            0 := by
      intro change
      apply tally_eq_zero
      intro thread
      simp [ThreadState.pending, noCall thread]
    rw [System.pendingInserts, System.pendingDeletes, noneCounts,
      noneCounts] at counted
    rw [List.length_map]
    simpa using counted

/-- A new table is prepared. -/
theorem createdFh_prepared
    {dim : Int32}
    {datalen : Int}
    {hashFunction : CString → UInt64}
    {grants : CreateGrants}
    {fh : FhT}
    (created : fhCreate dim datalen hashFunction grants = .ok (some fh)) :
    fh.Prepared := by
  refine ⟨dim, datalen, hashFunction, grants, fh, [], [], created, trivial,
    rfl, ?_⟩
  obtain ⟨bits, small, rfl⟩ := fhCreate_eq created
  exact .mutexes

/-- A key is deleted and the deletion counted before its insertion is. -/
theorem element_counter_accounts_overtaken :
    ∃ final events,
      runCalls systemStep
          (start 2 (createdFh 1 1 fhDatalenVoidp fun _ => 7))
          [.call 0 (.update (.insert (some ⟨[97], by decide⟩) none)),
            .step 0 .all,
            .call 1 (.update (.del (some ⟨[97], by decide⟩))),
            .step 1 .all,
            .step 1 .all] =
        .ok (final, events) ∧
      final.fh.hElements =
        final.fh.table.usedSlots - final.pendingInserts +
          final.pendingDeletes := by
  have isCreated :
      fhCreate 1 fhDatalenVoidp (fun _ => 7) .all =
        .ok (some (createdFh 1 1 fhDatalenVoidp fun _ => 7)) :=
    rfl
  obtain ⟨final, events, runs, accounts, -⟩ :=
    element_counter_accounts (createdFh_prepared isCreated)
      [.call (0 : Fin 2) (.update (.insert (some ⟨[97], by decide⟩) none)),
        .step 0 .all,
        .call 1 (.update (.del (some ⟨[97], by decide⟩))),
        .step 1 .all,
        .step 1 .all]
  exact ⟨final, events, runs, accounts⟩

end Clibs.Fh
