import Clibs.Fh.Balance
import Clibs.Fh.Memory

namespace Clibs.Fh

/-!
# What the calls of a hash table leave in memory

The requests for memory and the releases of each call, beside the call itself.
Whatever is refused, a call frees only what the table holds and leaves in memory
exactly the blocks the table points to.  `fh_destroy` takes the entries out
through an enumerator, so it gives everything back only if it can have one.
-/

section Effects

/-- The requests of an insertion. -/
def insertionMemory
    (fh : FhT)
    (key : Option CString)
    (block : Option Block)
    (grants : InsertGrants)
    (memory : FhMemory) : FhMemory :=
  if fh.hMagic ≠ fhMagicId then
    memory
  else
    match key with
    | none =>
        memory
    | some key =>
        insertMemory fh.table key block grants memory

/-- The releases of `fh_del`. -/
def delMemory
    (fh : FhT)
    (key : Option CString)
    (memory : FhMemory) : Checked FhMemory :=
  if fh.hMagic ≠ fhMagicId then
    .ok memory
  else
    match key with
    | none =>
        .ok memory
    | some key =>
        let hash := fh.table.hashFunction key
        delUnlockedMemory fh.table key (fh.table.hashindex hash)
          (makeMinihash hash) memory

/-- The releases of `fh_dellocked`. -/
def dellockedMemory
    (fh : FhT)
    (key : Option CString)
    (lockedBucket : Nat)
    (memory : FhMemory) : Checked FhMemory :=
  if fh.hMagic ≠ fhMagicId then
    .ok memory
  else
    match key with
    | none =>
        .ok memory
    | some key =>
        let hash := fh.table.hashFunction key
        delUnlockedMemory fh.table key lockedBucket (makeMinihash hash) memory

/-- The requests and the release of `fh_enum_create`. -/
def enumCreateMemory
    (fh : FhT)
    (grants : EnumGrants)
    (memory : FhMemory) : Checked FhMemory :=
  if fh.hMagic ≠ fhMagicId then
    .ok memory
  else if fh.hElements < 1 then
    .ok memory
  else if grants.handle = false then
    .ok memory
  else
    let memory := memory.acquire .enumHandle .block
    if grants.elemList = false then
      memory.release .enumHandle
    else
      .ok (memory.acquire .elemList .block)

/-- The releases of `fh_enum_destroy`. -/
def enumDestroyMemory
    (fhe : FhEnum)
    (memory : FhMemory) : Checked FhMemory :=
  if fhe.magic ≠ fheMagicId then
    .ok memory
  else do
    let memory ← memory.release .elemList
    memory.release .enumHandle

/-- The releases of the loop of `fh_clean` and after it. -/
def cleanLoopMemory :
    Nat → FhT → FhEnum → FhMemory → Checked FhMemory
  | 0, _, _, _ =>
      .error .divergence
  | fuel + 1, fh, fhe, memory =>
      if fhEnumIsValid fhe ≠ 0 then
        match fhEnumGetValue fhe with
        | (none, _) =>
            .ok memory
        | (some element, _) => do
            let key := element.key.map FhKey.string
            let memory ← delMemory fh key memory
            let (fh, _) ← fhDel fh key
            cleanLoopMemory fuel fh (fhEnumMoveNext fhe).1 memory
      else
        enumDestroyMemory fhe memory

/-- The requests and releases of `fh_clean`. -/
def cleanMemory
    (fh : FhT)
    (withDelFunc : Bool)
    (grants : EnumGrants)
    (memory : FhMemory) : Checked FhMemory :=
  if fh.hMagic ≠ fhMagicId then
    .ok memory
  else if withDelFunc = true ∧ fh.table.hDatalen ≠ fhDatalenVoidp then
    .ok memory
  else do
    let memory ← enumCreateMemory fh grants memory
    match ← fhEnumCreate fh 0 grants with
    | (_, .error _) =>
        .ok memory
    | (fh, .ok fhe) =>
        cleanLoopMemory (fhe.elemList.length + 1) fh fhe memory

/-- The requests and releases of a call. -/
def callMemory
    (fh : FhT)
    (memory : FhMemory) : TableCall → Checked FhMemory
  | .setattr attr value granted =>
      setattrMemory fh attr value granted memory
  | .insert key block grants =>
      .ok (insertionMemory fh key block grants memory)
  | .insertlock key block slotGiven _ grants =>
      if slotGiven = false then
        .ok memory
      else
        .ok (insertionMemory fh key block grants memory)
  | .del key =>
      delMemory fh key memory
  | .dellocked key lockedBucket =>
      dellockedMemory fh key lockedBucket memory
  | .get _ | .searchlock _ | .releaselock _ =>
      .ok memory
  | .clean withDelFunc grants =>
      cleanMemory fh withDelFunc grants memory

/-- Make one call on a table and the memory it is in. -/
def storedStep
    (stored : FhT × FhMemory)
    (call : TableCall) : Checked ((FhT × FhMemory) × TableResult) := do
  let (next, result) ← tableStep stored.1 call
  let memory ← callMemory stored.1 stored.2 call
  .ok ((next, memory), result)

/-- A pool of locks is freed if there is one. -/
def releasePool
    (pool : Option LockPool)
    (place : MemoryPlace)
    (memory : FhMemory) : Checked FhMemory :=
  match pool with
  | none =>
      .ok memory
  | some _ =>
      memory.release place

/-- `fh_destroy`: the memory that is left, and the code. -/
def fhDestroy
    (stored : FhT × FhMemory)
    (grants : EnumGrants) : Checked (FhMemory × Int) :=
  if stored.1.hMagic ≠ fhMagicId then
    .ok (stored.2, fhBadHandle)
  else do
    let ((fh, memory), _) ← storedStep stored (.clean false grants)
    let memory ← memory.release .hashTable
    let memory ← releasePool fh.locks.rwLock .rwLock memory
    let memory ← releasePool fh.locks.hLock .hLock memory
    let memory ← memory.release .handle
    .ok (memory, fhOk)

end Effects

/-- No slot of a table has a key. -/
def FhTable.Keyless (table : FhTable) : Prop :=
  ∀ index,
    ∀ bucket ∈ table.hashTable index,
      ∀ position, (bucket.slot position).key = none

/--
A call that stops a table from copying its keys is made when there are none, if
the counter says so.
-/
def TableCall.KnowsEmpty
    (fh : FhT) : TableCall → Prop
  | .setattr .dontcopykey _ _ =>
      fh.hElements < 1 → fh.table.Keyless
  | _ =>
      True

/--
The memory contains what a table points to, beside some other blocks; the
handle has the given blocks of its own.
-/
structure FhT.StoredIn
    (fh : FhT)
    (own others : MemoryPlace → Option FhCell)
    (memory : FhMemory) : Prop where
  magic : fh.hMagic = fhMagicId
  keeps : memory.Keeps (fh.table.cells others)
  shaped : fh.table.Shaped
  own : fh.locks.cells = own

/-- The memory contains what a table points to, its locks among it. -/
structure FhT.Owns
    (fh : FhT)
    (memory : FhMemory) : Prop where
  stored : fh.StoredIn fh.locks.cells fh.locks.cells memory
  pooled : fh.locks.cells .rwLock = none → fh.locks.cells .hLock = some .block

section Pools

variable {locks next : FhLocks} {pool : Option LockPool} {lock slot : Nat}
  {after : LockPool}

/-- A lock is taken from a pool that exists. -/
theorem takeLock_some
    (takes : takeLock pool lock = .ok after) :
    ∃ before, pool = some before := by
  cases pool with
  | none =>
      cases takes
  | some before =>
      exact ⟨before, rfl⟩

/-- A lock is given back to a pool that exists. -/
theorem dropLock_some
    (gives : dropLock pool lock = .ok after) :
    ∃ before, pool = some before := by
  cases pool with
  | none =>
      cases gives
  | some before =>
      exact ⟨before, rfl⟩

/-- Which locks are taken does not change what a handle has. -/
theorem lock_cells
    {function : LockFunction}
    (takes : locks.lock function slot = .ok next) :
    next.cells = locks.cells := by
  unfold FhLocks.lock at takes
  cases function with
  | fhLock | fhRdlock | fhWrlock =>
      obtain ⟨after, takesIt, same⟩ := Checked.bind_eq_ok.mp takes
      cases same
      obtain ⟨before, isPool⟩ := takeLock_some takesIt
      funext place
      cases place <;> simp [FhLocks.cells, isPool]

/-- Giving a lock back does not change what a handle has. -/
theorem unlock_cells
    (gives : locks.unlock slot = .ok next) :
    next.cells = locks.cells := by
  unfold FhLocks.unlock at gives
  split at gives
  all_goals
    obtain ⟨after, givesIt, same⟩ := Checked.bind_eq_ok.mp gives
    cases same
    obtain ⟨before, isPool⟩ := dropLock_some givesIt
    funext place
    cases place <;> simp [FhLocks.cells, isPool]

end Pools

section Calls

variable {fh next : FhT} {own others : MemoryPlace → Option FhCell}
  {memory : FhMemory} {key : Option CString} {block : Option Block}
  {grants : InsertGrants} {code : Int}

/-- The counter and which locks are taken do not matter. -/
theorem FhT.StoredIn.of_same
    (stored : fh.StoredIn own others memory)
    (magic : next.hMagic = fh.hMagic)
    (same : next.table = fh.table)
    (locks : next.locks.cells = fh.locks.cells) :
    next.StoredIn own others memory where
  magic :=
    magic.trans stored.magic
  keeps := by
    rw [same]
    exact stored.keeps
  shaped := by
    rw [same]
    exact stored.shaped
  own :=
    locks.trans stored.own

/-- Counting a deletion changes nothing in memory. -/
theorem FhT.StoredIn.countDeletion
    (stored : fh.StoredIn own others memory)
    (code : Int) :
    (Fh.countDeletion fh code).1.StoredIn own others memory := by
  unfold Fh.countDeletion
  split
  · exact stored.of_same rfl rfl rfl
  · exact stored

/-- An insertion keeps in memory what the table has. -/
theorem FhT.StoredIn.insert
    (stored : fh.StoredIn own others memory)
    (inserts : fhInsert fh key block grants = .ok (next, code)) :
    next.StoredIn own others
      (insertionMemory fh key block grants memory) := by
  rw [fhInsert.eq_def, if_neg (not_not.mpr stored.magic)] at inserts
  rw [insertionMemory.eq_def, if_neg (not_not.mpr stored.magic)]
  cases key with
  | none =>
      cases inserts
      exact stored
  | some key =>
      obtain ⟨held, takes, rest⟩ := Checked.bind_eq_ok.mp inserts
      obtain ⟨⟨table, outcome⟩, locked, rest⟩ := Checked.bind_eq_ok.mp rest
      obtain ⟨locks, gives, same⟩ := Checked.bind_eq_ok.mp rest
      obtain ⟨keeps, shaped⟩ :=
        insertMemory_keeps stored.shaped stored.keeps locked
      have sameOwn : locks.cells = own :=
        (unlock_cells gives).trans ((lock_cells takes).trans stored.own)
      cases outcome with
      | error code =>
          cases same
          exact ⟨stored.magic, keeps, shaped, sameOwn⟩
      | ok address =>
          cases same
          exact ⟨stored.magic, keeps, shaped, sameOwn⟩

/-- An insertion that may keep the lock keeps in memory what the table has. -/
theorem FhT.StoredIn.insertlock
    {addrGiven : Bool}
    {result : LockedResult}
    (stored : fh.StoredIn own others memory)
    (inserts :
      fhInsertlock fh key block true addrGiven grants = .ok (next, result)) :
    next.StoredIn own others
      (insertionMemory fh key block grants memory) := by
  rw [fhInsertlock.eq_def, if_neg (not_not.mpr stored.magic)] at inserts
  rw [insertionMemory.eq_def, if_neg (not_not.mpr stored.magic)]
  cases key with
  | none =>
      cases inserts
      exact stored
  | some key =>
      simp only [Bool.true_eq_false, if_false] at inserts
      obtain ⟨held, takes, rest⟩ := Checked.bind_eq_ok.mp inserts
      obtain ⟨⟨table, outcome⟩, locked, rest⟩ := Checked.bind_eq_ok.mp rest
      obtain ⟨keeps, shaped⟩ :=
        insertMemory_keeps stored.shaped stored.keeps locked
      have heldOwn : held.cells = own :=
        (lock_cells takes).trans stored.own
      cases outcome with
      | error code =>
          obtain ⟨locks, gives, same⟩ := Checked.bind_eq_ok.mp rest
          cases same
          exact ⟨stored.magic, keeps, shaped,
            (unlock_cells gives).trans heldOwn⟩
      | ok address =>
          cases rest
          exact ⟨stored.magic, keeps, shaped, heldOwn⟩

/-- A deletion frees what the table no longer has. -/
theorem FhT.StoredIn.del
    (stored : fh.StoredIn own others memory)
    (deletes : fhDel fh key = .ok (next, code)) :
    ∃ freed,
      delMemory fh key memory = .ok freed ∧
        next.StoredIn own others freed := by
  rw [fhDel.eq_def, if_neg (not_not.mpr stored.magic)] at deletes
  rw [delMemory.eq_def, if_neg (not_not.mpr stored.magic)]
  cases key with
  | none =>
      cases deletes
      exact ⟨memory, rfl, stored⟩
  | some key =>
      obtain ⟨held, takes, rest⟩ := Checked.bind_eq_ok.mp deletes
      obtain ⟨⟨table, found⟩, locked, rest⟩ := Checked.bind_eq_ok.mp rest
      obtain ⟨locks, gives, same⟩ := Checked.bind_eq_ok.mp rest
      obtain ⟨freed, frees, keeps, shaped⟩ :=
        delUnlockedMemory_keeps stored.shaped stored.keeps locked
      have after :
          FhT.StoredIn
            { fh with
              table := table
              locks := locks }
            own others freed :=
        ⟨stored.magic, keeps, shaped,
          (unlock_cells gives).trans ((lock_cells takes).trans stored.own)⟩
      have counted := after.countDeletion found
      rw [Except.ok.inj same] at counted
      exact ⟨freed, frees, counted⟩

/-- A deletion under a lock frees what the table no longer has. -/
theorem FhT.StoredIn.dellocked
    {lockedBucket : Nat}
    (stored : fh.StoredIn own others memory)
    (deletes : fhDellocked fh key lockedBucket = .ok (next, code)) :
    ∃ freed,
      dellockedMemory fh key lockedBucket memory = .ok freed ∧
        next.StoredIn own others freed := by
  rw [fhDellocked.eq_def, if_neg (not_not.mpr stored.magic)] at deletes
  rw [dellockedMemory.eq_def, if_neg (not_not.mpr stored.magic)]
  cases key with
  | none =>
      cases deletes
      exact ⟨memory, rfl, stored⟩
  | some key =>
      obtain ⟨⟨table, found⟩, locked, same⟩ := Checked.bind_eq_ok.mp deletes
      obtain ⟨freed, frees, keeps, shaped⟩ :=
        delUnlockedMemory_keeps stored.shaped stored.keeps locked
      have after :
          FhT.StoredIn
            { fh with
              table := table }
            own others freed :=
        ⟨stored.magic, keeps, shaped, stored.own⟩
      have counted := after.countDeletion found
      rw [Except.ok.inj same] at counted
      exact ⟨freed, frees, counted⟩

/-- Reading a key changes nothing in memory. -/
theorem FhT.StoredIn.get
    {object : Option OpaqueObj}
    (stored : fh.StoredIn own others memory)
    (gets : fhGet fh key = .ok (next, object, code)) :
    next.StoredIn own others memory := by
  rw [fhGet.eq_def, if_neg (not_not.mpr stored.magic)] at gets
  cases key with
  | none =>
      cases gets
      exact stored
  | some key =>
      obtain ⟨held, takes, rest⟩ := Checked.bind_eq_ok.mp gets
      obtain ⟨found, -, rest⟩ := Checked.bind_eq_ok.mp rest
      obtain ⟨locks, gives, same⟩ := Checked.bind_eq_ok.mp rest
      have sameOwn := (unlock_cells gives).trans (lock_cells takes)
      cases found with
      | none =>
          cases same
          exact stored.of_same rfl rfl sameOwn
      | some slot =>
          cases same
          exact stored.of_same rfl rfl sameOwn

/-- A search that may keep the lock changes nothing in memory. -/
theorem FhT.StoredIn.searchlock
    {result : LockedResult}
    (stored : fh.StoredIn own others memory)
    (searches : fhSearchlock fh key = .ok (next, result)) :
    next.StoredIn own others memory := by
  rw [fhSearchlock.eq_def, if_neg (not_not.mpr stored.magic)] at searches
  cases key with
  | none =>
      cases searches
      exact stored
  | some key =>
      obtain ⟨held, takes, rest⟩ := Checked.bind_eq_ok.mp searches
      obtain ⟨found, -, rest⟩ := Checked.bind_eq_ok.mp rest
      cases found with
      | none =>
          obtain ⟨locks, gives, same⟩ := Checked.bind_eq_ok.mp rest
          cases same
          exact stored.of_same rfl rfl
            ((unlock_cells gives).trans (lock_cells takes))
      | some slot =>
          cases rest
          exact stored.of_same rfl rfl (lock_cells takes)

/-- Giving a lock back changes nothing in memory. -/
theorem FhT.StoredIn.releaselock
    {slot : Nat}
    (stored : fh.StoredIn own others memory)
    (releases : fhReleaselock fh slot = .ok (next, code)) :
    next.StoredIn own others memory := by
  rw [fhReleaselock, if_neg (not_not.mpr stored.magic)] at releases
  obtain ⟨locks, gives, same⟩ := Checked.bind_eq_ok.mp releases
  cases same
  exact stored.of_same rfl rfl (unlock_cells gives)

end Calls

section Attributes

variable {fh : FhT} {memory : FhMemory}

/-- A table without keys is shaped for any choice of copying them. -/
theorem ChainShaped.keyless
    {chain : List FhBucket}
    {dontcopykey : Bool}
    {datalen : Int}
    {nextBucket : Nat}
    (shaped : ChainShaped dontcopykey datalen nextBucket chain)
    (keyless :
      ∀ bucket ∈ chain, ∀ position, (bucket.slot position).key = none)
    (chosen : Bool) :
    ChainShaped chosen datalen nextBucket chain where
  slots bucket member position :=
    { cleared := (shaped.slots bucket member position).cleared
      key := by
        intro key isKey
        rw [keyless bucket member position] at isKey
        cases isKey
      object := (shaped.slots bucket member position).object }
  distinct :=
    shaped.distinct
  below :=
    shaped.below

/-- The cells of a handle of which the locks were exchanged. -/
theorem cells_userwlocks
    (table : FhTable)
    (locks : FhLocks)
    {next : FhLocks}
    (noMutexes : next.hLock = none)
    (hasRwlocks : next.rwLock.isSome = true) :
    table.cells next.cells =
      Function.update
        (Function.update (table.cells locks.cells) .rwLock (some .block))
        .hLock none := by
  obtain ⟨pool, isPool⟩ := Option.isSome_iff_exists.mp hasRwlocks
  funext place
  cases place <;>
    simp [FhTable.cells, FhLocks.cells, noMutexes, isPool]

/-- Setting an attribute exchanges the locks or changes nothing in memory. -/
theorem FhT.Owns.setattr
    {attr : SetAttr}
    {value : Int}
    {granted : Bool}
    (owns : fh.Owns memory)
    (knows : (TableCall.setattr attr value granted).KnowsEmpty fh) :
    ∃ after,
      setattrMemory fh attr value granted memory = .ok after ∧
        (fhSetattr fh attr value granted).1.Owns after := by
  have shaped := owns.stored.shaped
  unfold fhSetattr setattrMemory
  rw [if_neg (not_not.mpr owns.stored.magic),
    if_neg (not_not.mpr owns.stored.magic)]
  cases attr with
  | dontcopykey =>
      dsimp only
      split
      next =>
        exact ⟨memory, rfl, owns⟩
      next noElements =>
        have keyless : fh.table.Keyless := knows (by omega)
        refine ⟨memory, rfl, ⟨owns.stored.magic, owns.stored.keeps, ?_, rfl⟩,
          owns.pooled⟩
        exact fun index => (shaped index).keyless (keyless index) _
  | userwlocks =>
      dsimp only
      split
      next =>
        exact ⟨memory, rfl, owns⟩
      next =>
        split
        next =>
          exact ⟨memory, rfl, owns⟩
        next unset =>
          split
          next =>
            exact ⟨memory, rfl, owns⟩
          next =>
            have noRwlocks : fh.locks.rwLock = none := by
              simpa using not_or.mp unset |>.1
            have noCell : fh.table.cells fh.locks.cells .rwLock = none := by
              simp [FhTable.cells, FhLocks.cells, noRwlocks]
            have isHeld :
                Function.update (fh.table.cells fh.locks.cells) .rwLock
                    (some .block) .hLock =
                  some .block := by
              rw [Function.update_of_ne (by simp)]
              apply owns.pooled
              simp [FhLocks.cells, noRwlocks]
            obtain ⟨after, frees, keeps⟩ :=
              (owns.stored.keeps.acquire noCell .block).release isHeld
            refine ⟨after, frees, ⟨owns.stored.magic, ?_, ?_, rfl⟩, ?_⟩
            · rw [← cells_userwlocks fh.table fh.locks] at keeps
              · exact keeps
              · rfl
              · rfl
            · intro index
              have same := userwlocks_dontcopykey fh.table.hAttr
              have kept := shaped index
              simp only [FhTable.dontcopykey] at kept ⊢
              rw [same]
              exact kept
            · intro noPool
              cases noPool
  | other =>
      exact ⟨memory, rfl, owns⟩

end Attributes

section Clean

variable {fh next : FhT} {own others : MemoryPlace → Option FhCell}
  {memory : FhMemory} {fhe : FhEnum}

/-- An enumerator and its list, beside some other blocks. -/
def withEnum
    (others : MemoryPlace → Option FhCell) : MemoryPlace → Option FhCell
  | .enumHandle | .elemList =>
      some .block
  | place =>
      others place

/-- An enumerator that was created and was not destroyed. -/
structure FhEnum.Live (fhe : FhEnum) : Prop where
  magic : fhe.magic = fheMagicId
  valid : fhe.isValid = 0 ∨ fhe.isValid = 1

/-- Creating an enumerator changes nothing else in memory. -/
theorem recordChains_cells
    {table : FhTable}
    {elements : Nat}
    {indices : List Nat}
    {recorded elems : List FhElem}
    {locks after : FhLocks}
    (records :
      recordChains table elements indices locks recorded =
        .ok (after, elems)) :
    after.cells = locks.cells := by
  induction indices generalizing locks recorded with
  | nil =>
      cases records
      rfl
  | cons index rest inductionHypothesis =>
      rw [recordChains] at records
      by_cases hasRoom : recorded.length < elements
      · rw [if_pos hasRoom] at records
        obtain ⟨held, takes, records⟩ := Checked.bind_eq_ok.mp records
        obtain ⟨given, gives, records⟩ := Checked.bind_eq_ok.mp records
        rw [inductionHypothesis records, unlock_cells gives,
          lock_cells takes]
      · rw [if_neg hasRoom] at records
        cases records
        rfl

/-- Taking the enumerator away leaves the other blocks. -/
theorem withEnum_removed
    (table : FhTable)
    (noHandle : others .enumHandle = none)
    (noList : others .elemList = none) :
    Function.update
        (Function.update (table.cells (withEnum others)) .elemList none)
        .enumHandle none =
      table.cells others := by
  funext place
  cases place <;> simp [FhTable.cells, withEnum, noHandle, noList]

/-- Creating an enumerator adds its two blocks, or it leaves none of them. -/
theorem enumCreate_stored
    {sortOrder : Int}
    {grants : EnumGrants}
    {result : Except Int FhEnum}
    (stored : fh.StoredIn fh.locks.cells fh.locks.cells memory)
    (creates : fhEnumCreate fh sortOrder grants = .ok (next, result)) :
    ∃ after,
      enumCreateMemory fh grants memory = .ok after ∧
        match result with
        | .error _ =>
            next.StoredIn fh.locks.cells fh.locks.cells after
        | .ok fhe =>
            next.StoredIn fh.locks.cells (withEnum fh.locks.cells) after ∧
              fhe.Live := by
  have noHandle : fh.table.cells fh.locks.cells .enumHandle = none :=
    rfl
  have handleKeeps := stored.keeps.acquire noHandle .block
  rw [fhEnumCreate, if_neg (not_not.mpr stored.magic)] at creates
  rw [enumCreateMemory, if_neg (not_not.mpr stored.magic)]
  split at creates
  next noElements =>
    cases creates
    exact ⟨memory, if_pos noElements, stored⟩
  next hasElements =>
    rw [if_neg hasElements]
    split at creates
    next refused =>
      cases creates
      exact ⟨memory, if_pos refused, stored⟩
    next granted =>
      rw [if_neg granted]
      split at creates
      next refused =>
        cases creates
        obtain ⟨after, frees, keeps⟩ :=
          handleKeeps.release (Function.update_self ..)
        refine ⟨after, (if_pos refused).trans frees, stored.magic, ?_,
          stored.shaped, rfl⟩
        rw [Function.update_idem, update_none noHandle] at keeps
        exact keeps
      next granted =>
        obtain ⟨⟨locks, recorded⟩, records, rest⟩ :=
          Checked.bind_eq_ok.mp creates
        obtain ⟨sorted, -, same⟩ := Checked.bind_eq_ok.mp rest
        cases same
        have noList :
            Function.update (fh.table.cells fh.locks.cells) .enumHandle
                (some .block) .elemList =
              none :=
          rfl
        have listKeeps := handleKeeps.acquire noList .block
        have isCells :
            Function.update
                (Function.update (fh.table.cells fh.locks.cells) .enumHandle
                  (some .block))
                .elemList (some .block) =
              fh.table.cells (withEnum fh.locks.cells) := by
          funext place
          cases place <;> simp [FhTable.cells, withEnum]
        rw [isCells] at listKeeps
        exact ⟨_, if_neg granted,
          ⟨stored.magic, listKeeps, stored.shaped,
            recordChains_cells records⟩,
          rfl, .inr rfl⟩

/-- Moving on, an enumerator stays one. -/
theorem FhEnum.Live.moveNext
    (live : fhe.Live) :
    (fhEnumMoveNext fhe).1.Live := by
  rw [fhEnumMoveNext, if_neg (not_not.mpr live.magic)]
  split
  · exact ⟨live.magic, .inl rfl⟩
  · exact ⟨live.magic, live.valid⟩

/-- The loop of `fh_clean` frees what it deletes and then its enumerator. -/
theorem cleanLoop_stored
    {User : Type}
    {delFunc : Option (DelFunc User)}
    {fuel : Nat}
    {result code : Int}
    {user released : User}
    (stored : fh.StoredIn own (withEnum own) memory)
    (live : fhe.Live)
    (cleans :
      fhCleanLoop delFunc fuel fh fhe result user =
        .ok (next, code, released)) :
    ∃ freed,
      cleanLoopMemory fuel fh fhe memory = .ok freed ∧
        next.StoredIn own own freed := by
  induction fuel generalizing fh fhe memory result user with
  | zero =>
      cases cleans
  | succ fuel inductionHypothesis =>
      rw [fhCleanLoop] at cleans
      rw [cleanLoopMemory]
      rcases live.valid with isOver | isValid
      · have isZero : fhEnumIsValid fhe = 0 := by
          rw [fhEnumIsValid, if_neg (not_not.mpr live.magic), isOver]
        rw [if_neg (not_not.mpr isZero)] at cleans ⊢
        cases cleans
        rw [enumDestroyMemory, if_neg (not_not.mpr live.magic)]
        have hasList :
            next.table.cells (withEnum own) .elemList = some .block :=
          rfl
        obtain ⟨withoutList, freesList, listKeeps⟩ :=
          stored.keeps.release hasList
        have hasHandle :
            Function.update (next.table.cells (withEnum own)) .elemList none
                .enumHandle =
              some .block :=
          rfl
        obtain ⟨freed, frees, keeps⟩ := listKeeps.release hasHandle
        rw [withEnum_removed _ (by rw [← stored.own]; rfl)
          (by rw [← stored.own]; rfl)] at keeps
        exact ⟨freed, by rw [freesList]; exact frees,
          stored.magic, keeps, stored.shaped, stored.own⟩
      · have isOne : fhEnumIsValid fhe = 1 := by
          rw [fhEnumIsValid, if_neg (not_not.mpr live.magic), isValid]
        have hasValue :
            fhEnumGetValue fhe =
              (some (fhe.elemList.getD fhe.idx FhElem.zero), none) := by
          rw [fhEnumGetValue, if_neg (not_not.mpr live.magic),
            if_pos isValid]
        rw [isOne, if_pos (by decide), hasValue] at cleans ⊢
        obtain ⟨⟨middle, deleted⟩, deletes, rest⟩ :=
          Checked.bind_eq_ok.mp cleans
        obtain ⟨withoutEntry, frees, middleStored⟩ := stored.del deletes
        obtain ⟨freed, laterFrees, finalStored⟩ :=
          inductionHypothesis middleStored live.moveNext rest
        refine ⟨freed, ?_, finalStored⟩
        simp only [frees, deletes, Checked.ok_bind]
        exact laterFrees

/-- Cleaning frees the entries it deletes and leaves no enumerator. -/
theorem FhT.StoredIn.clean
    {withDelFunc : Bool}
    {grants : EnumGrants}
    {code : Int}
    {delFunc : Option (DelFunc Unit)}
    {released : Unit}
    (stored : fh.StoredIn fh.locks.cells fh.locks.cells memory)
    (hasFunction : delFunc.isSome = withDelFunc)
    (cleans : fhClean fh delFunc grants () = .ok (next, code, released)) :
    ∃ freed,
      cleanMemory fh withDelFunc grants memory = .ok freed ∧
        next.StoredIn fh.locks.cells fh.locks.cells freed := by
  rw [fhClean, if_neg (not_not.mpr stored.magic), hasFunction] at cleans
  rw [cleanMemory, if_neg (not_not.mpr stored.magic)]
  split at cleans
  next refused =>
    cases cleans
    exact ⟨memory, if_pos refused, stored⟩
  next allowed =>
    rw [if_neg allowed]
    obtain ⟨⟨middle, created⟩, creates, rest⟩ := Checked.bind_eq_ok.mp cleans
    obtain ⟨listed, lists, middleStored⟩ := enumCreate_stored stored creates
    simp only [lists, creates, Checked.ok_bind]
    cases created with
    | error code =>
        cases rest
        exact ⟨listed, rfl, middleStored⟩
    | ok fhe =>
        exact cleanLoop_stored middleStored.1 middleStored.2 rest

end Clean

section Runs

variable {fh next final : FhT} {memory : FhMemory} {dim : Int32}
  {datalen : Int} {hashFunction : CString → UInt64} {grants : CreateGrants}
  {calls : List TableCall} {results : List TableResult}

/-- The first request of `fh_create`. -/
theorem createMemory_chains :
    (Holdings.empty.acquire .hashTable .block : FhMemory).Keeps
      (Function.update (fun _ => none) .hashTable (some .block)) := by
  have noBlocks : (Holdings.empty : FhMemory).Keeps fun _ => none :=
    Holdings.keeps_empty
  exact noBlocks.acquire rfl .block

/-- The first two requests of `fh_create`. -/
theorem createMemory_handle :
    ((Holdings.empty.acquire .hashTable .block : FhMemory).acquire .handle
          .block).Keeps
      (Function.update
        (Function.update (fun _ => none) .hashTable (some .block)) .handle
        (some .block)) :=
  createMemory_chains.acquire rfl .block

/-- A refused `fh_create` frees what it was granted. -/
theorem createMemory_refused
    (refused : fhCreate dim datalen hashFunction grants = .ok none) :
    ∃ left,
      createMemory dim grants = .ok left ∧
        left.heap.freed.Perm (List.range left.heap.next) := by
  obtain ⟨size, sizes, rest⟩ := Checked.bind_eq_ok.mp refused
  simp only [createMemory, sizes, Checked.ok_bind]
  simp only at rest
  split at rest
  next noChains =>
    have keeps : (Holdings.empty : FhMemory).Keeps fun _ => none :=
      Holdings.keeps_empty
    rw [if_pos noChains]
    exact ⟨_, rfl, keeps.freed_perm fun _ => rfl⟩
  next chains =>
    rw [if_neg chains]
    split at rest
    next noHandle =>
      rw [if_pos noHandle]
      obtain ⟨left, frees, keeps⟩ :=
        createMemory_chains.release (Function.update_self ..)
      rw [Function.update_idem, Function.update_eq_self_iff.mpr rfl] at keeps
      exact ⟨left, frees, keeps.freed_perm fun _ => rfl⟩
    next handle =>
      rw [if_neg handle]
      split at rest
      next noPool =>
        rw [if_pos noPool]
        have hasTable :
            Function.update
                (Function.update (fun _ => none) MemoryPlace.hashTable
                  (some FhCell.block))
                .handle (some .block) .hashTable =
              some .block :=
          rfl
        obtain ⟨noTable, freesTable, tableKeeps⟩ :=
          createMemory_handle.release hasTable
        have hasHandle :
            Function.update
                (Function.update
                  (Function.update (fun _ => none) MemoryPlace.hashTable
                    (some FhCell.block))
                  .handle (some .block))
                .hashTable none .handle =
              some .block :=
          rfl
        obtain ⟨left, freesHandle, keeps⟩ := tableKeeps.release hasHandle
        refine ⟨left, by simp only [freesTable, freesHandle, Checked.ok_bind],
          keeps.freed_perm ?_⟩
        intro place
        cases place <;> rfl
      next =>
        cases rest

/-- A new table owns its blocks. -/
theorem createMemory_owns
    (created : fhCreate dim datalen hashFunction grants = .ok (some fh)) :
    ∃ start, createMemory dim grants = .ok start ∧ fh.Owns start := by
  obtain ⟨size, sizes, rest⟩ := Checked.bind_eq_ok.mp created
  simp only [createMemory, sizes, Checked.ok_bind]
  simp only at rest
  split at rest
  next =>
    cases rest
  next chains =>
    split at rest
    next =>
      cases rest
    next handle =>
      split at rest
      next =>
        cases rest
      next lockPool =>
        cases rest
        rw [if_neg chains, if_neg handle, if_neg lockPool]
        have noPool :
            Function.update
                (Function.update (fun _ => none) MemoryPlace.hashTable
                  (some FhCell.block))
                .handle (some .block) .hLock =
              none :=
          rfl
        have keeps := createMemory_handle.acquire noPool .block
        refine ⟨_, rfl, ⟨rfl, ?_, ?_, rfl⟩, fun _ => rfl⟩
        · have areCells :
              Function.update
                  (Function.update
                    (Function.update (fun _ => none) MemoryPlace.hashTable
                      (some FhCell.block))
                    .handle (some .block))
                  .hLock (some .block) =
                (createdFh dim size.toInt32.toInt.toNat datalen
                  hashFunction).cells := by
            funext place
            cases place with
            | chain index place =>
                cases place <;> rfl
            | _ =>
                rfl
          rw [areCells] at keeps
          exact keeps
        · intro index
          exact ⟨by simp [createdFh], List.nodup_nil, by simp [createdFh]⟩

/-- The blocks of a handle are the same after a call that keeps its pools. -/
theorem FhT.Owns.of_stored
    {after : FhMemory}
    (owns : fh.Owns memory)
    (stored : next.StoredIn fh.locks.cells fh.locks.cells after) :
    next.Owns after where
  stored := by
    rw [stored.own]
    exact stored
  pooled := by
    rw [stored.own]
    exact owns.pooled

/-- Every call that returns leaves in memory what the table has. -/
theorem FhT.Owns.step
    {call : TableCall}
    {result : TableResult}
    (owns : fh.Owns memory)
    (knows : call.KnowsEmpty fh)
    (steps : tableStep fh call = .ok (next, result)) :
    ∃ after,
      callMemory fh memory call = .ok after ∧ next.Owns after := by
  have stored := owns.stored
  cases call with
  | setattr attr value granted =>
      cases steps
      exact owns.setattr knows
  | insert key block grants =>
      obtain ⟨⟨after, code⟩, inserts, same⟩ := Checked.bind_eq_ok.mp steps
      cases same
      exact ⟨_, rfl, owns.of_stored (stored.insert inserts)⟩
  | insertlock key block slotGiven addrGiven grants =>
      obtain ⟨⟨after, locked⟩, inserts, same⟩ := Checked.bind_eq_ok.mp steps
      cases same
      cases slotGiven with
      | false =>
          have unchanged : next = fh := by
            rw [fhInsertlock.eq_def, if_neg (not_not.mpr stored.magic)]
              at inserts
            cases key with
            | none =>
                cases inserts
                rfl
            | some key =>
                cases inserts
                rfl
          exact ⟨memory, rfl, unchanged ▸ owns⟩
      | true =>
          exact ⟨_, rfl, owns.of_stored (stored.insertlock inserts)⟩
  | del key =>
      obtain ⟨⟨after, code⟩, deletes, same⟩ := Checked.bind_eq_ok.mp steps
      cases same
      obtain ⟨freed, frees, kept⟩ := stored.del deletes
      exact ⟨freed, frees, owns.of_stored kept⟩
  | dellocked key lockedBucket =>
      obtain ⟨⟨after, code⟩, deletes, same⟩ := Checked.bind_eq_ok.mp steps
      cases same
      obtain ⟨freed, frees, kept⟩ := stored.dellocked deletes
      exact ⟨freed, frees, owns.of_stored kept⟩
  | get key =>
      obtain ⟨⟨after, object, error⟩, gets, same⟩ :=
        Checked.bind_eq_ok.mp steps
      cases same
      exact ⟨memory, rfl, owns.of_stored (stored.get gets)⟩
  | searchlock key =>
      obtain ⟨⟨after, locked⟩, searches, same⟩ := Checked.bind_eq_ok.mp steps
      cases same
      exact ⟨memory, rfl, owns.of_stored (stored.searchlock searches)⟩
  | releaselock slot =>
      obtain ⟨⟨after, code⟩, releases, same⟩ := Checked.bind_eq_ok.mp steps
      cases same
      exact ⟨memory, rfl, owns.of_stored (stored.releaselock releases)⟩
  | clean withDelFunc grants =>
      obtain ⟨⟨after, code, released⟩, cleans, same⟩ :=
        Checked.bind_eq_ok.mp steps
      cases same
      have hasFunction :
          Option.isSome
              (if withDelFunc = true then
                some fun _ _ user => user
              else
                none : Option (DelFunc Unit)) =
            withDelFunc := by
        cases withDelFunc <;> rfl
      obtain ⟨freed, frees, kept⟩ := stored.clean hasFunction cleans
      exact ⟨freed, frees, owns.of_stored kept⟩

/-- A run of calls beside its memory. -/
theorem FhT.Owns.run
    (owns : fh.Owns memory)
    (knows :
      AlwaysAllowed (StepOf tableStep) (fun fh call => call.KnowsEmpty fh) fh
        calls)
    (runs : runCalls tableStep fh calls = .ok (final, results)) :
    ∃ after,
      runCalls storedStep (fh, memory) calls =
          .ok ((final, after), results) ∧
        final.Owns after := by
  induction calls generalizing fh memory results with
  | nil =>
      cases runs
      exact ⟨memory, rfl, owns⟩
  | cons call rest inductionHypothesis =>
      obtain ⟨callKnows, restKnows⟩ := knows
      obtain ⟨⟨middle, result⟩, steps, later⟩ := Checked.bind_eq_ok.mp runs
      obtain ⟨⟨last, laterResults⟩, laterRuns, same⟩ :=
        Checked.bind_eq_ok.mp later
      cases same
      obtain ⟨between, calls, middleOwns⟩ := owns.step callKnows steps
      obtain ⟨after, storedRuns, finalOwns⟩ :=
        inductionHypothesis middleOwns (restKnows result middle steps)
          laterRuns
      have storedSteps :
          storedStep (fh, memory) call = .ok ((middle, between), result) := by
        simp only [storedStep, steps, calls, Checked.ok_bind]
      exact ⟨after, runCalls_cons storedSteps storedRuns, finalOwns⟩

/-- A call that half writes no slot knows when the table is empty. -/
theorem FhT.InUse.knowsEmpty
    (inUse : fh.InUse)
    (call : TableCall) :
    call.KnowsEmpty fh := by
  cases call with
  | setattr attr value granted =>
      cases attr with
      | dontcopykey =>
          intro noElements index bucket member
          obtain ⟨map, -, stores, -⟩ := inUse
          have noEntries : fh.table.entries = [] := by
            have counted := stores.counted
            apply List.eq_nil_of_length_eq_zero
            omega
          rw [stores.ok.chains_nil noEntries] at member
          cases member
      | userwlocks | other =>
          trivial
  | _ =>
      trivial

/-- In a run without half written slots the counter is right about emptiness. -/
theorem FhT.InUse.alwaysKnows
    (inUse : fh.InUse)
    (safe :
      AlwaysAllowed (StepOf tableStep) (fun fh call => call.Safe fh) fh
        calls) :
    AlwaysAllowed (StepOf tableStep) (fun fh call => call.KnowsEmpty fh) fh
      calls := by
  induction calls generalizing fh with
  | nil =>
      trivial
  | cons call rest inductionHypothesis =>
      obtain ⟨callSafe, restSafe⟩ := safe
      exact ⟨inUse.knowsEmpty call, fun result next steps =>
        inductionHypothesis (inUse.step callSafe steps)
          (restSafe result next steps)⟩

end Runs

section Destruction

variable {fh next : FhT} {memory : FhMemory}

/-- A pool of locks is freed, or there is none. -/
theorem releasePool_keeps
    {contents : MemoryPlace → Option FhCell}
    {pool : Option LockPool}
    {place : MemoryPlace}
    (keeps : memory.Keeps contents)
    (isPool : contents place = pool.map fun _ => .block) :
    ∃ freed,
      releasePool pool place memory = .ok freed ∧
        freed.Keeps (Function.update contents place none) := by
  cases pool with
  | none =>
      rw [update_none isPool]
      exact ⟨memory, rfl, keeps⟩
  | some pool =>
      exact keeps.release isPool

/-- Destroying a table leaves in memory what cleaning leaves in its chains. -/
theorem FhT.Owns.destroy
    {grants : EnumGrants}
    {result : TableResult}
    (owns : fh.Owns memory)
    (cleans : tableStep fh (.clean false grants) = .ok (next, result)) :
    ∃ left,
      fhDestroy (fh, memory) grants = .ok (left, fhOk) ∧
        left.Keeps (next.table.cells fun _ => none) := by
  have knows : (TableCall.clean false grants).KnowsEmpty fh :=
    trivial
  obtain ⟨cleaned, frees, after⟩ := owns.step knows cleans
  have hasTable :
      next.table.cells next.locks.cells .hashTable = some .block :=
    rfl
  obtain ⟨noTable, freesTable, tableKeeps⟩ :=
    after.stored.keeps.release hasTable
  have rwlocks :
      Function.update (next.table.cells next.locks.cells) .hashTable none
          .rwLock =
        next.locks.rwLock.map fun _ => .block :=
    rfl
  obtain ⟨noRwlocks, freesRwlocks, rwlockKeeps⟩ :=
    releasePool_keeps tableKeeps rwlocks
  have mutexes :
      Function.update
          (Function.update (next.table.cells next.locks.cells) .hashTable
            none)
          .rwLock none .hLock =
        next.locks.hLock.map fun _ => .block :=
    rfl
  obtain ⟨noMutexes, freesMutexes, mutexKeeps⟩ :=
    releasePool_keeps rwlockKeeps mutexes
  have hasHandle :
      Function.update
          (Function.update
            (Function.update (next.table.cells next.locks.cells) .hashTable
              none)
            .rwLock none)
          .hLock none .handle =
        some .block :=
    rfl
  obtain ⟨left, freesHandle, leftKeeps⟩ := mutexKeeps.release hasHandle
  refine ⟨left, ?_, ?_⟩
  · rw [fhDestroy, if_neg (not_not.mpr owns.stored.magic)]
    simp only [storedStep, cleans, frees, freesTable, freesRwlocks,
      freesMutexes, freesHandle, Checked.ok_bind]
  · have onlyChains :
        Function.update
            (Function.update
              (Function.update
                (Function.update (next.table.cells next.locks.cells)
                  .hashTable none)
                .rwLock none)
              .hLock none)
            .handle none =
          next.table.cells fun _ => none := by
      funext place
      cases place <;> simp [FhTable.cells, FhLocks.cells]
    rw [← onlyChains]
    exact leftKeeps

/-- Cleaning changes nothing when the enumerator is refused. -/
theorem clean_unchanged
    {map : CString → Option (Option OpaqueObj)}
    {grants : EnumGrants}
    {code : Int}
    (stores : fh.Stores map)
    (refused : fhEnumCreate fh 0 grants = .ok (fh, .error code)) :
    tableStep fh (.clean false grants) = .ok (fh, .code code) := by
  simp [tableStep, fhClean, stores.magic, refused]

/-- A table with an entry has a bucket in memory. -/
theorem exists_bucket
    {table : FhTable}
    (nonempty : table.entries ≠ []) :
    ∃ index address,
      chainCells (table.hashTable index) (.bucket address) = some .block := by
  by_contra noBucket
  have chainsNil : ∀ index, table.hashTable index = [] := by
    intro index
    cases isChain : table.hashTable index with
    | nil =>
        rfl
    | cons bucket rest =>
        have isFirst :
            chainCells (table.hashTable index) (.bucket bucket.address) =
              some .block := by
          simp [chainCells, isChain, bucketAt]
        exact (noBucket ⟨index, bucket.address, isFirst⟩).elim
  apply nonempty
  exact gather_eq_nil fun index _ => by rw [chainsNil index]; rfl

/-- When no chain has a bucket, `fh_destroy` frees every block. -/
theorem chainless_freed
    {left : FhMemory}
    (keeps : left.Keeps (next.table.cells fun _ => none))
    (chainsNil : ∀ index, next.table.hashTable index = []) :
    left.heap.freed.Perm (List.range left.heap.next) := by
  apply keeps.freed_perm
  intro place
  cases place with
  | chain index place =>
      simp only [FhTable.cells, chainsNil]
      cases place <;> rfl
  | _ =>
      rfl

/--
`fh_destroy` on a table that was not half written, when no lock is held: it
returns, and every block was freed exactly if there were no entries or the
enumerator was granted.
-/
theorem FhT.Owns.destroy_frees_iff
    (inUse : fh.InUse)
    (free : fh.locks.Free)
    (owns : fh.Owns memory)
    (grants : EnumGrants) :
    ∃ left,
      fhDestroy (fh, memory) grants = .ok (left, fhOk) ∧
        (left.heap.freed.Perm (List.range left.heap.next) ↔
          fh.table.entries = [] ∨ grants = .all) := by
  obtain ⟨map, -, stores, -⟩ := inUse
  rcases fhEnumCreate_refused stores 0 grants with
      ⟨code, refused⟩ | ⟨rfl, nonempty⟩
  · obtain ⟨left, destroys, keeps⟩ :=
      owns.destroy (clean_unchanged stores refused)
    refine ⟨left, destroys, ?_⟩
    by_cases noEntries : fh.table.entries = []
    · have chainsNil := stores.ok.chains_nil noEntries
      exact ⟨fun _ => .inl noEntries, fun _ => chainless_freed keeps chainsNil⟩
    · have notAll : grants ≠ .all := by
        rintro rfl
        rw [fhEnumCreate_eq stores free noEntries] at refused
        cases refused
      obtain ⟨index, address, isBlock⟩ := exists_bucket noEntries
      have isHeld :
          fh.table.cells (fun _ => none) (.chain index (.bucket address)) =
            some .block :=
        isBlock
      exact ⟨fun allFreed => (keeps.not_freed_perm isHeld allFreed).elim,
        fun granted => (granted.elim noEntries notAll).elim⟩
  · obtain ⟨next, visits, cleans, becomes, -⟩ :=
      fhClean_visits (none : Option (DelFunc Unit)) () stores free (.inl rfl)
        nonempty
    have steps :
        tableStep fh (.clean false .all) = .ok (next, .code fhOk) := by
      simp [tableStep, cleans]
    obtain ⟨left, destroys, keeps⟩ := owns.destroy steps
    have noEntries : next.table.entries = [] :=
      List.Perm.eq_nil (becomes.stores.binds.unique .nil)
    exact ⟨left, destroys, fun _ => .inr rfl,
      fun _ => chainless_freed keeps (becomes.stores.ok.chains_nil noEntries)⟩

end Destruction

section Lifetime

variable {fh final : FhT} {dim : Int32} {datalen : Int}
  {hashFunction : CString → UInt64} {grants : CreateGrants}
  {calls : List TableCall} {results : List TableResult}

/--
Whatever memory is refused to its calls, a table frees no block twice and none
it does not hold, and after each run the blocks in memory are those the table
points to: its handle and locks, its buckets, the copies of its keys and objects.
-/
theorem table_memory
    (created : fhCreate dim datalen hashFunction grants = .ok (some fh))
    (knows :
      AlwaysAllowed (StepOf tableStep) (fun fh call => call.KnowsEmpty fh) fh
        calls)
    (runs : runCalls tableStep fh calls = .ok (final, results)) :
    ∃ start memory,
      createMemory dim grants = .ok start ∧
        runCalls storedStep (fh, start) calls =
          .ok ((final, memory), results) ∧
        memory.Keeps final.cells := by
  obtain ⟨start, creates, owns⟩ := createMemory_owns created
  obtain ⟨memory, storedRuns, finalOwns⟩ := owns.run knows runs
  exact ⟨start, memory, creates, storedRuns, finalOwns.stored.keeps⟩

/-- A copy is refused, the locks are exchanged and an enumerator is refused. -/
theorem table_memory_refused :
    ∃ final results start memory,
      runCalls tableStep (createdFh 1 1 fhDatalenString fun _ => 7)
            [.insert (some ⟨[97], by decide⟩) (some ⟨4096, [120, 0]⟩) .all,
              .insert (some ⟨[98], by decide⟩) (some ⟨8192, [121, 0]⟩)
                { InsertGrants.all with
                  opaqueObj := false },
              .setattr .userwlocks 1 true,
              .clean false
                { EnumGrants.all with
                  elemList := false },
              .del (some ⟨[97], by decide⟩)] =
          .ok (final, results) ∧
        createMemory 1 .all = .ok start ∧
        runCalls storedStep
            (createdFh 1 1 fhDatalenString fun _ => 7, start)
            [.insert (some ⟨[97], by decide⟩) (some ⟨4096, [120, 0]⟩) .all,
              .insert (some ⟨[98], by decide⟩) (some ⟨8192, [121, 0]⟩)
                { InsertGrants.all with
                  opaqueObj := false },
              .setattr .userwlocks 1 true,
              .clean false
                { EnumGrants.all with
                  elemList := false },
              .del (some ⟨[97], by decide⟩)] =
          .ok ((final, memory), results) ∧
        memory.Keeps final.cells ∧
        final.cells (.chain 0 (.key (0, 1))) =
          some (.key ⟨[98], by decide⟩) := by
  have returns :
      ∃ final results,
        runCalls tableStep (createdFh 1 1 fhDatalenString fun _ => 7)
              [.insert (some ⟨[97], by decide⟩) (some ⟨4096, [120, 0]⟩) .all,
                .insert (some ⟨[98], by decide⟩) (some ⟨8192, [121, 0]⟩)
                  { InsertGrants.all with
                    opaqueObj := false },
                .setattr .userwlocks 1 true,
                .clean false
                  { EnumGrants.all with
                    elemList := false },
                .del (some ⟨[97], by decide⟩)] =
            .ok (final, results) ∧
          final.cells (.chain 0 (.key (0, 1))) =
            some (.key ⟨[98], by decide⟩) :=
    ⟨_, _, rfl, rfl⟩
  obtain ⟨final, results, runs, isLeft⟩ := returns
  have isCreated :
      fhCreate 1 fhDatalenString (fun _ => 7) .all =
        .ok (some (createdFh 1 1 fhDatalenString fun _ => 7)) :=
    rfl
  obtain ⟨start, memory, creates, storedRuns, keeps⟩ :=
    table_memory isCreated
      (alwaysAllowed_of_forall (by simp [TableCall.KnowsEmpty]) _) runs
  exact ⟨final, results, start, memory, runs, creates, storedRuns, keeps,
    isLeft⟩

example :
    ∃ start final memory results,
      createMemory 1 .all = .ok start ∧
        runCalls storedStep
            (createdFh 1 1 fhDatalenString fun _ => 7, start)
            [.insert (some ⟨[97], by decide⟩) (some ⟨4096, [120, 0]⟩)
                { InsertGrants.all with
                  opaqueObj := false },
              .setattr .dontcopykey 1 true,
              .del (some ⟨[97], by decide⟩)] =
          .ok ((final, memory), results) ∧
        memory.held (.chain 0 (.key (0, 0))) = some 4 ∧
        final.table.hashTable 0 = [] :=
  ⟨_, _, _, _, rfl, rfl, rfl, rfl⟩

/--
After a run that half writes no slot and holds no lock, `fh_destroy` returns,
and all that was allocated was freed, once each, exactly if the table was empty
or the enumerator that empties it was granted.
-/
theorem table_destroyed_iff
    (created : fhCreate dim datalen hashFunction grants = .ok (some fh))
    (safe :
      AlwaysAllowed (StepOf tableStep) (fun fh call => call.Safe fh) fh
        calls)
    (runs : runCalls tableStep fh calls = .ok (final, results))
    (free : final.locks.Free)
    (enumGrants : EnumGrants) :
    ∃ start memory left,
      createMemory dim grants = .ok start ∧
        runCalls storedStep (fh, start) calls =
          .ok ((final, memory), results) ∧
        fhDestroy (final, memory) enumGrants = .ok (left, fhOk) ∧
        (left.heap.freed.Perm (List.range left.heap.next) ↔
          final.table.entries = [] ∨ enumGrants = .all) := by
  have inUse := createdFh_inUse created
  obtain ⟨start, creates, owns⟩ := createMemory_owns created
  obtain ⟨memory, storedRuns, finalOwns⟩ :=
    owns.run (inUse.alwaysKnows safe) runs
  obtain ⟨left, destroys, freesAll⟩ :=
    finalOwns.destroy_frees_iff (inUse.run safe runs) free enumGrants
  exact ⟨start, memory, left, creates, storedRuns, destroys, freesAll⟩

/-- Without memory for the enumerator, a table with one key is not all freed. -/
theorem table_destroyed_refused :
    ∃ final results start memory left,
      createMemory 1 .all = .ok start ∧
        runCalls storedStep (createdFh 1 1 fhDatalenVoidp fun _ => 7, start)
            [.insert (some ⟨[97], by decide⟩) none .all] =
          .ok ((final, memory), results) ∧
        fhDestroy (final, memory)
            { EnumGrants.all with
              elemList := false } =
          .ok (left, fhOk) ∧
        ¬ left.heap.freed.Perm (List.range left.heap.next) := by
  have returns :
      ∃ final results,
        runCalls tableStep (createdFh 1 1 fhDatalenVoidp fun _ => 7)
              [.insert (some ⟨[97], by decide⟩) none .all] =
            .ok (final, results) ∧
          final.table.entries ≠ [] ∧
          ∃ pool, final.locks.Uses pool ∧ pool = fun _ => false :=
    ⟨_, _, rfl, by decide, _, .mutexes, by
      funext lock
      simp [Function.update_apply]⟩
  obtain ⟨final, results, runs, nonempty, pool, free, rfl⟩ := returns
  have isCreated :
      fhCreate 1 fhDatalenVoidp (fun _ => 7) .all =
        .ok (some (createdFh 1 1 fhDatalenVoidp fun _ => 7)) :=
    rfl
  have granted :
      ∀ call ∈ [TableCall.insert (some ⟨[97], by decide⟩) none .all],
        ∀ fh, call.Safe fh := by
    intro call member fh
    apply TableCall.Granted.safe
    rw [List.mem_singleton.mp member]
    rfl
  obtain ⟨start, memory, left, creates, storedRuns, destroys, freesAll⟩ :=
    table_destroyed_iff isCreated (alwaysAllowed_of_forall granted _) runs
      free
      { EnumGrants.all with
        elemList := false }
  refine ⟨final, results, start, memory, left, creates, storedRuns, destroys,
    ?_⟩
  rw [freesAll]
  rintro (isEmpty | allGranted)
  · exact nonempty isEmpty
  · cases allGranted

end Lifetime

end Clibs.Fh
