import Clibs.Fh.Map

namespace Clibs.Fh

/-!
# Runs of single calls

A thread makes any calls one after the other, with any outcome of their
allocations, and may keep the lock of a chain from one call to a later one.  A
call that would block on a lock the thread itself holds does not return.
`FhT.InUse` is kept by every call that returns and does not stop between
claiming a slot and storing a copy in it.
-/

/-- A call on a hash table, with the outcome of its allocations. -/
inductive TableCall where
  | setattr (attr : SetAttr) (value : Int) (granted : Bool)
  | insert (key : Option CString) (block : Option Block) (grants : InsertGrants)
  | insertlock
      (key : Option CString)
      (block : Option Block)
      (slotGiven addrGiven : Bool)
      (grants : InsertGrants)
  | del (key : Option CString)
  | dellocked (key : Option CString) (lockedBucket : Nat)
  | get (key : Option CString)
  | searchlock (key : Option CString)
  | releaselock (slot : Nat)
  | clean (withDelFunc : Bool) (grants : EnumGrants)
  deriving Repr, DecidableEq

/-- What a call returns and stores for its caller. -/
inductive TableResult where
  | code (code : Int)
  | object (opaqueObj : Option OpaqueObj) (error : Int)
  | locked (result : LockedResult)
  deriving Repr, DecidableEq

/-- Make one call. -/
def tableStep
    (fh : FhT) : TableCall → Checked (FhT × TableResult)
  | .setattr attr value granted =>
      let (fh, code) := fhSetattr fh attr value granted
      .ok (fh, .code code)
  | .insert key block grants => do
      let (fh, code) ← fhInsert fh key block grants
      .ok (fh, .code code)
  | .insertlock key block slotGiven addrGiven grants => do
      let (fh, result) ← fhInsertlock fh key block slotGiven addrGiven grants
      .ok (fh, .locked result)
  | .del key => do
      let (fh, code) ← fhDel fh key
      .ok (fh, .code code)
  | .dellocked key lockedBucket => do
      let (fh, code) ← fhDellocked fh key lockedBucket
      .ok (fh, .code code)
  | .get key => do
      let (fh, object, error) ← fhGet fh key
      .ok (fh, .object object error)
  | .searchlock key => do
      let (fh, result) ← fhSearchlock fh key
      .ok (fh, .locked result)
  | .releaselock slot => do
      let (fh, code) ← fhReleaselock fh slot
      .ok (fh, .code code)
  | .clean withDelFunc grants => do
      let delFunc : Option (DelFunc Unit) :=
        if withDelFunc then some fun _ _ user => user else none
      let (fh, code, _) ← fhClean fh delFunc grants ()
      .ok (fh, .code code)

/-- The copy of the key or of the block fails. -/
def FhTable.CopyFails
    (table : FhTable)
    (key : CString)
    (block : Option Block)
    (grants : InsertGrants) : Prop :=
  table.slotKey key grants.key = none ∨
    ∃ code,
      blockObject table.hDatalen block grants.opaqueObj = .error code

/--
An insertion that claims a slot and then cannot copy what belongs there: the
lock of the chain is free, the key is new, there is a place for it, and a copy
fails.
-/
def FhT.HalfWrites
    (fh : FhT)
    (key : CString)
    (block : Option Block)
    (grants : InsertGrants) : Prop :=
  (∃ held, fh.locks.wlock (fh.table.indexOf key) = .ok held) ∧
    (∀ object, (key, object) ∉ fh.table.entries) ∧
    (grants.bucket = true ∨
      ¬ ChainFull (fh.table.hashTable (fh.table.indexOf key))) ∧
    fh.table.CopyFails key block grants

/-- A call that does not leave a claimed slot half written. -/
def TableCall.Safe
    (fh : FhT) : TableCall → Prop
  | .insert (some key) block grants =>
      ¬ fh.HalfWrites key block grants
  | .insertlock (some key) block true _ grants =>
      ¬ fh.HalfWrites key block grants
  | _ =>
      True

/-- All allocations of a call succeed. -/
def TableCall.Granted : TableCall → Prop
  | .setattr _ _ granted =>
      granted = true
  | .insert _ _ grants =>
      grants = .all
  | .insertlock _ _ _ _ grants =>
      grants = .all
  | .clean _ grants =>
      grants = .all
  | _ =>
      True

/-- The table stands for a map, and some of its locks may be taken. -/
def FhT.InUse (fh : FhT) : Prop :=
  ∃ map pool, fh.Stores map ∧ fh.locks.Uses pool

section Locks

variable {locks next : FhLocks}
  {pool : LockPool}
  {slot : Nat}

/-- The locks stay in their mode when one is taken. -/
theorem FhLocks.Uses.of_lock
    (uses : locks.Uses pool)
    {function : LockFunction}
    (isMode : function = locks.rlockF ∨ function = locks.wlockF)
    (takes : locks.lock function slot = .ok next) :
    ∃ other, next.Uses other := by
  cases uses with
  | mutexes =>
      obtain rfl : function = .fhLock := by simpa using isMode
      obtain ⟨other, -, same⟩ := Checked.bind_eq_ok.mp takes
      cases same
      exact ⟨other, .mutexes⟩
  | @rwlocks hLock nLock =>
      rcases isMode with rfl | rfl
      · obtain ⟨other, -, same⟩ := Checked.bind_eq_ok.mp takes
        cases same
        exact ⟨other, .rwlocks⟩
      · obtain ⟨other, -, same⟩ := Checked.bind_eq_ok.mp takes
        cases same
        exact ⟨other, .rwlocks⟩

/-- The locks stay in their mode when one is released. -/
theorem FhLocks.Uses.of_unlock
    (uses : locks.Uses pool)
    (gives : locks.unlock slot = .ok next) :
    ∃ other, next.Uses other := by
  cases uses with
  | mutexes =>
      obtain ⟨other, -, same⟩ := Checked.bind_eq_ok.mp gives
      cases same
      exact ⟨other, .mutexes⟩
  | rwlocks =>
      obtain ⟨other, -, same⟩ := Checked.bind_eq_ok.mp gives
      cases same
      exact ⟨other, .rwlocks⟩

/-- Taking a lock does not fail an assertion. -/
theorem takeLock_avoids
    (pool : Option LockPool)
    (lock : Nat) :
    (takeLock pool lock).Avoids .assertionFailed := by
  unfold takeLock Checked.Avoids
  split
  · simp
  · split <;> simp

/-- Releasing a lock does not fail an assertion. -/
theorem dropLock_avoids
    (pool : Option LockPool)
    (lock : Nat) :
    (dropLock pool lock).Avoids .assertionFailed := by
  unfold dropLock Checked.Avoids
  split
  · simp
  · split <;> simp

/-- A lock function does not fail an assertion. -/
theorem FhLocks.lock_avoids
    (locks : FhLocks)
    (function : LockFunction)
    (slot : Nat) :
    (locks.lock function slot).Avoids .assertionFailed := by
  cases function with
  | fhLock =>
      exact Checked.Avoids.bind (takeLock_avoids _ _) fun _ _ => Checked.avoids_ok _ _
  | fhRdlock =>
      exact Checked.Avoids.bind (takeLock_avoids _ _) fun _ _ => Checked.avoids_ok _ _
  | fhWrlock =>
      exact Checked.Avoids.bind (takeLock_avoids _ _) fun _ _ => Checked.avoids_ok _ _

/-- An unlock function does not fail an assertion. -/
theorem FhLocks.unlock_avoids
    (locks : FhLocks)
    (slot : Nat) :
    (locks.unlock slot).Avoids .assertionFailed := by
  unfold FhLocks.unlock
  cases locks.unlockF with
  | fhUnlock =>
      exact Checked.Avoids.bind (dropLock_avoids _ _) fun _ _ => Checked.avoids_ok _ _
  | fhRwunlock =>
      exact Checked.Avoids.bind (dropLock_avoids _ _) fun _ _ => Checked.avoids_ok _ _

end Locks

section Insert

/-- A slot is left half written by a copy that fails. -/
theorem filledSlot_fails
    {table : FhTable}
    {miniHash : UInt8}
    {key : CString}
    {block : Option Block}
    {grants : InsertGrants}
    {slot : FhSlot}
    {code : Int}
    (fills : filledSlot table miniHash key block grants = (slot, some code)) :
    table.CopyFails key block grants := by
  unfold filledSlot at fills
  cases isKey : table.slotKey key grants.key with
  | none =>
      exact .inl isKey
  | some stored =>
      cases isObject :
          blockObject table.hDatalen block grants.opaqueObj with
      | error other =>
          exact .inr ⟨other, isObject⟩
      | ok object =>
          simp [isKey, isObject] at fills

variable {fh : FhT}
  {key : CString}
  {block : Option Block}
  {grants : InsertGrants}

/-- The counter after an insertion: one that filled a slot is counted. -/
def elementsAfter
    (elements : Int) : Except Int SlotAddress → Int
  | .ok _ =>
      elements + 1
  | .error _ =>
      elements

/-- Where an insertion that was counted, or refused, leaves the table. -/
theorem FhT.Stores.after_insert
    {map : CString → Option (Option OpaqueObj)}
    (stores : fh.Stores map)
    {table : FhTable}
    {outcome : Except Int SlotAddress}
    (outcomes :
      InsertOutcome fh.table key block grants table outcome)
    (whole :
      (∀ object, (key, object) ∉ fh.table.entries) →
      (grants.bucket = true ∨
        ¬ ChainFull (fh.table.hashTable (fh.table.indexOf key))) →
      ¬ fh.table.CopyFails key block grants)
    (locks : FhLocks) :
    ∃ next,
      FhT.Stores
        { fh with
          hElements := elementsAfter fh.hElements outcome
          table := table
          locks := locks }
        next := by
  cases outcomes with
  | duplicate member =>
      exact ⟨map, stores.of_same rfl rfl fh.table.sameSettings_collision rfl
        (Nat.le_refl _)⟩
  | noBucket absent same chains grows =>
      exact ⟨map, stores.of_same rfl rfl same chains grows⟩
  | inserted absent isKey isObject sameKey inserted =>
      subst sameKey
      exact ⟨_, stores.inserted inserted
        (stores.binds.unbound.mpr absent) locks⟩
  | halfWritten absent memory fills placed =>
      exact (whole absent memory (filledSlot_fails fills)).elim

end Insert

section InUse

variable {fh next : FhT}

/-- Which locks are taken is not part of what a table stands for. -/
theorem FhT.Stores.withLocks
    {map : CString → Option (Option OpaqueObj)}
    (stores : fh.Stores map)
    (locks : FhLocks) :
    FhT.Stores
      { fh with
        locks := locks }
      map :=
  stores.of_same rfl rfl (.refl fh.table) rfl (Nat.le_refl _)

/-- The magic number of a table in use. -/
theorem FhT.InUse.magic
    (inUse : fh.InUse) :
    fh.hMagic = fhMagicId := by
  obtain ⟨map, pool, stores, -⟩ := inUse
  exact stores.magic

/-- The invariant of a table in use. -/
theorem FhT.InUse.ok
    (inUse : fh.InUse) :
    fh.table.Ok := by
  obtain ⟨map, pool, stores, -⟩ := inUse
  exact stores.ok

/-- A table in use stays in use when one of its locks is taken. -/
theorem FhT.InUse.of_lock
    (inUse : fh.InUse)
    {function : LockFunction}
    {slot : Nat}
    {held : FhLocks}
    (isMode : function = fh.locks.rlockF ∨ function = fh.locks.wlockF)
    (takes : fh.locks.lock function slot = .ok held) :
    FhT.InUse
      { fh with
        locks := held } := by
  obtain ⟨map, pool, stores, uses⟩ := inUse
  exact ⟨map, (uses.of_lock isMode takes).choose, stores.withLocks held,
    (uses.of_lock isMode takes).choose_spec⟩

/-- A table in use stays in use when one of its locks is released. -/
theorem FhT.InUse.of_unlock
    (inUse : fh.InUse)
    {locks : FhLocks}
    {slot : Nat}
    (gives : fh.locks.unlock slot = .ok locks) :
    FhT.InUse
      { fh with
        locks := locks } := by
  obtain ⟨map, pool, stores, uses⟩ := inUse
  obtain ⟨other, nextUses⟩ := uses.of_unlock gives
  exact ⟨map, other, stores.withLocks locks, nextUses⟩

/-- The table after the locked section of an insertion that was whole. -/
theorem FhT.InUse.after_insert
    {held : FhLocks}
    {key : CString}
    {block : Option Block}
    {grants : InsertGrants}
    {table : FhTable}
    {outcome : Except Int SlotAddress}
    (inUse : fh.InUse)
    (takes : fh.locks.wlock (fh.table.indexOf key) = .ok held)
    (safe : ¬ fh.HalfWrites key block grants)
    (outcomes :
      InsertOutcome fh.table key block grants table outcome) :
    FhT.InUse
      { fh with
        hElements := elementsAfter fh.hElements outcome
        table := table
        locks := held } := by
  obtain ⟨map, pool, stores, uses⟩ := inUse
  obtain ⟨other, heldUses⟩ := uses.of_lock (.inr rfl) takes
  obtain ⟨nextMap, nextStores⟩ :=
    stores.after_insert outcomes
      (fun absent memory fails =>
        safe ⟨⟨held, takes⟩, absent, memory, fails⟩)
      held
  exact ⟨nextMap, other, nextStores, heldUses⟩

/-- An insertion keeps a table in use. -/
theorem FhT.InUse.insert
    {key : Option CString}
    {block : Option Block}
    {grants : InsertGrants}
    {code : Int}
    (inUse : fh.InUse)
    (safe : (TableCall.insert key block grants).Safe fh)
    (inserts : fhInsert fh key block grants = .ok (next, code)) :
    next.InUse := by
  cases key with
  | none =>
      rw [fhInsert, if_neg (not_not.mpr inUse.magic)] at inserts
      cases inserts
      exact inUse
  | some key =>
      rw [fhInsert, if_neg (not_not.mpr inUse.magic)] at inserts
      obtain ⟨held, takes, rest⟩ := Checked.bind_eq_ok.mp inserts
      obtain ⟨table, outcome, locked, outcomes⟩ :=
        insertSlot_outcome inUse.ok.okFor key block grants
      rw [locked, Checked.ok_bind] at rest
      obtain ⟨locks, gives, same⟩ := Checked.bind_eq_ok.mp rest
      have after := inUse.after_insert takes safe outcomes
      cases outcome with
      | error code =>
          cases same
          exact after.of_unlock gives
      | ok address =>
          cases same
          exact after.of_unlock gives

/-- An insertion that keeps the lock keeps a table in use. -/
theorem FhT.InUse.insertlock
    {key : Option CString}
    {block : Option Block}
    {slotGiven addrGiven : Bool}
    {grants : InsertGrants}
    {result : LockedResult}
    (inUse : fh.InUse)
    (safe :
      (TableCall.insertlock key block slotGiven addrGiven grants).Safe fh)
    (inserts :
      fhInsertlock fh key block slotGiven addrGiven grants =
        .ok (next, result)) :
    next.InUse := by
  cases key with
  | none =>
      rw [fhInsertlock, if_neg (not_not.mpr inUse.magic)] at inserts
      cases inserts
      exact inUse
  | some key =>
      rw [fhInsertlock, if_neg (not_not.mpr inUse.magic)] at inserts
      cases slotGiven with
      | false =>
          cases inserts
          exact inUse
      | true =>
          obtain ⟨held, takes, rest⟩ := Checked.bind_eq_ok.mp inserts
          obtain ⟨table, outcome, locked, outcomes⟩ :=
            insertSlot_outcome inUse.ok.okFor key block grants
          rw [locked, Checked.ok_bind] at rest
          have after := inUse.after_insert takes safe outcomes
          cases outcome with
          | error code =>
              obtain ⟨locks, gives, same⟩ := Checked.bind_eq_ok.mp rest
              cases same
              exact after.of_unlock gives
          | ok address =>
              cases rest
              exact after

/-- The table after the locked section of a deletion and its count. -/
theorem FhT.InUse.after_delete
    {key : CString}
    {index : Nat}
    {table : FhTable}
    {code : Int}
    (inUse : fh.InUse)
    (outcomes : DeleteOutcome fh.table key index table code) :
    (countDeletion
        { fh with
          table := table }
        code).1.InUse := by
  obtain ⟨map, pool, stores, uses⟩ := inUse
  cases outcomes with
  | deleted isIndex sameKey deleted =>
      rw [countDeletion_index]
      exact ⟨_, pool, stores.deleted deleted fh.locks, uses⟩
  | missing absent =>
      exact ⟨map, pool, stores, uses⟩

/-- A deletion keeps a table in use. -/
theorem FhT.InUse.del
    {key : Option CString}
    {code : Int}
    (inUse : fh.InUse)
    (deletes : fhDel fh key = .ok (next, code)) :
    next.InUse := by
  cases key with
  | none =>
      rw [fhDel, if_neg (not_not.mpr inUse.magic)] at deletes
      cases deletes
      exact inUse
  | some key =>
      rw [fhDel, if_neg (not_not.mpr inUse.magic)] at deletes
      obtain ⟨held, takes, rest⟩ := Checked.bind_eq_ok.mp deletes
      obtain ⟨table, found, locked, outcomes⟩ :=
        fhDelUnlocked_outcome inUse.ok.okFor key
          (inUse.ok.okFor.indexOf_lt key)
      rw [FhTable.indexOf] at locked
      simp only [locked, Checked.ok_bind] at rest
      obtain ⟨locks, gives, same⟩ := Checked.bind_eq_ok.mp rest
      have after :
          (countDeletion
              { fh with
                table := table
                locks := locks }
              found).1.InUse :=
        ((inUse.of_lock (.inr rfl) takes).of_unlock gives).after_delete
          outcomes
      rw [Except.ok.inj same] at after
      exact after

/-- A deletion under a lock keeps a table in use. -/
theorem FhT.InUse.dellocked
    {key : Option CString}
    {lockedBucket : Nat}
    {code : Int}
    (inUse : fh.InUse)
    (deletes : fhDellocked fh key lockedBucket = .ok (next, code)) :
    next.InUse := by
  cases key with
  | none =>
      rw [fhDellocked, if_neg (not_not.mpr inUse.magic)] at deletes
      cases deletes
      exact inUse
  | some key =>
      rw [fhDellocked, if_neg (not_not.mpr inUse.magic)] at deletes
      by_cases inRange : lockedBucket < fh.table.hDim
      · obtain ⟨table, found, locked, outcomes⟩ :=
          fhDelUnlocked_outcome inUse.ok.okFor key inRange
        simp only [locked, Checked.ok_bind] at deletes
        have after := inUse.after_delete outcomes
        rw [Except.ok.inj deletes] at after
        exact after
      · simp [fhDelUnlocked, inRange] at deletes

/-- Reading a key keeps a table in use. -/
theorem FhT.InUse.get
    {key : Option CString}
    {object : Option OpaqueObj}
    {code : Int}
    (inUse : fh.InUse)
    (gets : fhGet fh key = .ok (next, object, code)) :
    next.InUse := by
  cases key with
  | none =>
      rw [fhGet, if_neg (not_not.mpr inUse.magic)] at gets
      cases gets
      exact inUse
  | some key =>
      rw [fhGet, if_neg (not_not.mpr inUse.magic)] at gets
      obtain ⟨held, takes, rest⟩ := Checked.bind_eq_ok.mp gets
      obtain ⟨found, -, rest⟩ := Checked.bind_eq_ok.mp rest
      obtain ⟨locks, gives, same⟩ := Checked.bind_eq_ok.mp rest
      have after := (inUse.of_lock (.inl rfl) takes).of_unlock gives
      cases found with
      | none =>
          cases same
          exact after
      | some slot =>
          cases same
          exact after

/-- A search that keeps the lock keeps a table in use. -/
theorem FhT.InUse.searchlock
    {key : Option CString}
    {result : LockedResult}
    (inUse : fh.InUse)
    (searches : fhSearchlock fh key = .ok (next, result)) :
    next.InUse := by
  cases key with
  | none =>
      rw [fhSearchlock, if_neg (not_not.mpr inUse.magic)] at searches
      cases searches
      exact inUse
  | some key =>
      rw [fhSearchlock, if_neg (not_not.mpr inUse.magic)] at searches
      obtain ⟨held, takes, rest⟩ := Checked.bind_eq_ok.mp searches
      obtain ⟨found, -, rest⟩ := Checked.bind_eq_ok.mp rest
      have after := inUse.of_lock (.inr rfl) takes
      cases found with
      | none =>
          obtain ⟨locks, gives, same⟩ := Checked.bind_eq_ok.mp rest
          cases same
          exact after.of_unlock gives
      | some slot =>
          cases rest
          exact after

/-- Releasing a lock keeps a table in use. -/
theorem FhT.InUse.releaselock
    {slot : Nat}
    {code : Int}
    (inUse : fh.InUse)
    (releases : fhReleaselock fh slot = .ok (next, code)) :
    next.InUse := by
  rw [fhReleaselock, if_neg (not_not.mpr inUse.magic)] at releases
  obtain ⟨locks, gives, same⟩ := Checked.bind_eq_ok.mp releases
  cases same
  exact inUse.of_unlock gives

/-- The scan of an enumeration keeps a table in use. -/
theorem FhT.InUse.recordChains
    {elements : Nat}
    {indices : List Nat}
    {recorded elems : List FhElem}
    {locks : FhLocks}
    (inUse : fh.InUse)
    (records :
      recordChains fh.table elements indices fh.locks recorded =
        .ok (locks, elems)) :
    FhT.InUse
      { fh with
        locks := locks } := by
  induction indices generalizing fh recorded with
  | nil =>
      cases records
      exact inUse
  | cons index rest inductionHypothesis =>
      rw [Fh.recordChains] at records
      by_cases hasRoom : recorded.length < elements
      · rw [if_pos hasRoom] at records
        obtain ⟨held, takes, records⟩ := Checked.bind_eq_ok.mp records
        obtain ⟨given, gives, records⟩ := Checked.bind_eq_ok.mp records
        have after := (inUse.of_lock (.inr rfl) takes).of_unlock gives
        have final := inductionHypothesis after records
        exact final
      · rw [if_neg hasRoom] at records
        cases records
        exact inUse

/-- Creating an enumerator keeps a table in use. -/
theorem FhT.InUse.enumCreate
    {sortOrder : Int}
    {grants : EnumGrants}
    {result : Except Int FhEnum}
    (inUse : fh.InUse)
    (creates : fhEnumCreate fh sortOrder grants = .ok (next, result)) :
    next.InUse := by
  rw [fhEnumCreate, if_neg (not_not.mpr inUse.magic)] at creates
  split at creates
  next =>
    cases creates
    exact inUse
  next =>
    split at creates
    next =>
      cases creates
      exact inUse
    next =>
      split at creates
      next =>
        cases creates
        exact inUse
      next =>
        obtain ⟨⟨locks, recorded⟩, records, rest⟩ :=
          Checked.bind_eq_ok.mp creates
        obtain ⟨sorted, -, same⟩ := Checked.bind_eq_ok.mp rest
        cases same
        exact inUse.recordChains records

/-- The loop of `fh_clean` keeps a table in use. -/
theorem FhT.InUse.cleanLoop
    {User : Type}
    {delFunc : Option (DelFunc User)}
    {fuel : Nat}
    {fhe : FhEnum}
    {result code : Int}
    {user released : User}
    (inUse : fh.InUse)
    (cleans :
      fhCleanLoop delFunc fuel fh fhe result user =
        .ok (next, code, released)) :
    next.InUse := by
  induction fuel generalizing fh fhe result user with
  | zero =>
      cases cleans
  | succ fuel inductionHypothesis =>
      rw [fhCleanLoop] at cleans
      split at cleans
      next =>
        split at cleans
        next =>
          cases cleans
          exact inUse
        next =>
          obtain ⟨⟨middle, deleted⟩, deletes, rest⟩ :=
            Checked.bind_eq_ok.mp cleans
          exact inductionHypothesis (inUse.del deletes) rest
      next =>
        cases cleans
        exact inUse

/-- Cleaning keeps a table in use. -/
theorem FhT.InUse.clean
    {User : Type}
    {delFunc : Option (DelFunc User)}
    {grants : EnumGrants}
    {code : Int}
    {user released : User}
    (inUse : fh.InUse)
    (cleans : fhClean fh delFunc grants user = .ok (next, code, released)) :
    next.InUse := by
  rw [fhClean, if_neg (not_not.mpr inUse.magic)] at cleans
  split at cleans
  next =>
    cases cleans
    exact inUse
  next =>
    obtain ⟨⟨middle, created⟩, creates, rest⟩ := Checked.bind_eq_ok.mp cleans
    have after := inUse.enumCreate creates
    cases created with
    | error code =>
        cases rest
        exact after
    | ok fhe =>
        exact after.cleanLoop rest

/-- Every call that returns and is safe keeps a table in use. -/
theorem FhT.InUse.step
    {call : TableCall}
    {result : TableResult}
    (inUse : fh.InUse)
    (safe : call.Safe fh)
    (steps : tableStep fh call = .ok (next, result)) :
    next.InUse := by
  cases call with
  | setattr attr value granted =>
      cases steps
      obtain ⟨map, pool, stores, uses⟩ := inUse
      obtain ⟨nextStores, locks, -⟩ :=
        fhSetattr_stores stores attr value granted
      rcases locks with same | free
      · rw [← same] at uses
        exact ⟨map, pool, nextStores, uses⟩
      · exact ⟨map, _, nextStores, free⟩
  | insert key block grants =>
      obtain ⟨⟨after, code⟩, inserts, same⟩ := Checked.bind_eq_ok.mp steps
      cases same
      exact inUse.insert safe inserts
  | insertlock key block slotGiven addrGiven grants =>
      obtain ⟨⟨after, locked⟩, inserts, same⟩ := Checked.bind_eq_ok.mp steps
      cases same
      exact inUse.insertlock safe inserts
  | del key =>
      obtain ⟨⟨after, code⟩, deletes, same⟩ := Checked.bind_eq_ok.mp steps
      cases same
      exact inUse.del deletes
  | dellocked key lockedBucket =>
      obtain ⟨⟨after, code⟩, deletes, same⟩ := Checked.bind_eq_ok.mp steps
      cases same
      exact inUse.dellocked deletes
  | get key =>
      obtain ⟨⟨after, object, error⟩, gets, same⟩ :=
        Checked.bind_eq_ok.mp steps
      cases same
      exact inUse.get gets
  | searchlock key =>
      obtain ⟨⟨after, locked⟩, searches, same⟩ := Checked.bind_eq_ok.mp steps
      cases same
      exact inUse.searchlock searches
  | releaselock slot =>
      obtain ⟨⟨after, code⟩, releases, same⟩ := Checked.bind_eq_ok.mp steps
      cases same
      exact inUse.releaselock releases
  | clean withDelFunc grants =>
      obtain ⟨⟨after, code, released⟩, cleans, same⟩ :=
        Checked.bind_eq_ok.mp steps
      cases same
      exact inUse.clean cleans

/-- No copy fails when all allocations succeed. -/
theorem copyFails_granted
    (table : FhTable)
    (key : CString)
    (block : Option Block) :
    ¬ table.CopyFails key block .all := by
  rintro (noKey | ⟨code, noBlock⟩)
  · obtain ⟨stored, isKey⟩ := slotKey_granted table key
    rw [isKey] at noKey
    cases noKey
  · rw [blockObject_granted] at noBlock
    cases noBlock

/-- A call whose allocations succeed is safe. -/
theorem TableCall.Granted.safe
    {call : TableCall}
    (granted : call.Granted)
    (fh : FhT) :
    call.Safe fh := by
  cases call with
  | insert key block grants =>
      cases key with
      | none =>
          trivial
      | some key =>
          subst granted
          exact fun halfWrites => copyFails_granted _ _ _ halfWrites.2.2.2
  | insertlock key block slotGiven addrGiven grants =>
      cases key with
      | none =>
          trivial
      | some key =>
          cases slotGiven with
          | false =>
              trivial
          | true =>
              subst granted
              exact fun halfWrites => copyFails_granted _ _ _ halfWrites.2.2.2
  | _ =>
      trivial

/-- A new table is in use. -/
theorem createdFh_inUse
    {dim : Int32}
    {datalen : Int}
    {hashFunction : CString → UInt64}
    {grants : CreateGrants}
    (created : fhCreate dim datalen hashFunction grants = .ok (some fh)) :
    fh.InUse := by
  obtain ⟨bits, small, rfl⟩ := fhCreate_eq created
  obtain ⟨stores, free⟩ :=
    createdFh_stores dim (small.trans (by decide)) datalen hashFunction
  exact ⟨_, _, stores, free⟩

/-- A table is in use after every run of safe calls that returns. -/
theorem FhT.InUse.run
    (inUse : fh.InUse)
    {calls : List TableCall}
    (safe :
      AlwaysAllowed (StepOf tableStep) (fun fh call => call.Safe fh) fh calls)
    {results : List TableResult}
    (runs : runCalls tableStep fh calls = .ok (next, results)) :
    next.InUse :=
  runCalls_keeps (fun holds callSafe steps => holds.step callSafe steps) inUse
    safe runs

end InUse

end Clibs.Fh
