import Clibs.Fh.Enum
import Clibs.Fh.Sections

namespace Clibs.Fh

/-!
# What the calls do to the map of a table

`FhT.Stores fh map` says that the handle is valid, its chains satisfy the
representation invariant, its entries are the graph of the map and are counted.
A call made when the lock of its chain is free returns, keeps `Stores` for the
map its result announces, and gives the locks back, except that the calls that
keep the lock return with exactly that one taken.
-/

/-- The locks are in one of the two modes, with the given ones taken. -/
inductive FhLocks.Uses
    (pool : LockPool) : FhLocks → Prop where
  | mutexes
      {rwLock : Option LockPool}
      {nLock : Nat} :
      FhLocks.Uses pool
        { hLock := some pool
          rwLock := rwLock
          rlockF := .fhLock
          wlockF := .fhLock
          unlockF := .fhUnlock
          nLock := nLock }
  | rwlocks
      {hLock : Option LockPool}
      {nLock : Nat} :
      FhLocks.Uses pool
        { hLock := hLock
          rwLock := some pool
          rlockF := .fhRdlock
          wlockF := .fhWrlock
          unlockF := .fhRwunlock
          nLock := nLock }

/-- The locks with the given ones taken. -/
def FhLocks.withPool
    (locks : FhLocks)
    (pool : LockPool) : FhLocks :=
  match locks.unlockF with
  | .fhUnlock =>
      { locks with
        hLock := some pool }
  | .fhRwunlock =>
      { locks with
        rwLock := some pool }

/-- No lock is taken. -/
def FhLocks.Free (locks : FhLocks) : Prop :=
  locks.Uses fun _ => false

/-- The lock of a chain is not taken. -/
def FhLocks.Available
    (locks : FhLocks)
    (slot : Nat) : Prop :=
  ∃ pool, locks.Uses pool ∧ pool (slot % locks.nLock) = false

/-- The table stands for the map. -/
structure FhT.Stores
    (fh : FhT)
    (map : CString → Option (Option OpaqueObj)) : Prop where
  magic : fh.hMagic = fhMagicId
  ok : fh.table.Ok
  binds : Binds fh.table.entries map
  counted : fh.hElements = fh.table.entries.length

section Locks

variable {locks : FhLocks}
  {slot : Nat}

/-- When no lock is taken, the lock of each chain is available. -/
theorem FhLocks.Free.available
    (free : locks.Free)
    (slot : Nat) :
    locks.Available slot :=
  ⟨_, free, rfl⟩

variable {pool : LockPool}

/-- Which locks are taken does not change how many there are. -/
@[simp] theorem FhLocks.withPool_nLock
    (locks : FhLocks)
    (pool : LockPool) :
    (locks.withPool pool).nLock = locks.nLock := by
  unfold FhLocks.withPool
  split
  · rfl
  · rfl

/-- The locks in use are in their pool. -/
theorem FhLocks.Uses.withPool_self
    (uses : locks.Uses pool) :
    locks.withPool pool = locks := by
  cases uses with
  | mutexes =>
      rfl
  | rwlocks =>
      rfl

/-- Taking other locks keeps the mode. -/
theorem FhLocks.Uses.withPool
    (uses : locks.Uses pool)
    (other : LockPool) :
    (locks.withPool other).Uses other := by
  cases uses with
  | mutexes =>
      exact .mutexes
  | rwlocks =>
      exact .rwlocks

/-- The locks taken last are the ones that are taken. -/
theorem FhLocks.withPool_withPool
    (locks : FhLocks)
    (first second : LockPool) :
    (locks.withPool first).withPool second = locks.withPool second := by
  cases isMode : locks.unlockF with
  | fhUnlock =>
      simp [FhLocks.withPool, isMode]
  | fhRwunlock =>
      simp [FhLocks.withPool, isMode]

/-- A write lock that is not taken is taken. -/
theorem FhLocks.Uses.wlock
    (uses : locks.Uses pool)
    (free : pool (slot % locks.nLock) = false) :
    locks.wlock slot =
      .ok (locks.withPool
        (Function.update pool (slot % locks.nLock) true)) := by
  cases uses with
  | mutexes =>
      simp_all [FhLocks.wlock, FhLocks.lock, takeLock, FhLocks.withPool]
  | rwlocks =>
      simp_all [FhLocks.wlock, FhLocks.lock, takeLock, FhLocks.withPool]

/-- Taking a write lock that is taken blocks. -/
theorem FhLocks.Uses.wlock_taken
    (uses : locks.Uses pool)
    (taken : pool (slot % locks.nLock) = true) :
    locks.wlock slot = .error .lockAlreadyHeld := by
  cases uses with
  | mutexes =>
      simp_all [FhLocks.wlock, FhLocks.lock, takeLock]
  | rwlocks =>
      simp_all [FhLocks.wlock, FhLocks.lock, takeLock]

/-- A read lock that is not taken is taken. -/
theorem FhLocks.Uses.rlock
    (uses : locks.Uses pool)
    (free : pool (slot % locks.nLock) = false) :
    locks.rlock slot =
      .ok (locks.withPool
        (Function.update pool (slot % locks.nLock) true)) := by
  cases uses with
  | mutexes =>
      simp_all [FhLocks.rlock, FhLocks.lock, takeLock, FhLocks.withPool]
  | rwlocks =>
      simp_all [FhLocks.rlock, FhLocks.lock, takeLock, FhLocks.withPool]

/-- A lock that is taken is released. -/
theorem FhLocks.Uses.unlock
    (uses : locks.Uses pool)
    (taken : pool (slot % locks.nLock) = true) :
    locks.unlock slot =
      .ok (locks.withPool
        (Function.update pool (slot % locks.nLock) false)) := by
  cases uses with
  | mutexes =>
      simp_all [FhLocks.unlock, dropLock, FhLocks.withPool]
  | rwlocks =>
      simp_all [FhLocks.unlock, dropLock, FhLocks.withPool]

/-- A lock that was taken and is released leaves the locks as they were. -/
theorem FhLocks.Uses.taken_unlock
    (uses : locks.Uses pool)
    (free : pool (slot % locks.nLock) = false) :
    (locks.withPool
          (Function.update pool (slot % locks.nLock) true)).unlock slot =
      .ok locks := by
  have held :=
    uses.withPool (Function.update pool (slot % locks.nLock) true)
  rw [held.unlock (by simp), FhLocks.withPool_withPool,
    FhLocks.withPool_nLock, Function.update_idem, ← free,
    Function.update_eq_self, uses.withPool_self]

/-- An available write lock is taken, and released it is as before. -/
theorem FhLocks.Available.wlock
    (available : locks.Available slot) :
    ∃ held, locks.wlock slot = .ok held ∧ held.unlock slot = .ok locks := by
  obtain ⟨pool, uses, free⟩ := available
  exact ⟨_, uses.wlock free, uses.taken_unlock free⟩

/-- An available read lock is taken, and released it is as before. -/
theorem FhLocks.Available.rlock
    (available : locks.Available slot) :
    ∃ held, locks.rlock slot = .ok held ∧ held.unlock slot = .ok locks := by
  obtain ⟨pool, uses, free⟩ := available
  exact ⟨_, uses.rlock free, uses.taken_unlock free⟩

end Locks

section Entries

variable {fh : FhT}
  {map : CString → Option (Option OpaqueObj)}
  {key : CString}

/-- A bound key has an entry. -/
theorem FhT.Stores.mem_entries
    (stores : fh.Stores map)
    {object : Option OpaqueObj}
    (bound : map key = some object) :
    (key, object) ∈ fh.table.entries :=
  (stores.binds.bound key object).mp bound

/-- A key that is not bound has no entry. -/
theorem FhT.Stores.notMem_entries
    (stores : fh.Stores map)
    (isUnbound : map key = none) :
    ∀ object, (key, object) ∉ fh.table.entries :=
  stores.binds.unbound.mp isUnbound

/-- The contents matter, not the counter of collisions or the locks. -/
theorem FhT.Stores.of_same
    (stores : fh.Stores map)
    {next : FhT}
    (magic : next.hMagic = fh.hMagic)
    (elements : next.hElements = fh.hElements)
    (same : next.table.SameSettings fh.table)
    (chains : next.table.hashTable = fh.table.hashTable)
    (grows : fh.table.nextBucket ≤ next.table.nextBucket) :
    next.Stores map := by
  have step : fh.table.ChainStep next.table 0 (fh.table.hashTable 0) := by
    refine ⟨same, ?_, grows⟩
    rw [chains, Function.update_eq_self]
  have ok : next.table.Ok := by
    rw [FhTable.ok_iff_okFor, same.dontcopykey]
    apply stores.ok.okFor.chainStep step
    · exact stores.ok.slots 0
    · exact stores.ok.noneEmpty 0
    · exact stores.ok.distinct 0
    · exact fun bucket member =>
        (stores.ok.below 0 bucket member).trans_le grows
  have entries : next.table.entries = fh.table.entries := by
    rw [FhTable.entries, FhTable.entries, same.hDim, chains]
  exact {
    magic := magic.trans stores.magic
    ok := ok
    binds := entries ▸ stores.binds
    counted := by rw [elements, entries, stores.counted] }

/-- An insertion into the table and the counter binds the key. -/
theorem FhT.Stores.inserted
    (stores : fh.Stores map)
    {table : FhTable}
    {stored : FhKey}
    {object : Option OpaqueObj}
    {address : SlotAddress}
    (inserted : fh.table.Inserted table stored object address)
    (isUnbound : map stored.string = none)
    (locks : FhLocks) :
    FhT.Stores
      { fh with
        hElements := fh.hElements + 1
        table := table
        locks := locks }
      (Function.update map stored.string (some object)) := by
  have entries := inserted.entries stores.ok.okFor
  exact {
    magic := stores.magic
    ok := inserted.ok stores.ok
    binds := (stores.binds.cons isUnbound object).perm entries
    counted := by
      change fh.hElements + 1 = table.entries.length
      rw [entries.length_eq, List.length_cons, stores.counted]
      exact (Nat.cast_succ _).symm }

/-- A deletion from the table and the counter unbinds the key. -/
theorem FhT.Stores.deleted
    (stores : fh.Stores map)
    {table : FhTable}
    {stored : FhKey}
    {object : Option OpaqueObj}
    {address : SlotAddress}
    (deleted : fh.table.Deleted table stored object address)
    (locks : FhLocks) :
    FhT.Stores
      { fh with
        hElements := fh.hElements - 1
        table := table
        locks := locks }
      (Function.update map stored.string none) := by
  have entries := deleted.entries stores.ok.okFor
  exact {
    magic := stores.magic
    ok := deleted.ok stores.ok
    binds := (stores.binds.perm entries.symm).tail
    counted := by
      change fh.hElements - 1 = table.entries.length
      rw [stores.counted, entries.length_eq, List.length_cons]
      omega }

end Entries

/--
After a call the table stands for the map; its settings and the locks are as
they were before it.
-/
structure FhT.Becomes
    (fh next : FhT)
    (map : CString → Option (Option OpaqueObj)) : Prop where
  stores : next.Stores map
  same : next.table.SameSettings fh.table
  locks : next.locks = fh.locks

/-- A call that returns the handle as it was. -/
theorem FhT.Stores.becomes
    {fh : FhT}
    {map : CString → Option (Option OpaqueObj)}
    (stores : fh.Stores map) :
    fh.Becomes fh map where
  stores := stores
  same := .refl fh.table
  locks := rfl

/-- One call after another. -/
theorem FhT.Becomes.trans
    {fh middle next : FhT}
    {between map : CString → Option (Option OpaqueObj)}
    (first : fh.Becomes middle between)
    (second : middle.Becomes next map) :
    fh.Becomes next map where
  stores := second.stores
  same := second.same.trans first.same
  locks := second.locks.trans first.locks

section Insert

variable {fh : FhT}
  {map : CString → Option (Option OpaqueObj)}
  {key : CString}
  {block : Option Block}
  {grants : InsertGrants}

/-- The effect of an insertion that was refused. -/
theorem becomes_refused
    (stores : fh.Stores map)
    {table : FhTable}
    (same : table.SameSettings fh.table)
    (chains : table.hashTable = fh.table.hashTable)
    (grows : fh.table.nextBucket ≤ table.nextBucket) :
    fh.Becomes
      { fh with
        table := table }
      map where
  stores := stores.of_same rfl rfl same chains grows
  same := same
  locks := rfl

/-- The effect of an insertion that was made. -/
theorem becomes_inserted
    (stores : fh.Stores map)
    {table : FhTable}
    {stored : FhKey}
    {object : Option OpaqueObj}
    {address : SlotAddress}
    (inserted : fh.table.Inserted table stored object address)
    (isUnbound : map stored.string = none) :
    fh.Becomes
      { fh with
        hElements := fh.hElements + 1
        table := table }
      (Function.update map stored.string (some object)) where
  stores := stores.inserted inserted isUnbound fh.locks
  same := inserted.same
  locks := rfl

/-- What `fh_insert` returns for the outcome of its locked section. -/
theorem fhInsert_eq
    (stores : fh.Stores map)
    (available : fh.locks.Available (fh.table.indexOf key))
    {table : FhTable}
    {outcome : Except Int SlotAddress}
    (inserts :
      insertSlot fh.table key block grants = .ok (table, outcome)) :
    fhInsert fh (some key) block grants =
      .ok
        (match outcome with
        | .error code =>
            ({ fh with
                table := table },
              code)
        | .ok _ =>
            ({ fh with
                hElements := fh.hElements + 1
                table := table },
              fh.table.indexOf key)) := by
  obtain ⟨held, takes, gives⟩ := available.wlock
  unfold FhTable.indexOf at takes gives ⊢
  rw [fhInsert, if_neg (not_not.mpr stores.magic)]
  simp only [takes, inserts, gives, Checked.ok_bind]
  cases outcome with
  | error code =>
      rfl
  | ok address =>
      rfl

/-- Inserting a bound key changes nothing. -/
theorem fhInsert_bound
    (stores : fh.Stores map)
    (available : fh.locks.Available (fh.table.indexOf key))
    {object : Option OpaqueObj}
    (bound : map key = some object) :
    ∃ next,
      fhInsert fh (some key) block grants = .ok (next, fhDuplicatedElement) ∧
        fh.Becomes next map :=
  ⟨_,
    fhInsert_eq stores available
      (insertSlot_bound stores.ok.okFor (stores.mem_entries bound)),
    becomes_refused stores fh.table.sameSettings_collision rfl (Nat.le_refl _)⟩

/-- Inserting a key that is not bound binds it. -/
theorem fhInsert_new
    (stores : fh.Stores map)
    (available : fh.locks.Available (fh.table.indexOf key))
    (isUnbound : map key = none)
    {stored : FhKey}
    {object : Option OpaqueObj}
    (isKey : fh.table.slotKey key grants.key = some stored)
    (isObject :
      blockObject fh.table.hDatalen block grants.opaqueObj = .ok object)
    (memory :
      grants.bucket = true ∨
        ¬ ChainFull (fh.table.hashTable (fh.table.indexOf key))) :
    ∃ next,
      fhInsert fh (some key) block grants =
          .ok (next, fh.table.indexOf key) ∧
        fh.Becomes next (Function.update map key (some object)) := by
  obtain ⟨table, address, inserts, inserted⟩ :=
    insertSlot_new stores.ok.okFor (stores.notMem_entries isUnbound) isKey isObject
      memory
  obtain ⟨sameKey, -⟩ := slotKey_spec isKey
  subst sameKey
  exact ⟨_, fhInsert_eq stores available inserts,
    becomes_inserted stores inserted isUnbound⟩

/-- Without memory for a bucket that is needed nothing changes. -/
theorem fhInsert_noBucket
    (stores : fh.Stores map)
    (available : fh.locks.Available (fh.table.indexOf key))
    (isUnbound : map key = none)
    (refused : grants.bucket = false)
    (full : ChainFull (fh.table.hashTable (fh.table.indexOf key))) :
    ∃ next,
      fhInsert fh (some key) block grants = .ok (next, fhNoMemory) ∧
        fh.Becomes next map := by
  obtain ⟨table, inserts, same, chains, grows⟩ :=
    insertSlot_noBucket stores.ok.okFor (stores.notMem_entries isUnbound) refused
      full
  exact ⟨_, fhInsert_eq stores available inserts,
    becomes_refused stores same chains grows⟩

/-- What `fh_insertlock` returns for the outcome of its locked section. -/
theorem fhInsertlock_eq
    (stores : fh.Stores map)
    (available : fh.locks.Available (fh.table.indexOf key))
    (addrGiven : Bool)
    {table : FhTable}
    {outcome : Except Int SlotAddress}
    (inserts :
      insertSlot fh.table key block grants = .ok (table, outcome)) :
    ∃ held,
      fh.locks.wlock (fh.table.indexOf key) = .ok held ∧
        held.unlock (fh.table.indexOf key) = .ok fh.locks ∧
        fhInsertlock fh (some key) block true addrGiven grants =
          .ok
            (match outcome with
            | .error code =>
                ({ fh with
                    table := table },
                  .failed code)
            | .ok address =>
                ({ fh with
                    hElements := fh.hElements + 1
                    table := table
                    locks := held },
                  { opaqueObj :=
                      (table.slotAt (fh.table.indexOf key) address).opaqueObj
                    error := fhOk
                    lockedSlot := some (fh.table.indexOf key)
                    opaqueObjAddr :=
                      if addrGiven ∧ table.hDatalen = fhDatalenVoidp then
                        some address
                      else
                        none })) := by
  obtain ⟨held, takes, gives⟩ := available.wlock
  refine ⟨held, takes, gives, ?_⟩
  unfold FhTable.indexOf at takes gives ⊢
  rw [fhInsertlock, if_neg (not_not.mpr stores.magic)]
  cases outcome with
  | error code =>
      simp only [takes, inserts, gives, Checked.ok_bind]
      rfl
  | ok address =>
      simp only [takes, inserts, Checked.ok_bind]
      rfl

/-- Inserting a bound key with `fh_insertlock` keeps no lock. -/
theorem fhInsertlock_bound
    (stores : fh.Stores map)
    (available : fh.locks.Available (fh.table.indexOf key))
    {object : Option OpaqueObj}
    (bound : map key = some object)
    (addrGiven : Bool) :
    ∃ next,
      fhInsertlock fh (some key) block true addrGiven grants =
          .ok (next, .failed fhDuplicatedElement) ∧
        fh.Becomes next map := by
  obtain ⟨held, -, gives, returns⟩ :=
    fhInsertlock_eq stores available addrGiven
      (insertSlot_bound stores.ok.okFor (stores.mem_entries bound))
  exact ⟨_, returns,
    becomes_refused stores fh.table.sameSettings_collision rfl (Nat.le_refl _)⟩

/-- A key that is not bound is bound, and the lock of its chain kept. -/
theorem fhInsertlock_new
    (stores : fh.Stores map)
    (available : fh.locks.Available (fh.table.indexOf key))
    (isUnbound : map key = none)
    (addrGiven : Bool)
    {stored : FhKey}
    {object : Option OpaqueObj}
    (isKey : fh.table.slotKey key grants.key = some stored)
    (isObject :
      blockObject fh.table.hDatalen block grants.opaqueObj = .ok object)
    (memory :
      grants.bucket = true ∨
        ¬ ChainFull (fh.table.hashTable (fh.table.indexOf key))) :
    ∃ next result held,
      fhInsertlock fh (some key) block true addrGiven grants =
          .ok
            ({ next with
                locks := held },
              result) ∧
        result.opaqueObj = object ∧
        result.error = fhOk ∧
        result.lockedSlot = some (fh.table.indexOf key) ∧
        held.unlock (fh.table.indexOf key) = .ok fh.locks ∧
        fh.Becomes next (Function.update map key (some object)) := by
  obtain ⟨table, address, inserts, inserted⟩ :=
    insertSlot_new stores.ok.okFor (stores.notMem_entries isUnbound) isKey isObject
      memory
  obtain ⟨sameKey, -⟩ := slotKey_spec isKey
  subst sameKey
  obtain ⟨held, -, gives, returns⟩ :=
    fhInsertlock_eq stores available addrGiven inserts
  exact ⟨_, _, held, returns, inserted.slotAt stores.ok.okFor, rfl, rfl, gives,
    becomes_inserted stores inserted isUnbound⟩

end Insert

section Delete

variable {fh : FhT}
  {map : CString → Option (Option OpaqueObj)}
  {key : CString}

/-- The codes of a deletion: an index is counted, an error is not. -/
theorem countDeletion_index
    (fh : FhT)
    (index : Nat) :
    countDeletion fh index =
      ({ fh with
          hElements := fh.hElements - 1 },
        (index : Int)) :=
  if_pos (Int.natCast_nonneg index)

/-- What `fh_del` returns for the outcome of its locked section. -/
theorem fhDel_eq
    (stores : fh.Stores map)
    (available : fh.locks.Available (fh.table.indexOf key))
    {table : FhTable}
    {code : Int}
    (deletes :
      fhDelUnlocked fh.table key (fh.table.indexOf key)
          (makeMinihash (fh.table.hashFunction key)) =
        .ok (table, code)) :
    fhDel fh (some key) =
      .ok
        (countDeletion
          { fh with
            table := table }
          code) := by
  obtain ⟨held, takes, gives⟩ := available.wlock
  unfold FhTable.indexOf at takes gives deletes
  rw [fhDel, if_neg (not_not.mpr stores.magic)]
  simp only [takes, deletes, gives, Checked.ok_bind]

/-- What `fh_dellocked` returns for the outcome of its deletion. -/
theorem fhDellocked_eq
    (stores : fh.Stores map)
    {table : FhTable}
    {slot : Nat}
    {code : Int}
    (deletes :
      fhDelUnlocked fh.table key slot
          (makeMinihash (fh.table.hashFunction key)) =
        .ok (table, code))
    (locks : FhLocks) :
    fhDellocked
        { fh with
          locks := locks }
        (some key) slot =
      .ok
        (countDeletion
          { fh with
            table := table
            locks := locks }
          code) := by
  rw [fhDellocked, if_neg (not_not.mpr stores.magic)]
  simp only [deletes, Checked.ok_bind]

/-- Deleting a key that is bound clears its slot. -/
theorem fhDel_deleted
    (stores : fh.Stores map)
    (available : fh.locks.Available (fh.table.indexOf key))
    {object : Option OpaqueObj}
    (bound : map key = some object) :
    ∃ table stored found address,
      fhDel fh (some key) =
          .ok
            ({ fh with
                hElements := fh.hElements - 1
                table := table },
              fh.table.indexOf key) ∧
        stored.string = key ∧
        fh.table.Deleted table stored found address := by
  obtain ⟨table, stored, found, address, deletes, sameKey, deleted⟩ :=
    fhDelUnlocked_bound stores.ok.okFor (stores.mem_entries bound)
  refine ⟨table, stored, found, address, ?_, sameKey, deleted⟩
  rw [fhDel_eq stores available deletes, countDeletion_index]

/-- Deleting a key that is bound unbinds it. -/
theorem fhDel_bound
    (stores : fh.Stores map)
    (available : fh.locks.Available (fh.table.indexOf key))
    {object : Option OpaqueObj}
    (bound : map key = some object) :
    ∃ next,
      fhDel fh (some key) = .ok (next, fh.table.indexOf key) ∧
        fh.Becomes next (Function.update map key none) := by
  obtain ⟨table, stored, found, address, deletes, sameKey, deleted⟩ :=
    fhDel_deleted stores available bound
  subst sameKey
  exact ⟨_, deletes, stores.deleted deleted fh.locks, deleted.same, rfl⟩

/-- A key that is not bound is not deleted. -/
theorem fhDel_unbound
    (stores : fh.Stores map)
    (available : fh.locks.Available (fh.table.indexOf key))
    (isUnbound : map key = none) :
    fhDel fh (some key) = .ok (fh, fhElementNotFound) := by
  have deletes :=
    fhDelUnlocked_absent stores.ok.okFor (stores.ok.okFor.indexOf_lt key)
      fun object member =>
        stores.notMem_entries isUnbound object
          (stores.ok.okFor.mem_entries.mpr member)
  rw [fhDel_eq stores available deletes]
  rfl

/-- With the lock of the chain held, a key that is bound is unbound. -/
theorem fhDellocked_bound
    (stores : fh.Stores map)
    (held : FhLocks)
    {object : Option OpaqueObj}
    (bound : map key = some object) :
    ∃ next,
      fhDellocked
            { fh with
              locks := held }
            (some key) (fh.table.indexOf key) =
          .ok
            ({ next with
                locks := held },
              fh.table.indexOf key) ∧
        fh.Becomes next (Function.update map key none) := by
  obtain ⟨table, stored, found, address, deletes, sameKey, deleted⟩ :=
    fhDelUnlocked_bound stores.ok.okFor (stores.mem_entries bound)
  subst sameKey
  refine ⟨{ fh with
      hElements := fh.hElements - 1
      table := table }, ?_,
    stores.deleted deleted fh.locks, deleted.same, rfl⟩
  rw [fhDellocked_eq stores deletes, countDeletion_index]

end Delete

section Search

variable {fh : FhT}
  {map : CString → Option (Option OpaqueObj)}
  {key : CString}

/-- The search under the lock returns what the key is bound to. -/
theorem findSlot_eq
    (stores : fh.Stores map)
    (key : CString) :
    ∃ found,
      findSlot fh.table key = .ok found ∧
        found.map FhSlot.opaqueObj = map key := by
  cases isBound : map key with
  | none =>
      exact ⟨none, findSlot_absent stores.ok.okFor (stores.notMem_entries isBound),
        rfl⟩
  | some object =>
      obtain ⟨slot, finds, member⟩ :=
        findSlot_bound stores.ok.okFor (stores.mem_entries isBound)
      have same := (stores.binds.bound key slot.opaqueObj).mpr member
      rw [isBound] at same
      exact ⟨some slot, finds, same.symm⟩

/-- `fh_get` returns what the key is bound to. -/
theorem fhGet_eq
    (stores : fh.Stores map)
    (available : fh.locks.Available (fh.table.indexOf key)) :
    fhGet fh (some key) =
      .ok
        (match map key with
        | none =>
            (fh, none, fhElementNotFound)
        | some object =>
            (fh, object, fhOk)) := by
  obtain ⟨held, takes, gives⟩ := available.rlock
  obtain ⟨found, finds, isBound⟩ := findSlot_eq stores key
  unfold FhTable.indexOf at takes gives
  rw [fhGet, if_neg (not_not.mpr stores.magic), ← isBound]
  simp only [takes, finds, gives, Checked.ok_bind]
  cases found with
  | none =>
      rfl
  | some slot =>
      rfl

/-- What `fh_search` returns for a binding. -/
def searchResult
    (fh : FhT)
    (key : CString)
    (bound : Option (Option OpaqueObj))
    (blockSize : Int) : Int × List UInt8 :=
  match bound with
  | none =>
      (fhElementNotFound, [])
  | some object =>
      match copyOut fh.table.hDatalen object blockSize with
      | .error code =>
          (code, [])
      | .ok written =>
          (fh.table.indexOf key, written)

/-- `fh_search` copies out what the key is bound to. -/
theorem fhSearch_eq
    (stores : fh.Stores map)
    (available : fh.locks.Available (fh.table.indexOf key))
    (notVoidp : fh.table.hDatalen ≠ fhDatalenVoidp)
    (blockSize : Int) :
    fhSearch fh (some key) true blockSize =
      .ok (fh, searchResult fh key (map key) blockSize) := by
  obtain ⟨held, takes, gives⟩ := available.rlock
  obtain ⟨found, finds, isBound⟩ := findSlot_eq stores key
  unfold FhTable.indexOf at takes gives
  rw [fhSearch, if_neg (not_not.mpr stores.magic), ← isBound]
  simp only [Bool.true_eq_false, if_false, notVoidp, takes, finds, gives,
    Checked.ok_bind]
  cases found with
  | none =>
      rfl
  | some slot =>
      simp only [searchResult, Option.map_some]
      cases copyOut fh.table.hDatalen slot.opaqueObj blockSize with
      | error code =>
          rfl
      | ok written =>
          rfl

/-- A search for a key that is not bound keeps no lock. -/
theorem fhSearchlock_unbound
    (stores : fh.Stores map)
    (available : fh.locks.Available (fh.table.indexOf key))
    (isUnbound : map key = none) :
    fhSearchlock fh (some key) = .ok (fh, .failed fhElementNotFound) := by
  obtain ⟨held, takes, gives⟩ := available.wlock
  have finds := findSlot_absent stores.ok.okFor (stores.notMem_entries isUnbound)
  unfold FhTable.indexOf at takes gives
  rw [fhSearchlock, if_neg (not_not.mpr stores.magic)]
  simp only [takes, finds, gives, Checked.ok_bind]

/-- A search for a bound key returns its object and keeps the lock. -/
theorem fhSearchlock_bound
    (stores : fh.Stores map)
    {held : FhLocks}
    (takes : fh.locks.wlock (fh.table.indexOf key) = .ok held)
    {object : Option OpaqueObj}
    (bound : map key = some object) :
    fhSearchlock fh (some key) =
      .ok
        ({ fh with
            locks := held },
          { opaqueObj := object
            error := fhOk
            lockedSlot := some (fh.table.indexOf key)
            opaqueObjAddr := none }) := by
  obtain ⟨found, finds, isBound⟩ := findSlot_eq stores key
  rw [bound] at isBound
  obtain ⟨slot, isSlot, isObject⟩ := Option.map_eq_some_iff.mp isBound
  subst isSlot isObject
  unfold FhTable.indexOf at takes ⊢
  rw [fhSearchlock, if_neg (not_not.mpr stores.magic)]
  simp only [takes, finds, Checked.ok_bind]

/-- Releasing the lock that a call kept. -/
theorem fhReleaselock_eq
    {held locks : FhLocks}
    {slot : Nat}
    (magic : fh.hMagic = fhMagicId)
    (gives : held.unlock slot = .ok locks) :
    fhReleaselock
        { fh with
          locks := held }
        slot =
      .ok
        ({ fh with
            locks := locks },
          fhOk) := by
  rw [fhReleaselock, if_neg (not_not.mpr magic)]
  simp only [gives, Checked.ok_bind]

end Search

section Blocked

variable {fh : FhT}
  {key : CString}
  {fault : Fault}

/-- An insertion that blocks on the lock of its chain. -/
theorem fhInsert_blocked
    (magic : fh.hMagic = fhMagicId)
    (blocks : fh.locks.wlock (fh.table.indexOf key) = .error fault)
    (block : Option Block)
    (grants : InsertGrants) :
    fhInsert fh (some key) block grants = .error fault := by
  unfold FhTable.indexOf at blocks
  rw [fhInsert, if_neg (not_not.mpr magic)]
  simp only [blocks, Checked.error_bind]

/-- A deletion that blocks on the lock of its chain. -/
theorem fhDel_blocked
    (magic : fh.hMagic = fhMagicId)
    (blocks : fh.locks.wlock (fh.table.indexOf key) = .error fault) :
    fhDel fh (some key) = .error fault := by
  unfold FhTable.indexOf at blocks
  rw [fhDel, if_neg (not_not.mpr magic)]
  simp only [blocks, Checked.error_bind]

/-- A search that blocks on the lock of its chain. -/
theorem fhSearchlock_blocked
    (magic : fh.hMagic = fhMagicId)
    (blocks : fh.locks.wlock (fh.table.indexOf key) = .error fault) :
    fhSearchlock fh (some key) = .error fault := by
  unfold FhTable.indexOf at blocks
  rw [fhSearchlock, if_neg (not_not.mpr magic)]
  simp only [blocks, Checked.error_bind]

end Blocked

end Clibs.Fh
