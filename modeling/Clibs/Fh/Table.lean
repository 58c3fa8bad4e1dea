import Clibs.Fh.Bucket
import Mathlib.Data.UInt

namespace Clibs.Fh

/-!
# The hash table operations

`fh.c` without the enumerator.  The fields of `fh_t` are grouped: those the
locked section of a call works on are the `FhTable`, those the shard locks need
the `FhLocks`.  The lock pools record which locks the calling thread holds;
taking one of them twice would block for ever and releasing one that is not
held is an error.  The counter lock `e_lock` is taken and released inside a
single helper and is not recorded.

Whether an allocation succeeds is an argument of each call that allocates.
-/

/-- `FH_MAGIC_ID`. -/
def fhMagicId : Nat :=
  0xCACCA

/-- `FH_OK`. -/
def fhOk : Int :=
  1

/-- `FH_BAD_HANDLE`. -/
def fhBadHandle : Int :=
  -1

/-- `FH_INVALID_KEY`. -/
def fhInvalidKey : Int :=
  -1000

/-- `FH_ELEMENT_NOT_FOUND`. -/
def fhElementNotFound : Int :=
  -2000

/-- `FH_DUPLICATED_ELEMENT`. -/
def fhDuplicatedElement : Int :=
  -3000

/-- `FH_NO_MEMORY`. -/
def fhNoMemory : Int :=
  -4000

/-- `FH_INVALID_ARGUMENT`. -/
def fhInvalidArgument : Int :=
  -5000

/-- `FH_WRONG_DATALEN`. -/
def fhWrongDatalen : Int :=
  -6000

/-- `FH_DIM_INVALID`. -/
def fhDimInvalid : Int :=
  -7000

/-- `FH_BAD_ATTR`. -/
def fhBadAttr : Int :=
  -9000

/-- `FH_FREE_NOT_REQUESTED`. -/
def fhFreeNotRequested : Int :=
  -1500

/-- `FH_EMPTY_HASHTABLE`. -/
def fhEmptyHashtable : Int :=
  -2500

/-- `FH_ERROR_OPERATION_NOT_PERMITTED`. -/
def fhErrorOperationNotPermitted : Int :=
  -3500

/-- `FH_SETATTR_DONTCOPYKEY`, a bit of `h_attr`. -/
def fhSetattrDontcopykey : UInt32 :=
  1

/-- `FH_SETATTR_USERWLOCKS`, a bit of `h_attr`. -/
def fhSetattrUserwlocks : UInt32 :=
  2

/-- `FH_ATTR_ELEMENT`. -/
def fhAttrElement : Int :=
  100

/-- `FH_ATTR_DIM`. -/
def fhAttrDim : Int :=
  101

/-- `FH_ATTR_COLLISION`. -/
def fhAttrCollision : Int :=
  102

/-- `FH_DATALEN_STRING`. -/
def fhDatalenString : Int :=
  -1

/-- `FH_DATALEN_VOIDP`. -/
def fhDatalenVoidp : Int :=
  0

/-- `SIZE_LIMIT_SINGLE_MUTEX`. -/
def sizeLimitSingleMutex : Int :=
  64

/-- The fields of `fh_t` that a locked section reads and writes. -/
structure FhTable where
  hDim : Nat
  hDatalen : Int
  hCollision : Int
  hAttr : UInt32
  hashFunction : CString → UInt64
  hashTable : Nat → List FhBucket
  nextBucket : Nat

/-- The functions `rlock_f` and `wlock_f` can point to. -/
inductive LockFunction where
  | fhLock
  | fhRdlock
  | fhWrlock
  deriving Repr, DecidableEq

/-- The functions `unlock_f` can point to. -/
inductive UnlockFunction where
  | fhUnlock
  | fhRwunlock
  deriving Repr, DecidableEq

/-- Which locks of a pool the calling thread holds. -/
abbrev LockPool :=
  Nat → Bool

/-- The fields of `fh_t` for the shard locks; a pool is `none` when `NULL`. -/
structure FhLocks where
  hLock : Option LockPool
  rwLock : Option LockPool
  rlockF : LockFunction
  wlockF : LockFunction
  unlockF : UnlockFunction
  nLock : Nat

/-- `fh_t`. -/
structure FhT where
  hMagic : Nat
  hElements : Int
  table : FhTable
  locks : FhLocks

/-- Take a lock of a pool. -/
def takeLock
    (pool : Option LockPool)
    (lock : Nat) : Checked LockPool :=
  match pool with
  | none =>
      .error .nullDereference
  | some held =>
      if held lock then
        .error .lockAlreadyHeld
      else
        .ok (Function.update held lock true)

/-- Release a lock of a pool. -/
def dropLock
    (pool : Option LockPool)
    (lock : Nat) : Checked LockPool :=
  match pool with
  | none =>
      .error .nullDereference
  | some held =>
      if held lock then
        .ok (Function.update held lock false)
      else
        .error .unlockNotHeld

/-- Call a lock function: `_fh_lock`, `_fh_rdlock` or `_fh_wrlock`. -/
def FhLocks.lock
    (locks : FhLocks)
    (function : LockFunction)
    (slot : Nat) : Checked FhLocks :=
  match function with
  | .fhLock => do
      let pool ← takeLock locks.hLock (slot % locks.nLock)
      .ok
        { locks with
          hLock := some pool }
  | .fhRdlock => do
      let pool ← takeLock locks.rwLock (slot % locks.nLock)
      .ok
        { locks with
          rwLock := some pool }
  | .fhWrlock => do
      let pool ← takeLock locks.rwLock (slot % locks.nLock)
      .ok
        { locks with
          rwLock := some pool }

/-- `fh->rlock_f(fh, slot)`. -/
def FhLocks.rlock
    (locks : FhLocks)
    (slot : Nat) : Checked FhLocks :=
  locks.lock locks.rlockF slot

/-- `fh->wlock_f(fh, slot)`. -/
def FhLocks.wlock
    (locks : FhLocks)
    (slot : Nat) : Checked FhLocks :=
  locks.lock locks.wlockF slot

/-- `fh->unlock_f(fh, slot)`: `_fh_unlock` or `_fh_rwunlock`. -/
def FhLocks.unlock
    (locks : FhLocks)
    (slot : Nat) : Checked FhLocks :=
  match locks.unlockF with
  | .fhUnlock => do
      let pool ← dropLock locks.hLock (slot % locks.nLock)
      .ok
        { locks with
          hLock := some pool }
  | .fhRwunlock => do
      let pool ← dropLock locks.rwLock (slot % locks.nLock)
      .ok
        { locks with
          rwLock := some pool }

/--
The loop of `fh_hash_size`.  The shifted bit is lost after the thirty-second
shift and zero stays zero, so a loop that is not over by then never is.
-/
def fhHashSizeLoop
    (s : UInt32) : Nat → UInt32 → Checked UInt32
  | 0, _ =>
      .error .divergence
  | fuel + 1, i =>
      if i < s then
        fhHashSizeLoop s fuel (i <<< 1)
      else
        .ok i

/-- `fh_hash_size`. -/
def fhHashSize (s : UInt32) : Checked UInt32 :=
  fhHashSizeLoop (s + s / 2) 33 1

/-- The number of halvings that take a positive number to zero. -/
def lockCount : Nat → Nat → Nat
  | 0, _ =>
      0
  | fuel + 1, num =>
      if 0 < num then
        lockCount fuel (num >>> 1) + 1
      else
        0

/-- `fh->n_lock` as `fh_create` computes it; an `int` has 32 bits. -/
def initialLocks (dim : Int32) : Nat :=
  if sizeLimitSingleMutex < dim.toInt then
    lockCount 32 dim.toInt.toNat
  else
    1

/-- Which allocations of `fh_create` succeed. -/
structure CreateGrants where
  hash : Bool
  handle : Bool
  lockPool : Bool
  deriving Repr, DecidableEq

/-- All allocations of `fh_create` succeed. -/
def CreateGrants.all : CreateGrants where
  hash := true
  handle := true
  lockPool := true

/-- A handle as `fh_create` fills it in. -/
def createdFh
    (dim : Int32)
    (realDim : Nat)
    (datalen : Int)
    (hashFunction : CString → UInt64) : FhT where
  hMagic := fhMagicId
  hElements := 0
  table :=
    { hDim := realDim
      hDatalen := datalen
      hCollision := 0
      hAttr := 0
      hashFunction := hashFunction
      hashTable := fun _ => []
      nextBucket := 0 }
  locks :=
    { hLock := some fun _ => false
      rwLock := none
      rlockF := .fhLock
      wlockF := .fhLock
      unlockF := .fhUnlock
      nLock := initialLocks dim }

/--
`fh_create`.  `calloc` refuses a number of chains that is negative as an `int`:
it is an enormous `size_t`.  `hashFunction` is the function the handle ends up
with, the caller's or the default one with the seed drawn for the table.
-/
def fhCreate
    (dim : Int32)
    (datalen : Int)
    (hashFunction : CString → UInt64)
    (grants : CreateGrants) : Checked (Option FhT) := do
  let realDim := (← fhHashSize dim.toUInt32).toInt32.toInt
  if realDim < 0 ∨ grants.hash = false then
    .ok none
  else if grants.handle = false then
    .ok none
  else if grants.lockPool = false then
    .ok none
  else
    .ok (some (createdFh dim realDim.toNat datalen hashFunction))

/-- `h_attr & FH_SETATTR_DONTCOPYKEY`. -/
def FhTable.dontcopykey (table : FhTable) : Bool :=
  table.hAttr &&& fhSetattrDontcopykey ≠ 0

/-- `hash & (fh->h_dim - 1)`. -/
def FhTable.hashindex
    (table : FhTable)
    (hash : UInt64) : Nat :=
  (hash &&& (UInt64.ofNat table.hDim - 1)).toNat

/-- The attributes `fh_setattr` knows. -/
inductive SetAttr where
  | dontcopykey
  | userwlocks
  | other
  deriving Repr, DecidableEq

/-- `fh_setattr`; `granted` is the outcome of allocating the second pool. -/
def fhSetattr
    (fh : FhT)
    (attr : SetAttr)
    (value : Int)
    (granted : Bool) : FhT × Int :=
  if fh.hMagic ≠ fhMagicId then
    (fh, fhBadHandle)
  else
    match attr with
    | .dontcopykey =>
        if 0 < fh.hElements then
          (fh, fhErrorOperationNotPermitted)
        else
          ({ fh with
              table :=
                { fh.table with
                  hAttr := fh.table.hAttr ||| fhSetattrDontcopykey } },
            fhOk)
    | .userwlocks =>
        if value = 0 then
          (fh, fhErrorOperationNotPermitted)
        else if
            fh.locks.rwLock.isSome ∨
              fh.table.hAttr &&& fhSetattrUserwlocks ≠ 0 then
          (fh, fhErrorOperationNotPermitted)
        else if granted = false then
          (fh, fhNoMemory)
        else
          ({ fh with
              table :=
                { fh.table with
                  hAttr := fh.table.hAttr ||| fhSetattrUserwlocks }
              locks :=
                { fh.locks with
                  hLock := none
                  rwLock := some fun _ => false
                  rlockF := .fhRdlock
                  wlockF := .fhWrlock
                  unlockF := .fhRwunlock } },
            fhOk)
    | .other =>
        (fh, fhBadAttr)

/-- `fh_getattr`: the returned code and the value stored through `value`. -/
def fhGetattr
    (fh : FhT)
    (attr : Int) : Int × Option Int :=
  if fh.hMagic ≠ fhMagicId then
    (fhBadHandle, none)
  else if attr = fhAttrElement then
    (fhOk, some fh.hElements)
  else if attr = fhAttrDim then
    (fhOk, some fh.table.hDim)
  else if attr = fhAttrCollision then
    (fhOk, some fh.table.hCollision)
  else
    (fhBadAttr, none)

/-- Which allocations of an insertion succeed. -/
structure InsertGrants where
  bucket : Bool
  key : Bool
  opaqueObj : Bool
  deriving Repr, DecidableEq

/-- All allocations of an insertion succeed. -/
def InsertGrants.all : InsertGrants where
  bucket := true
  key := true
  opaqueObj := true

/-- `memcpy` of a number of bytes of an object. -/
def memcpy
    (count : Nat)
    (bytes : List UInt8) : List UInt8 :=
  (List.range count).map fun position => bytes.getD position 0

/-- The bytes of a string before its terminator. -/
def untilTerminator (bytes : List UInt8) : List UInt8 :=
  bytes.takeWhile fun byte => byte ≠ 0

/--
What `found_h_slot->key` becomes: the caller's pointer, or the result of
`strdup`.
-/
def FhTable.slotKey
    (table : FhTable)
    (key : CString)
    (granted : Bool) : Option FhKey :=
  if table.dontcopykey then
    some
      { string := key
        copied := false }
  else if granted then
    some
      { string := key
        copied := true }
  else
    none

/--
What `new_opaque_obj` becomes for a block: `.error` when the allocation of the
copy fails.
-/
def newOpaqueObj
    (datalen : Int)
    (block : Block)
    (granted : Bool) : Except Int (Option OpaqueObj) :=
  if 0 < datalen then
    if granted then
      .ok (some (.copy (memcpy datalen.toNat block.bytes)))
    else
      .error fhNoMemory
  else if datalen = fhDatalenVoidp then
    .ok (some (.pointer block))
  else if datalen = fhDatalenString then
    if granted then
      .ok (some (.copy (untilTerminator block.bytes)))
    else
      .error fhNoMemory
  else
    .ok none

/-- Replace one chain of the table. -/
def FhTable.setChain
    (table : FhTable)
    (index : Nat)
    (chain : List FhBucket) : FhTable :=
  { table with
    hashTable := Function.update table.hashTable index chain }

/-- Replace one chain of the table; an address for a new bucket is used up. -/
def FhTable.growChain
    (table : FhTable)
    (index : Nat)
    (chain : List FhBucket) : FhTable :=
  { table with
    hashTable := Function.update table.hashTable index chain
    nextBucket := table.nextBucket + 1 }

/-- Assign to a slot of one chain. -/
def FhTable.setSlot
    (table : FhTable)
    (index : Nat)
    (address : SlotAddress)
    (slot : FhSlot) : FhTable :=
  table.setChain index (writeSlot address slot (table.hashTable index))

/-- Read a slot of one chain. -/
def FhTable.slotAt
    (table : FhTable)
    (index : Nat)
    (address : SlotAddress) : FhSlot :=
  match bucketAt address.1 (table.hashTable index) with
  | none =>
      .cleared
  | some bucket =>
      bucket.slot address.2

/-- The key and the opaque object are stored in the slot that was found. -/
def fillSlot
    (table : FhTable)
    (index : Nat)
    (address : SlotAddress)
    (key : CString)
    (block : Option Block)
    (grants : InsertGrants) : FhTable × Except Int SlotAddress :=
  let slot := table.slotAt index address
  match table.slotKey key grants.key with
  | none =>
      (table.setSlot index address
          { slot with
            key := none },
        .error fhNoMemory)
  | some stored =>
      let slot :=
        { slot with
          key := some stored }
      match block with
      | none =>
          (table.setSlot index address slot, .ok address)
      | some block =>
          match newOpaqueObj table.hDatalen block grants.opaqueObj with
          | .error code =>
              (table.setSlot index address slot, .error code)
          | .ok object =>
              (table.setSlot index address
                  { slot with
                    opaqueObj := object },
                .ok address)

/-- The chain has a first bucket, or gets one. -/
def headBucket
    (table : FhTable)
    (index : Nat)
    (granted : Bool) : FhTable × Bool :=
  match table.hashTable index with
  | [] =>
      if granted then
        (table.growChain index [fhAllocateBucket table.nextBucket], true)
      else
        (table, false)
  | _ :: _ =>
      ({ table with
          hCollision := table.hCollision + 1 },
        true)

/-- A free slot of the chain is claimed for the mini hash. -/
def claimSlot
    (table : FhTable)
    (index : Nat)
    (miniHash : UInt8)
    (granted : Bool) : FhTable × Option SlotAddress :=
  let fresh := if granted then some table.nextBucket else none
  let (chain, address) :=
    fhReturnEmptySlotInBucket miniHash fresh (table.hashTable index)
  (table.growChain index chain, address)

/--
What `fh_insert` and `fh_insertlock` do while they hold the lock of the chain:
the address of the slot that was filled, or the error code.
-/
def insertSlot
    (table : FhTable)
    (key : CString)
    (block : Option Block)
    (grants : InsertGrants) : Checked (FhTable × Except Int SlotAddress) :=
  let hash := table.hashFunction key
  let miniHash := makeMinihash hash
  let hashindex := table.hashindex hash
  if ¬ hashindex < table.hDim then
    .error .assertionFailed
  else
    match headBucket table hashindex grants.bucket with
    | (table, false) =>
        .ok (table, .error fhNoMemory)
    | (table, true) => do
        match
          ← fhFindSlotInBucket key miniHash (table.hashTable hashindex) with
        | some _ =>
            .ok (table, .error fhDuplicatedElement)
        | none =>
            match claimSlot table hashindex miniHash grants.bucket with
            | (table, none) =>
                .ok (table, .error fhNoMemory)
            | (table, some address) =>
                .ok (fillSlot table hashindex address key block grants)

/-- `fh_insert`. -/
def fhInsert
    (fh : FhT)
    (key : Option CString)
    (block : Option Block)
    (grants : InsertGrants) : Checked (FhT × Int) :=
  if fh.hMagic ≠ fhMagicId then
    .ok (fh, fhBadHandle)
  else
    match key with
    | none =>
        .ok (fh, fhInvalidKey)
    | some key => do
        let hashindex := fh.table.hashindex (fh.table.hashFunction key)
        let locks ← fh.locks.wlock hashindex
        let (table, inserted) ← insertSlot fh.table key block grants
        let locks ← locks.unlock hashindex
        let fh :=
          { fh with
            table := table
            locks := locks }
        match inserted with
        | .error code =>
            .ok (fh, code)
        | .ok _ =>
            .ok
              ({ fh with
                  hElements := fh.hElements + 1 },
                hashindex)

/--
What `fh_searchlock` and `fh_insertlock` return and store: the opaque object,
`*error`, `*locked_slot`, and the slot whose `opaque_obj` field is given out
through `*opaque_obj_addr`.
-/
structure LockedResult where
  opaqueObj : Option OpaqueObj
  error : Int
  lockedSlot : Option Nat
  opaqueObjAddr : Option SlotAddress
  deriving Repr, DecidableEq

/-- A call that failed returns `NULL` and stores the error. -/
def LockedResult.failed (code : Int) : LockedResult where
  opaqueObj := none
  error := code
  lockedSlot := none
  opaqueObjAddr := none

/--
`fh_insertlock`; `slotGiven` and `addrGiven` tell whether `locked_slot` and
`opaque_obj_addr` are not `NULL`.
-/
def fhInsertlock
    (fh : FhT)
    (key : Option CString)
    (block : Option Block)
    (slotGiven addrGiven : Bool)
    (grants : InsertGrants) : Checked (FhT × LockedResult) :=
  if fh.hMagic ≠ fhMagicId then
    .ok (fh, .failed fhBadHandle)
  else
    match key with
    | none =>
        .ok (fh, .failed fhInvalidKey)
    | some key =>
        if slotGiven = false then
          .ok (fh, .failed fhInvalidArgument)
        else do
          let hashindex := fh.table.hashindex (fh.table.hashFunction key)
          let locks ← fh.locks.wlock hashindex
          let (table, inserted) ← insertSlot fh.table key block grants
          match inserted with
          | .error code =>
              let locks ← locks.unlock hashindex
              .ok
                ({ fh with
                    table := table
                    locks := locks },
                  .failed code)
          | .ok address =>
              .ok
                ({ fh with
                    hElements := fh.hElements + 1
                    table := table
                    locks := locks },
                  { opaqueObj := (table.slotAt hashindex address).opaqueObj
                    error := fhOk
                    lockedSlot := some hashindex
                    opaqueObjAddr :=
                      if addrGiven ∧ table.hDatalen = fhDatalenVoidp then
                        some address
                      else
                        none })

/-- `_fh_del`. -/
def fhDelUnlocked
    (table : FhTable)
    (key : CString)
    (hashIndex : Nat)
    (miniHash : UInt8) : Checked (FhTable × Int) :=
  if ¬ hashIndex < table.hDim then
    .error .assertionFailed
  else do
    match
      ← fhFindSlotInBucket key miniHash (table.hashTable hashIndex) with
    | none =>
        .ok (table, fhElementNotFound)
    | some address =>
        let table := table.setSlot hashIndex address .cleared
        match bucketAt address.1 (table.hashTable hashIndex) with
        | none =>
            .error .nullDereference
        | some candidate =>
            let chain ←
              deallocateBucketIfEmpty candidate (table.hashTable hashIndex)
            .ok (table.setChain hashIndex chain, hashIndex)

/-- The end of `fh_del` and `fh_dellocked`: a deletion is counted. -/
def countDeletion
    (fh : FhT)
    (code : Int) : FhT × Int :=
  if 0 ≤ code then
    ({ fh with
        hElements := fh.hElements - 1 },
      code)
  else
    (fh, code)

/-- `fh_del`. -/
def fhDel
    (fh : FhT)
    (key : Option CString) : Checked (FhT × Int) :=
  if fh.hMagic ≠ fhMagicId then
    .ok (fh, fhBadHandle)
  else
    match key with
    | none =>
        .ok (fh, fhInvalidKey)
    | some key => do
        let hash := fh.table.hashFunction key
        let hashIndex := fh.table.hashindex hash
        let locks ← fh.locks.wlock hashIndex
        let (table, code) ←
          fhDelUnlocked fh.table key hashIndex (makeMinihash hash)
        let locks ← locks.unlock hashIndex
        .ok
          (countDeletion
            { fh with
              table := table
              locks := locks }
            code)

/-- `fh_dellocked`. -/
def fhDellocked
    (fh : FhT)
    (key : Option CString)
    (lockedBucket : Nat) : Checked (FhT × Int) :=
  if fh.hMagic ≠ fhMagicId then
    .ok (fh, fhBadHandle)
  else
    match key with
    | none =>
        .ok (fh, fhInvalidKey)
    | some key => do
        let hash := fh.table.hashFunction key
        let (table, code) ←
          fhDelUnlocked fh.table key lockedBucket (makeMinihash hash)
        .ok
          (countDeletion
            { fh with
              table := table }
            code)

/--
The search that `fh_search`, `fh_get` and `fh_searchlock` make while they hold
the lock of the chain: the slot that was found.
-/
def findSlot
    (table : FhTable)
    (key : CString) : Checked (Option FhSlot) :=
  let hash := table.hashFunction key
  let hashindex := table.hashindex hash
  if ¬ hashindex < table.hDim then
    .error .assertionFailed
  else do
    let found ←
      fhFindSlotInBucket key (makeMinihash hash) (table.hashTable hashindex)
    .ok (found.map (table.slotAt hashindex))

/-- `strncpy`: the bytes that are written. -/
def strncpy
    (bytes : List UInt8)
    (count : Nat) : List UInt8 :=
  memcpy count (untilTerminator bytes)

/--
The copying at the end of `fh_search`: the bytes written to the start of the
caller's buffer, or the error code.
-/
def copyOut
    (datalen : Int)
    (opaqueObj : Option OpaqueObj)
    (blockSize : Int) : Except Int (List UInt8) :=
  match opaqueObj with
  | none =>
      .ok []
  | some object =>
      if 0 < datalen then
        .ok (memcpy datalen.toNat object.bytes)
      else if datalen = fhDatalenString then
        if blockSize < 0 then
          .error fhDimInvalid
        else
          .ok (strncpy object.bytes blockSize.toNat)
      else
        .ok []

/--
`fh_search`: the code and the bytes written to the start of the caller's buffer;
`blockGiven` tells whether the buffer is not `NULL`.
-/
def fhSearch
    (fh : FhT)
    (key : Option CString)
    (blockGiven : Bool)
    (blockSize : Int) : Checked (FhT × Int × List UInt8) :=
  if fh.hMagic ≠ fhMagicId then
    .ok (fh, fhBadHandle, [])
  else
    match key with
    | none =>
        .ok (fh, fhInvalidKey, [])
    | some key =>
        if blockGiven = false then
          .ok (fh, fhInvalidArgument, [])
        else if fh.table.hDatalen = fhDatalenVoidp then
          .ok (fh, fhWrongDatalen, [])
        else do
          let hashindex := fh.table.hashindex (fh.table.hashFunction key)
          let locks ← fh.locks.rlock hashindex
          let found ← findSlot fh.table key
          let locks ← locks.unlock hashindex
          let fh :=
            { fh with
              locks := locks }
          match found with
          | none =>
              .ok (fh, fhElementNotFound, [])
          | some slot =>
              match copyOut fh.table.hDatalen slot.opaqueObj blockSize with
              | .error code =>
                  .ok (fh, code, [])
              | .ok written =>
                  .ok (fh, hashindex, written)

/-- `fh_get`: the opaque object and `*error`. -/
def fhGet
    (fh : FhT)
    (key : Option CString) : Checked (FhT × Option OpaqueObj × Int) :=
  if fh.hMagic ≠ fhMagicId then
    .ok (fh, none, fhBadHandle)
  else
    match key with
    | none =>
        .ok (fh, none, fhInvalidKey)
    | some key => do
        let hashindex := fh.table.hashindex (fh.table.hashFunction key)
        let locks ← fh.locks.rlock hashindex
        let found ← findSlot fh.table key
        let locks ← locks.unlock hashindex
        let fh :=
          { fh with
            locks := locks }
        match found with
        | none =>
            .ok (fh, none, fhElementNotFound)
        | some slot =>
            .ok (fh, slot.opaqueObj, fhOk)

/-- `fh_searchlock`. -/
def fhSearchlock
    (fh : FhT)
    (key : Option CString) : Checked (FhT × LockedResult) :=
  if fh.hMagic ≠ fhMagicId then
    .ok (fh, .failed fhBadHandle)
  else
    match key with
    | none =>
        .ok (fh, .failed fhInvalidKey)
    | some key => do
        let hashindex := fh.table.hashindex (fh.table.hashFunction key)
        let locks ← fh.locks.wlock hashindex
        let found ← findSlot fh.table key
        match found with
        | none =>
            let locks ← locks.unlock hashindex
            .ok
              ({ fh with
                  locks := locks },
                .failed fhElementNotFound)
        | some slot =>
            .ok
              ({ fh with
                  locks := locks },
                { opaqueObj := slot.opaqueObj
                  error := fhOk
                  lockedSlot := some hashindex
                  opaqueObjAddr := none })

/-- `fh_releaselock`. -/
def fhReleaselock
    (fh : FhT)
    (slot : Nat) : Checked (FhT × Int) :=
  if fh.hMagic ≠ fhMagicId then
    .ok (fh, fhBadHandle)
  else do
    let locks ← fh.locks.unlock slot
    .ok
      ({ fh with
          locks := locks },
        fhOk)

end Clibs.Fh
