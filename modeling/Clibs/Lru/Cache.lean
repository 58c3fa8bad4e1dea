import Clibs.Fh.Table
import Clibs.Ll.List

namespace Clibs.Lru

open Fh Ll

/-!
# The cache with least-recently-used eviction

`lru.c`: a hash table of pointers to payload records, each owned by one slot of
the recency list.  A pointer to a record is the index of its slot, and so is a
pointer to a slot.  The table does not copy the keys; the only copy of a key is
the string its record points to.

Every call of a function of the table or of the list is one definition here,
together with the code before it that touches the records.  The functions of
`lru.c` are put together from them.
-/

/-- `LRU_MAGIC_ID`. -/
def lruMagicId : Nat :=
  0xC0CCA

/-- `LRU_OK`. -/
def lruOk : Int :=
  1

/-- `LRU_BAD_HANDLE`. -/
def lruBadHandle : Int :=
  -1

/-- `LRU_ELEMENT_NOT_FOUND`. -/
def lruElementNotFound : Int :=
  -2000

/-- `LRU_DUPLICATED_ELEMENT`. -/
def lruDuplicatedElement : Int :=
  -3000

/-- `LRU_NO_MEMORY`. -/
def lruNoMemory : Int :=
  -4000

/-- A `char *` field: whether it was assigned, and what became of the string. -/
inductive KeyPointer where
  | indeterminate
  | null
  | allocated (string : CString)
  | freed
  deriving Repr, DecidableEq

/-- The field is passed to a function that reads the string. -/
def KeyPointer.read : KeyPointer → Checked (Option CString)
  | .indeterminate =>
      .error .indeterminateRead
  | .null =>
      .ok none
  | .allocated string =>
      .ok (some string)
  | .freed =>
      .error .useAfterFree

/-- `free` of the field. -/
def KeyPointer.free : KeyPointer → Checked KeyPointer
  | .indeterminate =>
      .error .indeterminateRead
  | .null =>
      .ok .null
  | .allocated _ =>
      .ok .freed
  | .freed =>
      .error .doubleFree

/-- `lru_payload_t`; the caller's `void *` is its value. -/
structure LruPayload where
  payload : Nat
  llSlot : Option Nat
  fhKey : KeyPointer
  deriving Repr, DecidableEq

/-- A record as `malloc` returns it. -/
def LruPayload.indeterminate : LruPayload where
  payload := 0
  llSlot := none
  fhKey := .indeterminate

/-- `lru_t`, with the records of the slots of its list. -/
structure LruT where
  magic : Nat
  size : Int32
  fh : FhT
  ll : LlT
  payloads : Nat → LruPayload

/-- Which allocations of `lru_create` succeed. -/
structure LruGrants where
  handle : Bool
  fh : CreateGrants
  ll : Bool
  deriving Repr, DecidableEq

/-- All allocations of `lru_create` succeed. -/
def LruGrants.all : LruGrants where
  handle := true
  fh := .all
  ll := true

/--
`lru_create`; `hashFunction` is the default function of the table, with the seed
drawn for it.
-/
def lruCreate
    (dim : Int32)
    (hashFunction : CString → UInt64)
    (grants : LruGrants) : Checked (Option LruT) :=
  if dim.toInt ≤ 0 then
    .ok none
  else if grants.handle = false then
    .ok none
  else do
    match ← fhCreate dim fhDatalenVoidp hashFunction grants.fh with
    | none =>
        .ok none
    | some fh =>
        let fh := (fhSetattr fh .dontcopykey 0 true).1
        match llCreate dim.toInt.toNat grants.ll with
        | none =>
            .ok none
        | some ll =>
            .ok (some
              { magic := lruMagicId
                size := dim
                fh := fh
                ll := ll
                payloads := fun _ => .indeterminate })

/-- `ll_slot_new`: the slot and its record. -/
def slotNew (lru : LruT) : LruT × Option (Nat × Nat) :=
  let (ll, slot) := llSlotNew lru.ll
  ({ lru with
      ll := ll },
    slot)

/-- `ll_remove_last`: the slot and its record. -/
def removeLast (lru : LruT) : LruT × Option (Nat × Nat) :=
  let (ll, slot) := llRemoveLast lru.ll
  ({ lru with
      ll := ll },
    slot)

/-- `fh_del` of the key of a record. -/
def delKey
    (lru : LruT)
    (hashpayload : Nat) : Checked (LruT × Int) := do
  let key ← (lru.payloads hashpayload).fhKey.read
  let (fh, code) ← fhDel lru.fh key
  .ok
    ({ lru with
        fh := fh },
      code)

/-- `free` of the key of a record and `ll_slot_free` of its slot. -/
def freeKeyAndSlot
    (lru : LruT)
    (hashpayload slot : Nat) : Checked LruT := do
  let fhKey ← (lru.payloads hashpayload).fhKey.free
  .ok
    { lru with
      ll := llSlotFree lru.ll slot
      payloads :=
        Function.update lru.payloads hashpayload
          { lru.payloads hashpayload with
            fhKey := fhKey } }

/-- The record of the new slot; `granted` is the outcome of allocating the key. -/
def fillRecord
    (lru : LruT)
    (new slot : Nat)
    (key : CString)
    (payload : Nat)
    (granted : Bool) : LruT :=
  { lru with
    payloads :=
      Function.update lru.payloads new
        { payload := payload
          llSlot := some slot
          fhKey := if granted then .allocated key else .null } }

/-- `ll_slot_free` of a slot whose record has no key. -/
def freeSlotOnly
    (lru : LruT)
    (slot : Nat) : LruT :=
  { lru with
    ll := llSlotFree lru.ll slot }

/-- The pointer to a record as an argument of `fh_insert`. -/
def recordBlock (new : Nat) : Block where
  address := new
  bytes := []

/-- `fh_insert` of the key of a record with a pointer to the record. -/
def insertKey
    (lru : LruT)
    (new : Nat)
    (grants : InsertGrants) : Checked (LruT × Int) := do
  let key ← (lru.payloads new).fhKey.read
  let (fh, code) ← fhInsert lru.fh key (some (recordBlock new)) grants
  .ok
    ({ lru with
        fh := fh },
      code)

/-- `ll_slot_add_to_top`. -/
def addToTop
    (lru : LruT)
    (slot : Nat) : LruT :=
  { lru with
    ll := llSlotAddToTop lru.ll slot }

/-- `fh_searchlock`. -/
def searchKey
    (lru : LruT)
    (key : CString) : Checked (LruT × LockedResult) := do
  let (fh, result) ← fhSearchlock lru.fh (some key)
  .ok
    ({ lru with
        fh := fh },
      result)

/-- The record that the object found by a search is a pointer to. -/
def recordOf : Option OpaqueObj → Option Nat
  | some (.pointer block) =>
      some block.address
  | _ =>
      none

/-- The payload of a record is copied out, and `ll_slot_move_to_top` called. -/
def moveToTop
    (lru : LruT)
    (pload : Nat) : Checked (LruT × Nat) :=
  match (lru.payloads pload).llSlot with
  | none =>
      .error .indeterminateRead
  | some slot =>
      .ok
        ({ lru with
            ll := llSlotMoveToTop lru.ll slot },
          (lru.payloads pload).payload)

/-- `fh_releaselock`; the lock is the one `fh_searchlock` stored. -/
def releaseKey
    (lru : LruT)
    (fhslot : Option Nat) : Checked LruT :=
  match fhslot with
  | none =>
      .error .indeterminateRead
  | some fhslot => do
      let (fh, _) ← fhReleaselock lru.fh fhslot
      .ok
        { lru with
          fh := fh }

/-- Which allocations of `lru_add` succeed. -/
structure AddGrants where
  key : Bool
  insert : InsertGrants
  deriving Repr, DecidableEq

/-- All allocations of `lru_add` succeed. -/
def AddGrants.all : AddGrants where
  key := true
  insert := .all

/--
The loop at the start of `lru_add`.  An eviction puts a slot on the free list,
so the loop is over after the second attempt.
-/
def takeSlot : Nat → LruT → Checked (LruT × Option (Nat × Nat))
  | 0, _ =>
      .error .divergence
  | fuel + 1, lru =>
      match slotNew lru with
      | (lru, some found) =>
          .ok (lru, some found)
      | (lru, none) =>
          match removeLast lru with
          | (lru, none) =>
              .ok (lru, none)
          | (lru, some (slotToFree, hashpayload)) => do
              let (lru, _) ← delKey lru hashpayload
              let lru ← freeKeyAndSlot lru hashpayload slotToFree
              takeSlot fuel lru

/-- What `lru_add` returns for a result of `fh_insert`, if it returns there. -/
def insertError (lruErr : Int) : Option Int :=
  if lruErr ≠ lruOk then
    if lruErr = fhDuplicatedElement then
      some lruDuplicatedElement
    else if lruErr = fhNoMemory then
      some lruNoMemory
    else
      none
  else
    none

/-- `lru_add` from the allocation of the key on. -/
def addNew
    (lru : LruT)
    (slot new : Nat)
    (key : CString)
    (payload : Nat)
    (grants : AddGrants) : Checked (LruT × Int) :=
  let lru := fillRecord lru new slot key payload grants.key
  if grants.key = false then
    .ok (freeSlotOnly lru slot, lruNoMemory)
  else do
    let (lru, lruErr) ← insertKey lru new grants.insert
    match insertError lruErr with
    | some code => do
        let lru ← freeKeyAndSlot lru new slot
        .ok (lru, code)
    | none =>
        .ok (addToTop lru slot, lruOk)

/-- `lru_add`. -/
def lruAdd
    (lru : LruT)
    (key : CString)
    (payload : Nat)
    (grants : AddGrants) : Checked (LruT × Int) :=
  if lru.magic ≠ lruMagicId then
    .ok (lru, lruBadHandle)
  else do
    match ← takeSlot 2 lru with
    | (lru, none) =>
        .ok (lru, lruNoMemory)
    | (lru, some (slot, new)) =>
        addNew lru slot new key payload grants

/-- `lru_check`: the code and the value stored through `payload`. -/
def lruCheck
    (lru : LruT)
    (key : CString) : Checked (LruT × Int × Option Nat) :=
  if lru.magic ≠ lruMagicId then
    .ok (lru, lruBadHandle, none)
  else do
    let (lru, found) ← searchKey lru key
    match recordOf found.opaqueObj with
    | none =>
        .ok (lru, lruElementNotFound, none)
    | some pload => do
        let (lru, payload) ← moveToTop lru pload
        let lru ← releaseKey lru found.lockedSlot
        .ok (lru, lruOk, some payload)

/-- The loop of `lru_clear`, which takes a slot out of the list each time. -/
def lruClearLoop : Nat → LruT → Checked (LruT × Int)
  | 0, _ =>
      .error .divergence
  | fuel + 1, lru =>
      match removeLast lru with
      | (lru, none) =>
          .ok (lru, lruOk)
      | (lru, some (removed, hashpayload)) => do
          let (lru, fhErr) ← delKey lru hashpayload
          if fhErr < 0 then
            .ok (lru, lruElementNotFound)
          else do
            let lru ← freeKeyAndSlot lru hashpayload removed
            lruClearLoop fuel lru

/-- `lru_clear`. -/
def lruClear (lru : LruT) : Checked (LruT × Int) :=
  if lru.magic ≠ lruMagicId then
    .ok (lru, lruBadHandle)
  else
    lruClearLoop (lru.ll.size + 1) lru

/-- The slots from the top down, as `ll_get_payload` visits them. -/
def slotsFrom (ll : LlT) : Nat → Option Nat → List Nat
  | 0, _ =>
      []
  | _, none =>
      []
  | fuel + 1, some slot =>
      slot :: slotsFrom ll fuel (ll.prev slot)

/-- The key and payload of a record with a key. -/
def LruPayload.entry (record : LruPayload) : Option (CString × Nat) :=
  match record.fhKey with
  | .allocated key =>
      some (key, record.payload)
  | _ =>
      none

/-- The cached keys with their payloads, the most recently used one first. -/
def LruT.entries (lru : LruT) : List (CString × Nat) :=
  (slotsFrom lru.ll lru.ll.size lru.ll.top).filterMap fun slot =>
    (lru.payloads slot).entry

end Clibs.Lru
