import Clibs.Fh.Table

namespace Clibs.Fh.Exits

/-!
# The calls with every exit written out

`fh_insert`, `fh_insertlock`, `fh_search`, `fh_get` and `fh_searchlock` as they
stand in `fh.c`: each statement that leaves the function releases the lock for
itself, or does not.  Each of them is the function of the same name that has its
locked section set apart.
-/

/-- `fh->unlock_f(fh, slot)` before a function returns. -/
def unlockAnd
    {Result : Type}
    (fh : FhT)
    (slot : Nat)
    (result : Result) : Checked (FhT × Result) := do
  let locks ← fh.locks.unlock slot
  .ok
    ({ fh with
        locks := locks },
      result)

/-- Assign to the table of a handle. -/
def withTable
    (fh : FhT)
    (table : FhTable) : FhT :=
  { fh with
    table := table }

/-- The successful end of `fh_insert`: the unlock and `_fh_inc_elem`. -/
def insertDone
    (fh : FhT)
    (hashindex : Nat) : Checked (FhT × Int) := do
  let (fh, _) ← unlockAnd fh hashindex ()
  .ok
    ({ fh with
        hElements := fh.hElements + 1 },
      hashindex)

/-- `fh_insert` from the copy of the key on. -/
def insertCopies
    (fh : FhT)
    (hashindex : Nat)
    (address : SlotAddress)
    (key : CString)
    (block : Option Block)
    (grants : InsertGrants) : Checked (FhT × Int) :=
  let slot := fh.table.slotAt hashindex address
  let assign := fun slot =>
    withTable fh (fh.table.setSlot hashindex address slot)
  match fh.table.slotKey key grants.key with
  | none =>
      unlockAnd
        (assign
          { slot with
            key := none })
        hashindex fhNoMemory
  | some stored =>
      let slot :=
        { slot with
          key := some stored }
      match block with
      | none =>
          insertDone (assign slot) hashindex
      | some block =>
          if 0 < fh.table.hDatalen then
            if grants.opaqueObj = false then
              unlockAnd (assign slot) hashindex fhNoMemory
            else
              insertDone
                (assign
                  { slot with
                    opaqueObj :=
                      some
                        (.copy (memcpy fh.table.hDatalen.toNat block.bytes)) })
                hashindex
          else if fh.table.hDatalen = fhDatalenVoidp then
            insertDone
              (assign
                { slot with
                  opaqueObj := some (.pointer block) })
              hashindex
          else if fh.table.hDatalen = fhDatalenString then
            if grants.opaqueObj = false then
              unlockAnd (assign slot) hashindex fhNoMemory
            else
              insertDone
                (assign
                  { slot with
                    opaqueObj := some (.copy (untilTerminator block.bytes)) })
                hashindex
          else
            insertDone
              (assign
                { slot with
                  opaqueObj := none })
              hashindex

/-- `fh_insert`. -/
def fhInsert
    (fh : FhT)
    (key : Option CString)
    (block : Option Block)
    (grants : InsertGrants) : Checked (FhT × Int) :=
  if fh.hMagic ≠ fhMagicId then
    .ok (fh, fhBadHandle)
  else
    match key with
    | none =>
        .ok (fh, fhInvalidKey)
    | some key => do
        let hash := fh.table.hashFunction key
        let miniHash := makeMinihash hash
        let hashindex := fh.table.hashindex hash
        let locks ← fh.locks.wlock hashindex
        let fh :=
          { fh with
            locks := locks }
        if ¬ hashindex < fh.table.hDim then
          .error .assertionFailed
        else
          match headBucket fh.table hashindex grants.bucket with
          | (table, false) =>
              unlockAnd (withTable fh table) hashindex fhNoMemory
          | (table, true) => do
              match
                ← fhFindSlotInBucket key miniHash (table.hashTable hashindex)
                with
              | some _ =>
                  unlockAnd (withTable fh table) hashindex fhDuplicatedElement
              | none =>
                  match claimSlot table hashindex miniHash grants.bucket with
                  | (table, none) =>
                      unlockAnd (withTable fh table) hashindex fhNoMemory
                  | (table, some address) =>
                      insertCopies (withTable fh table) hashindex address key
                        block grants

/-- The exits of `fh_insertlock` that set `*error` and return `NULL`. -/
def unlockAndFail
    (fh : FhT)
    (hashIndex : Nat)
    (error : Int) : Checked (FhT × LockedResult) :=
  unlockAnd fh hashIndex (.failed error)

/-- The successful end of `fh_insertlock`, which releases no lock. -/
def insertlockDone
    (fh : FhT)
    (hashIndex : Nat)
    (address : SlotAddress)
    (addrGiven : Bool) : Checked (FhT × LockedResult) :=
  .ok
    ({ fh with
        hElements := fh.hElements + 1 },
      { opaqueObj := (fh.table.slotAt hashIndex address).opaqueObj
        error := fhOk
        lockedSlot := some hashIndex
        opaqueObjAddr :=
          if addrGiven ∧ fh.table.hDatalen = fhDatalenVoidp then
            some address
          else
            none })

/-- `fh_insertlock` from the copy of the key on. -/
def insertlockCopies
    (fh : FhT)
    (hashIndex : Nat)
    (address : SlotAddress)
    (key : CString)
    (block : Option Block)
    (addrGiven : Bool)
    (grants : InsertGrants) : Checked (FhT × LockedResult) :=
  let slot := fh.table.slotAt hashIndex address
  let assign := fun slot =>
    withTable fh (fh.table.setSlot hashIndex address slot)
  match fh.table.slotKey key grants.key with
  | none =>
      unlockAndFail
        (assign
          { slot with
            key := none })
        hashIndex fhNoMemory
  | some stored =>
      let slot :=
        { slot with
          key := some stored }
      match block with
      | none =>
          insertlockDone (assign slot) hashIndex address addrGiven
      | some block =>
          if 0 < fh.table.hDatalen then
            if grants.opaqueObj = false then
              unlockAndFail (assign slot) hashIndex fhNoMemory
            else
              insertlockDone
                (assign
                  { slot with
                    opaqueObj :=
                      some
                        (.copy (memcpy fh.table.hDatalen.toNat block.bytes)) })
                hashIndex address addrGiven
          else if fh.table.hDatalen = fhDatalenVoidp then
            insertlockDone
              (assign
                { slot with
                  opaqueObj := some (.pointer block) })
              hashIndex address addrGiven
          else if fh.table.hDatalen = fhDatalenString then
            if grants.opaqueObj = false then
              unlockAndFail (assign slot) hashIndex fhNoMemory
            else
              insertlockDone
                (assign
                  { slot with
                    opaqueObj := some (.copy (untilTerminator block.bytes)) })
                hashIndex address addrGiven
          else
            insertlockDone
              (assign
                { slot with
                  opaqueObj := none })
              hashIndex address addrGiven

/--
`fh_insertlock`; `slotGiven` and `addrGiven` tell whether `locked_slot` and
`opaque_obj_addr` are not `NULL`.
-/
def fhInsertlock
    (fh : FhT)
    (key : Option CString)
    (block : Option Block)
    (slotGiven addrGiven : Bool)
    (grants : InsertGrants) : Checked (FhT × LockedResult) :=
  if fh.hMagic ≠ fhMagicId then
    .ok (fh, .failed fhBadHandle)
  else
    match key with
    | none =>
        .ok (fh, .failed fhInvalidKey)
    | some key =>
        if slotGiven = false then
          .ok (fh, .failed fhInvalidArgument)
        else do
          let hash := fh.table.hashFunction key
          let miniHash := makeMinihash hash
          let hashIndex := fh.table.hashindex hash
          let locks ← fh.locks.wlock hashIndex
          let fh :=
            { fh with
              locks := locks }
          if ¬ hashIndex < fh.table.hDim then
            .error .assertionFailed
          else
            match headBucket fh.table hashIndex grants.bucket with
            | (table, false) =>
                unlockAndFail (withTable fh table) hashIndex fhNoMemory
            | (table, true) => do
                match
                  ← fhFindSlotInBucket key miniHash
                      (table.hashTable hashIndex)
                  with
                | some _ =>
                    unlockAndFail (withTable fh table) hashIndex
                      fhDuplicatedElement
                | none =>
                    match claimSlot table hashIndex miniHash grants.bucket with
                    | (table, none) =>
                        unlockAndFail (withTable fh table) hashIndex fhNoMemory
                    | (table, some address) =>
                        insertlockCopies (withTable fh table) hashIndex address
                          key block addrGiven grants

/--
`fh_search`: the code and the bytes written to the start of the caller's buffer;
`blockGiven` tells whether the buffer is not `NULL`.
-/
def fhSearch
    (fh : FhT)
    (key : Option CString)
    (blockGiven : Bool)
    (blockSize : Int) : Checked (FhT × Int × List UInt8) :=
  if fh.hMagic ≠ fhMagicId then
    .ok (fh, fhBadHandle, [])
  else
    match key with
    | none =>
        .ok (fh, fhInvalidKey, [])
    | some key =>
        if blockGiven = false then
          .ok (fh, fhInvalidArgument, [])
        else if fh.table.hDatalen = fhDatalenVoidp then
          .ok (fh, fhWrongDatalen, [])
        else do
          let i := fh.table.hashindex (fh.table.hashFunction key)
          let locks ← fh.locks.rlock i
          let fh :=
            { fh with
              locks := locks }
          match ← findSlot fh.table key with
          | none =>
              unlockAnd fh i (fhElementNotFound, [])
          | some slot =>
              match slot.opaqueObj with
              | none =>
                  unlockAnd fh i (i, [])
              | some object =>
                  if 0 < fh.table.hDatalen then
                    unlockAnd fh i
                      (i, memcpy fh.table.hDatalen.toNat object.bytes)
                  else if fh.table.hDatalen = fhDatalenString then
                    if blockSize < 0 then
                      unlockAnd fh i (fhDimInvalid, [])
                    else
                      unlockAnd fh i (i, strncpy object.bytes blockSize.toNat)
                  else
                    unlockAnd fh i (i, [])

/-- `fh_get`: the opaque object and `*error`. -/
def fhGet
    (fh : FhT)
    (key : Option CString) : Checked (FhT × Option OpaqueObj × Int) :=
  if fh.hMagic ≠ fhMagicId then
    .ok (fh, none, fhBadHandle)
  else
    match key with
    | none =>
        .ok (fh, none, fhInvalidKey)
    | some key => do
        let i := fh.table.hashindex (fh.table.hashFunction key)
        let locks ← fh.locks.rlock i
        let fh :=
          { fh with
            locks := locks }
        match ← findSlot fh.table key with
        | none =>
            unlockAnd fh i (none, fhElementNotFound)
        | some slot =>
            unlockAnd fh i (slot.opaqueObj, fhOk)

/-- `fh_searchlock`. -/
def fhSearchlock
    (fh : FhT)
    (key : Option CString) : Checked (FhT × LockedResult) :=
  if fh.hMagic ≠ fhMagicId then
    .ok (fh, .failed fhBadHandle)
  else
    match key with
    | none =>
        .ok (fh, .failed fhInvalidKey)
    | some key => do
        let i := fh.table.hashindex (fh.table.hashFunction key)
        let locks ← fh.locks.wlock i
        let fh :=
          { fh with
            locks := locks }
        match ← findSlot fh.table key with
        | none =>
            unlockAnd fh i (.failed fhElementNotFound)
        | some slot =>
            .ok
              (fh,
                { opaqueObj := slot.opaqueObj
                  error := fhOk
                  lockedSlot := some i
                  opaqueObjAddr := none })

section Same

variable {fh : FhT}
  {hashindex : Nat}
  {address : SlotAddress}
  {key : CString}
  {block : Option Block}
  {grants : InsertGrants}

/-- The exits behind the search for the place are those of `fillSlot`. -/
theorem insertCopies_eq :
    insertCopies fh hashindex address key block grants =
      (do
        let filled := fillSlot fh.table hashindex address key block grants
        let locks ← fh.locks.unlock hashindex
        match filled.2 with
        | .error code =>
            .ok
              ({ fh with
                  table := filled.1
                  locks := locks },
                code)
        | .ok _ =>
            .ok
              ({ fh with
                  hElements := fh.hElements + 1
                  table := filled.1
                  locks := locks },
                hashindex)) := by
  unfold insertCopies fillSlot
  simp only [insertDone, unlockAnd, withTable, bind_assoc, Checked.ok_bind]
  cases fh.table.slotKey key grants.key with
  | none =>
      rfl
  | some stored =>
      cases block with
      | none =>
          rfl
      | some block =>
          simp only [newOpaqueObj]
          split_ifs <;> first | rfl | simp_all

/-- The same exits of `fh_insertlock`. -/
theorem insertlockCopies_eq
    (addrGiven : Bool) :
    insertlockCopies fh hashindex address key block addrGiven grants =
      (let filled := fillSlot fh.table hashindex address key block grants
      match filled.2 with
      | .error code =>
          unlockAndFail (withTable fh filled.1) hashindex code
      | .ok address =>
          insertlockDone (withTable fh filled.1) hashindex address
            addrGiven) := by
  unfold insertlockCopies fillSlot
  cases fh.table.slotKey key grants.key with
  | none =>
      rfl
  | some stored =>
      cases block with
      | none =>
          rfl
      | some block =>
          simp only [newOpaqueObj]
          split_ifs <;> first | rfl | simp_all

/-- What follows the locked section of an insertion follows each of its ends. -/
theorem insertSlot_bind
    {Result : Type}
    (table : FhTable)
    (key : CString)
    (block : Option Block)
    (grants : InsertGrants)
    (exit : FhTable × Except Int SlotAddress → Checked Result) :
    insertSlot table key block grants >>= exit =
      (let hash := table.hashFunction key
      let hashindex := table.hashindex hash
      if ¬ hashindex < table.hDim then
        .error .assertionFailed
      else
        match headBucket table hashindex grants.bucket with
        | (table, false) =>
            exit (table, .error fhNoMemory)
        | (table, true) => do
            match
              ← fhFindSlotInBucket key (makeMinihash hash)
                  (table.hashTable hashindex)
              with
            | some _ =>
                exit (table, .error fhDuplicatedElement)
            | none =>
                match
                  claimSlot table hashindex (makeMinihash hash) grants.bucket
                  with
                | (table, none) =>
                    exit (table, .error fhNoMemory)
                | (table, some address) =>
                    exit (fillSlot table hashindex address key block grants)) := by
  simp only [insertSlot]
  split
  next =>
    rfl
  next =>
    rcases headBucket table (table.hashindex (table.hashFunction key))
      grants.bucket with ⟨table, _ | _⟩
    · rfl
    · simp only [bind_assoc]
      refine congrArg _ (funext fun found => ?_)
      cases found with
      | some found =>
          rfl
      | none =>
          simp only
          rcases claimSlot table _ _ _ with ⟨claimed, _ | address⟩
          · rfl
          · rfl

/-- `fh_insert` with all its exits. -/
theorem fhInsert_eq
    (fh : FhT)
    (key : Option CString)
    (block : Option Block)
    (grants : InsertGrants) :
    fhInsert fh key block grants = Fh.fhInsert fh key block grants := by
  unfold fhInsert Fh.fhInsert
  split
  next =>
    rfl
  next =>
    cases key with
    | none =>
        rfl
    | some key =>
        simp only [insertCopies_eq]
        refine bind_congr fun locks => ?_
        rw [insertSlot_bind]
        rfl

/-- `fh_insertlock` with all its exits. -/
theorem fhInsertlock_eq
    (fh : FhT)
    (key : Option CString)
    (block : Option Block)
    (slotGiven addrGiven : Bool)
    (grants : InsertGrants) :
    fhInsertlock fh key block slotGiven addrGiven grants =
      Fh.fhInsertlock fh key block slotGiven addrGiven grants := by
  unfold fhInsertlock Fh.fhInsertlock
  split
  next =>
    rfl
  next =>
    cases key with
    | none =>
        rfl
    | some key =>
        simp only [insertlockCopies_eq]
        refine ite_congr rfl (fun _ => rfl) fun _ => ?_
        refine bind_congr fun locks => ?_
        rw [insertSlot_bind]
        rfl

/-- `fh_search` with all its exits. -/
theorem fhSearch_eq
    (fh : FhT)
    (key : Option CString)
    (blockGiven : Bool)
    (blockSize : Int) :
    fhSearch fh key blockGiven blockSize =
      Fh.fhSearch fh key blockGiven blockSize := by
  unfold fhSearch Fh.fhSearch
  split
  next =>
    rfl
  next =>
    cases key with
    | none =>
        rfl
    | some key =>
        refine ite_congr rfl (fun _ => rfl) fun _ => ?_
        refine ite_congr rfl (fun _ => rfl) fun _ => ?_
        apply bind_congr
        intro locks
        apply bind_congr
        intro found
        cases found with
        | none =>
            rfl
        | some slot =>
            simp only [copyOut, unlockAnd]
            cases slot.opaqueObj with
            | none =>
                rfl
            | some object =>
                simp only
                split_ifs <;> rfl

/-- `fh_get` with all its exits. -/
theorem fhGet_eq
    (fh : FhT)
    (key : Option CString) :
    fhGet fh key = Fh.fhGet fh key := by
  unfold fhGet Fh.fhGet
  split
  next =>
    rfl
  next =>
    cases key with
    | none =>
        rfl
    | some key =>
        apply bind_congr
        intro locks
        apply bind_congr
        intro found
        cases found with
        | none =>
            rfl
        | some slot =>
            rfl

/-- `fh_searchlock` with all its exits. -/
theorem fhSearchlock_eq
    (fh : FhT)
    (key : Option CString) :
    fhSearchlock fh key = Fh.fhSearchlock fh key := by
  unfold fhSearchlock Fh.fhSearchlock
  split
  next =>
    rfl
  next =>
    cases key with
    | none =>
        rfl
    | some key =>
        apply bind_congr
        intro locks
        apply bind_congr
        intro found
        cases found with
        | none =>
            rfl
        | some slot =>
            rfl

end Same

end Clibs.Fh.Exits
