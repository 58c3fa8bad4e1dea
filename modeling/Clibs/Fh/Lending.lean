import Clibs.Fh.Slots

namespace Clibs.Fh

/-!
# Slot addresses in the hands of the user

A user makes calls and writes through the slot addresses it was handed by
`fh_insertlock`.  What is recorded of a key is the address and the object that
the user stored last, until the key is deleted.  What a call does to the slots
of the table is said once (`TableMove`); a run keeps each lent address that of
the slot of its key.
-/

/-- An address that was handed out, and the object stored last. -/
structure Loan where
  address : SlotAddress
  object : Option OpaqueObj
  deriving Repr, DecidableEq

/-- The loans of the user by key. -/
abbrev Loans :=
  CString → Option Loan

/-- A table, with the slot addresses the user holds. -/
structure UserState where
  fh : FhT
  loans : Loans

/-- A call, or an assignment through the address lent for a key. -/
inductive UserCall where
  | call (call : TableCall)
  | write (key : CString) (value : Option Block)
  deriving Repr, DecidableEq

/-- What a call means for the loans. -/
inductive LoanEffect where
  | nothing
  | lends (key : CString) (loan : Loan)
  | revokes (key : CString)
  | revokesAll
  deriving Repr, DecidableEq

/-- A deletion that succeeded ends the loan of the key. -/
def deletionEffect
    (key : CString)
    (code : Int) : LoanEffect :=
  if 0 ≤ code then
    .revokes key
  else
    .nothing

/-- What a call that returned means for the loans. -/
def TableCall.effect : TableCall → TableResult → LoanEffect
  | .insertlock (some key) _ _ _ _, .locked result =>
      match result.opaqueObjAddr with
      | some address =>
          .lends key
            { address := address
              object := result.opaqueObj }
      | none =>
          .nothing
  | .del (some key), .code code =>
      deletionEffect key code
  | .dellocked (some key) _, .code code =>
      deletionEffect key code
  | .clean _ _, .code code =>
      if code = fhOk then .revokesAll else .nothing
  | _, _ =>
      .nothing

/-- The loans after a call. -/
def Loans.after
    (loans : Loans) : LoanEffect → Loans
  | .nothing =>
      loans
  | .lends key loan =>
      Function.update loans key (some loan)
  | .revokes key =>
      Function.update loans key none
  | .revokesAll =>
      fun _ => none

/-- The assignment through a slot address, in the bucket it points into. -/
def writeOpaqueObj
    (address : SlotAddress)
    (object : Option OpaqueObj)
    (bucket : FhBucket) : FhBucket :=
  if bucket.address = address.1 then
    bucket.setSlot address.2
      { bucket.slot address.2 with
        opaqueObj := object }
  else
    bucket

/-- `*opaque_obj_addr = object`, a fault when the bucket was freed. -/
def FhTable.writeThrough
    (table : FhTable)
    (address : SlotAddress)
    (object : Option OpaqueObj) : Checked FhTable :=
  if (List.range table.hDim).any fun index =>
      (table.hashTable index).any fun bucket =>
        decide (bucket.address = address.1) then
    .ok
      { table with
        hashTable := fun index =>
          (table.hashTable index).map (writeOpaqueObj address object) }
  else
    .error .useAfterFree

/-- Make a call, or write through the address lent for a key, if there is one. -/
def userStep
    (state : UserState) :
    UserCall → Checked (UserState × Option TableResult)
  | .call call => do
      let (fh, result) ← tableStep state.fh call
      .ok
        ({ fh := fh
           loans := state.loans.after (call.effect result) },
          some result)
  | .write key value =>
      match state.loans key with
      | none =>
          .ok (state, none)
      | some loan => do
          let object := value.map OpaqueObj.pointer
          let table ← state.fh.table.writeThrough loan.address object
          .ok
            ({ fh :=
                { state.fh with
                  table := table }
               loans :=
                Function.update state.loans key
                  (some
                    { address := loan.address
                      object := object }) },
              none)

/-- The allocations of a call succeed. -/
def UserCall.Granted : UserCall → Prop
  | .call tableCall =>
      tableCall.Granted
  | .write _ _ =>
      True

/-- The key that a call inserts or deletes. -/
def TableCall.key : TableCall → Option CString
  | .insert key _ _ =>
      key
  | .insertlock key _ _ _ _ =>
      key
  | .del key =>
      key
  | .dellocked key _ =>
      key
  | _ =>
      none

/-- The call is `fh_clean`. -/
def TableCall.Cleans : TableCall → Prop
  | .clean _ _ =>
      True
  | _ =>
      False

/-- What a call on a key does to the slots of the table, and to the loans. -/
inductive TableMove
    (table : FhTable) :
    Option CString → LoanEffect → FhTable → Prop where
  | stays
      {key : Option CString}
      {next : FhTable} :
      next.hDim = table.hDim →
      next.hashFunction = table.hashFunction →
      next.hashTable = table.hashTable →
      table.nextBucket ≤ next.nextBucket →
      TableMove table key .nothing next
  | inserts
      {key : FhKey}
      {object : Option OpaqueObj}
      {address : SlotAddress}
      {effect : LoanEffect}
      {next : FhTable} :
      (∀ other, (key.string, other) ∉ table.entries) →
      table.Inserted next key object address →
      table.AllocatesAt (table.indexOf key.string) next →
      effect = .nothing ∨ effect = .lends key.string ⟨address, object⟩ →
      TableMove table (some key.string) effect next
  | deletes
      {key : FhKey}
      {object : Option OpaqueObj}
      {address : SlotAddress}
      {next : FhTable} :
      table.Deleted next key object address →
      TableMove table (some key.string) (.revokes key.string) next
  | cleans
      {next : FhTable} :
      table.AllocatesAt 0 next →
      TableMove table none .revokesAll next

section Moves

variable {table next : FhTable}
  {keyOk : FhKey → Prop}
  {key : Option CString}
  {effect : LoanEffect}

/-- Every call keeps the chains apart. -/
theorem TableMove.apart
    (move : TableMove table key effect next)
    (ok : table.OkFor keyOk)
    (apart : table.Apart) :
    next.Apart := by
  cases move with
  | stays sameDim sameFunction chains grows =>
      have allocates : table.AllocatesAt 0 next := .of_chains chains grows
      exact allocates.apart ok.below apart
  | inserts isNew inserted allocates effects =>
      exact allocates.apart ok.below apart
  | deletes deleted =>
      exact (deleted.allocatesAt 0).apart ok.below apart
  | cleans allocates =>
      exact allocates.apart ok.below apart

/-- No call but `fh_clean` touches the slot of another key. -/
theorem TableMove.slotHolds
    (move : TableMove table key effect next)
    (notAll : effect ≠ .revokesAll)
    {address : SlotAddress}
    {stored : FhKey}
    {object : Option OpaqueObj}
    (differs : key ≠ some stored.string)
    (holds : table.SlotHolds address stored object) :
    next.SlotHolds address stored object := by
  cases move with
  | stays sameDim sameFunction chains grows =>
      exact holds.of_same sameDim sameFunction chains
  | inserts isNew inserted allocates effects =>
      exact inserted.keeps holds
  | deletes deleted =>
      exact deleted.keeps holds fun same => differs (congrArg some same.symm)
  | cleans allocates =>
      exact (notAll rfl).elim

/-- The loans are those of the slots of their keys. -/
def FhTable.Lends
    (table : FhTable)
    (loans : Loans) : Prop :=
  ∀ key loan,
    loans key = some loan →
      ∃ stored,
        stored.string = key ∧
          table.SlotHolds loan.address stored loan.object

/-- Every call keeps the loans those of the slots of their keys. -/
theorem TableMove.lends
    (move : TableMove table key effect next)
    {loans : Loans}
    (lends : table.Lends loans) :
    next.Lends (loans.after effect) := by
  cases move with
  | stays sameDim sameFunction chains grows =>
      intro other loan isLent
      obtain ⟨stored, sameKey, holds⟩ := lends other loan isLent
      exact ⟨stored, sameKey, holds.of_same sameDim sameFunction chains⟩
  | @inserts inserted object address _ _ isNew isInserted allocates effects =>
      intro other loan isLent
      have keeps :
          loans other = some loan →
            ∃ stored,
              stored.string = other ∧
                next.SlotHolds loan.address stored loan.object := by
        intro wasLent
        obtain ⟨stored, sameKey, holds⟩ := lends other loan wasLent
        exact ⟨stored, sameKey, isInserted.keeps holds⟩
      rcases effects with rfl | rfl
      · exact keeps isLent
      · by_cases same : other = inserted.string
        · subst same
          simp only [Loans.after, Function.update_self, Option.some.injEq]
            at isLent
          subst isLent
          exact ⟨inserted, rfl, isInserted.holds⟩
        · simp only [Loans.after, Function.update_of_ne same] at isLent
          exact keeps isLent
  | @deletes deleted object address _ isDeleted =>
      intro other loan isLent
      by_cases same : other = deleted.string
      · subst same
        simp [Loans.after] at isLent
      · simp only [Loans.after, Function.update_of_ne same] at isLent
        obtain ⟨stored, sameKey, holds⟩ := lends other loan isLent
        exact ⟨stored, sameKey,
          isDeleted.keeps holds fun isKey => same (sameKey.symm.trans isKey)⟩
  | cleans allocates =>
      intro other loan isLent
      cases isLent

/-- A loan stays until the key is deleted. -/
theorem TableMove.loan_kept
    (move : TableMove table key effect next)
    (ok : table.OkFor keyOk)
    {loans : Loans}
    (lends : table.Lends loans)
    {other : CString}
    {loan : Loan}
    (isLent : loans other = some loan)
    (notDeleted : effect ≠ .revokes other)
    (notCleaned : effect ≠ .revokesAll) :
    loans.after effect other = some loan := by
  cases move with
  | stays sameDim sameFunction chains grows =>
      exact isLent
  | @inserts inserted object address _ _ isNew isInserted allocates effects =>
      rcases effects with rfl | rfl
      · exact isLent
      · have differs : other ≠ inserted.string := by
          rintro rfl
          obtain ⟨stored, sameKey, holds⟩ := lends _ loan isLent
          have member := holds.mem_entries ok
          rw [sameKey] at member
          exact isNew _ member
        simp only [Loans.after, Function.update_of_ne differs]
        exact isLent
  | @deletes deleted object address _ isDeleted =>
      have differs : other ≠ deleted.string := by
        rintro rfl
        exact notDeleted rfl
      simp only [Loans.after, Function.update_of_ne differs]
      exact isLent
  | cleans allocates =>
      exact (notCleaned rfl).elim

end Moves

section Calls

variable {fh next : FhT}
  {key : CString}

/-- A deletion that is counted leaves the table and the code. -/
theorem countDeletion_same
    {code result : Int}
    (counts : countDeletion fh code = (next, result)) :
    next.table = fh.table ∧ result = code := by
  unfold countDeletion at counts
  split at counts
  · cases counts
    exact ⟨rfl, rfl⟩
  · cases counts
    exact ⟨rfl, rfl⟩

/-- What a deletion in the chain of the key did. -/
theorem FhT.InUse.del_outcome
    (inUse : fh.InUse)
    {code : Int}
    (deletes : fhDel fh (some key) = .ok (next, code)) :
    DeleteOutcome fh.table key (fh.table.indexOf key) next.table code := by
  rw [fhDel, if_neg (not_not.mpr inUse.magic)] at deletes
  obtain ⟨held, takes, rest⟩ := Checked.bind_eq_ok.mp deletes
  obtain ⟨table, found, locked, outcomes⟩ :=
    fhDelUnlocked_outcome inUse.ok.okFor key (inUse.ok.okFor.indexOf_lt key)
  have unlocked := locked
  rw [FhTable.indexOf] at unlocked
  simp only [unlocked, Checked.ok_bind] at rest
  obtain ⟨locks, gives, same⟩ := Checked.bind_eq_ok.mp rest
  obtain ⟨sameTable, sameCode⟩ := countDeletion_same (Except.ok.inj same)
  rw [sameTable, sameCode]
  exact outcomes

/-- What a deletion in a chain that is named by the caller did. -/
theorem FhT.InUse.dellocked_outcome
    (inUse : fh.InUse)
    {lockedBucket : Nat}
    {code : Int}
    (deletes : fhDellocked fh (some key) lockedBucket = .ok (next, code)) :
    DeleteOutcome fh.table key lockedBucket next.table code := by
  rw [fhDellocked, if_neg (not_not.mpr inUse.magic)] at deletes
  by_cases inRange : lockedBucket < fh.table.hDim
  · obtain ⟨table, found, locked, outcomes⟩ :=
      fhDelUnlocked_outcome inUse.ok.okFor key inRange
    simp only [locked, Checked.ok_bind] at deletes
    obtain ⟨sameTable, sameCode⟩ := countDeletion_same (Except.ok.inj deletes)
    rw [sameTable, sameCode]
    exact outcomes
  · simp [fhDelUnlocked, inRange] at deletes

/-- A deletion that returned is a move. -/
theorem DeleteOutcome.moves
    {table after : FhTable}
    {index : Nat}
    {code : Int}
    (outcome : DeleteOutcome table key index after code) :
    TableMove table (some key) (deletionEffect key code) after := by
  cases outcome with
  | deleted isIndex sameKey deleted =>
      subst sameKey
      rw [deletionEffect, if_pos (Int.natCast_nonneg _)]
      exact .deletes deleted
  | missing absent =>
      exact .stays rfl rfl rfl (Nat.le_refl _)

/-- A deletion allocates nothing. -/
theorem DeleteOutcome.allocatesAt
    {table after : FhTable}
    {index : Nat}
    {code : Int}
    (outcome : DeleteOutcome table key index after code)
    (changed : Nat) :
    table.AllocatesAt changed after := by
  cases outcome with
  | deleted isIndex sameKey deleted =>
      exact deleted.allocatesAt changed
  | missing absent =>
      exact .of_chains rfl (Nat.le_refl _)

/-- The locked section of an insertion whose allocations succeed is a move. -/
theorem InsertOutcome.moves
    {table after : FhTable}
    {keyOk : FhKey → Prop}
    (ok : table.OkFor keyOk)
    {block : Option Block}
    {outcome : Except Int SlotAddress}
    (outcomes : InsertOutcome table key block .all after outcome)
    (allocates : table.AllocatesAt (table.indexOf key) after) :
    TableMove table (some key) .nothing after ∧
      ∀ address,
        outcome = .ok address →
        TableMove table (some key)
          (.lends key
            ⟨address,
              (after.slotAt (table.indexOf key) address).opaqueObj⟩)
          after := by
  cases outcomes with
  | duplicate member =>
      exact ⟨.stays rfl rfl rfl (Nat.le_refl _), nofun⟩
  | noBucket absent same chains grows =>
      exact ⟨.stays same.hDim same.hashFunction chains grows, nofun⟩
  | halfWritten absent memory fills placed =>
      exact (copyFails_granted _ _ _ (filledSlot_fails fills)).elim
  | inserted absent isKey isObject sameKey inserted =>
      subst sameKey
      refine ⟨.inserts absent inserted allocates (.inl rfl), ?_⟩
      intro address isAddress
      cases isAddress
      rw [inserted.slotAt ok]
      exact .inserts absent inserted allocates (.inr rfl)

/-- An insertion that returned is a move. -/
theorem FhT.InUse.insert_moves
    (inUse : fh.InUse)
    {block : Option Block}
    {code : Int}
    (inserts : fhInsert fh (some key) block .all = .ok (next, code)) :
    TableMove fh.table (some key) .nothing next.table := by
  rw [fhInsert, if_neg (not_not.mpr inUse.magic)] at inserts
  obtain ⟨held, takes, rest⟩ := Checked.bind_eq_ok.mp inserts
  obtain ⟨table, outcome, locked, outcomes⟩ :=
    insertSlot_outcome inUse.ok.okFor key block .all
  have moves :=
    (outcomes.moves inUse.ok.okFor
      (FhTable.insertSlot_allocatesAt locked)).1
  rw [locked, Checked.ok_bind] at rest
  obtain ⟨locks, gives, same⟩ := Checked.bind_eq_ok.mp rest
  cases outcome with
  | error code =>
      cases same
      exact moves
  | ok address =>
      cases same
      exact moves

/-- An insertion that keeps the lock and returned is a move. -/
theorem FhT.InUse.insertlock_moves
    (inUse : fh.InUse)
    {block : Option Block}
    {slotGiven addrGiven : Bool}
    {result : LockedResult}
    (inserts :
      fhInsertlock fh (some key) block slotGiven addrGiven .all =
        .ok (next, result)) :
    TableMove fh.table (some key)
      ((TableCall.insertlock (some key) block slotGiven addrGiven .all).effect
        (.locked result))
      next.table := by
  rw [fhInsertlock, if_neg (not_not.mpr inUse.magic)] at inserts
  cases slotGiven with
  | false =>
      cases inserts
      exact .stays rfl rfl rfl (Nat.le_refl _)
  | true =>
      obtain ⟨held, takes, rest⟩ := Checked.bind_eq_ok.mp inserts
      obtain ⟨table, outcome, locked, outcomes⟩ :=
        insertSlot_outcome inUse.ok.okFor key block .all
      obtain ⟨moves, lends⟩ :=
        outcomes.moves inUse.ok.okFor
          (FhTable.insertSlot_allocatesAt locked)
      rw [locked, Checked.ok_bind] at rest
      cases outcome with
      | error code =>
          obtain ⟨locks, gives, same⟩ := Checked.bind_eq_ok.mp rest
          cases same
          exact moves
      | ok address =>
          cases rest
          by_cases isGiven :
              addrGiven = true ∧ table.hDatalen = fhDatalenVoidp
          · simp only [TableCall.effect, if_pos isGiven]
            exact lends address rfl
          · simp only [TableCall.effect, if_neg isGiven]
            exact moves

/-- Reading a key leaves the table. -/
theorem get_table
    (inUse : fh.InUse)
    {key : Option CString}
    {object : Option OpaqueObj}
    {code : Int}
    (gets : fhGet fh key = .ok (next, object, code)) :
    next.table = fh.table := by
  cases key with
  | none =>
      rw [fhGet, if_neg (not_not.mpr inUse.magic)] at gets
      cases gets
      rfl
  | some key =>
      rw [fhGet, if_neg (not_not.mpr inUse.magic)] at gets
      obtain ⟨held, takes, rest⟩ := Checked.bind_eq_ok.mp gets
      obtain ⟨found, -, rest⟩ := Checked.bind_eq_ok.mp rest
      obtain ⟨locks, gives, same⟩ := Checked.bind_eq_ok.mp rest
      cases found with
      | none =>
          cases same
          rfl
      | some slot =>
          cases same
          rfl

/-- A search that keeps the lock leaves the table. -/
theorem searchlock_table
    (inUse : fh.InUse)
    {key : Option CString}
    {result : LockedResult}
    (searches : fhSearchlock fh key = .ok (next, result)) :
    next.table = fh.table := by
  cases key with
  | none =>
      rw [fhSearchlock, if_neg (not_not.mpr inUse.magic)] at searches
      cases searches
      rfl
  | some key =>
      rw [fhSearchlock, if_neg (not_not.mpr inUse.magic)] at searches
      obtain ⟨held, takes, rest⟩ := Checked.bind_eq_ok.mp searches
      obtain ⟨found, -, rest⟩ := Checked.bind_eq_ok.mp rest
      cases found with
      | none =>
          obtain ⟨locks, gives, same⟩ := Checked.bind_eq_ok.mp rest
          cases same
          rfl
      | some slot =>
          cases rest
          rfl

/-- Creating an enumerator leaves the table. -/
theorem enumCreate_same
    {sortOrder : Int}
    {grants : EnumGrants}
    {result : Except Int FhEnum}
    (creates : fhEnumCreate fh sortOrder grants = .ok (next, result)) :
    next.table = fh.table ∧
      (∀ code, result = .error code → code ≠ fhOk) ∧
      ∀ fhe, result = .ok fhe → fhe.magic = fheMagicId := by
  have failed :
      ∀ code, code ≠ fhOk →
        (.ok (fh, .error code) : Checked (FhT × Except Int FhEnum)) =
          .ok (next, result) →
        next.table = fh.table ∧
          (∀ code, result = .error code → code ≠ fhOk) ∧
          ∀ fhe, result = .ok fhe → fhe.magic = fheMagicId := by
    intro code notOk same
    cases same
    exact ⟨rfl, fun other isCode => Except.error.inj isCode ▸ notOk, nofun⟩
  unfold fhEnumCreate at creates
  split at creates
  · exact failed _ (by decide) creates
  · split at creates
    · exact failed _ (by decide) creates
    · split at creates
      · exact failed _ (by decide) creates
      · split at creates
        · exact failed _ (by decide) creates
        · obtain ⟨⟨locks, recorded⟩, records, rest⟩ :=
            Checked.bind_eq_ok.mp creates
          obtain ⟨sorted, sorts, same⟩ := Checked.bind_eq_ok.mp rest
          cases same
          refine ⟨rfl, nofun, ?_⟩
          intro fhe isEnum
          cases isEnum
          rfl

/-- The loop of `fh_clean` allocates nothing and keeps its result. -/
theorem FhT.InUse.cleanLoop_allocatesAt
    (inUse : fh.InUse)
    {User : Type}
    {delFunc : Option (DelFunc User)}
    {fuel : Nat}
    {fhe : FhEnum}
    (magic : fhe.magic = fheMagicId)
    {result code : Int}
    {user released : User}
    (cleans :
      fhCleanLoop delFunc fuel fh fhe result user =
        .ok (next, code, released)) :
    fh.table.AllocatesAt 0 next.table ∧ code = result := by
  induction fuel generalizing fh fhe user with
  | zero =>
      cases cleans
  | succ fuel inductionHypothesis =>
      rw [fhCleanLoop] at cleans
      split at cleans
      · simp only [fhEnumGetValue, magic, ne_eq, not_true_eq_false, if_false]
          at cleans
        split at cleans
        next noElement error isValue =>
          have noError : error = none := by
            split at isValue
            · cases isValue
            · cases isValue
              rfl
          cases cleans
          exact ⟨.of_chains rfl (Nat.le_refl _), by rw [noError]; rfl⟩
        next element error isValue =>
          have noError : error = none := by
            split at isValue
            · cases isValue
              rfl
            · cases isValue
          obtain ⟨⟨middle, deleted⟩, deletes, rest⟩ :=
            Checked.bind_eq_ok.mp cleans
          have allocates : fh.table.AllocatesAt 0 middle.table := by
            cases isKey : element.key with
            | none =>
                rw [isKey, Option.map_none, fhDel,
                  if_neg (not_not.mpr inUse.magic)] at deletes
                cases deletes
                exact .of_chains rfl (Nat.le_refl _)
            | some key =>
                rw [isKey] at deletes
                exact (inUse.del_outcome deletes).allocatesAt 0
          have nextMagic : (fhEnumMoveNext fhe).1.magic = fheMagicId := by
            unfold fhEnumMoveNext
            split_ifs <;> exact magic
          rw [noError] at rest
          obtain ⟨restAllocates, isResult⟩ :=
            inductionHypothesis (inUse.del deletes) nextMagic rest
          exact ⟨allocates.trans restAllocates, isResult⟩
      · cases cleans
        exact ⟨.of_chains rfl (Nat.le_refl _), rfl⟩

/-- Cleaning that returned is a move. -/
theorem FhT.InUse.clean_moves
    (inUse : fh.InUse)
    {User : Type}
    {delFunc : Option (DelFunc User)}
    {grants : EnumGrants}
    {code : Int}
    {user released : User}
    (cleans : fhClean fh delFunc grants user = .ok (next, code, released)) :
    TableMove fh.table none (if code = fhOk then .revokesAll else .nothing)
      next.table := by
  rw [fhClean, if_neg (not_not.mpr inUse.magic)] at cleans
  split at cleans
  · cases cleans
    exact .stays rfl rfl rfl (Nat.le_refl _)
  · obtain ⟨⟨middle, created⟩, creates, rest⟩ := Checked.bind_eq_ok.mp cleans
    obtain ⟨sameTable, failed, magic⟩ := enumCreate_same creates
    cases created with
    | error error =>
        cases rest
        rw [if_neg (failed _ rfl), sameTable]
        exact .stays rfl rfl rfl (Nat.le_refl _)
    | ok fhe =>
        obtain ⟨allocates, isOk⟩ :=
          (inUse.enumCreate creates).cleanLoop_allocatesAt (magic fhe rfl)
            rest
        rw [if_pos isOk, ← sameTable]
        exact .cleans allocates

/-- Setting an attribute leaves the chains. -/
theorem setattr_moves
    (fh : FhT)
    (attr : SetAttr)
    (value : Int)
    (granted : Bool) :
    TableMove fh.table none .nothing
      (fhSetattr fh attr value granted).1.table := by
  unfold fhSetattr
  split
  · exact .stays rfl rfl rfl (Nat.le_refl _)
  · split
    · split <;> exact .stays rfl rfl rfl (Nat.le_refl _)
    · split_ifs <;> exact .stays rfl rfl rfl (Nat.le_refl _)
    · exact .stays rfl rfl rfl (Nat.le_refl _)

/-- A call that returned is a move. -/
theorem FhT.InUse.moves
    (inUse : fh.InUse)
    {call : TableCall}
    (granted : call.Granted)
    {result : TableResult}
    (steps : tableStep fh call = .ok (next, result)) :
    TableMove fh.table call.key (call.effect result) next.table := by
  have unchanged :
      ∀ {key}, next.table = fh.table →
        TableMove fh.table key .nothing next.table := by
    intro key same
    rw [same]
    exact .stays rfl rfl rfl (Nat.le_refl _)
  cases call with
  | setattr attr value given =>
      cases steps
      exact setattr_moves ..
  | insert key block grants =>
      obtain ⟨⟨after, code⟩, inserts, same⟩ := Checked.bind_eq_ok.mp steps
      cases same
      cases granted
      cases key with
      | none =>
          rw [fhInsert, if_neg (not_not.mpr inUse.magic)] at inserts
          cases inserts
          exact unchanged rfl
      | some key =>
          exact inUse.insert_moves inserts
  | insertlock key block slotGiven addrGiven grants =>
      obtain ⟨⟨after, locked⟩, inserts, same⟩ := Checked.bind_eq_ok.mp steps
      cases same
      cases granted
      cases key with
      | none =>
          rw [fhInsertlock, if_neg (not_not.mpr inUse.magic)] at inserts
          cases inserts
          exact unchanged rfl
      | some key =>
          exact inUse.insertlock_moves inserts
  | del key =>
      obtain ⟨⟨after, code⟩, deletes, same⟩ := Checked.bind_eq_ok.mp steps
      cases same
      cases key with
      | none =>
          rw [fhDel, if_neg (not_not.mpr inUse.magic)] at deletes
          cases deletes
          exact unchanged rfl
      | some key =>
          exact (inUse.del_outcome deletes).moves
  | dellocked key lockedBucket =>
      obtain ⟨⟨after, code⟩, deletes, same⟩ := Checked.bind_eq_ok.mp steps
      cases same
      cases key with
      | none =>
          rw [fhDellocked, if_neg (not_not.mpr inUse.magic)] at deletes
          cases deletes
          exact unchanged rfl
      | some key =>
          exact (inUse.dellocked_outcome deletes).moves
  | get key =>
      obtain ⟨⟨after, object, error⟩, gets, same⟩ :=
        Checked.bind_eq_ok.mp steps
      cases same
      exact unchanged (get_table inUse gets)
  | searchlock key =>
      obtain ⟨⟨after, locked⟩, searches, same⟩ := Checked.bind_eq_ok.mp steps
      cases same
      exact unchanged (searchlock_table inUse searches)
  | releaselock slot =>
      obtain ⟨⟨after, code⟩, releases, same⟩ := Checked.bind_eq_ok.mp steps
      cases same
      rw [fhReleaselock, if_neg (not_not.mpr inUse.magic)] at releases
      obtain ⟨locks, gives, same⟩ := Checked.bind_eq_ok.mp releases
      cases same
      exact unchanged rfl
  | clean withDelFunc grants =>
      obtain ⟨⟨after, code, released⟩, cleans, same⟩ :=
        Checked.bind_eq_ok.mp steps
      cases same
      exact inUse.clean_moves cleans

end Calls

section Writes

variable {table : FhTable}
  {keyOk : FhKey → Prop}
  {key : FhKey}
  {old : Option OpaqueObj}
  {address : SlotAddress}

/-- Buckets at other addresses are not written. -/
theorem writeOpaqueObj_others
    {object : Option OpaqueObj}
    {chain : List FhBucket}
    (others : ∀ bucket ∈ chain, bucket.address ≠ address.1) :
    chain.map (writeOpaqueObj address object) = chain := by
  rw [List.map_congr_left (g := id)]
  · exact List.map_id chain
  · intro bucket member
    exact if_neg (others bucket member)

/-- A write through the address of a slot overwrites that slot alone. -/
theorem writeThrough_eq
    (ok : table.OkFor keyOk)
    (apart : table.Apart)
    (holds : table.SlotHolds address key old)
    (object : Option OpaqueObj) :
    ∃ next chain,
      table.writeThrough address object = .ok next ∧
        next.nextBucket = table.nextBucket ∧
        table.ChainStep next (table.indexOf key.string) chain ∧
        Rewritten (usedSlot table.hashFunction key old)
          (usedSlot table.hashFunction key object)
          (table.hashTable (table.indexOf key.string)) address chain := by
  obtain ⟨bucket, member, isAddress, isSlot⟩ := holds
  obtain ⟨place, index⟩ := address
  simp only at isAddress isSlot
  subst isAddress
  obtain ⟨before, after, split⟩ := List.append_of_mem member
  have distinct := ok.distinct (table.indexOf key.string)
  rw [split] at distinct
  have pairwise := distinct
  rw [List.map_append, List.map_cons, List.nodup_middle, List.nodup_cons,
    ← List.map_append] at pairwise
  have others :
      ∀ other ∈ before ++ after, other.address ≠ bucket.address := by
    intro other inOthers same
    apply pairwise.1
    rw [← same]
    exact List.mem_map_of_mem inOthers
  have written :
      writeOpaqueObj (bucket.address, index) object bucket =
        bucket.setSlot index (usedSlot table.hashFunction key object) := by
    rw [writeOpaqueObj, if_pos rfl]
    simp only [isSlot]
    rfl
  refine ⟨_, before ++ bucket.setSlot index
      (usedSlot table.hashFunction key object) :: after,
    if_pos ?_, rfl, ⟨⟨rfl, rfl, rfl, rfl⟩, ?_, Nat.le_refl _⟩, ?_⟩
  · apply List.any_eq_true.mpr
    refine ⟨table.indexOf key.string,
      List.mem_range.mpr (ok.indexOf_lt key.string), ?_⟩
    exact List.any_eq_true.mpr ⟨bucket, member, by simp⟩
  · funext other
    by_cases same : other = table.indexOf key.string
    · subst same
      rw [Function.update_self]
      simp only [split, List.map_append, List.map_cons, written]
      rw [writeOpaqueObj_others fun found inBefore =>
          others found (List.mem_append_left _ inBefore),
        writeOpaqueObj_others fun found inAfter =>
          others found (List.mem_append_right _ inAfter)]
    · rw [Function.update_of_ne same]
      apply writeOpaqueObj_others
      intro found inChain sameAddress
      exact same (apart _ _ found inChain bucket member sameAddress)
  · rw [split]
    exact .slot isSlot

variable {fh : FhT}

/-- A table in use after a write through the address of a slot. -/
theorem FhT.InUse.written
    (inUse : fh.InUse)
    {next : FhTable}
    {chain : List FhBucket}
    {object : Option OpaqueObj}
    (step : fh.table.ChainStep next (fh.table.indexOf key.string) chain)
    (rewritten :
      Rewritten (usedSlot fh.table.hashFunction key old)
        (usedSlot fh.table.hashFunction key object)
        (fh.table.hashTable (fh.table.indexOf key.string)) address chain) :
    FhT.InUse
      { fh with
        table := next } := by
  obtain ⟨map, pool, stores, uses⟩ := inUse
  have ok := stores.ok.okFor
  have belongs :
      fh.table.hashindex (fh.table.hashFunction key.string) =
          fh.table.indexOf key.string ∧
        key.copied = !fh.table.dontcopykey := by
    obtain ⟨bucket, member, -, isSlot⟩ := rewritten.was
    have slotOk := ok.slots _ bucket member address.2
    rw [isSlot] at slotOk
    exact slotOk.key_belongs
  obtain ⟨rest, whole, replaced⟩ := step.entries (ok.indexOf_lt key.string)
  obtain ⟨others, wasChain, isChain⟩ := rewritten.entries
  rw [usedSlot_entries] at wasChain isChain
  have before :
      fh.table.entries.Perm ((key.string, old) :: (others ++ rest)) :=
    whole.trans (wasChain.append_right rest)
  have after :
      next.entries.Perm ((key.string, object) :: (others ++ rest)) :=
    replaced.trans (isChain.append_right rest)
  have unbound := (stores.binds.perm before.symm).tail
  have bound :=
    (unbound.cons (Function.update_self ..) object).perm after
  refine ⟨_, pool, ⟨stores.magic, ?_, bound, ?_⟩, uses⟩
  · rw [FhTable.ok_iff_okFor, step.same.dontcopykey]
    apply ok.chainStep step
    · exact rewritten.slotsOk (ok.slots _) (.used belongs)
    · exact rewritten.noneEmpty (makeMinihash_ne_zero _) (ok.noneEmpty _)
    · rw [rewritten.addresses]
      exact ok.distinct _
    · intro bucket member
      have isAddress := List.mem_map_of_mem (f := FhBucket.address) member
      rw [rewritten.addresses] at isAddress
      obtain ⟨found, inChain, same⟩ := List.mem_map.mp isAddress
      rw [← same]
      exact (ok.below _ found inChain).trans_le step.grows
  · rw [stores.counted, before.length_eq, after.length_eq]
    rfl

end Writes

/-- What a state of the user relies on. -/
structure UserState.Ok (state : UserState) : Prop where
  inUse : state.fh.InUse
  apart : state.fh.table.Apart
  lends : state.fh.table.Lends state.loans

/-- What a user can count on about the places of the keys. -/
structure UserState.SlotsStay (state : UserState) : Prop where
  stored :
    ∀ key object,
      (key, object) ∈ state.fh.table.entries ↔
        ∃ address stored,
          stored.string = key ∧
            state.fh.table.SlotHolds address stored object
  others :
    ∀ call next result,
      call.Granted →
      ¬ call.Cleans →
      tableStep state.fh call = .ok (next, result) →
      ∀ address stored object,
        call.key ≠ some stored.string →
        state.fh.table.SlotHolds address stored object →
        next.table.SlotHolds address stored object
  lent :
    ∀ key loan,
      state.loans key = some loan →
      (∃ stored,
          stored.string = key ∧
            state.fh.table.SlotHolds loan.address stored loan.object) ∧
        ∀ next object code,
          fhGet state.fh (some key) = .ok (next, object, code) →
          object = loan.object ∧ code = fhOk
  kept :
    ∀ key loan call next result,
      state.loans key = some loan →
      call.Granted →
      tableStep state.fh call = .ok (next, result) →
      call.effect result ≠ .revokes key →
      call.effect result ≠ .revokesAll →
      state.loans.after (call.effect result) key = some loan
  written :
    ∀ key loan value,
      state.loans key = some loan →
      ∃ next,
        userStep state (.write key value) = .ok (next, none) ∧
          next.loans key =
            some ⟨loan.address, value.map OpaqueObj.pointer⟩ ∧
          ∀ address stored object,
            stored.string ≠ key →
            state.fh.table.SlotHolds address stored object →
            next.fh.table.SlotHolds address stored object

section Users

variable {state next : UserState}

/-- An entry is in the slot of its key. -/
theorem FhTable.OkFor.slot_of_entry
    {table : FhTable}
    {keyOk : FhKey → Prop}
    (ok : table.OkFor keyOk)
    {key : CString}
    {object : Option OpaqueObj}
    (member : (key, object) ∈ table.entries) :
    ∃ address stored,
      stored.string = key ∧ table.SlotHolds address stored object := by
  rw [ok.mem_entries, chainEntries, List.mem_flatMap] at member
  obtain ⟨bucket, inChain, inBucket⟩ := member
  obtain ⟨index, -, inSlot⟩ := mem_gather.mp inBucket
  have slotOk := ok.slots (table.indexOf key) bucket inChain index
  generalize isSlot : bucket.slot index = slot at slotOk inSlot
  cases slotOk with
  | cleared =>
      cases inSlot
  | @used stored held isPlaced =>
      rw [usedSlot_entries, List.mem_singleton, Prod.mk.injEq] at inSlot
      obtain ⟨rfl, rfl⟩ := inSlot
      exact ⟨(bucket.address, index), stored, rfl, bucket, inChain, rfl,
        isSlot⟩

/-- Reading a key returns the object of its entry. -/
theorem FhT.InUse.get_entry
    {fh next : FhT}
    (inUse : fh.InUse)
    {key : CString}
    {held object : Option OpaqueObj}
    {code : Int}
    (member : (key, held) ∈ fh.table.entries)
    (gets : fhGet fh (some key) = .ok (next, object, code)) :
    object = held ∧ code = fhOk := by
  rw [fhGet, if_neg (not_not.mpr inUse.magic)] at gets
  obtain ⟨locks, takes, rest⟩ := Checked.bind_eq_ok.mp gets
  obtain ⟨slot, finds, isEntry⟩ := findSlot_bound inUse.ok.okFor member
  rw [finds, Checked.ok_bind] at rest
  obtain ⟨given, gives, same⟩ := Checked.bind_eq_ok.mp rest
  cases same
  obtain ⟨map, pool, stores, -⟩ := inUse
  have isHeld := (stores.binds.bound key held).mpr member
  have isObject := (stores.binds.bound key slot.opaqueObj).mpr isEntry
  exact ⟨Option.some.inj (isObject.symm.trans isHeld), rfl⟩

/-- Only `fh_clean` revokes all loans. -/
theorem effect_ne_revokesAll
    {call : TableCall}
    (notClean : ¬ call.Cleans)
    (result : TableResult) :
    call.effect result ≠ .revokesAll := by
  have deletion :
      ∀ key code, deletionEffect key code ≠ .revokesAll := by
    intro key code
    unfold deletionEffect
    split <;> nofun
  unfold TableCall.effect
  split
  · split <;> nofun
  · exact deletion _ _
  · exact deletion _ _
  · exact (notClean trivial).elim
  · nofun

/-- A call keeps what a state of the user relies on. -/
theorem UserState.Ok.call
    (ok : state.Ok)
    {call : TableCall}
    (granted : call.Granted)
    {fh : FhT}
    {result : TableResult}
    (steps : tableStep state.fh call = .ok (fh, result)) :
    UserState.Ok ⟨fh, state.loans.after (call.effect result)⟩ where
  inUse := ok.inUse.step (granted.safe state.fh) steps
  apart := (ok.inUse.moves granted steps).apart ok.inUse.ok.okFor ok.apart
  lends := (ok.inUse.moves granted steps).lends ok.lends

/-- A write through a lent address is one of the slot of its key alone. -/
theorem UserState.Ok.write
    (ok : state.Ok)
    {key : CString}
    {loan : Loan}
    (isLent : state.loans key = some loan)
    (value : Option Block) :
    ∃ next,
      userStep state (.write key value) = .ok (next, none) ∧
        next.Ok ∧
        next.loans key =
          some ⟨loan.address, value.map OpaqueObj.pointer⟩ ∧
        ∀ address stored object,
          stored.string ≠ key →
          state.fh.table.SlotHolds address stored object →
          next.fh.table.SlotHolds address stored object := by
  obtain ⟨holder, isHolder, holds⟩ := ok.lends key loan isLent
  obtain ⟨table, chain, writes, sameNext, step, rewritten⟩ :=
    writeThrough_eq ok.inUse.ok.okFor ok.apart holds
      (value.map OpaqueObj.pointer)
  have others :
      ∀ address stored object,
        stored.string ≠ key →
        state.fh.table.SlotHolds address stored object →
        table.SlotHolds address stored object := by
    intro address stored object differs isHeld
    apply step.slotHolds isHeld
    intro sameChain
    unfold FhTable.SlotHolds at isHeld
    rw [sameChain] at isHeld
    apply rewritten.keeps isHeld
    exact FhTable.usedSlot_ne fun same => differs (same.trans isHolder)
  have allocates : state.fh.table.AllocatesAt 0 table := by
    apply FhTable.AllocatesAt.of_step step
    rw [rewritten.addresses]
    exact List.Subset.refl _
  refine ⟨⟨{ state.fh with table := table },
      Function.update state.loans key
        (some ⟨loan.address, value.map OpaqueObj.pointer⟩)⟩,
    ?_, ⟨ok.inUse.written step rewritten, ?_, ?_⟩,
    Function.update_self .., others⟩
  · simp only [userStep, isLent, writes, Checked.ok_bind]
  · exact allocates.apart ok.inUse.ok.okFor.below ok.apart
  · intro other otherLoan otherLent
    by_cases same : other = key
    · subst same
      simp only [Function.update_self, Option.some.injEq] at otherLent
      subst otherLent
      refine ⟨holder, isHolder, ?_⟩
      unfold FhTable.SlotHolds
      rw [step.same.indexOf, step.same.hashFunction, step.chains,
        Function.update_self]
      exact rewritten.holds
    · simp only [Function.update_of_ne same] at otherLent
      obtain ⟨stored, sameKey, isHeld⟩ := ok.lends other otherLoan otherLent
      exact ⟨stored, sameKey,
        others _ _ _ (fun isKey => same (sameKey.symm.trans isKey)) isHeld⟩

/-- A step keeps what a state of the user relies on. -/
theorem UserState.Ok.step
    (ok : state.Ok)
    {call : UserCall}
    (granted : call.Granted)
    {result : Option TableResult}
    (steps : userStep state call = .ok (next, result)) :
    next.Ok := by
  cases call with
  | call tableCall =>
      obtain ⟨⟨fh, returned⟩, makes, same⟩ := Checked.bind_eq_ok.mp steps
      cases same
      exact ok.call granted makes
  | write key value =>
      cases isLent : state.loans key with
      | none =>
          simp only [userStep, isLent] at steps
          cases steps
          exact ok
      | some loan =>
          obtain ⟨after, writes, afterOk, -⟩ := ok.write isLent value
          rw [writes] at steps
          cases steps
          exact afterOk

/-- What a user can count on. -/
theorem UserState.Ok.slotsStay
    (ok : state.Ok) :
    state.SlotsStay where
  stored key object := by
    constructor
    · exact ok.inUse.ok.okFor.slot_of_entry
    · rintro ⟨address, stored, rfl, holds⟩
      exact holds.mem_entries ok.inUse.ok.okFor
  others call next result granted notClean steps := by
    intro address stored object differs holds
    exact (ok.inUse.moves granted steps).slotHolds
      (effect_ne_revokesAll notClean result) differs holds
  lent key loan isLent := by
    obtain ⟨stored, sameKey, holds⟩ := ok.lends key loan isLent
    refine ⟨⟨stored, sameKey, holds⟩, ?_⟩
    have member := holds.mem_entries ok.inUse.ok.okFor
    rw [sameKey] at member
    exact fun next object code gets => ok.inUse.get_entry member gets
  kept key loan call next result isLent granted steps notDeleted notCleaned :=
    (ok.inUse.moves granted steps).loan_kept ok.inUse.ok.okFor ok.lends isLent
      notDeleted notCleaned
  written key loan value isLent := by
    obtain ⟨next, writes, -, isLoan, others⟩ := ok.write isLent value
    exact ⟨next, writes, isLoan, others⟩

end Users

/-- A user with a new table and no addresses. -/
def UserState.start (fh : FhT) : UserState where
  fh := fh
  loans _ := none

/-- What a user of a new table relies on. -/
theorem createdFh_userOk
    {dim : Int32}
    {datalen : Int}
    {hashFunction : CString → UInt64}
    {grants : CreateGrants}
    {fh : FhT}
    (created : fhCreate dim datalen hashFunction grants = .ok (some fh)) :
    (UserState.start fh).Ok where
  inUse := createdFh_inUse created
  apart := by
    obtain ⟨bits, small, rfl⟩ := fhCreate_eq created
    intro first second bucket member
    exact (List.not_mem_nil member).elim
  lends := nofun

/-- What a user relies on holds in every run whose allocations succeed. -/
theorem userOk_of_run
    {dim : Int32}
    {datalen : Int}
    {hashFunction : CString → UInt64}
    {grants : CreateGrants}
    {fh : FhT}
    (created : fhCreate dim datalen hashFunction grants = .ok (some fh))
    {calls : List UserCall}
    (granted : ∀ call ∈ calls, call.Granted)
    {state : UserState}
    {results : List (Option TableResult)}
    (runs :
      runCalls userStep (UserState.start fh) calls = .ok (state, results)) :
    state.Ok := by
  have allowed :
      AlwaysAllowed (StepOf userStep) (fun _ call => call.Granted)
        (UserState.start fh) calls :=
    alwaysAllowed_of_forall (fun call member _ => granted call member) _
  exact runCalls_keeps
    (fun ok callGranted steps => UserState.Ok.step ok callGranted steps)
    (createdFh_userOk created) allowed runs

/--
After every run of calls and writes through lent addresses, no insertion and no
deletion moves another key or frees its bucket, each lent address is that of the
slot of its key until the key is deleted, and a write through it is what the key
is read as and changes no other key.
-/
theorem fh_slots_stay
    {dim : Int32}
    {datalen : Int}
    {hashFunction : CString → UInt64}
    {grants : CreateGrants}
    {fh : FhT}
    (created : fhCreate dim datalen hashFunction grants = .ok (some fh))
    {calls : List UserCall}
    (granted : ∀ call ∈ calls, call.Granted)
    {state : UserState}
    {results : List (Option TableResult)}
    (runs :
      runCalls userStep (UserState.start fh) calls = .ok (state, results)) :
    state.SlotsStay :=
  (userOk_of_run created granted runs).slotsStay

/-- The slot beside the lent one is filled and cleared again. -/
theorem fh_slots_stay_neighbour :
    ∃ state results,
      runCalls userStep
          (UserState.start (createdFh 1 1 fhDatalenVoidp fun _ => 7))
          [.call (.insertlock (some ⟨[97], by decide⟩) (some ⟨4096, []⟩) true
              true .all),
            .call (.releaselock 0),
            .call (.insert (some ⟨[98], by decide⟩) none .all),
            .write ⟨[97], by decide⟩ (some ⟨8192, []⟩),
            .call (.del (some ⟨[98], by decide⟩))] =
        .ok (state, results) ∧
      state.loans ⟨[97], by decide⟩ =
        some ⟨(0, 0), some (.pointer ⟨8192, []⟩)⟩ ∧
      state.SlotsStay := by
  have returns :
      ∃ state results,
        runCalls userStep
            (UserState.start (createdFh 1 1 fhDatalenVoidp fun _ => 7))
            [.call (.insertlock (some ⟨[97], by decide⟩) (some ⟨4096, []⟩)
                true true .all),
              .call (.releaselock 0),
              .call (.insert (some ⟨[98], by decide⟩) none .all),
              .write ⟨[97], by decide⟩ (some ⟨8192, []⟩),
              .call (.del (some ⟨[98], by decide⟩))] =
          .ok (state, results) ∧
        state.loans ⟨[97], by decide⟩ =
          some ⟨(0, 0), some (.pointer ⟨8192, []⟩)⟩ :=
    ⟨_, _, rfl, rfl⟩
  obtain ⟨state, results, runs, isLent⟩ := returns
  have isCreated :
      fhCreate 1 fhDatalenVoidp (fun _ => 7) .all =
        .ok (some (createdFh 1 1 fhDatalenVoidp fun _ => 7)) :=
    rfl
  exact ⟨state, results, runs, isLent,
    fh_slots_stay isCreated
      (by simp [UserCall.Granted, TableCall.Granted]) runs⟩

end Clibs.Fh
