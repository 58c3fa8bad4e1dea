import Clibs.Fh.Exits
import Clibs.Fh.Failure
import Clibs.Fh.Listing

namespace Clibs.Fh

/-!
# Every exit gives its lock back

A call that starts without a shard lock takes none twice, releases none it does
not hold and ends without one, whatever allocations fail in it.  `fh_insertlock`
and `fh_searchlock` end with the lock of the slot they store, exactly when they
report success, and `fh_releaselock` of that slot gives it back.
-/

/-- The lock of the slot is taken, and no other. -/
def FhLocks.HoldsOnly
    (locks : FhLocks)
    (slot : Nat) : Prop :=
  locks.Uses
    (Function.update (fun _ => false) (slot % locks.nLock) true)

/-- The call returns, and its thread holds no lock afterwards. -/
def GivesLocksBack
    {Result : Type}
    (fh : FhT)
    (call : Checked (FhT × Result)) : Prop :=
  ∃ next result,
    call = .ok (next, result) ∧
      next.locks = fh.locks ∧
      next.locks.Free

/-- How a call ends that keeps a lock when it succeeds. -/
inductive EndsLocked
    (fh next : FhT) : LockedResult → Prop where
  | failed
      {result : LockedResult} :
      result.error ≠ fhOk →
      result.lockedSlot = none →
      next.locks = fh.locks →
      next.locks.Free →
      EndsLocked fh next result
  | kept
      {result : LockedResult}
      {slot : Nat} :
      result.error = fhOk →
      result.lockedSlot = some slot →
      next.locks.HoldsOnly slot →
      fhReleaselock next slot =
        .ok
          ({ next with
              locks := fh.locks },
            fhOk) →
      EndsLocked fh next result

/--
The call returns, and its thread holds the lock of the slot it stored if it
reports success, and else none.
-/
def KeepsLockOnSuccess
    (fh : FhT)
    (call : Checked (FhT × LockedResult)) : Prop :=
  ∃ next result,
    call = .ok (next, result) ∧ EndsLocked fh next result

section Exits

variable {fh : FhT}
  {map : ObjectMap}
  {key : CString}

/-- An insertion fails with one of two errors. -/
theorem InsertOutcome.error_code
    {table next : FhTable}
    {block : Option Block}
    {grants : InsertGrants}
    {code : Int}
    (outcome : InsertOutcome table key block grants next (.error code)) :
    code = fhDuplicatedElement ∨ code = fhNoMemory := by
  cases outcome with
  | duplicate =>
      exact .inl rfl
  | noBucket =>
      exact .inr rfl
  | halfWritten _ _ fills _ =>
      obtain ⟨slot, half, -⟩ :=
        filledSlot_half (makeMinihash (table.hashFunction key))
          (filledSlot_fails fills)
      rw [fills] at half
      exact .inr (Option.some.inj (Prod.mk.inj half).2)

/-- Neither of them is a success. -/
theorem InsertOutcome.error_negative
    {table next : FhTable}
    {block : Option Block}
    {grants : InsertGrants}
    {code : Int}
    (outcome : InsertOutcome table key block grants next (.error code)) :
    code < 0 := by
  rcases outcome.error_code with rfl | rfl
  · decide
  · decide

/-- A call that ends with the locks of its start holds none. -/
theorem givesLocksBack
    {Result : Type}
    {call : Checked (FhT × Result)}
    (free : fh.locks.Free)
    {next : FhT}
    {result : Result}
    (returns : call = .ok (next, result))
    (same : next.locks = fh.locks) :
    GivesLocksBack fh call :=
  ⟨next, result, returns, same, same ▸ free⟩

/-- The lock that was taken when none was is the only one. -/
theorem FhLocks.Free.holdsOnly
    {locks held : FhLocks}
    {slot : Nat}
    (free : locks.Free)
    (takes : locks.wlock slot = .ok held) :
    held.HoldsOnly slot := by
  rw [FhLocks.Uses.wlock free rfl] at takes
  cases takes
  unfold FhLocks.HoldsOnly
  rw [FhLocks.withPool_nLock]
  exact FhLocks.Uses.withPool free _

/-- A call that keeps the lock it took. -/
theorem EndsLocked.of_taken
    (free : fh.locks.Free)
    (next : FhT)
    {held : FhLocks}
    {result : LockedResult}
    {slot : Nat}
    (magic : next.hMagic = fhMagicId)
    (takes : fh.locks.wlock slot = .ok held)
    (gives : held.unlock slot = .ok fh.locks)
    (success : result.error = fhOk)
    (isSlot : result.lockedSlot = some slot) :
    EndsLocked fh
      { next with
        locks := held }
      result :=
  .kept success isSlot (free.holdsOnly takes) (fhReleaselock_eq magic gives)

/-- Every exit of `fh_insert`. -/
theorem insert_givesLocksBack
    (stores : fh.Stores map)
    (free : fh.locks.Free)
    (key : Option CString)
    (block : Option Block)
    (grants : InsertGrants) :
    GivesLocksBack fh (Exits.fhInsert fh key block grants) := by
  rw [Exits.fhInsert_eq]
  cases key with
  | none =>
      refine ⟨fh, fhInvalidKey, ?_, rfl, free⟩
      rw [fhInsert, if_neg (not_not.mpr stores.magic)]
  | some key =>
      obtain ⟨table, outcome, inserts, -⟩ :=
        insertSlot_outcome stores.ok.okFor key block grants
      have returns := fhInsert_eq stores (free.available _) inserts
      cases outcome with
      | error code =>
          exact givesLocksBack free returns rfl
      | ok address =>
          exact givesLocksBack free returns rfl

/-- A call that fails and ends with the locks of its start. -/
theorem endsLocked_failed
    (free : fh.locks.Free)
    {next : FhT}
    {code : Int}
    (isError : code ≠ fhOk)
    (same : next.locks = fh.locks) :
    EndsLocked fh next (.failed code) :=
  .failed isError rfl same (same ▸ free)

/-- Every exit of `fh_insertlock`. -/
theorem insertlock_keepsLock
    (stores : fh.Stores map)
    (free : fh.locks.Free)
    (key : Option CString)
    (block : Option Block)
    (slotGiven addrGiven : Bool)
    (grants : InsertGrants) :
    KeepsLockOnSuccess fh
      (Exits.fhInsertlock fh key block slotGiven addrGiven grants) := by
  rw [Exits.fhInsertlock_eq]
  cases key with
  | none =>
      refine ⟨fh, .failed fhInvalidKey, ?_,
        endsLocked_failed free (by decide) rfl⟩
      rw [fhInsertlock, if_neg (not_not.mpr stores.magic)]
  | some key =>
      cases slotGiven with
      | false =>
          refine ⟨fh, .failed fhInvalidArgument, ?_,
            endsLocked_failed free (by decide) rfl⟩
          rw [fhInsertlock, if_neg (not_not.mpr stores.magic)]
          rfl
      | true =>
          obtain ⟨table, outcome, inserts, ends⟩ :=
            insertSlot_outcome stores.ok.okFor key block grants
          obtain ⟨held, takes, gives, returns⟩ :=
            fhInsertlock_eq stores (free.available _) addrGiven inserts
          cases outcome with
          | error code =>
              have isError : code ≠ fhOk := by
                rintro rfl
                exact absurd ends.error_negative (by decide)
              exact ⟨_, _, returns, endsLocked_failed free isError rfl⟩
          | ok address =>
              exact ⟨_, _, returns,
                EndsLocked.of_taken free
                  { fh with
                    hElements := fh.hElements + 1
                    table := table }
                  stores.magic takes gives rfl rfl⟩

/-- Every exit of `fh_del`. -/
theorem del_givesLocksBack
    (stores : fh.Stores map)
    (free : fh.locks.Free)
    (key : Option CString) :
    GivesLocksBack fh (fhDel fh key) := by
  cases key with
  | none =>
      refine ⟨fh, fhInvalidKey, ?_, rfl, free⟩
      rw [fhDel, if_neg (not_not.mpr stores.magic)]
  | some key =>
      cases isBound : map key with
      | none =>
          exact givesLocksBack free
            (fhDel_unbound stores (free.available _) isBound) rfl
      | some object =>
          obtain ⟨next, deletes, becomes⟩ :=
            fhDel_bound stores (free.available _) isBound
          exact givesLocksBack free deletes becomes.locks

/-- Every exit of `fh_search`. -/
theorem search_givesLocksBack
    (stores : fh.Stores map)
    (free : fh.locks.Free)
    (key : Option CString)
    (blockGiven : Bool)
    (blockSize : Int) :
    GivesLocksBack fh (Exits.fhSearch fh key blockGiven blockSize) := by
  rw [Exits.fhSearch_eq]
  cases key with
  | none =>
      refine ⟨fh, (fhInvalidKey, []), ?_, rfl, free⟩
      rw [fhSearch, if_neg (not_not.mpr stores.magic)]
  | some key =>
      cases blockGiven with
      | false =>
          refine ⟨fh, (fhInvalidArgument, []), ?_, rfl, free⟩
          rw [fhSearch, if_neg (not_not.mpr stores.magic)]
          rfl
      | true =>
          by_cases isVoidp : fh.table.hDatalen = fhDatalenVoidp
          · refine ⟨fh, (fhWrongDatalen, []), ?_, rfl, free⟩
            simp [fhSearch, stores.magic, isVoidp]
          · exact givesLocksBack free
              (fhSearch_eq stores (free.available _) isVoidp blockSize) rfl

/-- Every exit of `fh_get`. -/
theorem get_givesLocksBack
    (stores : fh.Stores map)
    (free : fh.locks.Free)
    (key : Option CString) :
    GivesLocksBack fh (Exits.fhGet fh key) := by
  rw [Exits.fhGet_eq]
  cases key with
  | none =>
      refine ⟨fh, (none, fhInvalidKey), ?_, rfl, free⟩
      rw [fhGet, if_neg (not_not.mpr stores.magic)]
  | some key =>
      have gets := fhGet_eq stores (free.available (fh.table.indexOf key))
      cases isBound : map key with
      | none =>
          rw [isBound] at gets
          exact givesLocksBack free gets rfl
      | some object =>
          rw [isBound] at gets
          exact givesLocksBack free gets rfl

/-- Every exit of `fh_searchlock`. -/
theorem searchlock_keepsLock
    (stores : fh.Stores map)
    (free : fh.locks.Free)
    (key : Option CString) :
    KeepsLockOnSuccess fh (Exits.fhSearchlock fh key) := by
  rw [Exits.fhSearchlock_eq]
  cases key with
  | none =>
      refine ⟨fh, .failed fhInvalidKey, ?_,
        endsLocked_failed free (by decide) rfl⟩
      rw [fhSearchlock, if_neg (not_not.mpr stores.magic)]
  | some key =>
      have available := free.available (fh.table.indexOf key)
      cases isBound : map key with
      | none =>
          exact ⟨fh, _, fhSearchlock_unbound stores available isBound,
            endsLocked_failed free (by decide) rfl⟩
      | some object =>
          obtain ⟨held, takes, gives⟩ := available.wlock
          exact ⟨_, _, fhSearchlock_bound stores takes isBound,
            EndsLocked.of_taken free fh stores.magic takes gives rfl rfl⟩

/-- An enumerator is refused, or there are entries and memory for it. -/
theorem fhEnumCreate_refused
    (stores : fh.Stores map)
    (sortOrder : Int)
    (grants : EnumGrants) :
    (∃ code, fhEnumCreate fh sortOrder grants = .ok (fh, .error code)) ∨
      grants = .all ∧ fh.table.entries ≠ [] := by
  obtain ⟨handle, elemList⟩ := grants
  rw [fhEnumCreate, if_neg (not_not.mpr stores.magic)]
  by_cases noElements : fh.hElements < 1
  · exact .inl ⟨_, if_pos noElements⟩
  · rw [if_neg noElements]
    have hasEntries : fh.table.entries ≠ [] := by
      intro isEmpty
      rw [stores.counted, isEmpty] at noElements
      exact noElements (by decide)
    cases handle with
    | false =>
        exact .inl ⟨_, rfl⟩
    | true =>
        cases elemList with
        | false =>
            exact .inl ⟨_, rfl⟩
        | true =>
            exact .inr ⟨rfl, hasEntries⟩

/-- Every exit of `fh_enum_create`. -/
theorem enumCreate_givesLocksBack
    (stores : fh.Stores map)
    (free : fh.locks.Free)
    (sortOrder : Int)
    (grants : EnumGrants) :
    GivesLocksBack fh (fhEnumCreate fh sortOrder grants) := by
  rcases fhEnumCreate_refused stores sortOrder grants with
    ⟨code, refused⟩ | ⟨rfl, notEmpty⟩
  · exact givesLocksBack free refused rfl
  · have keys :
        ∀ element ∈ fh.table.elems, element.key.isSome = true :=
      fun element member =>
        Option.isSome_iff_exists.mpr (elems_key stores.ok.okFor member)
    obtain ⟨sorted, sorts⟩ := sortElems_keys keys sortOrder
    exact givesLocksBack free
      (fhEnumCreate_sorted stores free notEmpty sorts) rfl

/-- Every exit of `fh_clean`. -/
theorem clean_givesLocksBack
    {User : Type}
    (stores : fh.Stores map)
    (free : fh.locks.Free)
    (delFunc : Option (DelFunc User))
    (grants : EnumGrants)
    (user : User) :
    GivesLocksBack fh (fhClean fh delFunc grants user) := by
  by_cases refused : delFunc.isSome ∧ fh.table.hDatalen ≠ fhDatalenVoidp
  · refine ⟨fh, (fhFreeNotRequested, user), ?_, rfl, free⟩
    rw [fhClean, if_neg (not_not.mpr stores.magic), if_pos refused]
  · rcases fhEnumCreate_refused stores 0 grants with
      ⟨code, noEnum⟩ | ⟨rfl, notEmpty⟩
    · refine ⟨fh, (code, user), ?_, rfl, free⟩
      rw [fhClean, if_neg (not_not.mpr stores.magic), if_neg refused, noEnum,
        Checked.ok_bind]
    · have allowed : delFunc = none ∨ fh.table.hDatalen = fhDatalenVoidp := by
        cases delFunc with
        | none =>
            exact .inl rfl
        | some function =>
            right
            by_contra notVoidp
            exact refused ⟨rfl, notVoidp⟩
      obtain ⟨next, visits, cleans, becomes, -⟩ :=
        fhClean_visits delFunc user stores free allowed notEmpty
      exact givesLocksBack free cleans becomes.locks

end Exits

/--
On every table that was reached, in either lock mode, with any arguments and any
outcome of the allocations of the call: the calls return without taking a lock
twice or releasing one that is not held, and hold no lock afterwards, except for
the one that `fh_insertlock` and `fh_searchlock` keep when they report success.
-/
theorem shard_locks_balance
    {fh : FhT}
    (reached : fh.Reached) :
    (∀ key block grants,
      GivesLocksBack fh (Exits.fhInsert fh key block grants)) ∧
      (∀ key block slotGiven addrGiven grants,
        KeepsLockOnSuccess fh
          (Exits.fhInsertlock fh key block slotGiven addrGiven grants)) ∧
      (∀ key, GivesLocksBack fh (fhDel fh key)) ∧
      (∀ key blockGiven blockSize,
        GivesLocksBack fh (Exits.fhSearch fh key blockGiven blockSize)) ∧
      (∀ key, GivesLocksBack fh (Exits.fhGet fh key)) ∧
      (∀ key, KeepsLockOnSuccess fh (Exits.fhSearchlock fh key)) ∧
      (∀ sortOrder grants,
        GivesLocksBack fh (fhEnumCreate fh sortOrder grants)) ∧
      ∀ (User : Type) (delFunc : Option (DelFunc User)) grants user,
        GivesLocksBack fh (fhClean fh delFunc grants user) := by
  obtain ⟨free, map, stores⟩ := reached.stores
  exact ⟨insert_givesLocksBack stores free, insertlock_keepsLock stores free,
    del_givesLocksBack stores free, search_givesLocksBack stores free,
    get_givesLocksBack stores free, searchlock_keepsLock stores free,
    enumCreate_givesLocksBack stores free,
    fun _ => clean_givesLocksBack stores free⟩

/-- An insertion without memory for its key, and a search that is a hit. -/
theorem shard_locks_balance_shared :
    ∃ fh : FhT,
      fh.Reached ∧
        GivesLocksBack fh
          (Exits.fhInsert fh (some ⟨[99], by decide⟩) none
            { InsertGrants.all with
              key := false }) ∧
        KeepsLockOnSuccess fh
          (Exits.fhSearchlock fh (some ⟨[97], by decide⟩)) := by
  obtain ⟨fh, reached, -⟩ := reached_shared
  obtain ⟨inserts, -, -, -, -, searches, -⟩ := shard_locks_balance reached
  exact ⟨fh, reached, inserts _ _ _, searches _⟩

end Clibs.Fh
