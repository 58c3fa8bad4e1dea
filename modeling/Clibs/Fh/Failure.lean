import Clibs.Fh.Readdress
import Clibs.Fh.Representation

namespace Clibs.Fh

/-!
# Insertions without memory

An insertion that finds no memory for a bucket leaves the table as it was.  One
that has claimed a slot and finds no memory for the copy of the key or of the
block returns with the slot half written: its mini hash is set and its key is
`NULL`, or the key is there with a `NULL` payload and was not counted.
-/

/-- The code a call reports. -/
def TableResult.error : TableResult → Int
  | .code returned =>
      returned
  | .object _ stored =>
      stored
  | .locked result =>
      result.error

/-- The call is `fh_insert` or `fh_insertlock`. -/
def TableCall.IsInsertion : TableCall → Prop
  | .insert _ _ _ =>
      True
  | .insertlock _ _ _ _ _ =>
      True
  | _ =>
      False

/--
A call left the table intact: its contents, its counter and its representation
are those before it, and what is called later returns the same.
-/
structure FhT.LeftIntact (fh next : FhT) : Prop where
  elements : next.hElements = fh.hElements
  entries :
    ∀ entry, entry ∈ next.table.entries ↔ entry ∈ fh.table.entries
  represented : next.Represented
  later :
    ∀ calls : List TableCall,
      (∀ call ∈ calls, call.IsPlain) →
      Prod.snd <$> runCalls tableStep next calls =
        Prod.snd <$> runCalls tableStep fh calls

/-- If the call reports `FH_NO_MEMORY`, it leaves the table intact. -/
def LeavesTable
    (fh : FhT)
    (call : TableCall) : Prop :=
  ∀ next result,
    tableStep fh call = .ok (next, result) →
    result.error = fhNoMemory →
    fh.LeftIntact next

section Safe

variable {fh : FhT}
  {key : CString}
  {block : Option Block}
  {grants : InsertGrants}

/-- Taking and releasing a lock leaves the locks as they were. -/
theorem FhLocks.Uses.unlock_wlock
    {locks held given : FhLocks}
    {pool : LockPool}
    {slot : Nat}
    (uses : locks.Uses pool)
    (takes : locks.wlock slot = .ok held)
    (gives : held.unlock slot = .ok given) :
    given = locks := by
  cases isTaken : pool (slot % locks.nLock) with
  | true =>
      rw [uses.wlock_taken isTaken] at takes
      cases takes
  | false =>
      rw [uses.wlock isTaken] at takes
      cases takes
      rw [uses.taken_unlock isTaken] at gives
      cases gives
      rfl

/-- A table with the same chains that used up more addresses is intact. -/
theorem FhT.InUse.intact
    (inUse : fh.InUse)
    {table : FhTable}
    (same : table.SameSettings fh.table)
    (chains : table.hashTable = fh.table.hashTable)
    (grows : fh.table.nextBucket ≤ table.nextBucket) :
    fh.LeftIntact
      { fh with
        table := table } := by
  obtain ⟨map, pool, stores, uses⟩ := inUse
  have nextStores :
      FhT.Stores
        { fh with
          table := table }
        map :=
    stores.of_same rfl rfl same chains grows
  have moved :
      fh.Moved
        (moveFrom fh.table.nextBucket
          (table.nextBucket - fh.table.nextBucket))
        { fh with
          table := table } :=
    ⟨rfl, rfl, rfl, .of_grown stores.ok.okFor same chains grows⟩
  have sameEntries : table.entries = fh.table.entries := by
    rw [FhTable.entries, FhTable.entries, same.hDim, chains]
  exact {
    elements := rfl
    entries := fun entry => by
      change entry ∈ table.entries ↔ entry ∈ fh.table.entries
      rw [sameEntries]
    represented := FhT.InUse.represented ⟨map, pool, nextStores, uses⟩
    later := fun calls plain =>
      (moved.run (moveFrom_injective _ _) plain).symm }

/-- The codes of an insertion that was whole. -/
theorem InsertOutcome.noMemory
    {table next : FhTable}
    {code : Int}
    (outcome : InsertOutcome table key block grants next (.error code))
    (isCode : code = fhNoMemory)
    (whole :
      (∀ object, (key, object) ∉ table.entries) →
      (grants.bucket = true ∨
        ¬ ChainFull (table.hashTable (table.indexOf key))) →
      ¬ table.CopyFails key block grants) :
    next.SameSettings table ∧
      next.hashTable = table.hashTable ∧
      table.nextBucket ≤ next.nextBucket := by
  cases outcome with
  | duplicate member =>
      cases isCode
  | noBucket absent same chains grows =>
      exact ⟨same, chains, grows⟩
  | halfWritten absent memory fills placed =>
      exact (whole absent memory (filledSlot_fails fills)).elim

/-- `fh_insert` leaves the table intact unless it half writes a slot. -/
theorem FhT.InUse.insert_intact
    (inUse : fh.InUse)
    (whole : ¬ fh.HalfWrites key block grants)
    {next : FhT}
    (inserts : fhInsert fh (some key) block grants = .ok (next, fhNoMemory)) :
    fh.LeftIntact next := by
  rw [fhInsert, if_neg (not_not.mpr inUse.magic)] at inserts
  obtain ⟨held, takes, rest⟩ := Checked.bind_eq_ok.mp inserts
  obtain ⟨table, outcome, locked, outcomes⟩ :=
    insertSlot_outcome inUse.ok.okFor key block grants
  rw [locked, Checked.ok_bind] at rest
  obtain ⟨given, gives, same⟩ := Checked.bind_eq_ok.mp rest
  have isGiven : given = fh.locks := by
    obtain ⟨map, pool, stores, uses⟩ := inUse
    exact uses.unlock_wlock takes gives
  subst isGiven
  cases outcome with
  | error code =>
      obtain ⟨isNext, isCode⟩ := Prod.mk.inj (Except.ok.inj same)
      obtain ⟨settings, chains, grows⟩ :=
        outcomes.noMemory isCode fun absent memory fails =>
          whole ⟨⟨held, takes⟩, absent, memory, fails⟩
      rw [← isNext]
      exact inUse.intact settings chains grows
  | ok address =>
      obtain ⟨-, isIndex⟩ := Prod.mk.inj (Except.ok.inj same)
      have nonnegative : (0 : Int) ≤ fhNoMemory :=
        isIndex ▸ Int.natCast_nonneg _
      exact absurd nonnegative (by decide)

/-- `fh_insertlock` leaves the table intact unless it half writes a slot. -/
theorem FhT.InUse.insertlock_intact
    (inUse : fh.InUse)
    (whole : ¬ fh.HalfWrites key block grants)
    {addrGiven : Bool}
    {next : FhT}
    {result : LockedResult}
    (inserts :
      fhInsertlock fh (some key) block true addrGiven grants =
        .ok (next, result))
    (noMemory : result.error = fhNoMemory) :
    fh.LeftIntact next := by
  rw [fhInsertlock, if_neg (not_not.mpr inUse.magic)] at inserts
  obtain ⟨held, takes, rest⟩ := Checked.bind_eq_ok.mp inserts
  obtain ⟨table, outcome, locked, outcomes⟩ :=
    insertSlot_outcome inUse.ok.okFor key block grants
  rw [locked, Checked.ok_bind] at rest
  cases outcome with
  | error code =>
      obtain ⟨given, gives, same⟩ := Checked.bind_eq_ok.mp rest
      have isGiven : given = fh.locks := by
        obtain ⟨map, pool, stores, uses⟩ := inUse
        exact uses.unlock_wlock takes gives
      subst isGiven
      obtain ⟨isNext, isResult⟩ := Prod.mk.inj (Except.ok.inj same)
      rw [← isResult] at noMemory
      obtain ⟨settings, chains, grows⟩ :=
        outcomes.noMemory noMemory fun absent memory fails =>
          whole ⟨⟨held, takes⟩, absent, memory, fails⟩
      rw [← isNext]
      exact inUse.intact settings chains grows
  | ok address =>
      obtain ⟨-, isResult⟩ := Prod.mk.inj (Except.ok.inj rest)
      rw [← isResult] at noMemory
      cases noMemory

/-- A lock that can be taken is available. -/
theorem FhLocks.Uses.available
    {locks held : FhLocks}
    {pool : LockPool}
    {slot : Nat}
    (uses : locks.Uses pool)
    (takes : locks.wlock slot = .ok held) :
    locks.Available slot := by
  refine ⟨pool, uses, ?_⟩
  by_contra isTaken
  rw [uses.wlock_taken (by simpa using isTaken)] at takes
  cases takes

/-- A block is not copied only for want of memory. -/
theorem newOpaqueObj_error
    {datalen : Int}
    {block : Block}
    {granted : Bool}
    {code : Int}
    (fails : newOpaqueObj datalen block granted = .error code) :
    code = fhNoMemory := by
  have copies :
      ∀ copy : OpaqueObj,
        (if granted then .ok (some copy) else .error fhNoMemory :
            Except Int (Option OpaqueObj)) =
          .error code →
        code = fhNoMemory := by
    intro copy refused
    cases granted with
    | true =>
        cases refused
    | false =>
        cases refused
        rfl
  unfold newOpaqueObj at fails
  split at fails
  next =>
    exact copies _ fails
  next =>
    split at fails
    next =>
      cases fails
    next =>
      split at fails
      next =>
        exact copies _ fails
      next =>
        cases fails

/-- What a slot holds when a copy fails. -/
theorem filledSlot_half
    {table : FhTable}
    (miniHash : UInt8)
    (fails : table.CopyFails key block grants) :
    ∃ slot,
      filledSlot table miniHash key block grants = (slot, some fhNoMemory) ∧
        slot.miniHash = miniHash ∧
        slot.opaqueObj = none ∧
        ∀ stored, slot.key = some stored → stored.string = key := by
  rcases fails with noKey | ⟨code, noBlock⟩
  · exact ⟨_, by rw [filledSlot, noKey], rfl, rfl, by simp⟩
  · cases isKey : table.slotKey key grants.key with
    | none =>
        exact ⟨_, by rw [filledSlot, isKey], rfl, rfl, by simp⟩
    | some stored =>
        have isCode : code = fhNoMemory := by
          cases block with
          | none =>
              cases noBlock
          | some block =>
              exact newOpaqueObj_error noBlock
        subst isCode
        refine ⟨{ miniHash := miniHash
                  key := some stored
                  opaqueObj := none }, ?_, rfl, rfl, ?_⟩
        · simp [filledSlot, isKey, noBlock]
        · rintro _ ⟨⟩
          exact (slotKey_spec isKey).1

/-- A half written slot is not left intact. -/
theorem FhT.InUse.not_intact
    (inUse : fh.InUse)
    (absent : ∀ object, (key, object) ∉ fh.table.entries)
    {table : FhTable}
    {slot : FhSlot}
    {address : SlotAddress}
    (isHash : slot.miniHash = makeMinihash (fh.table.hashFunction key))
    (noObject : slot.opaqueObj = none)
    (isKey : ∀ stored, slot.key = some stored → stored.string = key)
    (placed : Placed fh.table table key slot address) :
    ¬ fh.LeftIntact
      { fh with
        table := table } := by
  intro intact
  obtain ⟨chain, step, filled⟩ := placed.step
  obtain ⟨bucket, found, holds⟩ := filled.bucketAt (inUse.ok.distinct _)
  have isChain : table.hashTable (fh.table.indexOf key) = chain := by
    rw [step.chains, Function.update_self]
  have hasSlot : table.HasSlot (fh.table.indexOf key) slot :=
    ⟨bucket, isChain ▸ List.mem_of_find?_eq_some found, address.2, holds⟩
  have isUsed : slot.miniHash ≠ 0 := by
    rw [isHash]
    exact makeMinihash_ne_zero _
  have hasKey := (intact.represented.used _ slot hasSlot).mp isUsed
  obtain ⟨stored, isStored⟩ := Option.ne_none_iff_exists'.mp hasKey
  have isEntry : (key, none) ∈ slot.entries := by
    simp [FhSlot.entries, isUsed, isStored, noObject, isKey stored isStored]
  have inChain : (key, none) ∈ chainEntries chain :=
    filled.entries.mem_iff.mpr (List.mem_append_left _ isEntry)
  have inTable : (key, none) ∈ table.entries := by
    apply mem_gather.mpr
    refine ⟨fh.table.indexOf key, ?_, isChain ▸ inChain⟩
    rw [List.mem_range, step.same.hDim]
    exact inUse.ok.okFor.indexOf_lt key
  exact absent none ((intact.entries _).mp inTable)

/-- An insertion that half writes a slot reports that there is no memory. -/
theorem FhT.InUse.halfWrites
    (inUse : fh.InUse)
    (half : fh.HalfWrites key block grants) :
    ∃ table,
      fh.locks.Available (fh.table.indexOf key) ∧
        insertSlot fh.table key block grants =
          .ok (table, .error fhNoMemory) ∧
        ¬ fh.LeftIntact
          { fh with
            table := table } := by
  obtain ⟨⟨held, takes⟩, absent, memory, fails⟩ := half
  obtain ⟨slot, fills, isHash, noObject, isKey⟩ :=
    filledSlot_half (makeMinihash (fh.table.hashFunction key)) fails
  obtain ⟨table, address, inserts, placed⟩ :=
    insertSlot_placed inUse.ok.okFor absent fills memory
  have notIntact := inUse.not_intact absent isHash noObject isKey placed
  obtain ⟨map, pool, stores, uses⟩ := inUse
  exact ⟨table, uses.available takes, inserts, notIntact⟩

end Safe

/-- An insertion leaves the table intact exactly when it is safe. -/
theorem FhT.InUse.leavesTable_iff
    {fh : FhT}
    (inUse : fh.InUse)
    {call : TableCall}
    (isInsertion : call.IsInsertion) :
    LeavesTable fh call ↔ call.Safe fh := by
  cases call with
  | insert key block grants =>
      cases key with
      | none =>
          refine iff_of_true ?_ trivial
          rintro next result steps noMemory
          rw [tableStep, fhInsert, if_neg (not_not.mpr inUse.magic)] at steps
          cases steps
          cases noMemory
      | some key =>
          constructor
          · intro leaves half
            obtain ⟨table, available, inserts, notIntact⟩ :=
              inUse.halfWrites half
            obtain ⟨map, pool, stores, uses⟩ := inUse
            have returns := fhInsert_eq stores available inserts
            exact notIntact (leaves _ _ (by rw [tableStep, returns]; rfl) rfl)
          · rintro whole next result steps noMemory
            obtain ⟨⟨after, code⟩, inserts, same⟩ :=
              Checked.bind_eq_ok.mp steps
            cases same
            subst noMemory
            exact inUse.insert_intact whole inserts
  | insertlock key block slotGiven addrGiven grants =>
      cases key with
      | none =>
          refine iff_of_true ?_ trivial
          rintro next result steps noMemory
          rw [tableStep, fhInsertlock, if_neg (not_not.mpr inUse.magic)]
            at steps
          cases steps
          cases noMemory
      | some key =>
          cases slotGiven with
          | false =>
              refine iff_of_true ?_ trivial
              rintro next result steps noMemory
              rw [tableStep, fhInsertlock,
                if_neg (not_not.mpr inUse.magic)] at steps
              cases steps
              cases noMemory
          | true =>
              constructor
              · intro leaves half
                obtain ⟨table, available, inserts, notIntact⟩ :=
                  inUse.halfWrites half
                obtain ⟨map, pool, stores, uses⟩ := inUse
                obtain ⟨held, -, -, returns⟩ :=
                  fhInsertlock_eq stores available addrGiven inserts
                exact notIntact
                  (leaves _ _ (by rw [tableStep, returns]; rfl) rfl)
              · rintro whole next result steps noMemory
                obtain ⟨⟨after, locked⟩, inserts, same⟩ :=
                  Checked.bind_eq_ok.mp steps
                cases same
                exact inUse.insertlock_intact whole inserts noMemory
  | _ =>
      exact isInsertion.elim

/--
After every run of safe calls, with any outcome of their allocations, an
insertion that reports `FH_NO_MEMORY` leaves the table intact exactly when it is
safe: when it does not claim a slot and then fail to copy the key or the block.
-/
theorem insert_failure_leaves_table_iff
    {dim : Int32}
    {datalen : Int}
    {hashFunction : CString → UInt64}
    {grants : CreateGrants}
    {fh : FhT}
    (created : fhCreate dim datalen hashFunction grants = .ok (some fh))
    {calls : List TableCall}
    (safe :
      AlwaysAllowed (StepOf tableStep) (fun fh call => call.Safe fh) fh calls)
    {final : FhT}
    {results : List TableResult}
    (runs : runCalls tableStep fh calls = .ok (final, results))
    {call : TableCall}
    (isInsertion : call.IsInsertion) :
    LeavesTable final call ↔ call.Safe final :=
  ((createdFh_inUse created).run safe runs).leavesTable_iff isInsertion

/-- After one insertion, a second one that cannot copy its key is not safe. -/
theorem insert_failure_leaves_table_iff_second :
    ∃ final results,
      runCalls tableStep (createdFh 1 1 fhDatalenVoidp fun _ => 7)
          [.insert (some ⟨[97], by decide⟩) none .all] =
        .ok (final, results) ∧
      (LeavesTable final
          (.insert (some ⟨[98], by decide⟩) none
            { InsertGrants.all with
              key := false }) ↔
        TableCall.Safe final
          (.insert (some ⟨[98], by decide⟩) none
            { InsertGrants.all with
              key := false })) := by
  have returns :
      ∃ final results,
        runCalls tableStep (createdFh 1 1 fhDatalenVoidp fun _ => 7)
            [.insert (some ⟨[97], by decide⟩) none .all] =
          .ok (final, results) :=
    ⟨_, _, rfl⟩
  obtain ⟨final, results, runs⟩ := returns
  have isCreated :
      fhCreate 1 fhDatalenVoidp (fun _ => 7) .all =
        .ok (some (createdFh 1 1 fhDatalenVoidp fun _ => 7)) :=
    rfl
  have granted :
      ∀ call ∈ [TableCall.insert (some ⟨[97], by decide⟩) none .all],
        ∀ fh, call.Safe fh := by
    intro call member fh
    apply TableCall.Granted.safe
    rw [List.mem_singleton.mp member]
    rfl
  exact ⟨final, results, runs,
    insert_failure_leaves_table_iff isCreated
      (alwaysAllowed_of_forall granted _) runs trivial⟩

/--
In a new table the copy of the key fails: the call reports that there is no
memory, and the next search for a key of the same mini hash compares with `NULL`.
-/
theorem insert_failure_half_writes :
    ∃ fh next,
      fhCreate 1 fhDatalenVoidp (fun _ => 7) .all = .ok (some fh) ∧
        fhInsert fh (some ⟨[97], by decide⟩) none
            { InsertGrants.all with
              key := false } =
          .ok (next, fhNoMemory) ∧
        fhGet fh (some ⟨[98], by decide⟩) =
          .ok (fh, none, fhElementNotFound) ∧
        fhGet next (some ⟨[98], by decide⟩) = .error .nullDereference ∧
        ¬ LeavesTable fh
          (.insert (some ⟨[97], by decide⟩) none
            { InsertGrants.all with
              key := false }) := by
  have isCreated :
      fhCreate 1 fhDatalenVoidp (fun _ => 7) .all =
        .ok (some (createdFh 1 1 fhDatalenVoidp fun _ => 7)) :=
    rfl
  obtain ⟨stores, free⟩ :=
    createdFh_stores 1 (by decide : 0 < 64) fhDatalenVoidp fun _ => 7
  have misses :
      fhGet (createdFh 1 1 fhDatalenVoidp fun _ => 7)
          (some ⟨[98], by decide⟩) =
        .ok (createdFh 1 1 fhDatalenVoidp fun _ => 7, none,
          fhElementNotFound) :=
    fhGet_eq stores (free.available _)
  refine ⟨_, _, isCreated, rfl, misses, rfl, ?_⟩
  intro leaves
  have intact := leaves _ _ rfl rfl
  have same :=
    intact.later [.get (some ⟨[98], by decide⟩)] (by simp [TableCall.IsPlain])
  cases same

end Clibs.Fh
