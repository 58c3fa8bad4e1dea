import Clibs.Fh.Runs

namespace Clibs.Fh

/-!
# The representation of a table after any run

`FhT.Represented` states, slot by slot, what the functions of a table rely on.
It holds after every run of calls that returns, and no call of such a run fails
the assertion of `_deallocate_bucket_if_empty`.
-/

/-- The number of used slots of a bucket. -/
def FhBucket.usedSlots (bucket : FhBucket) : Nat :=
  (List.finRange bucketSize).countP fun index =>
    (bucket.slot index).miniHash ≠ 0

/-- The number of used slots of a table. -/
def FhTable.usedSlots (table : FhTable) : Nat :=
  ((List.range table.hDim).map fun index =>
    ((table.hashTable index).map FhBucket.usedSlots).sum).sum

/-- A slot of a bucket of a chain. -/
def FhTable.HasSlot
    (table : FhTable)
    (index : Nat)
    (slot : FhSlot) : Prop :=
  ∃ bucket ∈ table.hashTable index, ∃ position, bucket.slot position = slot

/-- What the functions of a table rely on. -/
structure FhT.Represented (fh : FhT) : Prop where
  used :
    ∀ index slot,
      fh.table.HasSlot index slot → (slot.miniHash ≠ 0 ↔ slot.key ≠ none)
  hashed :
    ∀ index slot key,
      fh.table.HasSlot index slot →
      slot.key = some key →
      slot.miniHash = makeMinihash (fh.table.hashFunction key.string)
  placed :
    ∀ index slot key,
      fh.table.HasSlot index slot →
      slot.key = some key →
      index < fh.table.hDim ∧
        (fh.table.hashFunction key.string &&&
            (UInt64.ofNat fh.table.hDim - 1)).toNat =
          index
  once : (fh.table.entries.map Prod.fst).Nodup
  free :
    ∀ index slot,
      fh.table.HasSlot index slot → slot.miniHash = 0 → slot.opaqueObj = none
  noneEmpty :
    ∀ index, ∀ bucket ∈ fh.table.hashTable index, 0 < bucket.usedSlots
  counted : fh.hElements = fh.table.usedSlots
  empty :
    fh.hElements = 0 ↔ ∀ index < fh.table.hDim, fh.table.hashTable index = []
  copied :
    ∀ index slot key,
      fh.table.HasSlot index slot →
      slot.key = some key →
      (key.copied = true ↔ fh.table.hAttr &&& fhSetattrDontcopykey = 0)

section Used

variable {table : FhTable}
  {keyOk : FhKey → Prop}

/-- The used slots of a bucket are those the scan records. -/
theorem bucket_usedSlots (bucket : FhBucket) :
    bucket.usedSlots = (bucketElems bucket).length := by
  unfold FhBucket.usedSlots bucketElems gather
  induction List.finRange bucketSize with
  | nil =>
      rfl
  | cons index rest inductionHypothesis =>
      rw [List.countP_cons, inductionHypothesis, List.flatMap_cons,
        List.length_append, Nat.add_comm]
      by_cases free : (bucket.slot index).miniHash = 0
      · simp [slotElems, free]
      · simp [slotElems, free]

/-- The used slots of a table are those the scan records. -/
theorem usedSlots_elems (table : FhTable) :
    table.usedSlots = table.elems.length := by
  have sameCount :
      FhBucket.usedSlots = fun bucket => (bucketElems bucket).length :=
    funext bucket_usedSlots
  simp only [FhTable.usedSlots, FhTable.elems, gather, chainElems,
    List.length_flatMap, sameCount]

/-- Each used slot of a well formed table has an entry. -/
theorem usedSlots_entries
    (ok : table.OkFor keyOk) :
    table.usedSlots = table.entries.length := by
  rw [usedSlots_elems, ← elems_entries, length_entries fun _ => elems_key ok]

/-- A bucket with a used slot is not empty. -/
theorem usedSlots_pos
    {bucket : FhBucket}
    (occupied : bucket.isEmpty = false) :
    0 < bucket.usedSlots := by
  rw [FhBucket.isEmpty, List.all_eq_false] at occupied
  obtain ⟨index, isIndex, used⟩ := occupied
  apply List.countP_pos_iff.mpr
  exact ⟨index, isIndex, by simpa using used⟩

end Used

/-- A table in use is represented as the functions rely on. -/
theorem FhT.InUse.represented
    {fh : FhT}
    (inUse : fh.InUse) :
    fh.Represented := by
  obtain ⟨map, pool, stores, -⟩ := inUse
  have ok := stores.ok
  have counted : fh.hElements = fh.table.usedSlots := by
    rw [stores.counted, usedSlots_entries ok.okFor]
  have slotOk :
      ∀ {index slot},
        fh.table.HasSlot index slot →
        SlotOk fh.table.hashFunction (fh.table.Belongs index) slot := by
    rintro index slot ⟨bucket, isBucket, position, rfl⟩
    exact ok.slots index bucket isBucket position
  have placed :
      ∀ {index slot key},
        fh.table.HasSlot index slot →
        slot.key = some key →
        slot.miniHash = makeMinihash (fh.table.hashFunction key.string) ∧
          fh.table.Belongs index key := by
    intro index slot key hasSlot isKey
    cases slotOk hasSlot with
    | cleared =>
        cases isKey
    | used isPlaced =>
        cases isKey
        exact ⟨rfl, isPlaced⟩
  exact {
    used := by
      intro index slot hasSlot
      cases slotOk hasSlot with
      | cleared =>
          simp [FhSlot.cleared]
      | used isPlaced =>
          simp [usedSlot, makeMinihash_ne_zero]
    hashed := fun index slot key hasSlot isKey => (placed hasSlot isKey).1
    placed := by
      intro index slot key hasSlot isKey
      obtain ⟨-, isIndex, -⟩ := placed hasSlot isKey
      exact ⟨isIndex ▸ ok.okFor.indexOf_lt key.string, isIndex⟩
    once := stores.binds.distinct
    free := by
      intro index slot hasSlot isFree
      rw [(slotOk hasSlot).eq_cleared isFree]
      rfl
    noneEmpty := fun index bucket isBucket =>
      usedSlots_pos (ok.noneEmpty index bucket isBucket)
    counted := counted
    empty := by
      rw [stores.counted]
      constructor
      · intro noElements index _
        apply ok.chains_nil
        exact List.eq_nil_of_length_eq_zero (by exact_mod_cast noElements)
      · intro noChains
        have noEntries : fh.table.entries = [] := by
          apply gather_eq_nil
          intro index isIndex
          rw [noChains index (List.mem_range.mp isIndex)]
          rfl
        rw [noEntries]
        rfl
    copied := by
      intro index slot key hasSlot isKey
      obtain ⟨-, -, isCopied⟩ := placed hasSlot isKey
      rw [isCopied]
      simp [FhTable.dontcopykey] }

/-- The lock that `fh_dellocked` is told about is that of a chain. -/
def TableCall.InRange
    (fh : FhT) : TableCall → Prop
  | .dellocked _ lockedBucket =>
      lockedBucket < fh.table.hDim
  | _ =>
      True

section Assertions

variable {fh : FhT}

/-- The search for a slot does not fail an assertion. -/
theorem FhT.InUse.findSlot_avoids
    (inUse : fh.InUse)
    (key : CString) :
    (findSlot fh.table key).Avoids .assertionFailed := by
  obtain ⟨map, pool, stores, -⟩ := inUse
  obtain ⟨found, finds, -⟩ := findSlot_eq stores key
  rw [finds]
  exact Checked.avoids_ok _ _

/-- An insertion does not fail an assertion. -/
theorem FhT.InUse.insert_avoids
    (inUse : fh.InUse)
    (key : Option CString)
    (block : Option Block)
    (grants : InsertGrants) :
    (fhInsert fh key block grants).Avoids .assertionFailed := by
  cases key with
  | none =>
      rw [fhInsert, if_neg (not_not.mpr inUse.magic)]
      exact Checked.avoids_ok _ _
  | some key =>
      rw [fhInsert, if_neg (not_not.mpr inUse.magic)]
      apply Checked.Avoids.bind (fh.locks.lock_avoids _ _)
      intro held takes
      obtain ⟨table, outcome, locked, -⟩ :=
        insertSlot_outcome inUse.ok.okFor key block grants
      rw [locked, Checked.ok_bind]
      apply Checked.Avoids.bind (held.unlock_avoids _)
      intro locks gives
      cases outcome with
      | error code =>
          exact Checked.avoids_ok _ _
      | ok address =>
          exact Checked.avoids_ok _ _

/-- An insertion that keeps the lock does not fail an assertion. -/
theorem FhT.InUse.insertlock_avoids
    (inUse : fh.InUse)
    (key : Option CString)
    (block : Option Block)
    (slotGiven addrGiven : Bool)
    (grants : InsertGrants) :
    (fhInsertlock fh key block slotGiven addrGiven grants).Avoids
      .assertionFailed := by
  cases key with
  | none =>
      rw [fhInsertlock, if_neg (not_not.mpr inUse.magic)]
      exact Checked.avoids_ok _ _
  | some key =>
      rw [fhInsertlock, if_neg (not_not.mpr inUse.magic)]
      cases slotGiven with
      | false =>
          exact Checked.avoids_ok _ _
      | true =>
          apply Checked.Avoids.bind (fh.locks.lock_avoids _ _)
          intro held takes
          obtain ⟨table, outcome, locked, -⟩ :=
            insertSlot_outcome inUse.ok.okFor key block grants
          rw [locked, Checked.ok_bind]
          cases outcome with
          | error code =>
              apply Checked.Avoids.bind (held.unlock_avoids _)
              exact fun _ _ => Checked.avoids_ok _ _
          | ok address =>
              exact Checked.avoids_ok _ _

/-- A deletion does not fail an assertion. -/
theorem FhT.InUse.del_avoids
    (inUse : fh.InUse)
    (key : Option CString) :
    (fhDel fh key).Avoids .assertionFailed := by
  cases key with
  | none =>
      rw [fhDel, if_neg (not_not.mpr inUse.magic)]
      exact Checked.avoids_ok _ _
  | some key =>
      rw [fhDel, if_neg (not_not.mpr inUse.magic)]
      apply Checked.Avoids.bind (fh.locks.lock_avoids _ _)
      intro held takes
      obtain ⟨table, code, locked, -⟩ :=
        fhDelUnlocked_outcome inUse.ok.okFor key
          (inUse.ok.okFor.indexOf_lt key)
      rw [FhTable.indexOf] at locked
      simp only [locked, Checked.ok_bind]
      apply Checked.Avoids.bind (held.unlock_avoids _)
      exact fun _ _ => Checked.avoids_ok _ _

/-- A deletion under the lock of a chain does not fail an assertion. -/
theorem FhT.InUse.dellocked_avoids
    (inUse : fh.InUse)
    (key : Option CString)
    {lockedBucket : Nat}
    (inRange : lockedBucket < fh.table.hDim) :
    (fhDellocked fh key lockedBucket).Avoids .assertionFailed := by
  cases key with
  | none =>
      rw [fhDellocked, if_neg (not_not.mpr inUse.magic)]
      exact Checked.avoids_ok _ _
  | some key =>
      rw [fhDellocked, if_neg (not_not.mpr inUse.magic)]
      obtain ⟨table, code, locked, -⟩ :=
        fhDelUnlocked_outcome inUse.ok.okFor key inRange
      simp only [locked, Checked.ok_bind]
      exact Checked.avoids_ok _ _

/-- Reading a key does not fail an assertion. -/
theorem FhT.InUse.get_avoids
    (inUse : fh.InUse)
    (key : Option CString) :
    (fhGet fh key).Avoids .assertionFailed := by
  cases key with
  | none =>
      rw [fhGet, if_neg (not_not.mpr inUse.magic)]
      exact Checked.avoids_ok _ _
  | some key =>
      rw [fhGet, if_neg (not_not.mpr inUse.magic)]
      apply Checked.Avoids.bind (fh.locks.lock_avoids _ _)
      intro held takes
      apply Checked.Avoids.bind (inUse.findSlot_avoids key)
      intro found finds
      apply Checked.Avoids.bind (held.unlock_avoids _)
      intro locks gives
      cases found with
      | none =>
          exact Checked.avoids_ok _ _
      | some slot =>
          exact Checked.avoids_ok _ _

/-- A search that keeps the lock does not fail an assertion. -/
theorem FhT.InUse.searchlock_avoids
    (inUse : fh.InUse)
    (key : Option CString) :
    (fhSearchlock fh key).Avoids .assertionFailed := by
  cases key with
  | none =>
      rw [fhSearchlock, if_neg (not_not.mpr inUse.magic)]
      exact Checked.avoids_ok _ _
  | some key =>
      rw [fhSearchlock, if_neg (not_not.mpr inUse.magic)]
      apply Checked.Avoids.bind (fh.locks.lock_avoids _ _)
      intro held takes
      apply Checked.Avoids.bind (inUse.findSlot_avoids key)
      intro found finds
      cases found with
      | none =>
          apply Checked.Avoids.bind (held.unlock_avoids _)
          exact fun _ _ => Checked.avoids_ok _ _
      | some slot =>
          exact Checked.avoids_ok _ _

/-- The scan of an enumeration does not fail an assertion. -/
theorem recordChains_avoids
    (table : FhTable)
    (elements : Nat)
    (indices : List Nat)
    (locks : FhLocks)
    (recorded : List FhElem) :
    (recordChains table elements indices locks recorded).Avoids
      .assertionFailed := by
  induction indices generalizing locks recorded with
  | nil =>
      exact Checked.avoids_ok _ _
  | cons index rest inductionHypothesis =>
      rw [recordChains]
      split
      next =>
        apply Checked.Avoids.bind (locks.lock_avoids _ _)
        intro held takes
        apply Checked.Avoids.bind (held.unlock_avoids _)
        exact fun given gives => inductionHypothesis given _
      next =>
        exact Checked.avoids_ok _ _

/-- Creating an enumerator without an order does not fail an assertion. -/
theorem enumCreate_avoids
    (fh : FhT)
    (grants : EnumGrants) :
    (fhEnumCreate fh 0 grants).Avoids .assertionFailed := by
  unfold fhEnumCreate
  split
  next =>
    exact Checked.avoids_ok _ _
  next =>
    split
    next =>
      exact Checked.avoids_ok _ _
    next =>
      split
      next =>
        exact Checked.avoids_ok _ _
      next =>
        split
        next =>
          exact Checked.avoids_ok _ _
        next =>
          apply Checked.Avoids.bind (recordChains_avoids _ _ _ _ _)
          rintro ⟨locks, recorded⟩ records
          exact Checked.avoids_ok _ _

/-- The loop of `fh_clean` does not fail an assertion. -/
theorem FhT.InUse.cleanLoop_avoids
    {User : Type}
    (inUse : fh.InUse)
    (delFunc : Option (DelFunc User))
    (fuel : Nat)
    (fhe : FhEnum)
    (result : Int)
    (user : User) :
    (fhCleanLoop delFunc fuel fh fhe result user).Avoids
      .assertionFailed := by
  induction fuel generalizing fh fhe result user with
  | zero =>
      simp [Checked.Avoids, fhCleanLoop]
  | succ fuel inductionHypothesis =>
      rw [fhCleanLoop]
      split
      next =>
        split
        next =>
          exact Checked.avoids_ok _ _
        next =>
          apply Checked.Avoids.bind (inUse.del_avoids _)
          rintro ⟨next, code⟩ deletes
          exact inductionHypothesis (inUse.del deletes) _ _ _
      next =>
        exact Checked.avoids_ok _ _

/-- Cleaning does not fail an assertion. -/
theorem FhT.InUse.clean_avoids
    {User : Type}
    (inUse : fh.InUse)
    (delFunc : Option (DelFunc User))
    (grants : EnumGrants)
    (user : User) :
    (fhClean fh delFunc grants user).Avoids .assertionFailed := by
  rw [fhClean, if_neg (not_not.mpr inUse.magic)]
  split
  next =>
    exact Checked.avoids_ok _ _
  next =>
    apply Checked.Avoids.bind (enumCreate_avoids fh grants)
    rintro ⟨next, created⟩ creates
    have after := inUse.enumCreate creates
    cases created with
    | error code =>
        exact Checked.avoids_ok _ _
    | ok fhe =>
        exact after.cleanLoop_avoids _ _ _ _ _

/-- No call on a table in use fails an assertion. -/
theorem FhT.InUse.step_avoids
    (inUse : fh.InUse)
    {call : TableCall}
    (inRange : call.InRange fh) :
    (tableStep fh call).Avoids .assertionFailed := by
  cases call with
  | setattr attr value granted =>
      exact Checked.avoids_ok _ _
  | insert key block grants =>
      exact (inUse.insert_avoids key block grants).bind
        fun _ _ => Checked.avoids_ok _ _
  | insertlock key block slotGiven addrGiven grants =>
      exact
        (inUse.insertlock_avoids key block slotGiven addrGiven grants).bind
          fun _ _ => Checked.avoids_ok _ _
  | del key =>
      exact (inUse.del_avoids key).bind fun _ _ => Checked.avoids_ok _ _
  | dellocked key lockedBucket =>
      exact (inUse.dellocked_avoids key inRange).bind
        fun _ _ => Checked.avoids_ok _ _
  | get key =>
      exact (inUse.get_avoids key).bind fun _ _ => Checked.avoids_ok _ _
  | searchlock key =>
      exact (inUse.searchlock_avoids key).bind
        fun _ _ => Checked.avoids_ok _ _
  | releaselock slot =>
      rw [tableStep, fhReleaselock, if_neg (not_not.mpr inUse.magic)]
      exact ((fh.locks.unlock_avoids slot).bind
        fun _ _ => Checked.avoids_ok _ _).bind
          fun _ _ => Checked.avoids_ok _ _
  | clean withDelFunc grants =>
      exact (inUse.clean_avoids _ grants ()).bind
        fun _ _ => Checked.avoids_ok _ _

end Assertions

/--
After every run of calls whose allocations succeed the table is represented as
its functions rely on, and no call fails an assertion.
-/
theorem fh_representation_invariant
    {dim : Int32}
    {datalen : Int}
    {hashFunction : CString → UInt64}
    {grants : CreateGrants}
    {fh : FhT}
    (created : fhCreate dim datalen hashFunction grants = .ok (some fh))
    {calls : List TableCall}
    (granted : ∀ call ∈ calls, call.Granted)
    {final : FhT}
    {results : List TableResult}
    (runs : runCalls tableStep fh calls = .ok (final, results)) :
    final.Represented ∧
      ∀ call : TableCall,
        call.InRange final →
        tableStep final call ≠ .error .assertionFailed := by
  have safe :
      AlwaysAllowed (StepOf tableStep) (fun fh call => call.Safe fh) fh
        calls :=
    alwaysAllowed_of_forall
      (fun call member state => (granted call member).safe state) fh
  have inUse := (createdFh_inUse created).run safe runs
  exact ⟨inUse.represented, fun call inRange => inUse.step_avoids inRange⟩

/-- Two keys with one hash; one is deleted under the lock kept for the other. -/
theorem fh_representation_invariant_collision :
    ∃ final results,
      runCalls tableStep (createdFh 1 1 fhDatalenVoidp fun _ => 7)
          [.insert (some ⟨[97], by decide⟩) none .all,
            .insertlock (some ⟨[98], by decide⟩) none true false .all,
            .dellocked (some ⟨[97], by decide⟩) 0,
            .releaselock 0] =
        .ok (final, results) ∧
      final.Represented := by
  have returns :
      ∃ final results,
        runCalls tableStep (createdFh 1 1 fhDatalenVoidp fun _ => 7)
            [.insert (some ⟨[97], by decide⟩) none .all,
              .insertlock (some ⟨[98], by decide⟩) none true false .all,
              .dellocked (some ⟨[97], by decide⟩) 0,
              .releaselock 0] =
          .ok (final, results) :=
    ⟨_, _, rfl⟩
  obtain ⟨final, results, runs⟩ := returns
  have isCreated :
      fhCreate 1 fhDatalenVoidp (fun _ => 7) .all =
        .ok (some (createdFh 1 1 fhDatalenVoidp fun _ => 7)) :=
    rfl
  exact ⟨final, results, runs,
    (fh_representation_invariant isCreated (by simp [TableCall.Granted])
      runs).1⟩

end Clibs.Fh
