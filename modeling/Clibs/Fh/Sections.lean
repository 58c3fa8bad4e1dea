import Clibs.Fh.Invariant

namespace Clibs.Fh

/-!
# The locked sections on a well formed table

What a call does between taking and releasing the lock of a chain: an insertion
fills a slot (`Inserted`) or reports why it did not, a deletion empties one
(`Deleted`) or does not find the key, and a search returns the slot of the key.
-/

namespace FhTable

/-- A slot was filled with the key and the object. -/
structure Inserted
    (table next : FhTable)
    (key : FhKey)
    (object : Option OpaqueObj)
    (address : SlotAddress) : Prop where
  belongs : table.Belongs (table.indexOf key.string) key
  step :
    ∃ chain,
      table.ChainStep next (table.indexOf key.string) chain ∧
        Filled (usedSlot table.hashFunction key object)
          (table.hashTable (table.indexOf key.string)) address chain
  below : address.1 < next.nextBucket

/-- The slot of the key was cleared. -/
structure Deleted
    (table next : FhTable)
    (key : FhKey)
    (object : Option OpaqueObj)
    (address : SlotAddress) : Prop where
  step :
    ∃ chain,
      table.ChainStep next (table.indexOf key.string) chain ∧
        Emptied (usedSlot table.hashFunction key object)
          (table.hashTable (table.indexOf key.string)) address chain

variable {table next : FhTable}
  {keyOk : FhKey → Prop}
  {key : FhKey}
  {object : Option OpaqueObj}
  {address : SlotAddress}

/-- An insertion leaves the settings. -/
theorem Inserted.same
    (inserted : table.Inserted next key object address) :
    next.SameSettings table := by
  obtain ⟨chain, step, -⟩ := inserted.step
  exact step.same

/-- A deletion leaves the settings. -/
theorem Deleted.same
    (deleted : table.Deleted next key object address) :
    next.SameSettings table := by
  obtain ⟨chain, step, -⟩ := deleted.step
  exact step.same

/-- An insertion keeps the invariant. -/
theorem Inserted.okFor
    (inserted : table.Inserted next key object address)
    (ok : table.OkFor keyOk)
    (isOk : keyOk key) :
    next.OkFor keyOk := by
  obtain ⟨chain, step, filled⟩ := inserted.step
  apply ok.chainStep step
  · exact filled.slotsOk (ok.slots _) (.used ⟨rfl, isOk⟩)
  · exact filled.noneEmpty (makeMinihash_ne_zero _) (ok.noneEmpty _)
  · exact filled.distinct (ok.distinct _)
  · intro bucket member
    rcases filled.address_mem member with isOld | isNew
    · obtain ⟨old, inChain, same⟩ := List.mem_map.mp isOld
      rw [← same]
      exact (ok.below _ old inChain).trans_le step.grows
    · rw [isNew]
      exact inserted.below

/-- A deletion keeps the invariant. -/
theorem Deleted.okFor
    (deleted : table.Deleted next key object address)
    (ok : table.OkFor keyOk) :
    next.OkFor keyOk := by
  obtain ⟨chain, step, emptied⟩ := deleted.step
  apply ok.chainStep step
  · exact emptied.slotsOk (ok.slots _)
  · exact emptied.noneEmpty (ok.noneEmpty _)
  · exact emptied.addresses.nodup (ok.distinct _)
  · intro bucket member
    have isAddress := List.mem_map_of_mem (f := FhBucket.address) member
    obtain ⟨old, inChain, same⟩ :=
      List.mem_map.mp (emptied.addresses.subset isAddress)
    rw [← same]
    exact (ok.below _ old inChain).trans_le step.grows

/-- Whether keys are copied is a matter of the settings. -/
theorem SameSettings.dontcopykey
    (same : next.SameSettings table) :
    next.dontcopykey = table.dontcopykey := by
  simp only [FhTable.dontcopykey, same.hAttr]

/-- An insertion keeps the representation invariant. -/
theorem Inserted.ok
    (inserted : table.Inserted next key object address)
    (ok : table.Ok) :
    next.Ok := by
  rw [ok_iff_okFor, inserted.same.dontcopykey]
  exact inserted.okFor ok.okFor inserted.belongs.2

/-- A deletion keeps the representation invariant. -/
theorem Deleted.ok
    (deleted : table.Deleted next key object address)
    (ok : table.Ok) :
    next.Ok := by
  rw [ok_iff_okFor, deleted.same.dontcopykey]
  exact deleted.okFor ok.okFor

/-- An insertion adds the entry of the key. -/
theorem Inserted.entries
    (inserted : table.Inserted next key object address)
    (ok : table.OkFor keyOk) :
    next.entries.Perm ((key.string, object) :: table.entries) := by
  obtain ⟨chain, step, filled⟩ := inserted.step
  obtain ⟨others, whole, replaced⟩ := step.entries (ok.indexOf_lt key.string)
  have added := filled.entries
  rw [usedSlot_entries] at added
  calc
    next.entries.Perm (chainEntries chain ++ others) :=
      replaced
    List.Perm _
        ([(key.string, object)] ++
          chainEntries (table.hashTable (table.indexOf key.string)) ++
          others) :=
      added.append_right others
    List.Perm _ ((key.string, object) :: table.entries) :=
      whole.symm.cons _

/-- The slot that was filled holds the object. -/
theorem Inserted.slotAt
    (inserted : table.Inserted next key object address)
    (ok : table.OkFor keyOk) :
    (next.slotAt (table.indexOf key.string) address).opaqueObj = object := by
  obtain ⟨chain, step, filled⟩ := inserted.step
  obtain ⟨bucket, found, holds⟩ := filled.bucketAt (ok.distinct _)
  simp [FhTable.slotAt, step.chains, found, holds, usedSlot]

/-- A deletion takes the entry of the key out. -/
theorem Deleted.entries
    (deleted : table.Deleted next key object address)
    (ok : table.OkFor keyOk) :
    table.entries.Perm ((key.string, object) :: next.entries) := by
  obtain ⟨chain, step, emptied⟩ := deleted.step
  obtain ⟨others, whole, replaced⟩ := step.entries (ok.indexOf_lt key.string)
  have removed := emptied.entries
  rw [usedSlot_entries] at removed
  calc
    table.entries.Perm
        (chainEntries (table.hashTable (table.indexOf key.string)) ++
          others) :=
      whole
    List.Perm _ ([(key.string, object)] ++ chainEntries chain ++ others) :=
      removed.append_right others
    List.Perm _ ((key.string, object) :: next.entries) :=
      replaced.symm.cons _

end FhTable

section Insertion

variable {table : FhTable}
  {keyOk : FhKey → Prop}
  {key : CString}
  {block : Option Block}
  {grants : InsertGrants}

/-- The key of a filled slot, copied or not as the table is set. -/
theorem slotKey_spec
    {granted : Bool}
    {stored : FhKey}
    (isKey : table.slotKey key granted = some stored) :
    stored.string = key ∧ stored.copied = !table.dontcopykey := by
  unfold FhTable.slotKey at isKey
  cases keeps : table.dontcopykey with
  | true =>
      simp only [keeps, if_true, Option.some.injEq] at isKey
      simp [← isKey]
  | false =>
      cases granted with
      | true =>
          simp only [keeps, Bool.false_eq_true, if_false, if_true,
            Option.some.injEq] at isKey
          simp [← isKey]
      | false =>
          simp [keeps] at isKey

/-- Filling a claimed slot stores the key and the object in it. -/
theorem fillSlot_spec
    {index : Nat}
    {before after : List FhBucket}
    {bucket : FhBucket}
    {position : Fin bucketSize}
    {miniHash : UInt8}
    (split : table.hashTable index = before ++ bucket :: after)
    (earlier : ∀ other ∈ before, other.address ≠ bucket.address)
    (claimed :
      bucket.slot position =
        { FhSlot.cleared with
          miniHash := miniHash })
    (key : CString)
    (block : Option Block)
    (grants : InsertGrants) :
    fillSlot table index (bucket.address, position) key block grants =
      (table.setChain index
          (before ++
            bucket.setSlot position
                (filledSlot table miniHash key block grants).1 ::
              after),
        outcomeAt (bucket.address, position)
          (filledSlot table miniHash key block grants).2) := by
  have isSlot :
      table.slotAt index (bucket.address, position) =
        { FhSlot.cleared with
          miniHash := miniHash } := by
    rw [← claimed]
    simp [FhTable.slotAt, split, bucketAt_middle earlier]
  have writes :
      ∀ slot,
        table.setSlot index (bucket.address, position) slot =
          table.setChain index
            (before ++ bucket.setSlot position slot :: after) := by
    intro slot
    rw [FhTable.setSlot, split, writeSlot_middle earlier]
  cases isKey : table.slotKey key grants.key with
  | none =>
      simp [fillSlot, filledSlot, isSlot, isKey, writes, outcomeAt,
        FhSlot.cleared]
  | some stored =>
      cases block with
      | none =>
          simp [fillSlot, filledSlot, blockObject, isSlot, isKey, writes,
            outcomeAt, FhSlot.cleared]
      | some block =>
          cases isObject :
              newOpaqueObj table.hDatalen block grants.opaqueObj with
          | error code =>
              simp [fillSlot, filledSlot, blockObject, isSlot, isKey,
                isObject, writes, outcomeAt, FhSlot.cleared]
          | ok object =>
              simp [fillSlot, filledSlot, blockObject, isSlot, isKey,
                isObject, writes, outcomeAt]

/-- A slot without a failed copy holds the key and the object. -/
theorem filledSlot_complete
    {miniHash : UInt8}
    {slot : FhSlot}
    (fills : filledSlot table miniHash key block grants = (slot, none)) :
    ∃ stored object,
      table.slotKey key grants.key = some stored ∧
        blockObject table.hDatalen block grants.opaqueObj = .ok object := by
  unfold filledSlot at fills
  cases isKey : table.slotKey key grants.key with
  | none =>
      simp [isKey] at fills
  | some stored =>
      cases isObject :
          blockObject table.hDatalen block grants.opaqueObj with
      | error code =>
          simp [isKey, isObject] at fills
      | ok object =>
          exact ⟨stored, object, rfl, rfl⟩

/-- A key that is bound is not inserted again. -/
theorem insertSlot_bound
    (ok : table.OkFor keyOk)
    {object : Option OpaqueObj}
    (bound : (key, object) ∈ table.entries) :
    insertSlot table key block grants =
      .ok
        ({ table with
            hCollision := table.hCollision + 1 },
          .error fhDuplicatedElement) := by
  obtain ⟨before, bucket, after, index, stored, found, split, finds, -, -⟩ :=
    fhFindSlotInBucket_present (ok.slots (table.indexOf key))
      (ok.mem_entries.mp bound)
  have inRange := ok.indexOf_lt key
  unfold FhTable.indexOf at split finds inRange
  have isHead :
      headBucket table (table.hashindex (table.hashFunction key))
          grants.bucket =
        ({ table with
            hCollision := table.hCollision + 1 },
          true) := by
    unfold headBucket
    rw [split]
    cases before with
    | nil =>
        rfl
    | cons first rest =>
        rfl
  simp [insertSlot, inRange, isHead, finds]

/-- The steps of an insertion that finds no duplicate and claims a slot. -/
theorem insertSlot_steps
    (ok : table.OkFor keyOk)
    {counted claimed filled : FhTable}
    {address : SlotAddress}
    {outcome : Except Int SlotAddress}
    (head :
      headBucket table (table.indexOf key) grants.bucket = (counted, true))
    (missing :
      fhFindSlotInBucket key (makeMinihash (table.hashFunction key))
          (counted.hashTable (table.indexOf key)) =
        .ok none)
    (claims :
      claimSlot counted (table.indexOf key)
          (makeMinihash (table.hashFunction key)) grants.bucket =
        (claimed, some address))
    (fills :
      fillSlot claimed (table.indexOf key) address key block grants =
        (filled, outcome)) :
    insertSlot table key block grants = .ok (filled, outcome) := by
  have inRange := ok.indexOf_lt key
  unfold FhTable.indexOf at head missing claims fills inRange
  simp [insertSlot, inRange, head, missing, claims, fills]

/-- The head bucket of a chain that has one. -/
theorem headBucket_cons
    {index : Nat}
    {first : FhBucket}
    {rest : List FhBucket}
    (isChain : table.hashTable index = first :: rest)
    (granted : Bool) :
    headBucket table index granted =
      ({ table with
          hCollision := table.hCollision + 1 },
        true) := by
  simp [headBucket, isChain]

/-- The key and the object go to the slot of the chain that was claimed. -/
theorem fillSlot_claimed
    (table : FhTable)
    (index : Nat)
    {before : List FhBucket}
    (after : List FhBucket)
    {bucket : FhBucket}
    {position : Fin bucketSize}
    (free : bucket.slot position = .cleared)
    (earlier : ∀ other ∈ before, other.address ≠ bucket.address)
    {miniHash : UInt8}
    {slot : FhSlot}
    {failure : Option Int}
    (fills : filledSlot table miniHash key block grants = (slot, failure)) :
    ∃ next,
      fillSlot
            (table.growChain index
              (before ++ bucket.setMiniHash position miniHash :: after))
            index (bucket.address, position) key block grants =
          (next, outcomeAt (bucket.address, position) failure) ∧
        table.ChainStep next index
          (before ++ bucket.setSlot position slot :: after) ∧
        next.nextBucket = table.nextBucket + 1 := by
  have isSplit :
      (table.growChain index
            (before ++ bucket.setMiniHash position miniHash ::
              after)).hashTable index =
        before ++ bucket.setMiniHash position miniHash :: after :=
    Function.update_self ..
  have isClaimed :
      (bucket.setMiniHash position miniHash).slot position =
        { FhSlot.cleared with
          miniHash := miniHash } := by
    rw [FhBucket.setMiniHash, setSlot_self, free]
  have isFilled := fillSlot_spec isSplit earlier isClaimed key block grants
  have sameSlot :
      filledSlot
          (table.growChain index
            (before ++ bucket.setMiniHash position miniHash :: after))
          miniHash key block grants =
        (slot, failure) :=
    fills
  rw [sameSlot] at isFilled
  refine ⟨_, isFilled, ?_, rfl⟩
  constructor
  · exact (FhTable.sameSettings_setChain ..).trans
      (FhTable.sameSettings_growChain ..)
  · simp [FhTable.setChain, FhTable.growChain, FhBucket.setMiniHash]
  · exact Nat.le_succ table.nextBucket

/--
A slot is claimed and filled: in the chain when it has a free slot, else in a
bucket that is appended to it.
-/
theorem claimSlot_fillSlot
    (table : FhTable)
    {hashFunction : CString → UInt64}
    {belongs : FhKey → Prop}
    {index : Nat}
    (nonempty : table.hashTable index ≠ [])
    (slotsOk : SlotsOk hashFunction belongs (table.hashTable index))
    (distinct : ((table.hashTable index).map FhBucket.address).Nodup)
    (below :
      ∀ bucket ∈ table.hashTable index, bucket.address < table.nextBucket)
    {miniHash : UInt8}
    {slot : FhSlot}
    {failure : Option Int}
    (fills : filledSlot table miniHash key block grants = (slot, failure))
    (memory : grants.bucket = true ∨ ¬ ChainFull (table.hashTable index)) :
    ∃ claimed next address chain,
      claimSlot table index miniHash grants.bucket =
          (claimed, some address) ∧
        fillSlot claimed index address key block grants =
          (next, outcomeAt address failure) ∧
        table.ChainStep next index chain ∧
        Filled slot (table.hashTable index) address chain ∧
        address.1 < next.nextBucket := by
  rcases fhReturnEmptySlotInBucket_spec miniHash
      (if grants.bucket then some table.nextBucket else none) nonempty with
      ⟨before, bucket, after, position, split, free, claims⟩ | ⟨full, claims⟩
  · rw [split] at slotsOk distinct below
    have isCleared :=
      (slotsOk bucket (by simp) position).eq_cleared free
    obtain ⟨next, isFilled, step, isNext⟩ :=
      fillSlot_claimed table index after isCleared (address_notMem distinct)
        fills
    refine ⟨_, next, (bucket.address, position), _, ?_, isFilled, step, ?_,
      ?_⟩
    · simp [claimSlot, claims]
    · rw [split]
      exact .hole isCleared
    · rw [isNext]
      exact (below bucket (by simp)).trans (Nat.lt_succ_self _)
  · have granted : grants.bucket = true := by
      rcases memory with granted | notFull
      · exact granted
      · exact (notFull full).elim
    simp only [granted, if_true] at claims
    have notFresh :
        ∀ bucket ∈ table.hashTable index,
          bucket.address ≠ table.nextBucket :=
      fun bucket member => (below bucket member).ne
    obtain ⟨next, isFilled, step, isNext⟩ :=
      fillSlot_claimed table index []
        (rfl : (fhAllocateBucket table.nextBucket).slot 0 = .cleared)
        notFresh fills
    refine ⟨_, next, (table.nextBucket, 0), _, ?_, isFilled, step, ?_, ?_⟩
    · simp [claimSlot, granted, claims]
    · exact .appended full notFresh
    · rw [isNext]
      exact Nat.lt_succ_self _

/-- A slot filled in a new first bucket is filled in a bucket appended. -/
theorem Filled.of_first
    {slot : FhSlot}
    {fresh : Nat}
    {address : SlotAddress}
    {first chain : List FhBucket}
    (filled : Filled slot first address chain)
    (isFirst : first = [fhAllocateBucket fresh]) :
    Filled slot [] address chain := by
  cases filled with
  | @hole before after bucket index isCleared =>
      obtain ⟨rfl, rfl, rfl⟩ :
          before = [] ∧ bucket = fhAllocateBucket fresh ∧ after = [] := by
        cases before with
        | nil =>
            simpa using isFirst
        | cons other rest =>
            simp at isFirst
      exact .appended (fun _ member => (List.not_mem_nil member).elim)
        fun _ member => (List.not_mem_nil member).elim
  | @appended chain fresh' index full isFresh =>
      subst isFirst
      have noneFree := full _ (List.mem_singleton_self _)
      rw [freeSlot_fhAllocateBucket] at noneFree
      cases noneFree

/-- One slot of the chain of a key was filled. -/
structure Placed
    (table next : FhTable)
    (key : CString)
    (slot : FhSlot)
    (address : SlotAddress) : Prop where
  step :
    ∃ chain,
      table.ChainStep next (table.indexOf key) chain ∧
        Filled slot (table.hashTable (table.indexOf key)) address chain
  below : address.1 < next.nextBucket

/-- The first key of a chain goes to a new bucket. -/
theorem insertSlot_first
    (ok : table.OkFor keyOk)
    (isChain : table.hashTable (table.indexOf key) = [])
    {slot : FhSlot}
    {failure : Option Int}
    (fills :
      filledSlot table (makeMinihash (table.hashFunction key)) key block
          grants =
        (slot, failure))
    (granted : grants.bucket = true) :
    ∃ next address,
      insertSlot table key block grants =
          .ok (next, outcomeAt address failure) ∧
        Placed table next key slot address := by
  have head :
      headBucket table (table.indexOf key) grants.bucket =
        (table.growChain (table.indexOf key)
            [fhAllocateBucket table.nextBucket],
          true) := by
    simp [headBucket, isChain, granted]
  have isFirst :
      (table.growChain (table.indexOf key)
            [fhAllocateBucket table.nextBucket]).hashTable
          (table.indexOf key) =
        [fhAllocateBucket table.nextBucket] :=
    Function.update_self ..
  have slotsOk :
      SlotsOk table.hashFunction (fun _ => True)
        [fhAllocateBucket table.nextBucket] := by
    intro bucket member index
    rw [List.mem_singleton.mp member]
    exact .cleared
  have missing :
      fhFindSlotInBucket key (makeMinihash (table.hashFunction key))
          [fhAllocateBucket table.nextBucket] =
        .ok none := by
    apply fhFindSlotInBucket_absent slotsOk
    simp [chainEntries, fhAllocateBucket_entries]
  rw [← isFirst] at slotsOk missing
  obtain ⟨claimed, next, address, chain, claims, isFilled, step, filled,
      below⟩ :=
    claimSlot_fillSlot
      (table.growChain (table.indexOf key)
        [fhAllocateBucket table.nextBucket])
      (by rw [isFirst]; exact List.cons_ne_nil _ _)
      slotsOk
      (by rw [isFirst]; exact List.nodup_singleton _)
      (by
        rw [isFirst]
        intro bucket member
        rw [List.mem_singleton.mp member]
        exact Nat.lt_succ_self _)
      fills (.inl granted)
  have whole : table.ChainStep next (table.indexOf key) chain :=
    step.after (FhTable.sameSettings_growChain ..)
      (fun _ isOther => Function.update_of_ne isOther ..) (Nat.le_succ _)
  refine ⟨next, address, insertSlot_steps ok head missing claims isFilled,
    ⟨chain, whole, ?_⟩, below⟩
  rw [isChain]
  exact filled.of_first isFirst

/-- A key that is not bound gets a slot when there is memory for a bucket. -/
theorem insertSlot_placed
    (ok : table.OkFor keyOk)
    (absent : ∀ object, (key, object) ∉ table.entries)
    {slot : FhSlot}
    {failure : Option Int}
    (fills :
      filledSlot table (makeMinihash (table.hashFunction key)) key block
          grants =
        (slot, failure))
    (memory :
      grants.bucket = true ∨
        ¬ ChainFull (table.hashTable (table.indexOf key))) :
    ∃ next address,
      insertSlot table key block grants =
          .ok (next, outcomeAt address failure) ∧
        Placed table next key slot address := by
  have absentHere :
      ∀ other,
        (key, other) ∉ chainEntries (table.hashTable (table.indexOf key)) :=
    fun other member => absent other (ok.mem_entries.mpr member)
  cases isChain : table.hashTable (table.indexOf key) with
  | nil =>
      have granted : grants.bucket = true := by
        rcases memory with granted | notFull
        · exact granted
        · rw [isChain] at notFull
          exact (notFull fun _ member => (List.not_mem_nil member).elim).elim
      exact insertSlot_first ok isChain fills granted
  | cons first rest =>
      have slotsOk := ok.slots (table.indexOf key)
      have head := headBucket_cons isChain grants.bucket
      have missing := fhFindSlotInBucket_absent slotsOk absentHere
      obtain ⟨claimed, next, address, chain, claims, isFilled, step, filled,
          below⟩ :=
        claimSlot_fillSlot
          { table with
            hCollision := table.hCollision + 1 }
          (by simp [isChain]) slotsOk (ok.distinct _) (ok.below _)
          fills memory
      have whole : table.ChainStep next (table.indexOf key) chain :=
        step.after table.sameSettings_collision (fun _ _ => rfl)
          (Nat.le_refl _)
      exact ⟨next, address, insertSlot_steps ok head missing claims isFilled,
        ⟨chain, whole, filled⟩, below⟩

/-- A key that is not bound is inserted when there is memory for it. -/
theorem insertSlot_new
    (ok : table.OkFor keyOk)
    (absent : ∀ object, (key, object) ∉ table.entries)
    {stored : FhKey}
    {object : Option OpaqueObj}
    (isKey : table.slotKey key grants.key = some stored)
    (isObject :
      blockObject table.hDatalen block grants.opaqueObj = .ok object)
    (memory :
      grants.bucket = true ∨
        ¬ ChainFull (table.hashTable (table.indexOf key))) :
    ∃ next address,
      insertSlot table key block grants = .ok (next, .ok address) ∧
        table.Inserted next stored object address := by
  obtain ⟨sameKey, sameCopied⟩ := slotKey_spec isKey
  subst sameKey
  have fills :
      filledSlot table (makeMinihash (table.hashFunction stored.string))
          stored.string block grants =
        (usedSlot table.hashFunction stored object, none) := by
    simp [filledSlot, isKey, isObject, usedSlot]
  obtain ⟨next, address, inserts, placed⟩ :=
    insertSlot_placed ok absent fills memory
  exact ⟨next, address, inserts, ⟨rfl, sameCopied⟩, placed.step, placed.below⟩

/-- Without memory for a bucket that is needed nothing is inserted. -/
theorem insertSlot_noBucket
    (ok : table.OkFor keyOk)
    (absent : ∀ object, (key, object) ∉ table.entries)
    (refused : grants.bucket = false)
    (full : ChainFull (table.hashTable (table.indexOf key))) :
    ∃ next,
      insertSlot table key block grants = .ok (next, .error fhNoMemory) ∧
        next.SameSettings table ∧
        next.hashTable = table.hashTable ∧
        table.nextBucket ≤ next.nextBucket := by
  have inRange := ok.indexOf_lt key
  have absentHere :
      ∀ other,
        (key, other) ∉ chainEntries (table.hashTable (table.indexOf key)) :=
    fun other member => absent other (ok.mem_entries.mpr member)
  have missing := fhFindSlotInBucket_absent (ok.slots _) absentHere
  unfold FhTable.indexOf at full missing inRange
  cases isChain : table.hashTable (table.hashindex (table.hashFunction key)) with
  | nil =>
      refine ⟨table, ?_, .refl table, rfl, Nat.le_refl _⟩
      simp [insertSlot, inRange, headBucket, isChain, refused]
  | cons first rest =>
      rw [isChain] at full missing
      have notEmpty : first :: rest ≠ [] := List.cons_ne_nil _ _
      rcases fhReturnEmptySlotInBucket_spec
          (makeMinihash (table.hashFunction key)) none notEmpty with
          ⟨before, bucket, after, position, split, free, -⟩ | ⟨-, claims⟩
      · have noneFree := full bucket (by simp [split])
        have notFree := List.find?_eq_none.mp noneFree position
          (List.mem_finRange position)
        simp [free] at notFree
      · refine ⟨(({ table with
            hCollision := table.hCollision + 1 } : FhTable).growChain
              (table.hashindex (table.hashFunction key)) (first :: rest)),
          ?_,
          (FhTable.sameSettings_growChain ..).trans
            table.sameSettings_collision,
          ?_, Nat.le_succ _⟩
        · simp [insertSlot, inRange, headBucket, isChain, missing, claimSlot,
            refused, claims]
        · simp only [FhTable.growChain]
          rw [← isChain, Function.update_eq_self]

/-- How the locked section of an insertion ends. -/
inductive InsertOutcome
    (table : FhTable)
    (key : CString)
    (block : Option Block)
    (grants : InsertGrants) : FhTable → Except Int SlotAddress → Prop where
  | duplicate
      {object : Option OpaqueObj} :
      (key, object) ∈ table.entries →
      InsertOutcome table key block grants
        { table with
          hCollision := table.hCollision + 1 }
        (.error fhDuplicatedElement)
  | noBucket
      {next : FhTable} :
      (∀ object, (key, object) ∉ table.entries) →
      next.SameSettings table →
      next.hashTable = table.hashTable →
      table.nextBucket ≤ next.nextBucket →
      InsertOutcome table key block grants next (.error fhNoMemory)
  | inserted
      {next : FhTable}
      {stored : FhKey}
      {object : Option OpaqueObj}
      {address : SlotAddress} :
      (∀ object, (key, object) ∉ table.entries) →
      table.slotKey key grants.key = some stored →
      blockObject table.hDatalen block grants.opaqueObj = .ok object →
      stored.string = key →
      table.Inserted next stored object address →
      InsertOutcome table key block grants next (.ok address)
  | halfWritten
      {next : FhTable}
      {slot : FhSlot}
      {code : Int}
      {address : SlotAddress} :
      (∀ object, (key, object) ∉ table.entries) →
      (grants.bucket = true ∨
        ¬ ChainFull (table.hashTable (table.indexOf key))) →
      filledSlot table (makeMinihash (table.hashFunction key)) key block
          grants =
        (slot, some code) →
      Placed table next key slot address →
      InsertOutcome table key block grants next (.error code)

/-- The locked section of an insertion returns, with any allocations. -/
theorem insertSlot_outcome
    (ok : table.OkFor keyOk)
    (key : CString)
    (block : Option Block)
    (grants : InsertGrants) :
    ∃ next outcome,
      insertSlot table key block grants = .ok (next, outcome) ∧
        InsertOutcome table key block grants next outcome := by
  by_cases bound : ∃ object, (key, object) ∈ table.entries
  · obtain ⟨object, member⟩ := bound
    exact ⟨_, _, insertSlot_bound ok member, .duplicate member⟩
  · have absent : ∀ object, (key, object) ∉ table.entries :=
      not_exists.mp bound
    by_cases memory :
        grants.bucket = true ∨
          ¬ ChainFull (table.hashTable (table.indexOf key))
    · cases fills :
          filledSlot table (makeMinihash (table.hashFunction key)) key block
            grants with
      | mk slot failure =>
          cases failure with
          | some code =>
              obtain ⟨next, address, inserts, placed⟩ :=
                insertSlot_placed ok absent fills memory
              exact ⟨next, _, inserts,
                .halfWritten absent memory fills placed⟩
          | none =>
              obtain ⟨stored, object, isKey, isObject⟩ :=
                filledSlot_complete fills
              obtain ⟨next, address, inserts, inserted⟩ :=
                insertSlot_new ok absent isKey isObject memory
              exact ⟨next, _, inserts,
                .inserted absent isKey isObject (slotKey_spec isKey).1
                  inserted⟩
    · obtain ⟨noBucket, full⟩ := not_or.mp memory
      obtain ⟨next, inserts, same, chains, grows⟩ :=
        insertSlot_noBucket ok absent (by simpa using noBucket)
          (not_not.mp full)
      exact ⟨next, _, inserts, .noBucket absent same chains grows⟩

end Insertion

section Deletion

variable {table : FhTable}
  {keyOk : FhKey → Prop}
  {key : CString}

/-- A key that is bound is deleted from its chain. -/
theorem fhDelUnlocked_bound
    (ok : table.OkFor keyOk)
    {object : Option OpaqueObj}
    (bound : (key, object) ∈ table.entries) :
    ∃ next stored found address,
      fhDelUnlocked table key (table.indexOf key)
            (makeMinihash (table.hashFunction key)) =
          .ok (next, table.indexOf key) ∧
        stored.string = key ∧
        table.Deleted next stored found address := by
  obtain ⟨before, bucket, after, index, stored, found, split, finds, holds,
      sameKey⟩ :=
    fhFindSlotInBucket_present (ok.slots (table.indexOf key))
      (ok.mem_entries.mp bound)
  subst sameKey
  have inRange := ok.indexOf_lt stored.string
  have distinct := ok.distinct (table.indexOf stored.string)
  rw [split] at distinct
  have earlier := address_notMem distinct
  have cleared :
      table.setSlot (table.indexOf stored.string) (bucket.address, index)
          .cleared =
        table.setChain (table.indexOf stored.string)
          (before ++ bucket.setSlot index .cleared :: after) := by
    rw [FhTable.setSlot, split, writeSlot_middle earlier]
  have isChain :
      (table.setChain (table.indexOf stored.string)
            (before ++ bucket.setSlot index .cleared :: after)).hashTable
          (table.indexOf stored.string) =
        before ++ bucket.setSlot index .cleared :: after :=
    Function.update_self ..
  have candidate :
      bucketAt bucket.address
          (before ++ bucket.setSlot index .cleared :: after) =
        some (bucket.setSlot index .cleared) := by
    rw [← setSlot_address bucket index .cleared] at earlier ⊢
    exact bucketAt_middle earlier
  have runs :
      ∀ chain,
        deallocateBucketIfEmpty (bucket.setSlot index .cleared)
            (before ++ bucket.setSlot index .cleared :: after) =
          .ok chain →
        fhDelUnlocked table stored.string (table.indexOf stored.string)
            (makeMinihash (table.hashFunction stored.string)) =
          .ok (table.setChain (table.indexOf stored.string) chain,
            table.indexOf stored.string) := by
    intro chain deallocates
    simp only [fhDelUnlocked, inRange, not_true_eq_false, if_false, finds,
      Checked.ok_bind, cleared, isChain, candidate, deallocates]
    simp [FhTable.setChain]
  have step :
      ∀ chain,
        table.ChainStep
          (table.setChain (table.indexOf stored.string) chain)
          (table.indexOf stored.string) chain :=
    fun chain => ⟨table.sameSettings_setChain _ chain, rfl, Nat.le_refl _⟩
  cases isEmpty : (bucket.setSlot index .cleared).isEmpty with
  | false =>
      refine ⟨_, stored, found, (bucket.address, index),
        runs (before ++ bucket.setSlot index .cleared :: after) ?_, rfl,
        ⟨_, step _, ?_⟩⟩
      · simp [deallocateBucketIfEmpty, isEmpty]
      · rw [split]
        exact .kept holds isEmpty
  | true =>
      refine ⟨_, stored, found, (bucket.address, index),
        runs (before ++ after) ?_, rfl, ⟨_, step _, ?_⟩⟩
      · rw [deallocateBucketIfEmpty, if_pos isEmpty]
        exact unlinkBucket_middle earlier
      · rw [split]
        exact .unlinked holds isEmpty

/-- A key that has no entry in a chain is not deleted from it. -/
theorem fhDelUnlocked_absent
    (ok : table.OkFor keyOk)
    {index : Nat}
    (inRange : index < table.hDim)
    (absent : ∀ object, (key, object) ∉ chainEntries (table.hashTable index)) :
    fhDelUnlocked table key index (makeMinihash (table.hashFunction key)) =
      .ok (table, fhElementNotFound) := by
  have missing := fhFindSlotInBucket_absent (ok.slots index) absent
  simp [fhDelUnlocked, inRange, missing]

/-- How the locked section of a deletion ends. -/
inductive DeleteOutcome
    (table : FhTable)
    (key : CString)
    (index : Nat) : FhTable → Int → Prop where
  | deleted
      {next : FhTable}
      {stored : FhKey}
      {found : Option OpaqueObj}
      {address : SlotAddress} :
      index = table.indexOf key →
      stored.string = key →
      table.Deleted next stored found address →
      DeleteOutcome table key index next index
  | missing :
      (index = table.indexOf key →
        ∀ object, (key, object) ∉ table.entries) →
      DeleteOutcome table key index table fhElementNotFound

/-- The locked section of a deletion returns for every chain. -/
theorem fhDelUnlocked_outcome
    (ok : table.OkFor keyOk)
    (key : CString)
    {index : Nat}
    (inRange : index < table.hDim) :
    ∃ next code,
      fhDelUnlocked table key index (makeMinihash (table.hashFunction key)) =
          .ok (next, code) ∧
        DeleteOutcome table key index next code := by
  by_cases bound :
      ∃ object, (key, object) ∈ chainEntries (table.hashTable index)
  · obtain ⟨object, member⟩ := bound
    obtain ⟨stored, sameKey, isPlaced, -⟩ :=
      FhTable.belongs_of_mem (ok.slots index) member
    rw [sameKey] at isPlaced
    subst isPlaced
    obtain ⟨next, deletedKey, found, address, deletes, isKey, deleted⟩ :=
      fhDelUnlocked_bound ok (ok.mem_entries.mpr member)
    exact ⟨next, _, deletes, .deleted rfl isKey deleted⟩
  · have absent := not_exists.mp bound
    refine ⟨table, _, fhDelUnlocked_absent ok inRange absent, .missing ?_⟩
    rintro rfl object member
    exact absent object (ok.mem_entries.mp member)

end Deletion

section Lookup

variable {table : FhTable}
  {keyOk : FhKey → Prop}
  {key : CString}

/-- A key that is bound is found with its object. -/
theorem findSlot_bound
    (ok : table.OkFor keyOk)
    {object : Option OpaqueObj}
    (bound : (key, object) ∈ table.entries) :
    ∃ slot,
      findSlot table key = .ok (some slot) ∧
        (key, slot.opaqueObj) ∈ table.entries := by
  obtain ⟨before, bucket, after, index, stored, found, split, finds, holds,
      sameKey⟩ :=
    fhFindSlotInBucket_present (ok.slots (table.indexOf key))
      (ok.mem_entries.mp bound)
  subst sameKey
  have inRange := ok.indexOf_lt stored.string
  have distinct := ok.distinct (table.indexOf stored.string)
  rw [split] at distinct
  have isSlot :
      table.slotAt (table.indexOf stored.string) (bucket.address, index) =
        usedSlot table.hashFunction stored found := by
    rw [← holds]
    simp [FhTable.slotAt, split, bucketAt_middle (address_notMem distinct)]
  refine ⟨usedSlot table.hashFunction stored found, ?_,
    ok.mem_entries.mpr (mem_chainEntries split holds)⟩
  unfold FhTable.indexOf at inRange finds isSlot
  simp [findSlot, inRange, finds, isSlot]

/-- A key that is not bound is not found. -/
theorem findSlot_absent
    (ok : table.OkFor keyOk)
    (absent : ∀ object, (key, object) ∉ table.entries) :
    findSlot table key = .ok none := by
  have absentHere :
      ∀ other,
        (key, other) ∉ chainEntries (table.hashTable (table.indexOf key)) :=
    fun other member => absent other (ok.mem_entries.mpr member)
  have missing := fhFindSlotInBucket_absent (ok.slots _) absentHere
  have inRange := ok.indexOf_lt key
  unfold FhTable.indexOf at inRange missing
  simp [findSlot, inRange, missing]

end Lookup

end Clibs.Fh
