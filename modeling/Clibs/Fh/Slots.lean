import Clibs.Fh.Runs

namespace Clibs.Fh

/-!
# Where the keys are stored

`fh_insertlock` hands out the address of the slot it filled, and the user may
write through it later.  The address stays good because no call moves a key:
an insertion fills a slot that was cleared, a deletion clears the slot of its
own key and frees a bucket only when no other slot of it is used.
-/

/-- The slot of the chain at the address. -/
def SlotIn
    (chain : List FhBucket)
    (address : SlotAddress)
    (slot : FhSlot) : Prop :=
  ∃ bucket ∈ chain,
    bucket.address = address.1 ∧ bucket.slot address.2 = slot

/-- A used slot of the chain at the address is overwritten. -/
inductive Rewritten
    (old new : FhSlot) :
    List FhBucket → SlotAddress → List FhBucket → Prop where
  | slot
      {before after : List FhBucket}
      {bucket : FhBucket}
      {index : Fin bucketSize} :
      bucket.slot index = old →
      Rewritten old new (before ++ bucket :: after) (bucket.address, index)
        (before ++ bucket.setSlot index new :: after)

/--
The bucket at the address is in the chain of the key, and its slot holds the key
with the object.
-/
def FhTable.SlotHolds
    (table : FhTable)
    (address : SlotAddress)
    (key : FhKey)
    (object : Option OpaqueObj) : Prop :=
  SlotIn (table.hashTable (table.indexOf key.string)) address
    (usedSlot table.hashFunction key object)

/-- No two chains have a bucket at the same address. -/
def FhTable.Apart (table : FhTable) : Prop :=
  ∀ first second,
    ∀ bucket ∈ table.hashTable first,
      ∀ other ∈ table.hashTable second,
        bucket.address = other.address → first = second

/-- New buckets are in one chain, at addresses that were not used before. -/
structure FhTable.AllocatesAt
    (index : Nat)
    (table next : FhTable) : Prop where
  grows : table.nextBucket ≤ next.nextBucket
  buckets :
    ∀ other,
      ∀ bucket ∈ next.hashTable other,
        bucket.address ∈ (table.hashTable other).map FhBucket.address ∨
          other = index ∧ table.nextBucket ≤ bucket.address

section Chains

variable {slot old new held : FhSlot}
  {chain next : List FhBucket}
  {address other : SlotAddress}
  {hashFunction : CString → UInt64}
  {belongs : FhKey → Prop}

/-- The key of a used slot that is well formed belongs to the chain. -/
theorem SlotOk.key_belongs
    {key : FhKey}
    {object : Option OpaqueObj}
    (slotOk : SlotOk hashFunction belongs (usedSlot hashFunction key object)) :
    belongs key := by
  generalize isUsed : usedSlot hashFunction key object = slot at slotOk
  have sameKey := congrArg FhSlot.key isUsed
  cases slotOk with
  | cleared =>
      cases sameKey
  | used isPlaced =>
      simp only [usedSlot, Option.some.injEq] at sameKey
      exact sameKey ▸ isPlaced

/-- The slots of a chain of which one was assigned. -/
theorem slotIn_setSlot
    {before after : List FhBucket}
    {bucket : FhBucket}
    {index : Fin bucketSize}
    (holds : SlotIn (before ++ bucket :: after) other held)
    (differs : bucket.slot index ≠ held) :
    SlotIn (before ++ bucket.setSlot index slot :: after) other held := by
  obtain ⟨found, member, isAddress, isSlot⟩ := holds
  rcases List.mem_append.mp member with inBefore | inRest
  · exact ⟨found, List.mem_append_left _ inBefore, isAddress, isSlot⟩
  · rcases List.mem_cons.mp inRest with isBucket | inAfter
    · subst isBucket
      refine ⟨found.setSlot index slot, by simp, isAddress, ?_⟩
      have notThis : other.2 ≠ index := by
        intro same
        exact differs (same ▸ isSlot)
      rw [setSlot_ne notThis, isSlot]
    · exact ⟨found, by simp [inAfter], isAddress, isSlot⟩

/-- The slot that was assigned. -/
theorem slotIn_assigned
    (before after : List FhBucket)
    (bucket : FhBucket)
    (index : Fin bucketSize) :
    SlotIn (before ++ bucket.setSlot index slot :: after)
      (bucket.address, index) slot :=
  ⟨bucket.setSlot index slot, by simp, rfl, setSlot_self ..⟩

/-- Filling a slot leaves the used slots. -/
theorem Filled.keeps
    (filled : Filled slot chain address next)
    (holds : SlotIn chain other held)
    (used : held.miniHash ≠ 0) :
    SlotIn next other held := by
  cases filled with
  | hole isCleared =>
      apply slotIn_setSlot holds
      rw [isCleared]
      rintro rfl
      exact used rfl
  | appended full isFresh =>
      obtain ⟨found, member, isAddress, isSlot⟩ := holds
      exact ⟨found, List.mem_append_left _ member, isAddress, isSlot⟩

/-- The slot that was filled. -/
theorem Filled.holds
    (filled : Filled slot chain address next) :
    SlotIn next address slot := by
  cases filled with
  | @hole before after bucket index isCleared =>
      exact slotIn_assigned before after bucket index
  | @appended chain fresh index full isFresh =>
      exact slotIn_assigned chain [] (fhAllocateBucket fresh) index

/-- Clearing a slot leaves the other used slots, and their buckets linked. -/
theorem Emptied.keeps
    (emptied : Emptied slot chain address next)
    (holds : SlotIn chain other held)
    (used : held.miniHash ≠ 0)
    (differs : slot ≠ held) :
    SlotIn next other held := by
  cases emptied with
  | kept isSlot occupied =>
      exact slotIn_setSlot holds (isSlot ▸ differs)
  | @unlinked before after bucket index isSlot empty =>
      obtain ⟨found, member, isAddress, isHeld⟩ :=
        slotIn_setSlot holds (isSlot ▸ differs)
      rcases List.mem_append.mp member with inBefore | inRest
      · exact ⟨found, List.mem_append_left _ inBefore, isAddress, isHeld⟩
      · rcases List.mem_cons.mp inRest with isBucket | inAfter
        · have occupied := isEmpty_eq_false (by rwa [isHeld])
          rw [isBucket, empty] at occupied
          cases occupied
        · exact ⟨found, List.mem_append_right _ inAfter, isAddress, isHeld⟩

/-- The slot that is overwritten. -/
theorem Rewritten.was
    (rewritten : Rewritten old new chain address next) :
    SlotIn chain address old := by
  cases rewritten with
  | @slot before after bucket index isOld =>
      exact ⟨bucket, by simp, rfl, isOld⟩

/-- Overwriting a slot leaves the others. -/
theorem Rewritten.keeps
    (rewritten : Rewritten old new chain address next)
    (holds : SlotIn chain other held)
    (differs : old ≠ held) :
    SlotIn next other held := by
  cases rewritten with
  | slot isOld =>
      exact slotIn_setSlot holds (isOld ▸ differs)

/-- The slot that was overwritten. -/
theorem Rewritten.holds
    (rewritten : Rewritten old new chain address next) :
    SlotIn next address new := by
  cases rewritten with
  | @slot before after bucket index isOld =>
      exact slotIn_assigned before after bucket index

/-- Overwriting a slot exchanges its entries. -/
theorem Rewritten.entries
    (rewritten : Rewritten old new chain address next) :
    ∃ others,
      (chainEntries chain).Perm (old.entries ++ others) ∧
        (chainEntries next).Perm (new.entries ++ others) := by
  cases rewritten with
  | @slot before after bucket index isOld =>
      obtain ⟨others, whole, replaced⟩ := setSlot_entries bucket index
      rw [isOld] at whole
      refine ⟨others ++ chainEntries (before ++ after), ?_, ?_⟩
      · rw [← List.append_assoc]
        exact (chainEntries_middle ..).trans (whole.append_right _)
      · rw [← List.append_assoc]
        exact (chainEntries_middle ..).trans ((replaced new).append_right _)

/-- Overwriting a slot leaves the addresses of the buckets. -/
theorem Rewritten.addresses
    (rewritten : Rewritten old new chain address next) :
    next.map FhBucket.address = chain.map FhBucket.address := by
  cases rewritten with
  | slot isOld =>
      simp

/-- Overwriting a slot with a well formed one keeps the slots well formed. -/
theorem Rewritten.slotsOk
    (rewritten : Rewritten old new chain address next)
    (wellFormed : SlotsOk hashFunction belongs chain)
    (newOk : SlotOk hashFunction belongs new) :
    SlotsOk hashFunction belongs next := by
  cases rewritten with
  | @slot before after bucket index isOld =>
      intro found member position
      rcases List.mem_append.mp member with inBefore | inRest
      · exact wellFormed found (by simp [inBefore]) position
      · rcases List.mem_cons.mp inRest with isBucket | inAfter
        · subst isBucket
          by_cases same : position = index
          · subst same
            rwa [setSlot_self]
          · rw [setSlot_ne same]
            exact wellFormed bucket (by simp) position
        · exact wellFormed found (by simp [inAfter]) position

/-- Overwriting a slot with a used one leaves no bucket empty. -/
theorem Rewritten.noneEmpty
    (rewritten : Rewritten old new chain address next)
    (used : new.miniHash ≠ 0)
    (noneEmpty : ∀ bucket ∈ chain, bucket.isEmpty = false) :
    ∀ bucket ∈ next, bucket.isEmpty = false := by
  cases rewritten with
  | @slot before after bucket index isOld =>
      intro found member
      rcases List.mem_append.mp member with inBefore | inRest
      · exact noneEmpty found (by simp [inBefore])
      · rcases List.mem_cons.mp inRest with isBucket | inAfter
        · subst isBucket
          exact isEmpty_eq_false (by rwa [setSlot_self])
        · exact noneEmpty found (by simp [inAfter])

end Chains

namespace FhTable

variable {table next : FhTable}
  {keyOk : FhKey → Prop}
  {key other : FhKey}
  {object held : Option OpaqueObj}
  {address place : SlotAddress}

/-- What the slots hold is a matter of the chains and the hash function. -/
theorem SlotHolds.of_same
    (holds : table.SlotHolds place other held)
    (sameDim : next.hDim = table.hDim)
    (sameFunction : next.hashFunction = table.hashFunction)
    (chains : next.hashTable = table.hashTable) :
    next.SlotHolds place other held := by
  unfold FhTable.SlotHolds FhTable.indexOf FhTable.hashindex
  rw [sameDim, sameFunction, chains]
  exact holds

/-- A chain was replaced by one that keeps a slot. -/
theorem ChainStep.slotHolds
    {index : Nat}
    {chain : List FhBucket}
    (step : table.ChainStep next index chain)
    (holds : table.SlotHolds place other held)
    (kept :
      table.indexOf other.string = index →
      SlotIn chain place (usedSlot table.hashFunction other held)) :
    next.SlotHolds place other held := by
  unfold FhTable.SlotHolds
  rw [step.same.indexOf, step.same.hashFunction, step.chains]
  by_cases same : table.indexOf other.string = index
  · rw [same, Function.update_self]
    exact kept same
  · rw [Function.update_of_ne same]
    exact holds

/-- The key that a slot holds has an entry. -/
theorem SlotHolds.mem_entries
    (holds : table.SlotHolds place other held)
    (ok : table.OkFor keyOk) :
    (other.string, held) ∈ table.entries := by
  obtain ⟨bucket, member, -, isSlot⟩ := holds
  obtain ⟨before, after, split⟩ := List.append_of_mem member
  exact ok.mem_entries.mpr (mem_chainEntries split isSlot)

/-- A used slot of one key is not that of another. -/
theorem usedSlot_ne
    {hashFunction : CString → UInt64}
    (differs : other.string ≠ key.string) :
    usedSlot hashFunction key object ≠ usedSlot hashFunction other held := by
  intro same
  have sameKey := congrArg FhSlot.key same
  simp only [usedSlot, Option.some.injEq] at sameKey
  exact differs (by rw [sameKey])

/-- An insertion leaves the slots of the keys that were there. -/
theorem Inserted.keeps
    (inserted : table.Inserted next key object address)
    (holds : table.SlotHolds place other held) :
    next.SlotHolds place other held := by
  obtain ⟨chain, step, filled⟩ := inserted.step
  apply step.slotHolds holds
  intro sameChain
  unfold FhTable.SlotHolds at holds
  rw [sameChain] at holds
  exact filled.keeps holds (makeMinihash_ne_zero _)

/-- The slot that an insertion filled. -/
theorem Inserted.holds
    (inserted : table.Inserted next key object address) :
    next.SlotHolds address key object := by
  obtain ⟨chain, step, filled⟩ := inserted.step
  unfold FhTable.SlotHolds
  rw [step.same.indexOf, step.same.hashFunction, step.chains,
    Function.update_self]
  exact filled.holds

/-- A deletion leaves the slots of the other keys. -/
theorem Deleted.keeps
    (deleted : table.Deleted next key object address)
    (holds : table.SlotHolds place other held)
    (differs : other.string ≠ key.string) :
    next.SlotHolds place other held := by
  obtain ⟨chain, step, emptied⟩ := deleted.step
  apply step.slotHolds holds
  intro sameChain
  unfold FhTable.SlotHolds at holds
  rw [sameChain] at holds
  exact emptied.keeps holds (makeMinihash_ne_zero _) (usedSlot_ne differs)

namespace AllocatesAt

variable {index : Nat}

/-- A table with the same chains. -/
theorem of_chains
    (chains : next.hashTable = table.hashTable)
    (grows : table.nextBucket ≤ next.nextBucket) :
    table.AllocatesAt index next where
  grows := grows
  buckets other bucket member := by
    rw [chains] at member
    exact .inl (List.mem_map_of_mem member)

/-- Chains may be changed more than once. -/
theorem trans
    {middle : FhTable}
    (first : table.AllocatesAt index middle)
    (second : middle.AllocatesAt index next) :
    table.AllocatesAt index next where
  grows := first.grows.trans second.grows
  buckets other bucket member := by
    rcases second.buckets other bucket member with isOld | ⟨isHere, isNew⟩
    · obtain ⟨between, inMiddle, sameAddress⟩ := List.mem_map.mp isOld
      rw [← sameAddress]
      exact first.buckets other between inMiddle
    · exact .inr ⟨isHere, first.grows.trans isNew⟩

/-- Chains stay apart when new buckets get new addresses. -/
theorem apart
    (allocates : table.AllocatesAt index next)
    (below :
      ∀ index,
        ∀ bucket ∈ table.hashTable index, bucket.address < table.nextBucket)
    (apart : table.Apart) :
    next.Apart := by
  have oldBelow :
      ∀ chain address,
        address ∈ (table.hashTable chain).map FhBucket.address →
          address < table.nextBucket := by
    intro chain address member
    obtain ⟨bucket, inChain, rfl⟩ := List.mem_map.mp member
    exact below chain bucket inChain
  intro first second bucket inFirst other inSecond same
  rcases allocates.buckets first bucket inFirst with isOld | ⟨isHere, isNew⟩
  · rcases allocates.buckets second other inSecond with
        otherOld | ⟨-, otherNew⟩
    · obtain ⟨old, inOld, oldAddress⟩ := List.mem_map.mp isOld
      obtain ⟨otherOld, inOther, otherAddress⟩ := List.mem_map.mp otherOld
      exact apart first second old inOld otherOld inOther
        (by rw [oldAddress, otherAddress, same])
    · have isBelow := oldBelow first _ isOld
      omega
  · rcases allocates.buckets second other inSecond with
        otherOld | ⟨otherHere, -⟩
    · have isBelow := oldBelow second _ otherOld
      omega
    · rw [isHere, otherHere]

/-- A chain that was replaced by one with the same or fewer addresses. -/
theorem of_step
    {changed : Nat}
    {chain : List FhBucket}
    (step : table.ChainStep next changed chain)
    (addresses :
      chain.map FhBucket.address ⊆
        (table.hashTable changed).map FhBucket.address) :
    table.AllocatesAt index next where
  grows := step.grows
  buckets other bucket member := by
    left
    rw [step.chains] at member
    by_cases same : other = changed
    · subst same
      rw [Function.update_self] at member
      exact addresses (List.mem_map_of_mem member)
    · rw [Function.update_of_ne same] at member
      exact List.mem_map_of_mem member

end AllocatesAt

section Allocation

variable {index : Nat}

/-- Replacing a chain by one with new buckets. -/
theorem AllocatesAt.growChain
    {chain : List FhBucket}
    (buckets :
      ∀ bucket ∈ chain,
        bucket.address ∈ (table.hashTable index).map FhBucket.address ∨
          table.nextBucket ≤ bucket.address) :
    table.AllocatesAt index (table.growChain index chain) where
  grows := Nat.le_succ _
  buckets other bucket member := by
    by_cases same : other = index
    · subst same
      simp only [FhTable.growChain, Function.update_self] at member
      exact (buckets bucket member).imp_right fun isNew => ⟨rfl, isNew⟩
    · simp only [FhTable.growChain, Function.update_of_ne same] at member
      exact .inl (List.mem_map_of_mem member)

/-- Assigning a slot of a chain leaves the addresses of its buckets. -/
theorem writeSlot_addresses
    (place : SlotAddress)
    (slot : FhSlot)
    (chain : List FhBucket) :
    (writeSlot place slot chain).map FhBucket.address =
      chain.map FhBucket.address := by
  induction chain with
  | nil =>
      rfl
  | cons bucket rest inductionHypothesis =>
      rw [writeSlot]
      split
      · rfl
      · rw [List.map_cons, inductionHypothesis, List.map_cons]

/-- Assigning a slot allocates nothing. -/
theorem AllocatesAt.setSlot
    (table : FhTable)
    (changed : Nat)
    (place : SlotAddress)
    (slot : FhSlot) :
    table.AllocatesAt index (table.setSlot changed place slot) := by
  apply AllocatesAt.of_step
    (⟨table.sameSettings_setChain .., rfl, Nat.le_refl _⟩ :
      table.ChainStep _ changed _)
  rw [writeSlot_addresses]
  exact List.Subset.refl _

/-- The first bucket of a chain may be a new one. -/
theorem headBucket_allocatesAt
    (table : FhTable)
    (index : Nat)
    (granted : Bool) :
    table.AllocatesAt index (headBucket table index granted).1 := by
  unfold headBucket
  split
  · split
    · apply AllocatesAt.growChain
      intro bucket member
      rw [List.mem_singleton.mp member]
      exact .inr (Nat.le_refl _)
    · exact .of_chains rfl (Nat.le_refl _)
  · exact .of_chains rfl (Nat.le_refl _)

/-- Claiming a slot adds at most the bucket that `malloc` returned. -/
theorem claimed_addresses
    (miniHash : UInt8)
    (fresh : Option Nat)
    (chain : List FhBucket) :
    ∀ bucket ∈ (fhReturnEmptySlotInBucket miniHash fresh chain).1,
      bucket.address ∈ chain.map FhBucket.address ∨
        fresh = some bucket.address := by
  by_cases isNil : chain = []
  · subst isNil
    simp [fhReturnEmptySlotInBucket]
  · intro bucket member
    have isAddress := List.mem_map_of_mem (f := FhBucket.address) member
    rcases fhReturnEmptySlotInBucket_spec miniHash fresh isNil with
        ⟨before, found, after, index, split, -, claims⟩ | ⟨-, claims⟩
    · rw [claims] at isAddress
      left
      simpa [split, FhBucket.setMiniHash] using isAddress
    · cases fresh with
      | none =>
          simp only at claims
          rw [claims] at isAddress
          exact .inl isAddress
      | some address =>
          simp only at claims
          rw [claims, List.map_append, List.mem_append] at isAddress
          refine isAddress.imp_right fun isNew => ?_
          rw [List.map_singleton, List.mem_singleton] at isNew
          rw [isNew]
          rfl

/-- Claiming a slot allocates at most one bucket. -/
theorem claimSlot_allocatesAt
    (table : FhTable)
    (index : Nat)
    (miniHash : UInt8)
    (granted : Bool) :
    table.AllocatesAt index (claimSlot table index miniHash granted).1 := by
  apply AllocatesAt.growChain
  intro bucket member
  rcases claimed_addresses _ _ _ bucket member with isOld | isNew
  · exact .inl isOld
  · right
    split at isNew
    · exact (Option.some.inj isNew).le
    · cases isNew

/-- Filling a claimed slot allocates no bucket. -/
theorem fillSlot_allocatesAt
    (table : FhTable)
    (changed : Nat)
    (place : SlotAddress)
    (key : CString)
    (block : Option Block)
    (grants : InsertGrants) :
    table.AllocatesAt index
      (fillSlot table changed place key block grants).1 := by
  unfold fillSlot
  simp only
  split
  · exact .setSlot ..
  · split
    · exact .setSlot ..
    · split
      · exact .setSlot ..
      · exact .setSlot ..

/-- An insertion allocates buckets of the chain of its key only. -/
theorem insertSlot_allocatesAt
    {key : CString}
    {block : Option Block}
    {grants : InsertGrants}
    {outcome : Except Int SlotAddress}
    (inserts : insertSlot table key block grants = .ok (next, outcome)) :
    table.AllocatesAt (table.indexOf key) next := by
  unfold insertSlot at inserts
  simp only at inserts
  split at inserts
  · cases inserts
  · have head :=
      headBucket_allocatesAt table (table.indexOf key) grants.bucket
    unfold FhTable.indexOf at head ⊢
    split at inserts
    next failed isHead =>
      cases inserts
      rw [isHead] at head
      exact head
    next middle isHead =>
      rw [isHead] at head
      obtain ⟨found, -, rest⟩ := Checked.bind_eq_ok.mp inserts
      cases found with
      | some duplicate =>
          cases rest
          exact head
      | none =>
          have claims :=
            claimSlot_allocatesAt middle
              (table.hashindex (table.hashFunction key))
              (makeMinihash (table.hashFunction key)) grants.bucket
          simp only at rest
          split at rest
          next claimed isClaimed =>
            cases rest
            rw [isClaimed] at claims
            exact head.trans claims
          next claimed place isClaimed =>
            have isNext :
                (fillSlot claimed (table.hashindex (table.hashFunction key))
                  place key block grants).1 = next :=
              congrArg Prod.fst (Except.ok.inj rest)
            rw [isClaimed] at claims
            rw [← isNext]
            exact (head.trans claims).trans (fillSlot_allocatesAt ..)

end Allocation

/-- A deletion allocates nothing. -/
theorem Deleted.allocatesAt
    (deleted : table.Deleted next key object address)
    (index : Nat) :
    table.AllocatesAt index next := by
  obtain ⟨chain, step, emptied⟩ := deleted.step
  exact .of_step step emptied.addresses.subset

end FhTable

end Clibs.Fh
