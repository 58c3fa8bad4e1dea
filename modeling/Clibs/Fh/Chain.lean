import Clibs.Fh.Bucket
import Clibs.Foundation.Gather

namespace Clibs.Fh

/-!
# What the bucket functions do to a chain

A chain holds the entries of its used slots.  An insertion fills a free slot of
the chain or of a bucket appended to it (`Filled`); a deletion
clears a slot and unlinks its bucket when that was the last used one
(`Emptied`).  The functions of `Bucket` are shown to do exactly this on chains
whose slots are well formed, and both relations change the entries by one.
-/

/-- A key with the opaque object stored for it. -/
abbrev Entry :=
  CString × Option OpaqueObj

/-- The entry of a used slot. -/
def FhSlot.entries (slot : FhSlot) : List Entry :=
  if slot.miniHash = 0 then
    []
  else
    slot.key.toList.map fun key => (key.string, slot.opaqueObj)

/-- The entries of a bucket, in the order of its slots. -/
def FhBucket.entries (bucket : FhBucket) : List Entry :=
  gather FhSlot.entries (List.finRange bucketSize) bucket.slot

/-- The entries of a chain, in the order of its buckets. -/
def chainEntries (chain : List FhBucket) : List Entry :=
  chain.flatMap FhBucket.entries

/-- A used slot as an insertion leaves it. -/
def usedSlot
    (hashFunction : CString → UInt64)
    (key : FhKey)
    (object : Option OpaqueObj) : FhSlot where
  miniHash := makeMinihash (hashFunction key.string)
  key := some key
  opaqueObj := object

/-- A slot is cleared, or used by a key that belongs to the chain. -/
inductive SlotOk
    (hashFunction : CString → UInt64)
    (belongs : FhKey → Prop) : FhSlot → Prop where
  | cleared :
      SlotOk hashFunction belongs .cleared
  | used
      {key : FhKey}
      {object : Option OpaqueObj} :
      belongs key →
      SlotOk hashFunction belongs (usedSlot hashFunction key object)

/-- All slots of a chain are well formed. -/
def SlotsOk
    (hashFunction : CString → UInt64)
    (belongs : FhKey → Prop)
    (chain : List FhBucket) : Prop :=
  ∀ bucket ∈ chain,
    ∀ index, SlotOk hashFunction belongs (bucket.slot index)

/-- No bucket of a chain has a free slot. -/
def ChainFull (chain : List FhBucket) : Prop :=
  ∀ bucket ∈ chain, freeSlot bucket = none

/-- A slot of the chain at the address is filled. -/
inductive Filled
    (slot : FhSlot) :
    List FhBucket → SlotAddress → List FhBucket → Prop where
  | hole
      {before after : List FhBucket}
      {bucket : FhBucket}
      {index : Fin bucketSize} :
      bucket.slot index = .cleared →
      Filled slot (before ++ bucket :: after) (bucket.address, index)
        (before ++ bucket.setSlot index slot :: after)
  | appended
      {chain : List FhBucket}
      {fresh : Nat}
      {index : Fin bucketSize} :
      ChainFull chain →
      (∀ bucket ∈ chain, bucket.address ≠ fresh) →
      Filled slot chain (fresh, index)
        (chain ++ [(fhAllocateBucket fresh).setSlot index slot])

/-- The slot of the chain at the address is cleared. -/
inductive Emptied
    (slot : FhSlot) :
    List FhBucket → SlotAddress → List FhBucket → Prop where
  | kept
      {before after : List FhBucket}
      {bucket : FhBucket}
      {index : Fin bucketSize} :
      bucket.slot index = slot →
      (bucket.setSlot index .cleared).isEmpty = false →
      Emptied slot (before ++ bucket :: after) (bucket.address, index)
        (before ++ bucket.setSlot index .cleared :: after)
  | unlinked
      {before after : List FhBucket}
      {bucket : FhBucket}
      {index : Fin bucketSize} :
      bucket.slot index = slot →
      (bucket.setSlot index .cleared).isEmpty = true →
      Emptied slot (before ++ bucket :: after) (bucket.address, index)
        (before ++ after)

section Slots

variable
  {hashFunction : CString → UInt64}
  {belongs : FhKey → Prop}

/-- The mini hash of a key is not the value that marks a free slot. -/
theorem makeMinihash_ne_zero (hash : UInt64) :
    makeMinihash hash ≠ 0 := by
  simp only [makeMinihash]
  generalize (hash >>> 56).toUInt8 = top
  by_cases small : top < minMinihash
  · have bound : top.toNat < 5 := UInt8.lt_iff_toNat_lt.mp small
    have value : (top + minMinihash).toNat = (top.toNat + 5) % 256 :=
      UInt8.toNat_add top minMinihash
    rw [if_pos small]
    intro isZero
    rw [isZero, UInt8.toNat_zero] at value
    omega
  · rw [if_neg small]
    rintro rfl
    exact small (by decide)

@[simp] theorem cleared_entries :
    FhSlot.cleared.entries = [] :=
  rfl

@[simp] theorem usedSlot_entries
    (key : FhKey)
    (object : Option OpaqueObj) :
    (usedSlot hashFunction key object).entries = [(key.string, object)] := by
  simp [FhSlot.entries, usedSlot, makeMinihash_ne_zero]

@[simp] theorem setSlot_address
    (bucket : FhBucket)
    (index : Fin bucketSize)
    (slot : FhSlot) :
    (bucket.setSlot index slot).address = bucket.address :=
  rfl

@[simp] theorem fhAllocateBucket_address (address : Nat) :
    (fhAllocateBucket address).address = address :=
  rfl

@[simp] theorem setSlot_self
    (bucket : FhBucket)
    (index : Fin bucketSize)
    (slot : FhSlot) :
    (bucket.setSlot index slot).slot index = slot :=
  Function.update_self ..

@[simp] theorem setSlot_setSlot
    (bucket : FhBucket)
    (index : Fin bucketSize)
    (first second : FhSlot) :
    (bucket.setSlot index first).setSlot index second =
      bucket.setSlot index second := by
  simp [FhBucket.setSlot]

/-- Assigning one slot leaves the other slots of the bucket. -/
theorem setSlot_ne
    {bucket : FhBucket}
    {index other : Fin bucketSize}
    {slot : FhSlot}
    (different : other ≠ index) :
    (bucket.setSlot index slot).slot other = bucket.slot other :=
  Function.update_of_ne different ..

/-- Assigning a slot exchanges its entries in those of the bucket. -/
theorem setSlot_entries
    (bucket : FhBucket)
    (index : Fin bucketSize) :
    ∃ others,
      bucket.entries.Perm ((bucket.slot index).entries ++ others) ∧
        ∀ slot,
          (bucket.setSlot index slot).entries.Perm (slot.entries ++ others) :=
  gather_update FhSlot.entries (List.nodup_finRange bucketSize)
    (List.mem_finRange index) bucket.slot

/-- A fresh bucket has no entries. -/
theorem fhAllocateBucket_entries (address : Nat) :
    (fhAllocateBucket address).entries = [] :=
  gather_eq_nil fun _ _ => cleared_entries

/-- The first slot of a fresh bucket is its first free one. -/
theorem freeSlot_fhAllocateBucket (address : Nat) :
    freeSlot (fhAllocateBucket address) = some 0 :=
  rfl

/-- A free slot that is well formed is a cleared one. -/
theorem SlotOk.eq_cleared
    {slot : FhSlot}
    (wellFormed : SlotOk hashFunction belongs slot)
    (free : slot.miniHash = 0) :
    slot = .cleared := by
  cases wellFormed with
  | cleared =>
      rfl
  | used _ =>
      exact (makeMinihash_ne_zero _ free).elim

/-- A bucket with a used slot is not empty. -/
theorem isEmpty_eq_false
    {bucket : FhBucket}
    {index : Fin bucketSize}
    (used : (bucket.slot index).miniHash ≠ 0) :
    bucket.isEmpty = false := by
  rw [Bool.eq_false_iff]
  intro empty
  have allFree := List.all_eq_true.mp empty index (List.mem_finRange index)
  exact used (by simpa using allFree)

/-- A bucket that is empty has no entries. -/
theorem isEmpty_entries
    {bucket : FhBucket}
    (empty : bucket.isEmpty = true) :
    bucket.entries = [] := by
  apply gather_eq_nil
  intro index isIndex
  have free := List.all_eq_true.mp empty index isIndex
  have noHash : (bucket.slot index).miniHash = 0 := by simpa using free
  simp [FhSlot.entries, noHash]

/-- The slots of the buckets of a part of a chain are well formed. -/
theorem SlotsOk.of_subset
    {chain part : List FhBucket}
    (wellFormed : SlotsOk hashFunction belongs chain)
    (isPart : part ⊆ chain) :
    SlotsOk hashFunction belongs part :=
  fun bucket member => wellFormed bucket (isPart member)

end Slots

section Search

variable
  {hashFunction : CString → UInt64}
  {belongs : FhKey → Prop}

/-- The search in one bucket finds a slot of the key, or there is none. -/
theorem findInBucket_spec
    {bucket : FhBucket}
    (wellFormed : ∀ index, SlotOk hashFunction belongs (bucket.slot index))
    (key : CString)
    (indices : List (Fin bucketSize)) :
    (∃ index stored object,
        findInBucket bucket key (makeMinihash (hashFunction key)) indices =
            .ok (some index) ∧
          bucket.slot index = usedSlot hashFunction stored object ∧
          stored.string = key) ∨
      findInBucket bucket key (makeMinihash (hashFunction key)) indices =
          .ok none ∧
        ∀ index ∈ indices,
          ∀ object, (key, object) ∉ (bucket.slot index).entries := by
  induction indices with
  | nil =>
      right
      exact ⟨rfl, fun _ member => (List.not_mem_nil member).elim⟩
  | cons index rest inductionHypothesis =>
      generalize holds : bucket.slot index = slot
      have slotOk : SlotOk hashFunction belongs slot := holds ▸ wellFormed index
      cases slotOk with
      | cleared =>
          have differ : (0 : UInt8) ≠ makeMinihash (hashFunction key) :=
            (makeMinihash_ne_zero _).symm
          simp only [findInBucket, holds, FhSlot.cleared, differ, if_false,
            List.forall_mem_cons]
          rcases inductionHypothesis with found | ⟨missing, absent⟩
          · exact .inl found
          · exact .inr ⟨missing, by simp [FhSlot.entries], absent⟩
      | @used stored object isPlaced =>
          by_cases same : stored.string = key
          · left
            refine ⟨index, stored, object, ?_, holds, same⟩
            simp [findInBucket, holds, usedSlot, same, strcmp_eq_zero.mpr]
          · have differ : strcmp stored.string key ≠ 0 :=
              fun zero => same (strcmp_eq_zero.mp zero)
            have step :
                findInBucket bucket key (makeMinihash (hashFunction key))
                    (index :: rest) =
                  findInBucket bucket key (makeMinihash (hashFunction key))
                    rest := by
              simp [findInBucket, holds, usedSlot, differ]
            rw [step]
            rcases inductionHypothesis with found | ⟨missing, absent⟩
            · exact .inl found
            · refine .inr ⟨missing, ?_⟩
              rw [List.forall_mem_cons]
              refine ⟨?_, absent⟩
              intro value
              rw [holds, usedSlot_entries]
              simp [Ne.symm same]

/-- The search in a chain finds a slot of the key, or there is none. -/
theorem fhFindSlotInBucket_spec
    {chain : List FhBucket}
    (wellFormed : SlotsOk hashFunction belongs chain)
    (key : CString) :
    (∃ before bucket after index stored object,
        chain = before ++ bucket :: after ∧
          fhFindSlotInBucket key (makeMinihash (hashFunction key)) chain =
            .ok (some (bucket.address, index)) ∧
          bucket.slot index = usedSlot hashFunction stored object ∧
          stored.string = key) ∨
      fhFindSlotInBucket key (makeMinihash (hashFunction key)) chain =
          .ok none ∧
        ∀ object, (key, object) ∉ chainEntries chain := by
  induction chain with
  | nil =>
      right
      exact ⟨rfl, fun _ member => List.not_mem_nil member⟩
  | cons bucket rest inductionHypothesis =>
      have bucketOk := wellFormed bucket (by simp)
      have restOk := wellFormed.of_subset (List.subset_cons_self bucket rest)
      rcases findInBucket_spec bucketOk key (List.finRange bucketSize) with
          ⟨index, stored, object, finds, holds, same⟩ | ⟨missing, absent⟩
      · left
        refine ⟨[], bucket, rest, index, stored, object, rfl, ?_, holds, same⟩
        simp [fhFindSlotInBucket, finds]
      · have step :
            fhFindSlotInBucket key (makeMinihash (hashFunction key))
                (bucket :: rest) =
              fhFindSlotInBucket key (makeMinihash (hashFunction key))
                rest := by
          simp [fhFindSlotInBucket, missing]
        rw [step]
        rcases inductionHypothesis restOk with
            ⟨before, found, after, index, stored, object, split, finds,
              holds, same⟩ | ⟨missingRest, absentRest⟩
        · exact .inl ⟨bucket :: before, found, after, index, stored, object,
            by rw [split, List.cons_append], finds, holds, same⟩
        · refine .inr ⟨missingRest, ?_⟩
          intro object member
          rw [chainEntries, List.flatMap_cons, List.mem_append] at member
          rcases member with inBucket | inRest
          · obtain ⟨index, isIndex, isEntry⟩ := mem_gather.mp inBucket
            exact absent index isIndex object isEntry
          · exact absentRest object inRest

/-- The entry of a used slot of a chain. -/
theorem mem_chainEntries
    {chain before after : List FhBucket}
    {bucket : FhBucket}
    {index : Fin bucketSize}
    {stored : FhKey}
    {object : Option OpaqueObj}
    (split : chain = before ++ bucket :: after)
    (holds : bucket.slot index = usedSlot hashFunction stored object) :
    (stored.string, object) ∈ chainEntries chain := by
  apply List.mem_flatMap.mpr
  refine ⟨bucket, by simp [split], ?_⟩
  apply mem_gather.mpr
  refine ⟨index, List.mem_finRange index, ?_⟩
  rw [holds, usedSlot_entries, List.mem_singleton]

/-- The search for a key that has no entry in the chain fails. -/
theorem fhFindSlotInBucket_absent
    {chain : List FhBucket}
    (wellFormed : SlotsOk hashFunction belongs chain)
    {key : CString}
    (absent : ∀ object, (key, object) ∉ chainEntries chain) :
    fhFindSlotInBucket key (makeMinihash (hashFunction key)) chain =
      .ok none := by
  rcases fhFindSlotInBucket_spec wellFormed key with
      ⟨before, bucket, after, index, stored, object, split, -, holds, same⟩ |
        ⟨missing, -⟩
  · subst same
    exact (absent object (mem_chainEntries split holds)).elim
  · exact missing

/-- The search for a key that has an entry in the chain finds its slot. -/
theorem fhFindSlotInBucket_present
    {chain : List FhBucket}
    (wellFormed : SlotsOk hashFunction belongs chain)
    {key : CString}
    {entry : Option OpaqueObj}
    (present : (key, entry) ∈ chainEntries chain) :
    ∃ before bucket after index stored object,
      chain = before ++ bucket :: after ∧
        fhFindSlotInBucket key (makeMinihash (hashFunction key)) chain =
          .ok (some (bucket.address, index)) ∧
        bucket.slot index = usedSlot hashFunction stored object ∧
        stored.string = key := by
  rcases fhFindSlotInBucket_spec wellFormed key with found | ⟨-, absent⟩
  · exact found
  · exact (absent entry present).elim

end Search

section Pointers

variable
  {before after : List FhBucket}
  {bucket : FhBucket}

/-- The address of a bucket is not that of an earlier one. -/
theorem address_notMem
    (distinct : ((before ++ bucket :: after).map FhBucket.address).Nodup) :
    ∀ other ∈ before, other.address ≠ bucket.address := by
  intro other member same
  rw [List.map_append, List.map_cons, List.nodup_middle,
    List.nodup_cons] at distinct
  apply distinct.1
  rw [← same]
  exact List.mem_append_left _ (List.mem_map_of_mem member)

/-- The bucket at an address of a chain. -/
theorem bucketAt_middle
    (earlier : ∀ other ∈ before, other.address ≠ bucket.address) :
    bucketAt bucket.address (before ++ bucket :: after) = some bucket := by
  have skipped :
      before.find? (fun other => other.address = bucket.address) = none := by
    rw [List.find?_eq_none]
    intro other member
    simpa using earlier other member
  simp [bucketAt, skipped]

/-- Assigning through a pointer to a slot of a chain. -/
theorem writeSlot_middle
    (earlier : ∀ other ∈ before, other.address ≠ bucket.address)
    (index : Fin bucketSize)
    (slot : FhSlot) :
    writeSlot (bucket.address, index) slot (before ++ bucket :: after) =
      before ++ bucket.setSlot index slot :: after := by
  induction before with
  | nil =>
      simp [writeSlot]
  | cons other rest inductionHypothesis =>
      rw [List.forall_mem_cons] at earlier
      obtain ⟨notThis, restEarlier⟩ := earlier
      simp [writeSlot, notThis, inductionHypothesis restEarlier]

/-- Unlinking a bucket of a chain. -/
theorem unlinkBucket_middle
    (earlier : ∀ other ∈ before, other.address ≠ bucket.address) :
    unlinkBucket bucket.address (before ++ bucket :: after) =
      .ok (before ++ after) := by
  induction before with
  | nil =>
      simp [unlinkBucket]
  | cons other rest inductionHypothesis =>
      rw [List.forall_mem_cons] at earlier
      obtain ⟨notThis, restEarlier⟩ := earlier
      simp [unlinkBucket, notThis, inductionHypothesis restEarlier]

end Pointers

section Claims

variable {bucket : FhBucket}
  (miniHash : UInt8)
  (fresh : Option Nat)

/-- A free slot of the first bucket is claimed. -/
theorem claim_hole
    {index : Fin bucketSize}
    (isFree : freeSlot bucket = some index)
    (rest : List FhBucket) :
    fhReturnEmptySlotInBucket miniHash fresh (bucket :: rest) =
      (bucket.setMiniHash index miniHash :: rest,
        some (bucket.address, index)) := by
  simp [fhReturnEmptySlotInBucket, isFree]

/-- A slot of a bucket appended to a full one is claimed. -/
theorem claim_appended
    (isFull : freeSlot bucket = none)
    (address : Nat) :
    fhReturnEmptySlotInBucket miniHash (some address) [bucket] =
      ([bucket, (fhAllocateBucket address).setMiniHash 0 miniHash],
        some (address, 0)) := by
  simp [fhReturnEmptySlotInBucket, isFull, freeSlot_fhAllocateBucket]

/-- No slot is claimed when no bucket can be appended. -/
theorem claim_refused
    (isFull : freeSlot bucket = none) :
    fhReturnEmptySlotInBucket miniHash none [bucket] = ([bucket], none) := by
  simp [fhReturnEmptySlotInBucket, isFull]

/-- When the first bucket is full, a slot is claimed in the others. -/
theorem claim_next
    (isFull : freeSlot bucket = none)
    (next : FhBucket)
    (others : List FhBucket) :
    fhReturnEmptySlotInBucket miniHash fresh (bucket :: next :: others) =
      (bucket ::
          (fhReturnEmptySlotInBucket miniHash fresh (next :: others)).1,
        (fhReturnEmptySlotInBucket miniHash fresh (next :: others)).2) := by
  rw [fhReturnEmptySlotInBucket.eq_def]
  simp [isFull]

end Claims

/--
Claiming a slot: the first free one of the chain, or the first slot of a bucket
appended to a full chain, or none when there is no memory for that bucket.
-/
theorem fhReturnEmptySlotInBucket_spec
    (miniHash : UInt8)
    (fresh : Option Nat)
    {chain : List FhBucket}
    (nonempty : chain ≠ []) :
    (∃ before bucket after index,
        chain = before ++ bucket :: after ∧
          (bucket.slot index).miniHash = 0 ∧
          fhReturnEmptySlotInBucket miniHash fresh chain =
            (before ++ bucket.setMiniHash index miniHash :: after,
              some (bucket.address, index))) ∨
      (ChainFull chain ∧
        match fresh with
        | some address =>
            fhReturnEmptySlotInBucket miniHash fresh chain =
              (chain ++ [(fhAllocateBucket address).setMiniHash 0 miniHash],
                some (address, 0))
        | none =>
            fhReturnEmptySlotInBucket miniHash fresh chain = (chain, none)) := by
  induction chain with
  | nil =>
      exact (nonempty rfl).elim
  | cons bucket rest inductionHypothesis =>
      cases isFree : freeSlot bucket with
      | some index =>
          left
          refine ⟨[], bucket, rest, index, rfl, ?_,
            claim_hole miniHash fresh isFree rest⟩
          have satisfies := List.find?_some isFree
          simpa using satisfies
      | none =>
          cases rest with
          | nil =>
              right
              refine ⟨by simpa [ChainFull] using isFree, ?_⟩
              cases fresh with
              | none =>
                  exact claim_refused miniHash isFree
              | some address =>
                  exact claim_appended miniHash isFree address
          | cons next others =>
              rw [claim_next miniHash fresh isFree]
              rcases inductionHypothesis (by simp) with
                  ⟨before, found, after, index, split, free, claims⟩ |
                    ⟨full, claims⟩
              · left
                exact ⟨bucket :: before, found, after, index,
                  by rw [split, List.cons_append], free, by rw [claims]; rfl⟩
              · right
                refine ⟨List.forall_mem_cons.mpr ⟨isFree, full⟩, ?_⟩
                cases fresh with
                | none =>
                    simp only at claims
                    simp [claims]
                | some address =>
                    simp only at claims
                    simp [claims]

section Effects

variable
  {hashFunction : CString → UInt64}
  {belongs : FhKey → Prop}
  {slot : FhSlot}
  {chain next : List FhBucket}
  {address : SlotAddress}

/-- The entries of a chain, those of one bucket set apart. -/
theorem chainEntries_middle
    (before after : List FhBucket)
    (bucket : FhBucket) :
    (chainEntries (before ++ bucket :: after)).Perm
      (bucket.entries ++ chainEntries (before ++ after)) := by
  simp only [chainEntries, List.flatMap_append, List.flatMap_cons]
  rw [← List.append_assoc, ← List.append_assoc]
  exact List.perm_append_comm.append_right _

/-- Filling a slot adds its entries. -/
theorem Filled.entries
    (filled : Filled slot chain address next) :
    (chainEntries next).Perm (slot.entries ++ chainEntries chain) := by
  cases filled with
  | @hole before after bucket index isCleared =>
      obtain ⟨others, whole, replaced⟩ := setSlot_entries bucket index
      rw [isCleared, cleared_entries, List.nil_append] at whole
      calc
        (chainEntries (before ++ bucket.setSlot index slot :: after)).Perm
            ((bucket.setSlot index slot).entries ++
              chainEntries (before ++ after)) :=
          chainEntries_middle ..
        List.Perm _ (slot.entries ++ others ++ chainEntries (before ++ after)) :=
          (replaced slot).append_right _
        List.Perm _
            (slot.entries ++ (bucket.entries ++
              chainEntries (before ++ after))) := by
          rw [List.append_assoc]
          exact (whole.symm.append_right _).append_left _
        List.Perm _
            (slot.entries ++ chainEntries (before ++ bucket :: after)) :=
          (chainEntries_middle ..).symm.append_left _
  | @appended chain fresh index full isFresh =>
      obtain ⟨others, whole, replaced⟩ :=
        setSlot_entries (fhAllocateBucket fresh) index
      have noOthers : others = [] := by
        rw [fhAllocateBucket_entries] at whole
        exact List.append_eq_nil_iff.mp whole.nil_eq.symm |>.2
      rw [noOthers] at replaced
      simp only [chainEntries, List.flatMap_append, List.flatMap_singleton]
      have added := replaced slot
      rw [List.append_nil] at added
      exact (added.append_left _).trans List.perm_append_comm

/-- Clearing a slot takes its entries out. -/
theorem Emptied.entries
    (emptied : Emptied slot chain address next) :
    (chainEntries chain).Perm (slot.entries ++ chainEntries next) := by
  cases emptied with
  | @kept before after bucket index holds _ =>
      obtain ⟨others, whole, replaced⟩ := setSlot_entries bucket index
      rw [holds] at whole
      have cleared := replaced .cleared
      rw [cleared_entries, List.nil_append] at cleared
      calc
        (chainEntries (before ++ bucket :: after)).Perm
            (bucket.entries ++ chainEntries (before ++ after)) :=
          chainEntries_middle ..
        List.Perm _ (slot.entries ++ others ++ chainEntries (before ++ after)) :=
          whole.append_right _
        List.Perm _
            (slot.entries ++ ((bucket.setSlot index .cleared).entries ++
              chainEntries (before ++ after))) := by
          rw [List.append_assoc]
          exact (cleared.symm.append_right _).append_left _
        List.Perm _
            (slot.entries ++
              chainEntries
                (before ++ bucket.setSlot index .cleared :: after)) :=
          (chainEntries_middle ..).symm.append_left _
  | @unlinked before after bucket index holds empty =>
      obtain ⟨others, whole, replaced⟩ := setSlot_entries bucket index
      rw [holds] at whole
      have cleared := replaced .cleared
      rw [isEmpty_entries empty, cleared_entries, List.nil_append] at cleared
      rw [← cleared.nil_eq, List.append_nil] at whole
      exact (chainEntries_middle ..).trans (whole.append_right _)

/-- Filling a slot with a well formed one keeps the slots well formed. -/
theorem Filled.slotsOk
    (filled : Filled slot chain address next)
    (wellFormed : SlotsOk hashFunction belongs chain)
    (slotOk : SlotOk hashFunction belongs slot) :
    SlotsOk hashFunction belongs next := by
  cases filled with
  | @hole before after bucket index isCleared =>
      intro other member position
      rcases List.mem_append.mp member with inBefore | inRest
      · exact wellFormed other (by simp [inBefore]) position
      · rcases List.mem_cons.mp inRest with isBucket | inAfter
        · subst isBucket
          by_cases same : position = index
          · subst same
            rwa [setSlot_self]
          · rw [setSlot_ne same]
            exact wellFormed bucket (by simp) position
        · exact wellFormed other (by simp [inAfter]) position
  | @appended chain fresh index full isFresh =>
      intro other member position
      rcases List.mem_append.mp member with inChain | isLast
      · exact wellFormed other inChain position
      · rw [List.mem_singleton.mp isLast]
        by_cases same : position = index
        · subst same
          rwa [setSlot_self]
        · rw [setSlot_ne same]
          exact .cleared

/-- Clearing a slot keeps the slots well formed. -/
theorem Emptied.slotsOk
    (emptied : Emptied slot chain address next)
    (wellFormed : SlotsOk hashFunction belongs chain) :
    SlotsOk hashFunction belongs next := by
  cases emptied with
  | @kept before after bucket index holds _ =>
      intro other member position
      rcases List.mem_append.mp member with inBefore | inRest
      · exact wellFormed other (by simp [inBefore]) position
      · rcases List.mem_cons.mp inRest with isBucket | inAfter
        · subst isBucket
          by_cases same : position = index
          · subst same
            rw [setSlot_self]
            exact .cleared
          · rw [setSlot_ne same]
            exact wellFormed bucket (by simp) position
        · exact wellFormed other (by simp [inAfter]) position
  | @unlinked before after bucket index holds _ =>
      apply wellFormed.of_subset
      intro other member
      rcases List.mem_append.mp member with inBefore | inAfter
      · simp [inBefore]
      · simp [inAfter]

/-- Filling a slot leaves no bucket empty. -/
theorem Filled.noneEmpty
    (filled : Filled slot chain address next)
    (used : slot.miniHash ≠ 0)
    (noneEmpty : ∀ bucket ∈ chain, bucket.isEmpty = false) :
    ∀ bucket ∈ next, bucket.isEmpty = false := by
  cases filled with
  | @hole before after bucket index isCleared =>
      intro other member
      rcases List.mem_append.mp member with inBefore | inRest
      · exact noneEmpty other (by simp [inBefore])
      · rcases List.mem_cons.mp inRest with isBucket | inAfter
        · subst isBucket
          exact isEmpty_eq_false (by rwa [setSlot_self])
        · exact noneEmpty other (by simp [inAfter])
  | @appended chain fresh index full isFresh =>
      intro other member
      rcases List.mem_append.mp member with inChain | isLast
      · exact noneEmpty other inChain
      · rw [List.mem_singleton.mp isLast]
        exact isEmpty_eq_false (by rwa [setSlot_self])

/-- Clearing a slot leaves no bucket empty. -/
theorem Emptied.noneEmpty
    (emptied : Emptied slot chain address next)
    (noneEmpty : ∀ bucket ∈ chain, bucket.isEmpty = false) :
    ∀ bucket ∈ next, bucket.isEmpty = false := by
  cases emptied with
  | @kept before after bucket index holds occupied =>
      intro other member
      rcases List.mem_append.mp member with inBefore | inRest
      · exact noneEmpty other (by simp [inBefore])
      · rcases List.mem_cons.mp inRest with isBucket | inAfter
        · rw [isBucket]
          exact occupied
        · exact noneEmpty other (by simp [inAfter])
  | @unlinked before after bucket index holds _ =>
      intro other member
      rcases List.mem_append.mp member with inBefore | inAfter
      · exact noneEmpty other (by simp [inBefore])
      · exact noneEmpty other (by simp [inAfter])

/-- Filling a slot keeps the addresses of the buckets distinct. -/
theorem Filled.distinct
    (filled : Filled slot chain address next)
    (distinct : (chain.map FhBucket.address).Nodup) :
    (next.map FhBucket.address).Nodup := by
  cases filled with
  | hole isCleared =>
      simpa using distinct
  | @appended chain fresh index full isFresh =>
      rw [List.map_append, List.nodup_append]
      refine ⟨distinct, by simp, ?_⟩
      intro other member last isLast same
      obtain ⟨bucket, inChain, isOther⟩ := List.mem_map.mp member
      apply isFresh bucket inChain
      simpa [isOther, same] using isLast

/-- The buckets after a slot was filled are those before and that of the slot. -/
theorem Filled.address_mem
    (filled : Filled slot chain address next)
    {bucket : FhBucket}
    (member : bucket ∈ next) :
    bucket.address ∈ chain.map FhBucket.address ∨
      bucket.address = address.1 := by
  have isAddress := List.mem_map_of_mem (f := FhBucket.address) member
  cases filled with
  | hole isCleared =>
      left
      simpa using isAddress
  | appended full isFresh =>
      simpa using isAddress

/-- The slot that was filled is found under its address. -/
theorem Filled.bucketAt
    (filled : Filled slot chain address next)
    (distinct : (chain.map FhBucket.address).Nodup) :
    ∃ bucket,
      bucketAt address.1 next = some bucket ∧
        bucket.slot address.2 = slot := by
  cases filled with
  | @hole before after bucket index isCleared =>
      have earlier := address_notMem distinct
      rw [← setSlot_address bucket index slot] at earlier ⊢
      exact ⟨_, bucketAt_middle earlier, setSlot_self ..⟩
  | @appended chain fresh index full isFresh =>
      rw [← fhAllocateBucket_address fresh,
        ← setSlot_address (fhAllocateBucket fresh) index slot] at isFresh
      refine ⟨_, bucketAt_middle isFresh, setSlot_self ..⟩

/-- The addresses of a chain after a slot was cleared. -/
theorem Emptied.addresses
    (emptied : Emptied slot chain address next) :
    (next.map FhBucket.address).Sublist (chain.map FhBucket.address) := by
  cases emptied with
  | kept _ _ =>
      simp
  | unlinked _ _ =>
      simp

end Effects

end Clibs.Fh
