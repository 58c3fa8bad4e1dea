import Clibs.Foundation.Holdings
import Clibs.Fh.Representation
import Clibs.Fh.Slots

namespace Clibs.Fh

/-!
# The memory of a hash table

The calls of `malloc`, `calloc`, `strdup` and `free` in `fh.c`, beside the model
of what the functions compute.  Each block of memory is held by one place: a
field of `fh_t`, the pointer to a bucket, a field of a slot, or a field of the
enumerator that `fh_clean` works with.  The outcome of each request for memory
is that of the call.

The locked sections are treated on their own here: whatever is refused, each of
them leaves in memory what the chains point to.
-/

/-- What a block of memory contains; a block of no other use is a `block`. -/
inductive FhCell where
  | block
  | key (string : CString)
  | opaqueObj (bytes : List UInt8)
  deriving Repr, DecidableEq

/-- The pointers that a chain is made of. -/
inductive ChainPlace where
  | bucket (address : Nat)
  | key (slot : SlotAddress)
  | opaqueObj (slot : SlotAddress)
  deriving Repr, DecidableEq

/-- The pointers to blocks that `fh.c` allocates. -/
inductive MemoryPlace where
  | hashTable
  | handle
  | hLock
  | rwLock
  | enumHandle
  | elemList
  | chain (index : Nat) (place : ChainPlace)
  deriving Repr, DecidableEq

/-- The memory that `fh.c` allocated, with the pointers to it. -/
abbrev FhMemory :=
  Holdings MemoryPlace FhCell

section Effects

/-- The requests and releases of `fh_create`. -/
def createMemory
    (dim : Int32)
    (grants : CreateGrants) : Checked FhMemory := do
  let realDim := (← fhHashSize dim.toUInt32).toInt32.toInt
  if realDim < 0 ∨ grants.hash = false then
    .ok .empty
  else
    let memory := Holdings.empty.acquire .hashTable .block
    if grants.handle = false then
      memory.release .hashTable
    else
      let memory := memory.acquire .handle .block
      if grants.lockPool = false then do
        let memory ← memory.release .hashTable
        memory.release .handle
      else
        .ok (memory.acquire .hLock .block)

/-- The requests and releases of `fh_setattr`. -/
def setattrMemory
    (fh : FhT)
    (attr : SetAttr)
    (value : Int)
    (granted : Bool)
    (memory : FhMemory) : Checked FhMemory :=
  if fh.hMagic ≠ fhMagicId then
    .ok memory
  else
    match attr with
    | .userwlocks =>
        if value = 0 then
          .ok memory
        else if
            fh.locks.rwLock.isSome ∨
              fh.table.hAttr &&& fhSetattrUserwlocks ≠ 0 then
          .ok memory
        else if granted = false then
          .ok memory
        else
          (memory.acquire .rwLock .block).release .hLock
    | _ =>
        .ok memory

/-- The first bucket of a chain that has none. -/
def headMemory
    (table : FhTable)
    (index : Nat)
    (granted : Bool)
    (memory : FhMemory) : FhMemory :=
  match table.hashTable index with
  | [] =>
      if granted then
        memory.acquire (.chain index (.bucket table.nextBucket)) .block
      else
        memory
  | _ :: _ =>
      memory

/-- The bucket that `_fh_return_empty_slot_in_bucket` adds to a full chain. -/
def claimMemory
    (table : FhTable)
    (index : Nat)
    (granted : Bool)
    (memory : FhMemory) : FhMemory :=
  match table.hashTable index with
  | [] =>
      memory
  | first :: rest =>
      if granted ∧ ∀ bucket ∈ first :: rest, freeSlot bucket = none then
        memory.acquire (.chain index (.bucket table.nextBucket)) .block
      else
        memory

/-- The copies of the key and of the object in the slot that was found. -/
def fillMemory
    (table : FhTable)
    (index : Nat)
    (address : SlotAddress)
    (key : CString)
    (block : Option Block)
    (grants : InsertGrants)
    (memory : FhMemory) : FhMemory :=
  match table.slotKey key grants.key with
  | none =>
      memory
  | some stored =>
      let memory :=
        if stored.copied then
          memory.acquire (.chain index (.key address)) (.key stored.string)
        else
          memory
      match block with
      | none =>
          memory
      | some block =>
          match newOpaqueObj table.hDatalen block grants.opaqueObj with
          | .ok (some (.copy bytes)) =>
              memory.acquire (.chain index (.opaqueObj address))
                (.opaqueObj bytes)
          | _ =>
              memory

/-- The requests of `fh_insert` and `fh_insertlock` while they hold the lock. -/
def insertMemory
    (table : FhTable)
    (key : CString)
    (block : Option Block)
    (grants : InsertGrants)
    (memory : FhMemory) : FhMemory :=
  let hash := table.hashFunction key
  let miniHash := makeMinihash hash
  let hashindex := table.hashindex hash
  let headed := headMemory table hashindex grants.bucket memory
  match headBucket table hashindex grants.bucket with
  | (_, false) =>
      headed
  | (table, true) =>
      match fhFindSlotInBucket key miniHash (table.hashTable hashindex) with
      | .ok none =>
          let claimed := claimMemory table hashindex grants.bucket headed
          match claimSlot table hashindex miniHash grants.bucket with
          | (_, none) =>
              claimed
          | (table, some address) =>
              fillMemory table hashindex address key block grants claimed
      | _ =>
          headed

/-- The object of a slot that is deleted. -/
def releaseObject
    (table : FhTable)
    (index : Nat)
    (address : SlotAddress)
    (memory : FhMemory) : Checked FhMemory :=
  if
      (table.slotAt index address).opaqueObj.isSome ∧
        table.hDatalen ≠ fhDatalenVoidp then
    memory.release (.chain index (.opaqueObj address))
  else
    .ok memory

/-- The key of a slot that is deleted. -/
def releaseKey
    (table : FhTable)
    (index : Nat)
    (address : SlotAddress)
    (memory : FhMemory) : Checked FhMemory :=
  if table.dontcopykey then
    .ok memory
  else
    memory.release (.chain index (.key address))

/-- The bucket that `_deallocate_bucket_if_empty` takes out of a chain. -/
def releaseBucket
    (candidate : FhBucket)
    (index : Nat)
    (memory : FhMemory) : Checked FhMemory :=
  if candidate.isEmpty then
    memory.release (.chain index (.bucket candidate.address))
  else
    .ok memory

/-- The releases of `_fh_del`, in its order. -/
def delUnlockedMemory
    (table : FhTable)
    (key : CString)
    (hashIndex : Nat)
    (miniHash : UInt8)
    (memory : FhMemory) : Checked FhMemory := do
  match ← fhFindSlotInBucket key miniHash (table.hashTable hashIndex) with
  | none =>
      .ok memory
  | some address =>
      let memory ← releaseObject table hashIndex address memory
      let memory ← releaseKey table hashIndex address memory
      let table := table.setSlot hashIndex address .cleared
      match bucketAt address.1 (table.hashTable hashIndex) with
      | none =>
          .error .nullDereference
      | some candidate =>
          releaseBucket candidate hashIndex memory

end Effects

/-- The object of a slot is a copy that the table allocated. -/
def OpaqueObj.isCopy : OpaqueObj → Bool
  | .pointer _ =>
      false
  | .copy _ =>
      true

/-- The block that the key of a slot points to, if the table allocated it. -/
def FhSlot.keyCell (slot : FhSlot) : Option FhCell :=
  match slot.key with
  | none =>
      none
  | some key =>
      if key.copied then
        some (.key key.string)
      else
        none

/-- The block that the object of a slot points to, if the table allocated it. -/
def FhSlot.objectCell (slot : FhSlot) : Option FhCell :=
  match slot.opaqueObj with
  | some (.copy bytes) =>
      some (.opaqueObj bytes)
  | _ =>
      none

/-- The slot of a chain at an address. -/
def chainSlot
    (chain : List FhBucket)
    (address : SlotAddress) : FhSlot :=
  match bucketAt address.1 chain with
  | none =>
      .cleared
  | some bucket =>
      bucket.slot address.2

/-- The blocks that the pointers of a chain lead to. -/
def chainCells
    (chain : List FhBucket) : ChainPlace → Option FhCell
  | .bucket address =>
      (bucketAt address chain).map fun _ => .block
  | .key address =>
      (chainSlot chain address).keyCell
  | .opaqueObj address =>
      (chainSlot chain address).objectCell

/-- The blocks that the pointers of a table lead to, beside some others. -/
def FhTable.cells
    (table : FhTable)
    (others : MemoryPlace → Option FhCell) : MemoryPlace → Option FhCell
  | .chain index place =>
      chainCells (table.hashTable index) place
  | place =>
      others place

/-- The blocks that belong to a handle with its lock pools. -/
def FhLocks.cells (locks : FhLocks) : MemoryPlace → Option FhCell
  | .hashTable | .handle =>
      some .block
  | .hLock =>
      locks.hLock.map fun _ => .block
  | .rwLock =>
      locks.rwLock.map fun _ => .block
  | _ =>
      none

/-- The blocks that the pointers of a handle lead to. -/
def FhT.cells (fh : FhT) : MemoryPlace → Option FhCell :=
  fh.table.cells fh.locks.cells

/--
What the slots of a table look like after any calls: a slot without a mini hash
is cleared, and keys and objects are copies or not as the table is set.
-/
structure FhSlot.Shaped
    (dontcopykey : Bool)
    (datalen : Int)
    (slot : FhSlot) : Prop where
  cleared : slot.miniHash = 0 → slot = .cleared
  key : ∀ key, slot.key = some key → key.copied = !dontcopykey
  object :
    ∀ object,
      slot.opaqueObj = some object →
      (object.isCopy = true ↔ datalen ≠ fhDatalenVoidp)

/-- The slots of a chain are shaped and its buckets have addresses of their own. -/
structure ChainShaped
    (dontcopykey : Bool)
    (datalen : Int)
    (nextBucket : Nat)
    (chain : List FhBucket) : Prop where
  slots :
    ∀ bucket ∈ chain,
      ∀ index, (bucket.slot index).Shaped dontcopykey datalen
  distinct : (chain.map FhBucket.address).Nodup
  below : ∀ bucket ∈ chain, bucket.address < nextBucket

/-- The chains of a table are shaped. -/
def FhTable.Shaped (table : FhTable) : Prop :=
  ∀ index,
    ChainShaped table.dontcopykey table.hDatalen table.nextBucket
      (table.hashTable index)

section Chains

variable {chain : List FhBucket} {slot : FhSlot} {address : SlotAddress}
  {dontcopykey : Bool} {datalen : Int} {nextBucket : Nat}

@[simp] theorem keyCell_cleared :
    FhSlot.cleared.keyCell = none :=
  rfl

@[simp] theorem objectCell_cleared :
    FhSlot.cleared.objectCell = none :=
  rfl

/-- The buckets of a chain of which a slot was assigned. -/
theorem bucketAt_writeSlot
    (address : SlotAddress)
    (slot : FhSlot)
    (chain : List FhBucket)
    (other : Nat) :
    bucketAt other (writeSlot address slot chain) =
      if other = address.1 then
        (bucketAt other chain).map fun bucket => bucket.setSlot address.2 slot
      else
        bucketAt other chain := by
  induction chain with
  | nil =>
      simp [bucketAt, writeSlot]
  | cons bucket rest inductionHypothesis =>
      simp only [bucketAt] at inductionHypothesis ⊢
      rw [writeSlot]
      by_cases isHere : bucket.address = address.1
      · by_cases isOther : other = address.1
        · simp [isHere, isOther]
        · simp [isHere, isOther, Ne.symm isOther]
      · rw [if_neg isHere]
        by_cases isOther : bucket.address = other
        · have differs : other ≠ address.1 := by
            rintro rfl
            exact isHere isOther
          simp [isOther, differs]
        · simp only [List.find?_cons, isOther, decide_false]
          exact inductionHypothesis

/-- The slots of a chain of which one was assigned. -/
theorem chainSlot_writeSlot
    (isBucket : bucketAt address.1 chain ≠ none)
    (slot : FhSlot)
    (other : SlotAddress) :
    chainSlot (writeSlot address slot chain) other =
      if other = address then slot else chainSlot chain other := by
  obtain ⟨bucket, found⟩ := Option.ne_none_iff_exists'.mp isBucket
  simp only [chainSlot, bucketAt_writeSlot]
  by_cases sameBucket : other.1 = address.1
  · by_cases sameIndex : other.2 = address.2
    · have same : other = address := Prod.ext sameBucket sameIndex
      simp [same, found]
    · have differs : other ≠ address := by
        rintro rfl
        exact sameIndex rfl
      simp [sameBucket, found, differs, setSlot_ne sameIndex]
  · have differs : other ≠ address := by
      rintro rfl
      exact sameBucket rfl
    simp [sameBucket, differs]

/-- What a chain points to when a slot was assigned. -/
theorem chainCells_writeSlot
    (isBucket : bucketAt address.1 chain ≠ none)
    (slot : FhSlot) :
    chainCells (writeSlot address slot chain) =
      Function.update
        (Function.update (chainCells chain) (.key address) slot.keyCell)
        (.opaqueObj address) slot.objectCell := by
  funext place
  cases place with
  | bucket other =>
      simp only [chainCells, bucketAt_writeSlot]
      rw [Function.update_of_ne (by simp), Function.update_of_ne (by simp)]
      split
      · rw [Option.map_map]
        rfl
      · rfl
  | key other =>
      rw [Function.update_of_ne (by simp)]
      simp only [chainCells, chainSlot_writeSlot isBucket]
      by_cases same : other = address
      · simp [same]
      · rw [if_neg same, Function.update_of_ne (by simpa using same)]
        rfl
  | opaqueObj other =>
      simp only [chainCells, chainSlot_writeSlot isBucket]
      by_cases same : other = address
      · simp [same]
      · rw [if_neg same, Function.update_of_ne (by simpa using same),
          Function.update_of_ne (by simp)]
        rfl

/-- A slot that points to nothing may be assigned one that does not either. -/
theorem chainCells_writeSlot_same
    (isBucket : bucketAt address.1 chain ≠ none)
    (sameKey : slot.keyCell = (chainSlot chain address).keyCell)
    (sameObject : slot.objectCell = (chainSlot chain address).objectCell) :
    chainCells (writeSlot address slot chain) = chainCells chain := by
  rw [chainCells_writeSlot isBucket, sameKey, sameObject]
  have keyCell :
      (chainSlot chain address).keyCell = chainCells chain (.key address) :=
    rfl
  have objectCell :
      (chainSlot chain address).objectCell =
        chainCells chain (.opaqueObj address) :=
    rfl
  rw [keyCell, Function.update_eq_self, objectCell, Function.update_eq_self]

/-- A bucket of the chain is found under its address. -/
theorem bucketAt_mem
    {bucket : FhBucket}
    (distinct : (chain.map FhBucket.address).Nodup)
    (member : bucket ∈ chain) :
    bucketAt bucket.address chain = some bucket := by
  obtain ⟨before, after, rfl⟩ := List.append_of_mem member
  exact bucketAt_middle (address_notMem distinct)

/-- The buckets of a chain to which a new one was appended. -/
theorem bucketAt_append
    {bucket : FhBucket}
    (isFresh : ∀ other ∈ chain, other.address ≠ bucket.address)
    (other : Nat) :
    bucketAt other (chain ++ [bucket]) =
      if other = bucket.address then some bucket else bucketAt other chain := by
  by_cases same : other = bucket.address
  · rw [if_pos same, same]
    exact bucketAt_middle isFresh
  · rw [if_neg same]
    simp [bucketAt, Ne.symm same]

/-- No bucket of the chain has an address that is not used yet. -/
theorem bucketAt_fresh
    {fresh : Nat}
    (isFresh : ∀ other ∈ chain, other.address ≠ fresh) :
    bucketAt fresh chain = none := by
  rw [bucketAt, List.find?_eq_none]
  intro other member
  simpa using isFresh other member

/-- What a chain points to when an empty bucket was appended. -/
theorem chainCells_append
    {fresh : Nat}
    (isFresh : ∀ other ∈ chain, other.address ≠ fresh) :
    chainCells (chain ++ [fhAllocateBucket fresh]) =
      Function.update (chainCells chain) (.bucket fresh) (some .block) := by
  have buckets :
      ∀ other,
        bucketAt other (chain ++ [fhAllocateBucket fresh]) =
          if other = fresh then
            some (fhAllocateBucket fresh)
          else
            bucketAt other chain :=
    fun other => bucketAt_append isFresh other
  have slots :
      ∀ other,
        chainSlot (chain ++ [fhAllocateBucket fresh]) other =
          chainSlot chain other := by
    intro other
    simp only [chainSlot, buckets]
    by_cases same : other.1 = fresh
    · simp [same, bucketAt_fresh isFresh, fhAllocateBucket]
    · simp [same]
  funext place
  cases place with
  | bucket other =>
      simp only [chainCells, buckets]
      by_cases same : other = fresh
      · simp [same]
      · rw [if_neg same, Function.update_of_ne (by simpa using same)]
        rfl
  | key other | opaqueObj other =>
      rw [Function.update_of_ne (by simp)]
      simp only [chainCells, slots]

/-- What a chain points to when a bucket with cleared slots was taken out. -/
theorem chainCells_unlink
    {before after : List FhBucket}
    {bucket : FhBucket}
    (distinct :
      ((before ++ bucket :: after).map FhBucket.address).Nodup)
    (cleared : ∀ index, bucket.slot index = .cleared) :
    chainCells (before ++ after) =
      Function.update (chainCells (before ++ bucket :: after))
        (.bucket bucket.address) none := by
  have gone : ∀ other ∈ before ++ after, other.address ≠ bucket.address := by
    have moved := distinct
    rw [List.map_append, List.map_cons, List.nodup_middle,
      List.nodup_cons] at moved
    intro other member same
    apply moved.1
    rw [← same, ← List.map_append]
    exact List.mem_map_of_mem member
  have buckets :
      ∀ other,
        bucketAt other (before ++ bucket :: after) =
          if other = bucket.address then
            some bucket
          else
            bucketAt other (before ++ after) := by
    intro other
    by_cases same : other = bucket.address
    · rw [if_pos same, same]
      exact bucketAt_middle (address_notMem distinct)
    · rw [if_neg same]
      simp [bucketAt, List.find?_append, Ne.symm same]
  have slots :
      ∀ other,
        chainSlot (before ++ bucket :: after) other =
          chainSlot (before ++ after) other := by
    intro other
    simp only [chainSlot, buckets]
    by_cases same : other.1 = bucket.address
    · simp [same, bucketAt_fresh gone, cleared]
    · simp [same]
  funext place
  cases place with
  | bucket other =>
      by_cases same : other = bucket.address
      · rw [same, Function.update_self]
        simp [chainCells, bucketAt_fresh gone]
      · rw [Function.update_of_ne (by simpa using same)]
        simp only [chainCells, buckets, if_neg same]
  | key other | opaqueObj other =>
      rw [Function.update_of_ne (by simp)]
      simp only [chainCells, slots]

/-- A cleared slot is shaped, also when it is claimed for a mini hash. -/
theorem shaped_claimed
    {miniHash : UInt8}
    (used : miniHash ≠ 0) :
    FhSlot.Shaped dontcopykey datalen
      { FhSlot.cleared with
        miniHash := miniHash } where
  cleared isZero :=
    (used isZero).elim
  key _ isKey :=
    (Option.some_ne_none _ isKey.symm).elim
  object _ isObject :=
    (Option.some_ne_none _ isObject.symm).elim

theorem shaped_cleared :
    FhSlot.cleared.Shaped dontcopykey datalen where
  cleared _ :=
    rfl
  key _ isKey :=
    (Option.some_ne_none _ isKey.symm).elim
  object _ isObject :=
    (Option.some_ne_none _ isObject.symm).elim

/-- The buckets of a chain of which a slot was assigned are those it had. -/
theorem mem_writeSlot
    {bucket : FhBucket}
    (member : bucket ∈ writeSlot address slot chain) :
    ∃ old ∈ chain,
      bucket.address = old.address ∧
        ∀ index,
          bucket.slot index = old.slot index ∨ bucket.slot index = slot := by
  induction chain with
  | nil =>
      cases member
  | cons first rest inductionHypothesis =>
      rw [writeSlot] at member
      split at member
      · rcases List.mem_cons.mp member with isFirst | inRest
        · refine ⟨first, List.mem_cons_self, by rw [isFirst]; rfl, ?_⟩
          intro index
          by_cases same : index = address.2
          · right
            rw [isFirst, same, setSlot_self]
          · left
            rw [isFirst, setSlot_ne same]
        · exact ⟨bucket, List.mem_cons_of_mem _ inRest, rfl,
            fun _ => .inl rfl⟩
      · rcases List.mem_cons.mp member with isFirst | inRest
        · exact ⟨first, List.mem_cons_self, by rw [isFirst],
            fun _ => .inl (by rw [isFirst])⟩
        · obtain ⟨old, inOld, same, slots⟩ := inductionHypothesis inRest
          exact ⟨old, List.mem_cons_of_mem _ inOld, same, slots⟩

/-- A slot of a shaped chain may be assigned a shaped one. -/
theorem ChainShaped.writeSlot
    (shaped : ChainShaped dontcopykey datalen nextBucket chain)
    (slotShaped : slot.Shaped dontcopykey datalen)
    (address : SlotAddress) :
    ChainShaped dontcopykey datalen nextBucket
      (writeSlot address slot chain) where
  slots bucket member index := by
    obtain ⟨old, inChain, -, slots⟩ := mem_writeSlot member
    rcases slots index with isOld | isNew
    · rw [isOld]
      exact shaped.slots old inChain index
    · rwa [isNew]
  distinct := by
    rw [FhTable.writeSlot_addresses]
    exact shaped.distinct
  below bucket member := by
    obtain ⟨old, inChain, same, -⟩ := mem_writeSlot member
    rw [same]
    exact shaped.below old inChain

/-- A new bucket may be appended to a shaped chain. -/
theorem ChainShaped.append
    (shaped : ChainShaped dontcopykey datalen nextBucket chain) :
    ChainShaped dontcopykey datalen (nextBucket + 1)
      (chain ++ [fhAllocateBucket nextBucket]) where
  slots bucket member index := by
    rcases List.mem_append.mp member with isOld | isNew
    · exact shaped.slots bucket isOld index
    · rw [List.mem_singleton.mp isNew]
      exact shaped_cleared
  distinct := by
    rw [List.map_append, List.map_singleton, List.nodup_append_comm]
    refine List.nodup_cons.mpr ⟨?_, shaped.distinct⟩
    intro member
    obtain ⟨bucket, inChain, same⟩ := List.mem_map.mp member
    have isBelow := shaped.below bucket inChain
    rw [same] at isBelow
    exact Nat.lt_irrefl _ isBelow
  below bucket member := by
    rcases List.mem_append.mp member with isOld | isNew
    · exact Nat.lt_succ_of_lt (shaped.below bucket isOld)
    · rw [List.mem_singleton.mp isNew]
      exact Nat.lt_succ_self nextBucket

/-- Addresses below a bound are below a greater one. -/
theorem ChainShaped.mono
    {later : Nat}
    (shaped : ChainShaped dontcopykey datalen nextBucket chain)
    (grows : nextBucket ≤ later) :
    ChainShaped dontcopykey datalen later chain where
  slots :=
    shaped.slots
  distinct :=
    shaped.distinct
  below bucket member :=
    (shaped.below bucket member).trans_le grows

/-- Buckets may be taken out of a shaped chain. -/
theorem ChainShaped.sublist
    {part : List FhBucket}
    (shaped : ChainShaped dontcopykey datalen nextBucket chain)
    (isPart : part.Sublist chain) :
    ChainShaped dontcopykey datalen nextBucket part where
  slots bucket member :=
    shaped.slots bucket (isPart.subset member)
  distinct :=
    (isPart.map FhBucket.address).nodup shaped.distinct
  below bucket member :=
    shaped.below bucket (isPart.subset member)

/-- The buckets of a shaped chain are not at the next address. -/
theorem ChainShaped.fresh
    (shaped : ChainShaped dontcopykey datalen nextBucket chain) :
    ∀ other ∈ chain, other.address ≠ nextBucket :=
  fun other member => Nat.ne_of_lt (shaped.below other member)

end Chains

section Tables

variable {table next : FhTable} {others : MemoryPlace → Option FhCell}
  {index : Nat} {chain : List FhBucket}

/-- Replacing a chain by a shaped one keeps a table shaped. -/
theorem FhTable.Shaped.chainStep
    (shaped : table.Shaped)
    (step : table.ChainStep next index chain)
    (chainShaped :
      ChainShaped table.dontcopykey table.hDatalen next.nextBucket chain) :
    next.Shaped := by
  intro other
  rw [step.same.dontcopykey, step.same.hDatalen, step.chains]
  by_cases same : other = index
  · rw [same, Function.update_self]
    exact chainShaped
  · rw [Function.update_of_ne same]
    exact (shaped other).mono step.grows

/-- Replacing a chain exchanges what that chain points to. -/
theorem FhTable.ChainStep.cells
    (step : table.ChainStep next index chain)
    (others : MemoryPlace → Option FhCell)
    (other : Nat)
    (place : ChainPlace) :
    next.cells others (.chain other place) =
      if other = index then
        chainCells chain place
      else
        table.cells others (.chain other place) := by
  simp only [FhTable.cells, step.chains]
  by_cases same : other = index
  · rw [same, Function.update_self, if_pos rfl]
  · rw [Function.update_of_ne same, if_neg same]

/-- Replacing a chain by one that points to the same. -/
theorem FhTable.ChainStep.cells_same
    (step : table.ChainStep next index chain)
    (same : chainCells chain = chainCells (table.hashTable index)) :
    next.cells others = table.cells others := by
  funext place
  cases place with
  | chain other place =>
      rw [step.cells, same]
      split
      next isIndex =>
        rw [isIndex]
        rfl
      next =>
        rfl
  | _ =>
      rfl

/-- Replacing a chain by one of which one pointer differs. -/
theorem FhTable.ChainStep.cells_update
    {place : ChainPlace}
    {cell : Option FhCell}
    (step : table.ChainStep next index chain)
    (updates :
      chainCells chain =
        Function.update (chainCells (table.hashTable index)) place cell) :
    next.cells others =
      Function.update (table.cells others) (.chain index place) cell := by
  funext other
  cases other with
  | chain which found =>
      rw [step.cells, updates]
      by_cases sameIndex : which = index
      · by_cases samePlace : found = place
        · simp [sameIndex, samePlace]
        · rw [if_pos sameIndex, Function.update_of_ne samePlace,
            Function.update_of_ne (by simp [samePlace]), sameIndex]
          rfl
      · rw [if_neg sameIndex, Function.update_of_ne (by simp [sameIndex])]
  | _ =>
      exact (Function.update_of_ne (by simp) ..).symm

/-- Assigning a slot exchanges its two pointers. -/
theorem setSlot_cells
    {address : SlotAddress}
    (isBucket : bucketAt address.1 (table.hashTable index) ≠ none)
    (slot : FhSlot) :
    (table.setSlot index address slot).cells others =
      Function.update
        (Function.update (table.cells others) (.chain index (.key address))
          slot.keyCell)
        (.chain index (.opaqueObj address)) slot.objectCell := by
  have step :
      table.ChainStep (table.setSlot index address slot) index
        (writeSlot address slot (table.hashTable index)) :=
    ⟨table.sameSettings_setChain .., rfl, Nat.le_refl _⟩
  funext place
  cases place with
  | chain which found =>
      rw [step.cells, chainCells_writeSlot isBucket]
      by_cases same : which = index
      · subst same
        simp only [if_true, Function.update_apply,
          MemoryPlace.chain.injEq, true_and]
        rfl
      · simp [same]
  | _ =>
      simp [FhTable.cells]

/-- Assigning a shaped slot keeps a table shaped. -/
theorem setSlot_shaped
    {slot : FhSlot}
    (shaped : table.Shaped)
    (slotShaped : slot.Shaped table.dontcopykey table.hDatalen)
    (index : Nat)
    (address : SlotAddress) :
    (table.setSlot index address slot).Shaped :=
  shaped.chainStep
    ⟨table.sameSettings_setChain .., rfl, Nat.le_refl _⟩
    ((shaped index).writeSlot slotShaped address)

/-- What is in memory when a slot is assigned what its pointers hold. -/
theorem setSlot_keeps
    {memory : FhMemory}
    {address : SlotAddress}
    {slot : FhSlot}
    (shaped : table.Shaped)
    (isBucket : bucketAt address.1 (table.hashTable index) ≠ none)
    (slotShaped : slot.Shaped table.dontcopykey table.hDatalen)
    (keeps :
      memory.Keeps
        (Function.update
          (Function.update (table.cells others) (.chain index (.key address))
            slot.keyCell)
          (.chain index (.opaqueObj address)) slot.objectCell)) :
    memory.Keeps ((table.setSlot index address slot).cells others) ∧
      (table.setSlot index address slot).Shaped := by
  rw [setSlot_cells isBucket]
  exact ⟨keeps, setSlot_shaped shaped slotShaped index address⟩

end Tables

section Insertion

variable {table next : FhTable} {others : MemoryPlace → Option FhCell}
  {memory : FhMemory} {index : Nat} {granted : Bool} {key : CString}
  {block : Option Block} {grants : InsertGrants}

/-- The first bucket of a chain is in memory when the chain has one. -/
theorem headMemory_keeps
    {present : Bool}
    (shaped : table.Shaped)
    (keeps : memory.Keeps (table.cells others))
    (heads : headBucket table index granted = (next, present)) :
    (headMemory table index granted memory).Keeps (next.cells others) ∧
      next.Shaped ∧
      (present = true → next.hashTable index ≠ []) := by
  cases isChain : table.hashTable index with
  | nil =>
      cases granted with
      | false =>
          simp only [headBucket, isChain, Bool.false_eq_true, if_false] at heads
          cases heads
          simp only [headMemory, isChain, Bool.false_eq_true, if_false]
          exact ⟨keeps, shaped, fun isPresent => by cases isPresent⟩
      | true =>
          simp only [headBucket, isChain, if_true] at heads
          cases heads
          have step :
              table.ChainStep
                (table.growChain index [fhAllocateBucket table.nextBucket])
                index [fhAllocateBucket table.nextBucket] :=
            ⟨table.sameSettings_growChain .., rfl, Nat.le_succ _⟩
          have chainShaped := shaped index
          rw [isChain] at chainShaped
          have noneHeld :
              table.cells others
                  (.chain index (.bucket table.nextBucket)) =
                none := by
            simp [FhTable.cells, isChain, chainCells, bucketAt]
          have updates :
              chainCells [fhAllocateBucket table.nextBucket] =
                Function.update (chainCells (table.hashTable index))
                  (.bucket table.nextBucket) (some .block) := by
            rw [isChain]
            exact chainCells_append chainShaped.fresh
          refine ⟨?_, shaped.chainStep step chainShaped.append, ?_⟩
          · simp only [headMemory, isChain, if_true]
            rw [step.cells_update updates]
            exact keeps.acquire noneHeld .block
          · intro _
            simp [FhTable.growChain]
  | cons first rest =>
      simp only [headBucket, isChain] at heads
      cases heads
      simp only [headMemory, isChain]
      exact ⟨keeps, shaped, fun _ => by simp⟩

/-- A slot without a mini hash is free. -/
theorem freeSlot_ne_none
    {bucket : FhBucket}
    {position : Fin bucketSize}
    (isFree : (bucket.slot position).miniHash = 0) :
    freeSlot bucket ≠ none := by
  intro noneFree
  have notFree := List.find?_eq_none.mp noneFree position
    (List.mem_finRange position)
  simp [isFree] at notFree

/--
Claiming a slot writes a mini hash to a cleared slot of the chain, which has one
bucket more when it was full.
-/
theorem claimed_written
    {chain : List FhBucket}
    {dontcopykey : Bool}
    {datalen : Int}
    {nextBucket : Nat}
    (shaped : ChainShaped dontcopykey datalen nextBucket chain)
    (nonempty : chain ≠ [])
    (miniHash : UInt8)
    (granted : Bool) :
    (∃ base address,
        fhReturnEmptySlotInBucket miniHash
              (if granted then some nextBucket else none) chain =
            (writeSlot address
                { FhSlot.cleared with
                  miniHash := miniHash }
                base,
              some address) ∧
          bucketAt address.1 base ≠ none ∧
          chainSlot base address = .cleared ∧
          (¬ ChainFull chain ∧ base = chain ∨
            ChainFull chain ∧ granted = true ∧
              base = chain ++ [fhAllocateBucket nextBucket])) ∨
      ChainFull chain ∧ granted = false ∧
        fhReturnEmptySlotInBucket miniHash
            (if granted then some nextBucket else none) chain =
          (chain, none) := by
  rcases fhReturnEmptySlotInBucket_spec miniHash
      (if granted then some nextBucket else none) nonempty with
      ⟨before, bucket, after, position, split, free, claims⟩ | ⟨full, claims⟩
  · left
    have earlier := address_notMem (split ▸ shaped.distinct)
    have isBucket : bucketAt bucket.address chain = some bucket := by
      rw [split]
      exact bucketAt_middle earlier
    have isCleared : bucket.slot position = .cleared :=
      (shaped.slots bucket (by simp [split]) position).cleared free
    refine ⟨chain, (bucket.address, position), ?_, by simp [isBucket],
      by simp [chainSlot, isBucket, isCleared], .inl ⟨?_, rfl⟩⟩
    · rw [claims, split, writeSlot_middle earlier, FhBucket.setMiniHash,
        isCleared]
    · intro full
      exact freeSlot_ne_none free (full bucket (by simp [split]))
  · cases granted with
    | false =>
        exact .inr ⟨full, rfl, claims⟩
    | true =>
        left
        have isBucket :
            bucketAt nextBucket (chain ++ [fhAllocateBucket nextBucket]) =
              some (fhAllocateBucket nextBucket) :=
          (bucketAt_append shaped.fresh nextBucket).trans (if_pos rfl)
        refine ⟨chain ++ [fhAllocateBucket nextBucket], (nextBucket, 0), ?_,
          by simp [isBucket], ?_, .inr ⟨full, rfl, rfl⟩⟩
        · exact claims.trans (congrArg (·, _)
            (writeSlot_middle shaped.fresh 0 _).symm)
        · simp only [chainSlot, isBucket]
          rfl

/-- A bucket is added to a full chain. -/
theorem claimMemory_full
    (nonempty : table.hashTable index ≠ [])
    (full : ChainFull (table.hashTable index))
    (memory : FhMemory) :
    claimMemory table index true memory =
      memory.acquire (.chain index (.bucket table.nextBucket)) .block := by
  rw [claimMemory]
  cases isChain : table.hashTable index with
  | nil =>
      exact (nonempty isChain).elim
  | cons first rest =>
      rw [isChain] at full
      exact if_pos ⟨rfl, full⟩

/-- No bucket is added to a chain that has a free slot, or when it is refused. -/
theorem claimMemory_kept
    (kept : granted = false ∨ ¬ ChainFull (table.hashTable index))
    (memory : FhMemory) :
    claimMemory table index granted memory = memory := by
  rw [claimMemory]
  cases isChain : table.hashTable index with
  | nil =>
      rfl
  | cons first rest =>
      rw [isChain] at kept
      refine if_neg ?_
      rintro ⟨isGranted, full⟩
      rcases kept with refused | notFull
      · rw [isGranted] at refused
        cases refused
      · exact notFull full

/-- The buckets of a chain are in memory when one was added for a claim. -/
theorem claimMemory_keeps
    {miniHash : UInt8}
    {address : Option SlotAddress}
    (shaped : table.Shaped)
    (keeps : memory.Keeps (table.cells others))
    (nonempty : table.hashTable index ≠ [])
    (used : miniHash ≠ 0)
    (claims : claimSlot table index miniHash granted = (next, address)) :
    (claimMemory table index granted memory).Keeps (next.cells others) ∧
      next.Shaped ∧
      ∀ found,
        address = some found →
        bucketAt found.1 (next.hashTable index) ≠ none ∧
          chainSlot (next.hashTable index) found =
            { FhSlot.cleared with
              miniHash := miniHash } := by
  have step :
      ∀ chain,
        table.ChainStep (table.growChain index chain) index chain :=
    fun chain => ⟨table.sameSettings_growChain .., rfl, Nat.le_succ _⟩
  rcases claimed_written (shaped index) nonempty miniHash granted with
      ⟨base, found, written, isBucket, isCleared, whichBase⟩ |
        ⟨-, refused, kept⟩
  · simp only [claimSlot, written] at claims
    cases claims
    have sameCells :
        chainCells
            (writeSlot found
              { FhSlot.cleared with
                miniHash := miniHash }
              base) =
          chainCells base :=
      chainCells_writeSlot_same isBucket (by rw [isCleared]; rfl)
        (by rw [isCleared]; rfl)
    have isClaimed :
        ∀ other,
          some found = some other →
          bucketAt other.1
                ((table.growChain index
                  (writeSlot found
                    { FhSlot.cleared with
                      miniHash := miniHash }
                    base)).hashTable index) ≠ none ∧
            chainSlot
                ((table.growChain index
                  (writeSlot found
                    { FhSlot.cleared with
                      miniHash := miniHash }
                    base)).hashTable index) other =
              { FhSlot.cleared with
                miniHash := miniHash } := by
      rintro other isFound
      cases isFound
      simp only [FhTable.growChain, Function.update_self]
      refine ⟨?_, by rw [chainSlot_writeSlot isBucket, if_pos rfl]⟩
      rw [bucketAt_writeSlot, if_pos rfl]
      simpa using isBucket
    rcases whichBase with ⟨notFull, rfl⟩ | ⟨full, rfl, rfl⟩
    · refine ⟨?_, shaped.chainStep (step _) ?_, isClaimed⟩
      · rw [claimMemory_kept (.inr notFull), (step _).cells_same sameCells]
        exact keeps
      · exact ((shaped index).writeSlot (shaped_claimed used) found).mono
          (Nat.le_succ _)
    · refine ⟨?_, shaped.chainStep (step _) ?_, isClaimed⟩
      · rw [claimMemory_full nonempty full,
          (step _).cells_update
            (sameCells.trans (chainCells_append (shaped index).fresh))]
        refine keeps.acquire ?_ .block
        simp [FhTable.cells, chainCells, bucketAt_fresh (shaped index).fresh]
      · exact (shaped index).append.writeSlot (shaped_claimed used) found
  · simp only [claimSlot, kept] at claims
    cases claims
    refine ⟨?_, shaped.chainStep (step _) ((shaped index).mono (Nat.le_succ _)),
      fun found isFound => by cases isFound⟩
    rw [claimMemory_kept (.inl refused), (step _).cells_same rfl]
    exact keeps

/-- What a block becomes is a copy unless the table holds pointers. -/
theorem newOpaqueObj_isCopy
    {datalen : Int}
    {block : Block}
    {granted : Bool}
    {object : OpaqueObj}
    (isObject : newOpaqueObj datalen block granted = .ok (some object)) :
    object.isCopy = true ↔ datalen ≠ fhDatalenVoidp := by
  unfold newOpaqueObj at isObject
  split_ifs at isObject with isSized isGranted isVoidp isString isGranted
  · cases isObject
    simp only [OpaqueObj.isCopy, fhDatalenVoidp, true_iff]
    omega
  · cases isObject
    simp [OpaqueObj.isCopy, isVoidp]
  · cases isObject
    simp [OpaqueObj.isCopy, isVoidp]
  · cases isObject

/-- What a slot points to once a key and an object are stored in it. -/
theorem shaped_filled
    {miniHash : UInt8}
    {dontcopykey : Bool}
    {datalen : Int}
    {stored : FhKey}
    {object : Option OpaqueObj}
    (used : miniHash ≠ 0)
    (isCopied : stored.copied = !dontcopykey)
    (isShaped :
      ∀ found,
        object = some found →
        (found.isCopy = true ↔ datalen ≠ fhDatalenVoidp)) :
    FhSlot.Shaped dontcopykey datalen ⟨miniHash, some stored, object⟩ where
  cleared isZero :=
    (used isZero).elim
  key other isOther := by
    cases isOther
    exact isCopied
  object :=
    isShaped

/-- An empty place is not changed when it is emptied. -/
theorem update_none
    {contents : MemoryPlace → Option FhCell}
    {place : MemoryPlace}
    (isEmpty : contents place = none) :
    Function.update contents place none = contents :=
  Function.update_eq_self_iff.mpr isEmpty.symm

/-- The key of a slot is in memory when it was copied. -/
theorem keyCopy_keeps
    {contents : MemoryPlace → Option FhCell}
    {place : MemoryPlace}
    (keeps : memory.Keeps contents)
    (isEmpty : contents place = none)
    (stored : FhKey) :
    Holdings.Keeps
      (if stored.copied then
        memory.acquire place (.key stored.string)
      else
        memory)
      (Function.update contents place
        (if stored.copied then some (.key stored.string) else none)) := by
  cases stored.copied with
  | true =>
      exact keeps.acquire isEmpty _
  | false =>
      simp only [Bool.false_eq_true, if_false]
      rw [update_none isEmpty]
      exact keeps

/-- The key and the object of a slot are in memory when they were copied. -/
theorem fillMemory_keeps
    {address : SlotAddress}
    {miniHash : UInt8}
    {outcome : Except Int SlotAddress}
    (shaped : table.Shaped)
    (keeps : memory.Keeps (table.cells others))
    (isBucket : bucketAt address.1 (table.hashTable index) ≠ none)
    (isClaimed :
      chainSlot (table.hashTable index) address =
        { FhSlot.cleared with
          miniHash := miniHash })
    (used : miniHash ≠ 0)
    (fills :
      fillSlot table index address key block grants = (next, outcome)) :
    (fillMemory table index address key block grants memory).Keeps
        (next.cells others) ∧
      next.Shaped := by
  have isSlot :
      table.slotAt index address =
        { FhSlot.cleared with
          miniHash := miniHash } :=
    isClaimed
  have noKey : table.cells others (.chain index (.key address)) = none := by
    simp only [FhTable.cells, chainCells, isClaimed]
    rfl
  have noObject :
      table.cells others (.chain index (.opaqueObj address)) = none := by
    simp only [FhTable.cells, chainCells, isClaimed]
    rfl
  cases isKey : table.slotKey key grants.key with
  | none =>
      simp only [fillSlot, isSlot, isKey] at fills
      cases fills
      simp only [fillMemory, isKey]
      refine setSlot_keeps shaped isBucket (shaped_claimed used) ?_
      simp only [FhSlot.keyCell, FhSlot.objectCell, FhSlot.cleared]
      rw [update_none noKey, update_none noObject]
      exact keeps
  | some stored =>
      have isCopied := (slotKey_spec isKey).2
      have keyKeeps := keyCopy_keeps keeps noKey stored
      have stillNone :
          Function.update (table.cells others) (.chain index (.key address))
              (if stored.copied then some (.key stored.string) else none)
              (.chain index (.opaqueObj address)) =
            none :=
        (Function.update_of_ne (by simp) ..).trans noObject
      have keyOnly := keyKeeps
      rw [← update_none stillNone] at keyOnly
      have pointerless :
          ∀ found,
            (none : Option OpaqueObj) = some found →
            (found.isCopy = true ↔ table.hDatalen ≠ fhDatalenVoidp) :=
        fun _ isFound => by cases isFound
      simp only [fillSlot, isSlot, isKey] at fills
      simp only [fillMemory, isKey]
      cases block with
      | none =>
          cases fills
          exact setSlot_keeps shaped isBucket
            (shaped_filled used isCopied pointerless) keyOnly
      | some block =>
          cases isObject :
              newOpaqueObj table.hDatalen block grants.opaqueObj with
          | error code =>
              simp only [isObject] at fills ⊢
              cases fills
              exact setSlot_keeps shaped isBucket
                (shaped_filled used isCopied pointerless) keyOnly
          | ok object =>
              simp only [isObject] at fills ⊢
              cases fills
              have isShaped :
                  ∀ found,
                    object = some found →
                    (found.isCopy = true ↔
                      table.hDatalen ≠ fhDatalenVoidp) := by
                rintro found rfl
                exact newOpaqueObj_isCopy isObject
              have slotShaped := shaped_filled used isCopied isShaped
              cases object with
              | none =>
                  exact setSlot_keeps shaped isBucket slotShaped keyOnly
              | some object =>
                  cases object with
                  | pointer block =>
                      exact setSlot_keeps shaped isBucket slotShaped keyOnly
                  | copy bytes =>
                      exact setSlot_keeps shaped isBucket slotShaped
                        (keyKeeps.acquire stillNone _)

/-- The locked section of an insertion keeps in memory what the table has. -/
theorem insertMemory_keeps
    {outcome : Except Int SlotAddress}
    (shaped : table.Shaped)
    (keeps : memory.Keeps (table.cells others))
    (inserts : insertSlot table key block grants = .ok (next, outcome)) :
    (insertMemory table key block grants memory).Keeps (next.cells others) ∧
      next.Shaped := by
  have used := makeMinihash_ne_zero (table.hashFunction key)
  simp only [insertSlot] at inserts
  split at inserts
  · cases inserts
  · cases heads :
        headBucket table (table.hashindex (table.hashFunction key))
          grants.bucket with
    | mk counted present =>
        obtain ⟨headKeeps, countedShaped, nonempty⟩ :=
          headMemory_keeps shaped keeps heads
        simp only [heads] at inserts
        simp only [insertMemory, heads]
        cases present with
        | false =>
            cases inserts
            exact ⟨headKeeps, countedShaped⟩
        | true =>
            obtain ⟨found, finds, later⟩ := Checked.bind_eq_ok.mp inserts
            simp only [finds]
            cases found with
            | some duplicate =>
                cases later
                exact ⟨headKeeps, countedShaped⟩
            | none =>
                cases claims :
                    claimSlot counted
                      (table.hashindex (table.hashFunction key))
                      (makeMinihash (table.hashFunction key))
                      grants.bucket with
                | mk claimed address =>
                    obtain ⟨claimKeeps, claimedShaped, isClaimed⟩ :=
                      claimMemory_keeps countedShaped headKeeps
                        (nonempty rfl) used claims
                    simp only [claims] at later ⊢
                    cases address with
                    | none =>
                        cases later
                        exact ⟨claimKeeps, claimedShaped⟩
                    | some address =>
                        obtain ⟨isBucket, isCleared⟩ := isClaimed address rfl
                        exact fillMemory_keeps claimedShaped claimKeeps
                          isBucket isCleared used (Except.ok.inj later)

end Insertion

section Deletion

variable {table next : FhTable} {others : MemoryPlace → Option FhCell}
  {memory : FhMemory} {key : CString} {miniHash : UInt8} {hashIndex : Nat}

/-- The slot that the search of one bucket finds has a key. -/
theorem findInBucket_key
    {bucket : FhBucket}
    {indices : List (Fin bucketSize)}
    {index : Fin bucketSize}
    (finds : findInBucket bucket key miniHash indices = .ok (some index)) :
    ∃ stored, (bucket.slot index).key = some stored := by
  induction indices with
  | nil =>
      cases finds
  | cons first rest inductionHypothesis =>
      rw [findInBucket] at finds
      split at finds
      · cases isKey : (bucket.slot first).key with
        | none =>
            simp only [isKey] at finds
            cases finds
        | some stored =>
            simp only [isKey] at finds
            split at finds
            · cases finds
              exact ⟨stored, isKey⟩
            · exact inductionHypothesis finds
      · exact inductionHypothesis finds

/-- The slot that the search of a chain finds is in it and has a key. -/
theorem fhFindSlotInBucket_key
    {chain : List FhBucket}
    {address : SlotAddress}
    (finds : fhFindSlotInBucket key miniHash chain = .ok (some address)) :
    ∃ before bucket after stored,
      chain = before ++ bucket :: after ∧
        bucket.address = address.1 ∧
        (bucket.slot address.2).key = some stored := by
  induction chain with
  | nil =>
      cases finds
  | cons first rest inductionHypothesis =>
      rw [fhFindSlotInBucket] at finds
      obtain ⟨found, inFirst, later⟩ := Checked.bind_eq_ok.mp finds
      cases found with
      | some index =>
          cases later
          obtain ⟨stored, isKey⟩ := findInBucket_key inFirst
          exact ⟨[], first, rest, stored, rfl, rfl, isKey⟩
      | none =>
          obtain ⟨before, bucket, after, stored, split, isHere, isKey⟩ :=
            inductionHypothesis later
          exact ⟨first :: before, bucket, after, stored,
            by rw [split, List.cons_append], isHere, isKey⟩

/-- The slot that the search of a shaped chain finds is a shaped one with a key. -/
theorem ChainShaped.found
    {chain : List FhBucket}
    {dontcopykey : Bool}
    {datalen : Int}
    {nextBucket : Nat}
    {address : SlotAddress}
    (shaped : ChainShaped dontcopykey datalen nextBucket chain)
    (finds : fhFindSlotInBucket key miniHash chain = .ok (some address)) :
    ∃ bucket stored,
      bucketAt address.1 chain = some bucket ∧
        (bucket.slot address.2).key = some stored ∧
        (bucket.slot address.2).Shaped dontcopykey datalen := by
  obtain ⟨before, bucket, after, stored, split, isHere, isKey⟩ :=
    fhFindSlotInBucket_key finds
  have earlier := address_notMem (split ▸ shaped.distinct)
  refine ⟨bucket, stored, ?_, isKey,
    shaped.slots bucket (by simp [split]) address.2⟩
  rw [split, ← isHere]
  exact bucketAt_middle earlier

/-- The slots of an empty bucket of a shaped chain are cleared. -/
theorem ChainShaped.cleared
    {chain : List FhBucket}
    {dontcopykey : Bool}
    {datalen : Int}
    {nextBucket : Nat}
    {bucket : FhBucket}
    (shaped : ChainShaped dontcopykey datalen nextBucket chain)
    (member : bucket ∈ chain)
    (isEmpty : bucket.isEmpty = true)
    (index : Fin bucketSize) :
    bucket.slot index = .cleared := by
  apply (shaped.slots bucket member index).cleared
  have isFree := List.all_eq_true.mp isEmpty index (List.mem_finRange index)
  simpa using isFree

/-- The object of a slot that is deleted is freed when it was copied. -/
theorem releaseObject_keeps
    {contents : MemoryPlace → Option FhCell}
    {address : SlotAddress}
    {slot : FhSlot}
    (keeps : memory.Keeps contents)
    (isSlot : table.slotAt hashIndex address = slot)
    (isCell :
      contents (.chain hashIndex (.opaqueObj address)) = slot.objectCell)
    (shaped : slot.Shaped table.dontcopykey table.hDatalen) :
    ∃ freed,
      releaseObject table hashIndex address memory = .ok freed ∧
        freed.Keeps
          (Function.update contents (.chain hashIndex (.opaqueObj address))
            none) := by
  rw [releaseObject, isSlot]
  split_ifs with isFreed
  · obtain ⟨isSome, notVoidp⟩ := isFreed
    obtain ⟨object, isObject⟩ := Option.isSome_iff_exists.mp isSome
    have isCopy := (shaped.object object isObject).mpr notVoidp
    cases object with
    | pointer block =>
        cases isCopy
    | copy bytes =>
        simp only [FhSlot.objectCell, isObject] at isCell
        exact keeps.release isCell
  · have noCell : slot.objectCell = none := by
      cases isObject : slot.opaqueObj with
      | none =>
          simp [FhSlot.objectCell, isObject]
      | some object =>
          cases object with
          | pointer block =>
              simp [FhSlot.objectCell, isObject]
          | copy bytes =>
              have notVoidp := (shaped.object _ isObject).mp rfl
              exact (isFreed ⟨by simp [isObject], notVoidp⟩).elim
    rw [noCell] at isCell
    rw [update_none isCell]
    exact ⟨memory, rfl, keeps⟩

/-- The key of a slot that is deleted is freed when it was copied. -/
theorem releaseKey_keeps
    {contents : MemoryPlace → Option FhCell}
    {address : SlotAddress}
    {slot : FhSlot}
    {stored : FhKey}
    (keeps : memory.Keeps contents)
    (isCell : contents (.chain hashIndex (.key address)) = slot.keyCell)
    (isKey : slot.key = some stored)
    (shaped : slot.Shaped table.dontcopykey table.hDatalen) :
    ∃ freed,
      releaseKey table hashIndex address memory = .ok freed ∧
        freed.Keeps
          (Function.update contents (.chain hashIndex (.key address))
            none) := by
  have isCopied := shaped.key stored isKey
  simp only [FhSlot.keyCell, isKey, isCopied] at isCell
  rw [releaseKey]
  cases isSet : table.dontcopykey with
  | true =>
      rw [isSet] at isCell
      rw [update_none isCell]
      exact ⟨memory, rfl, keeps⟩
  | false =>
      rw [isSet] at isCell
      exact keeps.release isCell

/-- The bucket of a slot that was deleted is freed when it is empty. -/
theorem releaseBucket_keeps
    {address : Nat}
    {candidate : FhBucket}
    {chain : List FhBucket}
    (shaped : table.Shaped)
    (keeps : memory.Keeps (table.cells others))
    (isCandidate :
      bucketAt address (table.hashTable hashIndex) = some candidate)
    (deallocates :
      deallocateBucketIfEmpty candidate (table.hashTable hashIndex) =
        .ok chain) :
    ∃ freed,
      releaseBucket candidate hashIndex memory = .ok freed ∧
        freed.Keeps ((table.setChain hashIndex chain).cells others) ∧
        (table.setChain hashIndex chain).Shaped := by
  have step :
      table.ChainStep (table.setChain hashIndex chain) hashIndex chain :=
    ⟨table.sameSettings_setChain .., rfl, Nat.le_refl _⟩
  have chainShaped := shaped hashIndex
  have member : candidate ∈ table.hashTable hashIndex :=
    List.mem_of_find?_eq_some isCandidate
  rw [releaseBucket]
  cases isEmpty : candidate.isEmpty with
  | false =>
      simp only [deallocateBucketIfEmpty, isEmpty, Bool.false_eq_true,
        if_false] at deallocates ⊢
      cases deallocates
      refine ⟨memory, rfl, ?_, shaped.chainStep step chainShaped⟩
      rw [step.cells_same rfl]
      exact keeps
  | true =>
      have cleared := chainShaped.cleared member isEmpty
      have isHeld :
          table.cells others
              (.chain hashIndex (.bucket candidate.address)) =
            some .block := by
        simp only [FhTable.cells, chainCells,
          bucketAt_mem chainShaped.distinct member, Option.map_some]
      obtain ⟨before, after, split⟩ := List.append_of_mem member
      have distinct := chainShaped.distinct
      rw [split] at distinct
      simp only [deallocateBucketIfEmpty, isEmpty, if_true] at deallocates ⊢
      rw [split, unlinkBucket_middle (address_notMem distinct)] at deallocates
      cases deallocates
      obtain ⟨freed, frees, freedKeeps⟩ := keeps.release isHeld
      refine ⟨freed, frees, ?_, shaped.chainStep step ?_⟩
      · rw [step.cells_update (split ▸ chainCells_unlink distinct cleared)]
        exact freedKeeps
      · refine chainShaped.sublist ?_
        rw [split]
        exact (List.sublist_cons_self candidate after).append_left before

/-- The locked section of a deletion frees what the slot and its bucket had. -/
theorem delUnlockedMemory_keeps
    {code : Int}
    (shaped : table.Shaped)
    (keeps : memory.Keeps (table.cells others))
    (deletes : fhDelUnlocked table key hashIndex miniHash = .ok (next, code)) :
    ∃ freed,
      delUnlockedMemory table key hashIndex miniHash memory = .ok freed ∧
        freed.Keeps (next.cells others) ∧
        next.Shaped := by
  simp only [fhDelUnlocked] at deletes
  split at deletes
  · cases deletes
  obtain ⟨found, finds, later⟩ := Checked.bind_eq_ok.mp deletes
  simp only [delUnlockedMemory, finds, Checked.ok_bind]
  cases found with
  | none =>
      cases later
      exact ⟨memory, rfl, keeps, shaped⟩
  | some address =>
      obtain ⟨bucket, stored, isBucket, isKey, slotShaped⟩ :=
        (shaped hashIndex).found finds
      have isSlot : table.slotAt hashIndex address = bucket.slot address.2 := by
        simp [FhTable.slotAt, isBucket]
      have isChainSlot :
          chainSlot (table.hashTable hashIndex) address =
            bucket.slot address.2 :=
        isSlot
      have found : bucketAt address.1 (table.hashTable hashIndex) ≠ none := by
        simp [isBucket]
      have isObjectCell :
          table.cells others (.chain hashIndex (.opaqueObj address)) =
            (bucket.slot address.2).objectCell := by
        simp only [FhTable.cells, chainCells, isChainSlot]
      have isKeyCell :
          Function.update (table.cells others)
              (.chain hashIndex (.opaqueObj address)) none
              (.chain hashIndex (.key address)) =
            (bucket.slot address.2).keyCell := by
        rw [Function.update_of_ne (by simp)]
        simp only [FhTable.cells, chainCells, isChainSlot]
      obtain ⟨withoutObject, freesObject, objectKeeps⟩ :=
        releaseObject_keeps keeps isSlot isObjectCell slotShaped
      obtain ⟨withoutKey, freesKey, keyKeeps⟩ :=
        releaseKey_keeps objectKeeps isKeyCell isKey slotShaped
      rw [Function.update_comm (by simp)] at keyKeeps
      obtain ⟨clearedKeeps, clearedShaped⟩ :=
        setSlot_keeps shaped found shaped_cleared keyKeeps
      have isCandidate :
          bucketAt address.1
              ((table.setSlot hashIndex address .cleared).hashTable
                hashIndex) =
            some (bucket.setSlot address.2 .cleared) := by
        simp only [FhTable.setSlot, FhTable.setChain, Function.update_self]
        rw [bucketAt_writeSlot, if_pos rfl, isBucket, Option.map_some]
      simp only [isCandidate] at later
      simp only [freesObject, Checked.ok_bind, freesKey, isCandidate]
      obtain ⟨chain, deallocates, last⟩ := Checked.bind_eq_ok.mp later
      cases last
      exact releaseBucket_keeps clearedShaped clearedKeeps isCandidate
        deallocates

end Deletion

end Clibs.Fh
