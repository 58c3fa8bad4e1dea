import Clibs.Fh.Chain
import Clibs.Fh.Table
import Clibs.Foundation.FiniteMap

namespace Clibs.Fh

/-!
# The representation invariant and what the locked sections do

`FhTable.Ok` is the invariant of the chains: every key is in the chain its hash
selects, no bucket is empty, the buckets of a chain have addresses of their own.
A table that satisfies it stands for the map whose graph is its list of entries.
Each locked section is shown to keep the invariant and to change the entries as
its result says.
-/

/-- A key is stored in the chain its hash selects, copied or not as set. -/
def FhTable.Belongs
    (table : FhTable)
    (index : Nat)
    (key : FhKey) : Prop :=
  table.hashindex (table.hashFunction key.string) = index ∧
    key.copied = !table.dontcopykey

/-- The representation invariant of the chains. -/
structure FhTable.Ok (table : FhTable) : Prop where
  dim : ∃ bits, bits < 64 ∧ table.hDim = 2 ^ bits
  slots :
    ∀ index,
      SlotsOk table.hashFunction (table.Belongs index) (table.hashTable index)
  noneEmpty :
    ∀ index, ∀ bucket ∈ table.hashTable index, bucket.isEmpty = false
  distinct :
    ∀ index, ((table.hashTable index).map FhBucket.address).Nodup
  below :
    ∀ index,
      ∀ bucket ∈ table.hashTable index, bucket.address < table.nextBucket

/-- The invariant of the chains, with a condition on the keys that are stored. -/
structure FhTable.OkFor
    (keyOk : FhKey → Prop)
    (table : FhTable) : Prop where
  dim : ∃ bits, bits < 64 ∧ table.hDim = 2 ^ bits
  slots :
    ∀ index,
      SlotsOk table.hashFunction
        (fun key =>
          table.hashindex (table.hashFunction key.string) = index ∧ keyOk key)
        (table.hashTable index)
  noneEmpty :
    ∀ index, ∀ bucket ∈ table.hashTable index, bucket.isEmpty = false
  distinct :
    ∀ index, ((table.hashTable index).map FhBucket.address).Nodup
  below :
    ∀ index,
      ∀ bucket ∈ table.hashTable index, bucket.address < table.nextBucket

/-- The entries of the table, chain after chain. -/
def FhTable.entries (table : FhTable) : List Entry :=
  gather chainEntries (List.range table.hDim) table.hashTable

/-- Two tables differ at most in their contents and counters. -/
structure FhTable.SameSettings (table other : FhTable) : Prop where
  hDim : table.hDim = other.hDim
  hDatalen : table.hDatalen = other.hDatalen
  hAttr : table.hAttr = other.hAttr
  hashFunction : table.hashFunction = other.hashFunction

/-- The chain that a key belongs to. -/
def FhTable.indexOf
    (table : FhTable)
    (key : CString) : Nat :=
  table.hashindex (table.hashFunction key)

/-- What a block becomes in a slot: `NULL`, the pointer or a copy. -/
def blockObject
    (datalen : Int)
    (block : Option Block)
    (granted : Bool) : Except Int (Option OpaqueObj) :=
  match block with
  | none =>
      .ok none
  | some block =>
      newOpaqueObj datalen block granted

/--
What a claimed slot becomes when the key and the block are stored in it, and
the code that is reported when a copy fails.
-/
def filledSlot
    (table : FhTable)
    (miniHash : UInt8)
    (key : CString)
    (block : Option Block)
    (grants : InsertGrants) : FhSlot × Option Int :=
  match table.slotKey key grants.key with
  | none =>
      ({ miniHash := miniHash
         key := none
         opaqueObj := none },
        some fhNoMemory)
  | some stored =>
      match blockObject table.hDatalen block grants.opaqueObj with
      | .error code =>
          ({ miniHash := miniHash
             key := some stored
             opaqueObj := none },
            some code)
      | .ok object =>
          ({ miniHash := miniHash
             key := some stored
             opaqueObj := object },
            none)

/-- The address of the slot that was filled, or the code of a failed copy. -/
def outcomeAt
    (address : SlotAddress) : Option Int → Except Int SlotAddress
  | none =>
      .ok address
  | some code =>
      .error code

namespace FhTable

theorem SameSettings.refl (table : FhTable) :
    table.SameSettings table where
  hDim := rfl
  hDatalen := rfl
  hAttr := rfl
  hashFunction := rfl

theorem SameSettings.trans
    {table middle next : FhTable}
    (second : next.SameSettings middle)
    (first : middle.SameSettings table) :
    next.SameSettings table where
  hDim := second.hDim.trans first.hDim
  hDatalen := second.hDatalen.trans first.hDatalen
  hAttr := second.hAttr.trans first.hAttr
  hashFunction := second.hashFunction.trans first.hashFunction

/-- Replacing a chain leaves the settings. -/
theorem sameSettings_setChain
    (table : FhTable)
    (index : Nat)
    (chain : List FhBucket) :
    (table.setChain index chain).SameSettings table :=
  ⟨rfl, rfl, rfl, rfl⟩

/-- Replacing a chain with a bucket more leaves the settings. -/
theorem sameSettings_growChain
    (table : FhTable)
    (index : Nat)
    (chain : List FhBucket) :
    (table.growChain index chain).SameSettings table :=
  ⟨rfl, rfl, rfl, rfl⟩

/-- Counting a collision leaves the settings. -/
theorem sameSettings_collision (table : FhTable) :
    FhTable.SameSettings
      { table with
        hCollision := table.hCollision + 1 }
      table :=
  ⟨rfl, rfl, rfl, rfl⟩

section Ok

variable {table next : FhTable}
  {keyOk : FhKey → Prop}

/-- The representation invariant asks that keys are copied or not as set. -/
theorem ok_iff_okFor :
    table.Ok ↔ table.OkFor fun key => key.copied = !table.dontcopykey :=
  ⟨fun ok => ⟨ok.dim, ok.slots, ok.noneEmpty, ok.distinct, ok.below⟩,
    fun ok => ⟨ok.dim, ok.slots, ok.noneEmpty, ok.distinct, ok.below⟩⟩

/-- The representation invariant with its condition on the keys. -/
theorem Ok.okFor
    (ok : table.Ok) :
    table.OkFor fun key => key.copied = !table.dontcopykey :=
  ok_iff_okFor.mp ok

/-- Which chain a key belongs to is a matter of the settings. -/
theorem SameSettings.indexOf
    (same : next.SameSettings table)
    (key : CString) :
    next.indexOf key = table.indexOf key := by
  simp only [FhTable.indexOf, FhTable.hashindex, same.hDim, same.hashFunction]

/-- The mask of a table with a power of two of chains takes a remainder. -/
theorem hashindex_power
    {bits : Nat}
    (small : bits < 64)
    (isPower : table.hDim = 2 ^ bits)
    (hash : UInt64) :
    table.hashindex hash = hash.toNat % 2 ^ bits := by
  have positive : 0 < 2 ^ bits := Nat.two_pow_pos bits
  have bound : 2 ^ bits < 2 ^ 64 := Nat.pow_lt_pow_right (by decide) small
  have mask : (UInt64.ofNat table.hDim - 1).toNat = 2 ^ bits - 1 := by
    have value : (UInt64.ofNat table.hDim).toNat = 2 ^ bits := by
      rw [isPower, UInt64.toNat_ofNat_of_lt' bound]
    have one : (1 : UInt64) ≤ UInt64.ofNat table.hDim := by
      rw [UInt64.le_iff_toNat_le, value]
      exact positive
    rw [UInt64.toNat_sub_of_le _ _ one, value]
    rfl
  rw [FhTable.hashindex, UInt64.toNat_and, mask,
    Nat.and_two_pow_sub_one_eq_mod]

/-- A masked hash is the index of a chain. -/
theorem OkFor.hashindex_lt
    (ok : table.OkFor keyOk)
    (hash : UInt64) :
    table.hashindex hash < table.hDim := by
  obtain ⟨bits, small, isPower⟩ := ok.dim
  rw [hashindex_power small isPower, isPower]
  exact Nat.mod_lt _ (Nat.two_pow_pos bits)

/-- The chain of a key is one of the table. -/
theorem OkFor.indexOf_lt
    (ok : table.OkFor keyOk)
    (key : CString) :
    table.indexOf key < table.hDim :=
  ok.hashindex_lt _

/-- A key that has an entry in a chain belongs there. -/
theorem belongs_of_mem
    {hashFunction : CString → UInt64}
    {belongs : FhKey → Prop}
    {chain : List FhBucket}
    (wellFormed : SlotsOk hashFunction belongs chain)
    {key : CString}
    {object : Option OpaqueObj}
    (member : (key, object) ∈ chainEntries chain) :
    ∃ stored, stored.string = key ∧ belongs stored := by
  obtain ⟨bucket, inChain, inBucket⟩ := List.mem_flatMap.mp member
  obtain ⟨index, -, isEntry⟩ := mem_gather.mp inBucket
  generalize bucket.slot index = slot,
    wellFormed bucket inChain index = slotOk at isEntry
  cases slotOk with
  | cleared =>
      simp at isEntry
  | @used stored other isPlaced =>
      rw [usedSlot_entries, List.mem_singleton, Prod.mk.injEq] at isEntry
      exact ⟨stored, isEntry.1.symm, isPlaced⟩

/-- The entries of a key are those in its chain. -/
theorem OkFor.mem_entries
    (ok : table.OkFor keyOk)
    {key : CString}
    {object : Option OpaqueObj} :
    (key, object) ∈ table.entries ↔
      (key, object) ∈ chainEntries (table.hashTable (table.indexOf key)) := by
  rw [FhTable.entries, mem_gather]
  constructor
  · rintro ⟨index, -, member⟩
    obtain ⟨stored, sameKey, isPlaced⟩ :=
      belongs_of_mem (ok.slots index) member
    have isIndex : table.indexOf key = index := by
      rw [FhTable.indexOf, ← sameKey]
      exact isPlaced.1
    rwa [isIndex]
  · intro member
    exact ⟨table.indexOf key, List.mem_range.mpr (ok.indexOf_lt key), member⟩

/-- One chain of a table was replaced. -/
structure ChainStep
    (table next : FhTable)
    (index : Nat)
    (chain : List FhBucket) : Prop where
  same : next.SameSettings table
  chains : next.hashTable = Function.update table.hashTable index chain
  grows : table.nextBucket ≤ next.nextBucket

/-- A chain may be replaced more than once. -/
theorem ChainStep.after
    {middle : FhTable}
    {index : Nat}
    {chain : List FhBucket}
    (step : middle.ChainStep next index chain)
    (same : middle.SameSettings table)
    (others :
      ∀ other, other ≠ index → middle.hashTable other = table.hashTable other)
    (grows : table.nextBucket ≤ middle.nextBucket) :
    table.ChainStep next index chain where
  same := step.same.trans same
  chains := by
    rw [step.chains]
    funext other
    by_cases isThis : other = index
    · subst isThis
      simp
    · rw [Function.update_of_ne isThis, Function.update_of_ne isThis,
        others other isThis]
  grows := grows.trans step.grows

/-- Replacing a chain exchanges its entries in those of the table. -/
theorem ChainStep.entries
    {index : Nat}
    {chain : List FhBucket}
    (step : table.ChainStep next index chain)
    (isChain : index < table.hDim) :
    ∃ others,
      table.entries.Perm (chainEntries (table.hashTable index) ++ others) ∧
        next.entries.Perm (chainEntries chain ++ others) := by
  obtain ⟨others, whole, replaced⟩ :=
    gather_update chainEntries List.nodup_range
      (List.mem_range.mpr isChain) table.hashTable
  refine ⟨others, whole, ?_⟩
  rw [FhTable.entries, step.same.hDim, step.chains]
  exact replaced chain

/-- A table with one chain replaced by a well formed one is well formed. -/
theorem OkFor.chainStep
    (ok : table.OkFor keyOk)
    {index : Nat}
    {chain : List FhBucket}
    (step : table.ChainStep next index chain)
    (slotsOk :
      SlotsOk table.hashFunction
        (fun key =>
          table.hashindex (table.hashFunction key.string) = index ∧ keyOk key)
        chain)
    (noneEmpty : ∀ bucket ∈ chain, bucket.isEmpty = false)
    (distinct : (chain.map FhBucket.address).Nodup)
    (below : ∀ bucket ∈ chain, bucket.address < next.nextBucket) :
    next.OkFor keyOk where
  dim := by
    rw [step.same.hDim]
    exact ok.dim
  slots other := by
    simp only [FhTable.hashindex, step.same.hDim]
    rw [step.same.hashFunction, step.chains]
    by_cases same : other = index
    · subst same
      rwa [Function.update_self]
    · rw [Function.update_of_ne same]
      exact ok.slots other
  noneEmpty other := by
    rw [step.chains]
    by_cases same : other = index
    · subst same
      rwa [Function.update_self]
    · rw [Function.update_of_ne same]
      exact ok.noneEmpty other
  distinct other := by
    rw [step.chains]
    by_cases same : other = index
    · subst same
      rwa [Function.update_self]
    · rw [Function.update_of_ne same]
      exact ok.distinct other
  below other := by
    rw [step.chains]
    by_cases same : other = index
    · subst same
      rwa [Function.update_self]
    · rw [Function.update_of_ne same]
      exact fun bucket member =>
        (ok.below other bucket member).trans_le step.grows

end Ok

end FhTable

end Clibs.Fh
