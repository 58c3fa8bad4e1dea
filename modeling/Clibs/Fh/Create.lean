import Clibs.Fh.Calls

namespace Clibs.Fh

/-!
# Creating a table and setting its attributes

The number of chains of a table that `fh_create` accepts is a power of two, so a
new table satisfies the representation invariant and stands for the empty map.
`fh_setattr` leaves the map as it is.
-/

/-- The shifted bit of the loop of `fh_hash_size`, as a number. -/
theorem shifted_toNat (i : UInt32) :
    (i <<< 1).toNat = i.toNat * 2 % 2 ^ 32 := by
  simp [Nat.shiftLeft_eq]

/-- The loop of `fh_hash_size` returns a power of two. -/
theorem fhHashSizeLoop_power
    {s : UInt32}
    {fuel : Nat}
    {i result : UInt32}
    (power : (∃ bits, bits < 32 ∧ i.toNat = 2 ^ bits) ∨ i = 0 ∧ 0 < s)
    (returns : fhHashSizeLoop s fuel i = .ok result) :
    ∃ bits, bits < 32 ∧ result.toNat = 2 ^ bits := by
  induction fuel generalizing i with
  | zero =>
      cases returns
  | succ fuel inductionHypothesis =>
      rw [fhHashSizeLoop] at returns
      by_cases goesOn : i < s
      · rw [if_pos goesOn] at returns
        apply inductionHypothesis _ returns
        rcases power with ⟨bits, small, isPower⟩ | ⟨isZero, positive⟩
        · have doubled := shifted_toNat i
          rw [isPower, ← pow_succ] at doubled
          by_cases fits : bits + 1 < 32
          · left
            refine ⟨bits + 1, fits, ?_⟩
            rw [doubled]
            exact Nat.mod_eq_of_lt (Nat.pow_lt_pow_right (by decide) fits)
          · right
            have last : bits + 1 = 32 := by omega
            rw [last, Nat.mod_self] at doubled
            exact ⟨UInt32.toNat_inj.mp doubled,
              UInt32.lt_iff_toNat_lt.mpr
                (Nat.zero_lt_of_lt (UInt32.lt_iff_toNat_lt.mp goesOn))⟩
        · right
          subst isZero
          exact ⟨rfl, positive⟩
      · rw [if_neg goesOn] at returns
        cases returns
        rcases power with isPower | ⟨isZero, positive⟩
        · exact isPower
        · rw [isZero] at goesOn
          exact (goesOn positive).elim

/-- `fh_hash_size` returns a power of two. -/
theorem fhHashSize_power
    {s result : UInt32}
    (returns : fhHashSize s = .ok result) :
    ∃ bits, bits < 32 ∧ result.toNat = 2 ^ bits :=
  fhHashSizeLoop_power (.inl ⟨0, by decide, rfl⟩) returns

/-- An unsigned number that is not negative as an `int` is that number. -/
theorem toInt32_toInt
    {value : UInt32}
    (nonnegative : 0 ≤ value.toInt32.toInt) :
    value.toInt32.toInt = value.toNat := by
  have bound := value.toNat_lt
  simp only [Int32.toInt, UInt32.toBitVec_toInt32, BitVec.toInt_eq_toNat_cond,
    UInt32.toNat_toBitVec] at nonnegative ⊢
  split at nonnegative
  next small =>
    rw [if_pos small]
  next large =>
    omega

/-- A table that was created is filled in with a power of two of chains. -/
theorem fhCreate_eq
    {dim : Int32}
    {datalen : Int}
    {hashFunction : CString → UInt64}
    {grants : CreateGrants}
    {fh : FhT}
    (created : fhCreate dim datalen hashFunction grants = .ok (some fh)) :
    ∃ bits,
      bits < 32 ∧ fh = createdFh dim (2 ^ bits) datalen hashFunction := by
  obtain ⟨size, sizes, rest⟩ := Checked.bind_eq_ok.mp created
  obtain ⟨bits, small, isPower⟩ := fhHashSize_power sizes
  simp only at rest
  split at rest
  next =>
    cases rest
  next accepted =>
    split at rest
    next =>
      cases rest
    next =>
      split at rest
      next =>
        cases rest
      next =>
        cases rest
        rw [not_or, not_lt] at accepted
        refine ⟨bits, small, ?_⟩
        rw [toInt32_toInt accepted.1, isPower, Int.toNat_natCast]

/-- A new table stands for the empty map, and none of its locks is taken. -/
theorem createdFh_stores
    (dim : Int32)
    {bits : Nat}
    (small : bits < 64)
    (datalen : Int)
    (hashFunction : CString → UInt64) :
    (createdFh dim (2 ^ bits) datalen hashFunction).Stores (fun _ => none) ∧
      (createdFh dim (2 ^ bits) datalen hashFunction).locks.Free := by
  have noEntries :
      (createdFh dim (2 ^ bits) datalen hashFunction).table.entries = [] :=
    gather_eq_nil fun _ _ => rfl
  constructor
  · exact {
      magic := rfl
      ok := {
        dim := ⟨bits, small, rfl⟩
        slots := fun _ _ member => (List.not_mem_nil member).elim
        noneEmpty := fun _ _ member => (List.not_mem_nil member).elim
        distinct := fun _ => List.nodup_nil
        below := fun _ _ member => (List.not_mem_nil member).elim }
      binds := noEntries ▸ .nil
      counted := by rw [noEntries]; rfl }
  · exact .mutexes

section SetAttr

variable {fh : FhT}
  {map : CString → Option (Option OpaqueObj)}

/-- A table without entries has no buckets. -/
theorem FhTable.Ok.chains_nil
    {table : FhTable}
    (ok : table.Ok)
    (noEntries : table.entries = [])
    (index : Nat) :
    table.hashTable index = [] := by
  cases isChain : table.hashTable index with
  | nil =>
      rfl
  | cons bucket rest =>
      have isBucket : bucket ∈ table.hashTable index := by simp [isChain]
      have occupied := ok.noneEmpty index bucket isBucket
      have someUsed :
          ∃ position, (bucket.slot position).miniHash ≠ 0 := by
        by_contra allFree
        have empty : bucket.isEmpty = true := by
          apply List.all_eq_true.mpr
          intro position _
          simpa using not_exists_not.mp allFree position
        rw [occupied] at empty
        cases empty
      obtain ⟨position, used⟩ := someUsed
      generalize holds : bucket.slot position = slot at used
      have slotOk := ok.slots index bucket isBucket position
      rw [holds] at slotOk
      cases slotOk with
      | cleared =>
          exact (used rfl).elim
      | @used stored object isPlaced =>
          obtain ⟨before, after, split⟩ := List.append_of_mem isBucket
          have member := mem_chainEntries split holds
          rw [← isPlaced.1] at member
          have isEntry := ok.okFor.mem_entries.mpr member
          rw [noEntries] at isEntry
          exact (List.not_mem_nil isEntry).elim

/-- Choosing the other locks does not change whether keys are copied. -/
theorem userwlocks_dontcopykey (attr : UInt32) :
    (attr ||| fhSetattrUserwlocks) &&& fhSetattrDontcopykey =
      attr &&& fhSetattrDontcopykey := by
  apply UInt32.toBitVec_inj.mp
  apply BitVec.eq_of_getLsbD_eq
  intro position small
  simp only [fhSetattrUserwlocks, fhSetattrDontcopykey, UInt32.toBitVec_and,
    UInt32.toBitVec_or, BitVec.getLsbD_and, BitVec.getLsbD_or]
  cases position with
  | zero =>
      simp
  | succ position =>
      simp

/-- Choosing the other locks does not change where keys belong. -/
theorem userwlocks_belongs
    (table : FhTable)
    (index : Nat) :
    FhTable.Belongs
        { table with
          hAttr := table.hAttr ||| fhSetattrUserwlocks }
        index =
      table.Belongs index := by
  funext key
  simp only [FhTable.Belongs, FhTable.dontcopykey, FhTable.hashindex,
    userwlocks_dontcopykey]

/-- `fh_setattr` leaves the map and the data length as they are. -/
theorem fhSetattr_stores
    (stores : fh.Stores map)
    (attr : SetAttr)
    (value : Int)
    (granted : Bool) :
    (fhSetattr fh attr value granted).1.Stores map ∧
      ((fhSetattr fh attr value granted).1.locks = fh.locks ∨
        (fhSetattr fh attr value granted).1.locks.Free) ∧
      (fhSetattr fh attr value granted).1.table.hDatalen =
        fh.table.hDatalen := by
  unfold fhSetattr
  rw [if_neg (not_not.mpr stores.magic)]
  cases attr with
  | dontcopykey =>
      dsimp only
      split
      next =>
        exact ⟨stores, .inl rfl, rfl⟩
      next noElements =>
        have noEntries : fh.table.entries = [] := by
          have counted := stores.counted
          apply List.eq_nil_of_length_eq_zero
          omega
        have noBuckets := stores.ok.chains_nil noEntries
        refine ⟨?_, .inl rfl, rfl⟩
        exact {
          magic := stores.magic
          ok := {
            dim := stores.ok.dim
            slots := fun index bucket member => by
              simp [noBuckets] at member
            noneEmpty := stores.ok.noneEmpty
            distinct := stores.ok.distinct
            below := stores.ok.below }
          binds := stores.binds
          counted := stores.counted }
  | userwlocks =>
      dsimp only
      split
      next =>
        exact ⟨stores, .inl rfl, rfl⟩
      next =>
        split
        next =>
          exact ⟨stores, .inl rfl, rfl⟩
        next =>
          split
          next =>
            exact ⟨stores, .inl rfl, rfl⟩
          next =>
            refine ⟨?_, .inr .rwlocks, rfl⟩
            exact {
              magic := stores.magic
              ok := {
                dim := stores.ok.dim
                slots := fun index => by
                  rw [userwlocks_belongs]
                  exact stores.ok.slots index
                noneEmpty := stores.ok.noneEmpty
                distinct := stores.ok.distinct
                below := stores.ok.below }
              binds := stores.binds
              counted := stores.counted }
  | other =>
      exact ⟨stores, .inl rfl, rfl⟩

/-- Setting an attribute takes no lock. -/
theorem fhSetattr_free
    (stores : fh.Stores map)
    (free : fh.locks.Free)
    (attr : SetAttr)
    (value : Int)
    (granted : Bool) :
    (fhSetattr fh attr value granted).1.locks.Free := by
  obtain ⟨-, locks, -⟩ := fhSetattr_stores stores attr value granted
  rcases locks with same | isFree
  · rw [same]
    exact free
  · exact isFree

end SetAttr

end Clibs.Fh
