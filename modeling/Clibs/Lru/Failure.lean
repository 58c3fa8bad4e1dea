import Clibs.Lru.Recency

namespace Clibs.Lru

open Fh Ll

/-!
# What a failing `lru_add` leaves behind

`lru_add` takes its slot before it looks the key up and before it allocates the
key.  When the cache is full that evicts the least recently used entry, which a
later failure does not bring back.  `AddIsSafe` is the condition on the cache
and the allocations under which the call does what its result says.
-/

section Room

/-- The slot is used by the key. -/
def HoldsKey
    (slot : FhSlot)
    (key : CString) : Prop :=
  slot.miniHash ≠ 0 ∧ slot.key.map FhKey.string = some key

/--
When the key is left out, some bucket of the chain is used and has a free slot.
-/
def RoomWithout
    (key : CString)
    (chain : List FhBucket) : Prop :=
  ∃ bucket ∈ chain,
    (∃ index,
      (bucket.slot index).miniHash = 0 ∨
        HoldsKey (bucket.slot index) key) ∧
      ∃ index,
        (bucket.slot index).miniHash ≠ 0 ∧
          ¬ HoldsKey (bucket.slot index) key

variable {hashFunction : CString → UInt64}
  {belongs : FhKey → Prop}
  {chain next : List FhBucket}
  {key : CString}

/-- A bucket that is not empty has a used slot. -/
theorem exists_used
    {bucket : FhBucket}
    (occupied : bucket.isEmpty = false) :
    ∃ index, (bucket.slot index).miniHash ≠ 0 := by
  by_contra allFree
  have empty : bucket.isEmpty = true := by
    apply List.all_eq_true.mpr
    intro index _
    simpa using not_exists_not.mp allFree index
  rw [occupied] at empty
  cases empty

/-- A bucket has a free slot exactly when one can be claimed. -/
theorem freeSlot_ne_none
    {bucket : FhBucket} :
    freeSlot bucket ≠ none ↔
      ∃ index, (bucket.slot index).miniHash = 0 := by
  simp [freeSlot]

/-- A chain is not full exactly when some bucket has a free slot. -/
theorem not_chainFull :
    ¬ ChainFull chain ↔
      ∃ bucket ∈ chain, ∃ index, (bucket.slot index).miniHash = 0 := by
  simp only [ChainFull, not_forall, exists_prop]
  exact exists_congr fun bucket => and_congr_right fun _ => freeSlot_ne_none

/-- A slot that is used by a key is an entry of the key. -/
theorem holdsKey_entry
    (wellFormed : SlotsOk hashFunction belongs chain)
    {bucket : FhBucket}
    (member : bucket ∈ chain)
    {index : Fin bucketSize}
    (holds : HoldsKey (bucket.slot index) key) :
    ∃ object, (key, object) ∈ chainEntries chain := by
  obtain ⟨before, after, split⟩ := List.append_of_mem member
  generalize isSlot : bucket.slot index = slot at holds
  have slotOk := wellFormed bucket member index
  rw [isSlot] at slotOk
  cases slotOk with
  | cleared =>
      exact (holds.1 rfl).elim
  | @used stored object isPlaced =>
      have isKey : stored.string = key := Option.some.inj holds.2
      subst isKey
      exact ⟨object, mem_chainEntries split isSlot⟩

/-- Leaving out a key that is not in the chain makes no room. -/
theorem roomWithout_absent
    (wellFormed : SlotsOk hashFunction belongs chain)
    (noneEmpty : ∀ bucket ∈ chain, bucket.isEmpty = false)
    (absent : ∀ object, (key, object) ∉ chainEntries chain) :
    RoomWithout key chain ↔ ¬ ChainFull chain := by
  have notHeld :
      ∀ bucket ∈ chain,
        ∀ index, ¬ HoldsKey (bucket.slot index) key := by
    intro bucket member index holds
    obtain ⟨object, isEntry⟩ := holdsKey_entry wellFormed member holds
    exact absent object isEntry
  rw [not_chainFull]
  constructor
  · rintro ⟨bucket, member, ⟨index, free | holds⟩, -⟩
    · exact ⟨bucket, member, index, free⟩
    · exact (notHeld bucket member index holds).elim
  · rintro ⟨bucket, member, index, free⟩
    obtain ⟨other, used⟩ := exists_used (noneEmpty bucket member)
    exact ⟨bucket, member, ⟨index, .inl free⟩, other, used,
      notHeld bucket member other⟩

/-- Leaving out a key makes the room that clearing its slot makes. -/
theorem roomWithout_emptied
    {stored : FhKey}
    {object : Option OpaqueObj}
    {address : SlotAddress}
    (emptied : Emptied (usedSlot hashFunction stored object) chain address next)
    (wellFormed : SlotsOk hashFunction belongs chain)
    (noneEmpty : ∀ bucket ∈ chain, bucket.isEmpty = false)
    (absent : ∀ value, (stored.string, value) ∉ chainEntries next) :
    RoomWithout stored.string chain ↔ ¬ ChainFull next := by
  have nextWellFormed := emptied.slotsOk wellFormed
  have nextNoneEmpty := emptied.noneEmpty noneEmpty
  have isHeld :
      HoldsKey (usedSlot hashFunction stored object) stored.string :=
    ⟨makeMinihash_ne_zero _, rfl⟩
  cases emptied with
  | @kept before after bucket index holds occupied =>
      have inNext :
          bucket.setSlot index .cleared ∈
            before ++ bucket.setSlot index .cleared :: after := by
        simp
      have hasRoom :
          ¬ ChainFull (before ++ bucket.setSlot index .cleared :: after) :=
        not_chainFull.mpr ⟨_, inNext, index, by rw [setSlot_self]; rfl⟩
      refine iff_of_true ?_ hasRoom
      obtain ⟨other, used⟩ := exists_used occupied
      have isOther : other ≠ index := by
        rintro rfl
        exact used (by rw [setSlot_self]; rfl)
      refine ⟨bucket, by simp, ⟨index, .inr (by rwa [holds])⟩, other, ?_, ?_⟩
      · rwa [setSlot_ne isOther] at used
      · intro otherHolds
        rw [← setSlot_ne isOther] at otherHolds
        obtain ⟨value, isEntry⟩ :=
          holdsKey_entry nextWellFormed inNext otherHolds
        exact absent value isEntry
  | @unlinked before after bucket index holds empty =>
      rw [← roomWithout_absent nextWellFormed nextNoneEmpty absent]
      have onlyKey :
          ∀ other,
            (bucket.slot other).miniHash ≠ 0 →
            HoldsKey (bucket.slot other) stored.string := by
        intro other used
        by_cases same : other = index
        · subst same
          rwa [holds]
        · have free :=
            List.all_eq_true.mp empty other (List.mem_finRange other)
          rw [setSlot_ne same] at free
          exact (used (by simpa using free)).elim
      constructor
      · rintro ⟨found, member, hasSlot, other, used, notKey⟩
        have isOther : found ≠ bucket := by
          rintro rfl
          exact notKey (onlyKey other used)
        refine ⟨found, ?_, hasSlot, other, used, notKey⟩
        simpa [isOther] using member
      · rintro ⟨found, member, rest⟩
        refine ⟨found, ?_, rest⟩
        rcases List.mem_append.mp member with inBefore | inAfter
        · simp [inBefore]
        · simp [inAfter]

/-- The room in the chain of one key after another one was deleted. -/
theorem roomWithout_deleted
    {table after : FhTable}
    {stored : FhKey}
    {object : Option OpaqueObj}
    {address : SlotAddress}
    (ok : table.Ok)
    (deleted : table.Deleted after stored object address)
    (absent : ∀ value, (stored.string, value) ∉ after.entries)
    (key : CString) :
    RoomWithout stored.string (table.hashTable (table.indexOf key)) ↔
      ¬ ChainFull (after.hashTable (after.indexOf key)) := by
  have afterOk := deleted.ok ok
  rw [deleted.same.indexOf]
  obtain ⟨chain, step, emptied⟩ := deleted.step
  rw [step.chains]
  by_cases same : table.indexOf key = table.indexOf stored.string
  · rw [same, Function.update_self]
    apply roomWithout_emptied emptied (ok.slots _) (ok.noneEmpty _)
    intro value isEntry
    apply absent value
    apply afterOk.okFor.mem_entries.mpr
    rwa [deleted.same.indexOf, step.chains, Function.update_self]
  · rw [Function.update_of_ne same]
    apply roomWithout_absent (ok.slots _) (ok.noneEmpty _)
    intro value isEntry
    obtain ⟨found, isKey, belongs⟩ := FhTable.belongs_of_mem (ok.slots _) isEntry
    apply same
    rw [FhTable.indexOf, FhTable.indexOf, ← isKey]
    exact belongs.1.symm

end Room

/--
A call of `lru_add` does what the cache promises: it returns and reports a key
that is cached, and when it reports an error the entries are as they were.
-/
def FailureLeavesCache
    (lru : LruT)
    (key : CString)
    (payload : Nat)
    (grants : AddGrants) : Prop :=
  ∃ next code,
    lruAdd lru key payload grants = .ok (next, code) ∧
      (key ∈ lru.entries.map Prod.fst → code = lruDuplicatedElement) ∧
      (code = lruDuplicatedElement ∨ code = lruNoMemory →
        next.entries = lru.entries)

/-- The chain of a key has room once the least recently used key is out. -/
def RoomAfterEviction
    (lru : LruT)
    (key : CString) : Prop :=
  ∃ victim ∈ lru.entries.getLast?,
    RoomWithout victim.1
      (lru.fh.table.hashTable (lru.fh.table.indexOf key))

/--
A cached key is added to a cache with a free slot and memory for the key; a new
one to a cache with a free slot, or with memory for all that it needs.
-/
def AddIsSafe
    (lru : LruT)
    (key : CString)
    (grants : AddGrants) : Prop :=
  if key ∈ lru.entries.map Prod.fst then
    lru.ll.freelist ≠ none ∧ grants.key = true
  else
    lru.ll.freelist ≠ none ∨
      grants.key = true ∧
        (grants.insert.bucket = true ∨ RoomAfterEviction lru key)

section Calls

variable {lru : LruT}
  {capacity : Nat}
  {map : CString → Option (Option OpaqueObj)}
  {recency : List Card}
  {free : List Nat}
  {slot : Nat}
  {key : CString}
  {grants : AddGrants}

/-- How `lru_add` ends once it has a slot. -/
inductive AddOutcome
    (capacity : Nat)
    (recency : List Card)
    (free : List Nat)
    (slot : Nat)
    (key : CString)
    (payload : Nat)
    (next : LruT) : Int → Prop where
  | added
      {map : CString → Option (Option OpaqueObj)} :
      next.AtRest capacity map (⟨slot, key, payload⟩ :: recency) free →
      AddOutcome capacity recency free slot key payload next lruOk
  | refused
      {map : CString → Option (Option OpaqueObj)}
      {code : Int} :
      code = lruDuplicatedElement ∨ code = lruNoMemory →
      next.AtRest capacity map recency (slot :: free) →
      AddOutcome capacity recency free slot key payload next code

/-- Once it has a slot, `lru_add` links it or puts it back. -/
theorem addNew_outcome
    (stands : lru.Stands capacity map recency free [.taken slot])
    (key : CString)
    (payload : Nat)
    (grants : AddGrants) :
    ∃ next code,
      addNew lru slot slot key payload grants = .ok (next, code) ∧
        AddOutcome capacity recency free slot key payload next code ∧
        (code = lruOk ↔
          grants.key = true ∧
            map key = none ∧
            (grants.insert.bucket = true ∨
              ¬ ChainFull
                (lru.fh.table.hashTable (lru.fh.table.indexOf key)))) ∧
        (code = lruDuplicatedElement ↔
          grants.key = true ∧ map key ≠ none) := by
  cases granted : grants.key with
  | false =>
      obtain ⟨next, adds, rest⟩ :=
        addNew_noKey stands granted key payload
      exact ⟨next, _, adds, .refused (.inr rfl) rest, by simp [lruNoMemory, lruOk],
        by simp [lruNoMemory, lruDuplicatedElement]⟩
  | true =>
      cases isBound : map key with
      | some object =>
          obtain ⟨next, adds, rest⟩ :=
            addNew_bound stands granted isBound payload
          exact ⟨next, _, adds, .refused (.inl rfl) rest,
            by simp [lruDuplicatedElement, lruOk], by simp⟩
      | none =>
          by_cases memory :
              grants.insert.bucket = true ∨
                ¬ ChainFull
                  (lru.fh.table.hashTable (lru.fh.table.indexOf key))
          · obtain ⟨next, nextMap, adds, rest⟩ :=
              addNew_new stands granted isBound memory payload
            exact ⟨next, _, adds, .added rest, by simp [memory],
              by simp [lruDuplicatedElement, lruOk]⟩
          · obtain ⟨noBucket, full⟩ := not_or.mp memory
            obtain ⟨next, adds, rest⟩ :=
              addNew_noBucket stands granted isBound
                (by simpa using noBucket) (not_not.mp full) payload
            exact ⟨next, _, adds, .refused (.inr rfl) rest,
              by simp [lruNoMemory, lruOk, memory],
              by simp [lruNoMemory, lruDuplicatedElement]⟩

/-- The promise, for the result of the call. -/
theorem failureLeavesCache_iff
    {payload : Nat}
    {next : LruT}
    {code : Int}
    (adds : lruAdd lru key payload grants = .ok (next, code)) :
    FailureLeavesCache lru key payload grants ↔
      (key ∈ lru.entries.map Prod.fst → code = lruDuplicatedElement) ∧
        (code = lruDuplicatedElement ∨ code = lruNoMemory →
          next.entries = lru.entries) := by
  constructor
  · rintro ⟨other, otherCode, otherAdds, promise⟩
    cases adds.symm.trans otherAdds
    exact promise
  · intro promise
    exact ⟨next, code, adds, promise⟩

/-- A successful code is not an error. -/
theorem ok_not_error :
    ¬ (lruOk = lruDuplicatedElement ∨ lruOk = lruNoMemory) := by
  decide

/-- Whether a cache at rest has a key is whether the table binds it. -/
theorem LruT.AtRest.cached_iff
    (rest : lru.AtRest capacity map recency free)
    (key : CString) :
    key ∈ lru.entries.map Prod.fst ↔ map key ≠ none := by
  rw [rest.ok.entries, entry_keys, Option.ne_none_iff_exists']
  rw [rest.bound_iff key, List.mem_map]

/-- With a free slot the promise is kept unless a cached key has no memory. -/
theorem add_iff_of_free
    (rest : lru.AtRest capacity map recency (slot :: free))
    (key : CString)
    (payload : Nat)
    (grants : AddGrants) :
    FailureLeavesCache lru key payload grants ↔
      (key ∈ lru.entries.map Prod.fst → grants.key = true) := by
  obtain ⟨taken, takes, takenStands, sameFh⟩ := takeSlot_free rest 1
  obtain ⟨next, code, adds, outcome, -, isDuplicate⟩ :=
    addNew_outcome takenStands key payload grants
  rw [failureLeavesCache_iff
    ((lruAdd_eq rest takes payload grants).trans adds)]
  have unchanged :
      code = lruDuplicatedElement ∨ code = lruNoMemory →
        next.entries = lru.entries := by
    intro isError
    cases outcome with
    | added nextRest =>
        exact (ok_not_error isError).elim
    | refused _ nextRest =>
        rw [nextRest.ok.entries, rest.ok.entries]
  constructor
  · rintro ⟨reported, -⟩ cached
    exact (isDuplicate.mp (reported cached)).1
  · intro granted
    refine ⟨fun cached => ?_, unchanged⟩
    exact isDuplicate.mpr ⟨granted cached, (rest.cached_iff key).mp cached⟩

section Full

variable {kept : List Card}
  {victim : Card}

/-- The room for a key after the eviction from a full cache. -/
theorem roomAfterEviction_iff
    (rest : lru.AtRest capacity map (kept ++ [victim]) [])
    {taken : LruT}
    {takenMap : CString → Option (Option OpaqueObj)}
    {takenRecency : List Card}
    {takenFree : List Nat}
    {hands : List Hand}
    (takenStands :
      taken.Stands capacity takenMap takenRecency takenFree hands)
    (isUnbound : takenMap victim.key = none)
    {code : Int}
    (deletes : fhDel lru.fh (some victim.key) = .ok (taken.fh, code))
    (key : CString) :
    RoomAfterEviction lru key ↔
      ¬ ChainFull
        (taken.fh.table.hashTable (taken.fh.table.indexOf key)) := by
  have isCached : victim ∈ cachedCards (kept ++ [victim]) [] := by
    simp [cachedCards]
  obtain ⟨table, stored, found, address, otherDeletes, isKey, deleted⟩ :=
    fhDel_deleted rest.ok.stores (rest.locks.available _)
      (rest.ok.bound isCached)
  have sameResult := Except.ok.inj (deletes.symm.trans otherDeletes)
  have sameFh := (Prod.mk.inj sameResult).1
  have isLast : lru.entries.getLast? = some victim.entry := by
    rw [rest.ok.entries]
    simp
  have absent := takenStands.ok.stores.notMem_entries isUnbound
  rw [sameFh] at absent ⊢
  rw [← isKey] at absent
  rw [← roomWithout_deleted rest.ok.stores.ok deleted absent key]
  simp only [RoomAfterEviction, isLast, Option.mem_some_iff,
    exists_eq_left', Card.entry, isKey]

/-- A full cache keeps the promise only by adding a new key. -/
theorem add_iff_of_full
    (rest : lru.AtRest capacity map (kept ++ [victim]) [])
    (key : CString)
    (payload : Nat)
    (grants : AddGrants) :
    FailureLeavesCache lru key payload grants ↔
      key ∉ lru.entries.map Prod.fst ∧
        grants.key = true ∧
        (grants.insert.bucket = true ∨ RoomAfterEviction lru key) := by
  obtain ⟨taken, takes, takenStands, delCode, deletes⟩ := takeSlot_full rest
  obtain ⟨next, code, adds, outcome, isOk, -⟩ :=
    addNew_outcome takenStands key payload grants
  rw [failureLeavesCache_iff
    ((lruAdd_eq rest takes payload grants).trans adds),
    roomAfterEviction_iff rest takenStands (Function.update_self ..) deletes,
    rest.cached_iff]
  have added_of_unchanged :
      (code = lruDuplicatedElement ∨ code = lruNoMemory →
          next.entries = lru.entries) →
        code = lruOk := by
    intro unchanged
    cases outcome with
    | added nextRest =>
        rfl
    | refused isError nextRest =>
        have same := unchanged isError
        rw [nextRest.ok.entries, rest.ok.entries] at same
        have lengths := congrArg List.length same
        simp at lengths
  constructor
  · rintro ⟨reported, unchanged⟩
    have isAdded := added_of_unchanged unchanged
    have isUnbound : map key = none := by
      by_contra isBound
      have isDuplicate := reported isBound
      rw [isAdded] at isDuplicate
      cases isDuplicate
    obtain ⟨granted, -, memory⟩ := isOk.mp isAdded
    exact ⟨not_not.mpr isUnbound, granted, memory⟩
  · rintro ⟨notBound, granted, memory⟩
    have isUnbound : map key = none := not_not.mp notBound
    have stillUnbound : Function.update map victim.key none key = none := by
      by_cases isVictim : key = victim.key
      · rw [isVictim, Function.update_self]
      · rw [Function.update_of_ne isVictim]
        exact isUnbound
    have isAdded := isOk.mpr ⟨granted, stillUnbound, memory⟩
    subst isAdded
    exact ⟨fun isBound => (isBound isUnbound).elim,
      fun isError => (ok_not_error isError).elim⟩

end Full

/-- The promise is kept exactly when the call is safe. -/
theorem add_iff_safe
    (rest : lru.AtRest capacity map recency free)
    (positive : 0 < capacity)
    (key : CString)
    (payload : Nat)
    (grants : AddGrants) :
    FailureLeavesCache lru key payload grants ↔ AddIsSafe lru key grants := by
  unfold AddIsSafe
  cases free with
  | cons slot free =>
      have isFree : lru.ll.freelist = some slot := rest.ok.ll.chained.1
      rw [add_iff_of_free rest]
      simp [isFree]
  | nil =>
      have isFull : lru.ll.freelist = none := rest.ok.ll.chained
      have count := rest.count
      rcases List.eq_nil_or_concat' recency with rfl | ⟨kept, victim, rfl⟩
      · rw [← count] at positive
        cases positive
      · rw [add_iff_of_full rest]
        simp only [isFull, ne_eq, not_true_eq_false, false_and, false_or]
        split
        next cached =>
          exact iff_of_false (fun promise => promise.1 cached) id
        next absent =>
          exact and_iff_right absent

/-- How a call of `lru_add` ends: what it evicts is the last card at most. -/
theorem lruAdd_outcome
    (rest : lru.AtRest capacity map recency free)
    (positive : 0 < capacity)
    (key : CString)
    (payload : Nat)
    (grants : AddGrants) :
    ∃ next code slot kept keptFree,
      lruAdd lru key payload grants = .ok (next, code) ∧
        kept.Sublist recency ∧
        AddOutcome capacity kept keptFree slot key payload next code := by
  have exists_taken :
      ∃ taken slot takenMap kept keptFree,
        takeSlot 2 lru = .ok (taken, some (slot, slot)) ∧
          kept.Sublist recency ∧
          taken.Stands capacity takenMap kept keptFree [.taken slot] := by
    cases free with
    | cons slot free =>
        obtain ⟨taken, takes, takenStands, -⟩ := takeSlot_free rest 1
        exact ⟨taken, slot, _, _, _, takes, .refl _, takenStands⟩
    | nil =>
        have count := rest.count
        rcases List.eq_nil_or_concat' recency with rfl | ⟨kept, victim, rfl⟩
        · rw [← count] at positive
          cases positive
        · obtain ⟨taken, takes, takenStands, -⟩ := takeSlot_full rest
          exact ⟨taken, victim.slot, _, _, _, takes,
            List.sublist_append_left .., takenStands⟩
  obtain ⟨taken, slot, takenMap, kept, keptFree, takes, isPart,
    takenStands⟩ := exists_taken
  obtain ⟨next, code, adds, outcome, -⟩ :=
    addNew_outcome takenStands key payload grants
  exact ⟨next, code, slot, kept, keptFree,
    (lruAdd_eq rest takes payload grants).trans adds, isPart, outcome⟩

/-- A call of `lru_add` leaves a cache at rest. -/
theorem lruAdd_atRest
    (rest : lru.AtRest capacity map recency free)
    (positive : 0 < capacity)
    (key : CString)
    (payload : Nat)
    (grants : AddGrants) :
    ∃ next code nextMap nextRecency nextFree,
      lruAdd lru key payload grants = .ok (next, code) ∧
        next.AtRest capacity nextMap nextRecency nextFree := by
  obtain ⟨next, code, slot, kept, keptFree, adds, -, outcome⟩ :=
    lruAdd_outcome rest positive key payload grants
  cases outcome with
  | added nextRest =>
      exact ⟨next, _, _, _, _, adds, nextRest⟩
  | refused _ nextRest =>
      exact ⟨next, _, _, _, _, adds, nextRest⟩

/-- Every call, with any allocations, leaves a cache at rest. -/
theorem lruStep_atRest
    {entries : List (CString × Nat)}
    (positive : 0 < capacity)
    (caches : Caches capacity lru entries)
    (call : LruCall × AddGrants) :
    ∃ next result,
      lruStep call.2 lru call.1 = .ok (next, result) ∧
        ∃ nextEntries, Caches capacity next nextEntries := by
  obtain ⟨call, grants⟩ := call
  cases call with
  | check key =>
      cases found : entries.lookup key with
      | none =>
          refine ⟨lru, ⟨lruElementNotFound, none⟩, ?_, entries, caches⟩
          simp only [lruStep, caches.check_miss found, Checked.ok_bind]
      | some payload =>
          obtain ⟨next, checks, nextCaches⟩ := caches.check_hit found
          refine ⟨next, ⟨lruOk, some payload⟩, ?_, _, nextCaches⟩
          simp only [lruStep, checks, Checked.ok_bind]
  | add key payload =>
      obtain ⟨map, recency, free, rest, -⟩ := caches.exists_cards
      obtain ⟨next, code, nextMap, nextRecency, nextFree, adds, nextRest⟩ :=
        lruAdd_atRest rest positive key payload grants
      refine ⟨next, ⟨code, none⟩, ?_, _, nextRest.caches⟩
      simp only [lruStep, adds, Checked.ok_bind]
  | clear =>
      obtain ⟨next, clears, nextCaches⟩ := caches.clear
      refine ⟨next, ⟨lruOk, none⟩, ?_, _, nextCaches⟩
      simp only [lruStep, clears, Checked.ok_bind]

end Calls

/--
After every run of calls, with any outcome of their allocations, `lru_add` keeps
its promise exactly when the call is safe.
-/
theorem add_failure_leaves_cache_iff
    {dim : Int32}
    {hashFunction : CString → UInt64}
    {grants : LruGrants}
    {lru : LruT}
    (created : lruCreate dim hashFunction grants = .ok (some lru))
    (calls : List (LruCall × AddGrants)) :
    ∃ final results,
      runCalls (fun lru call => lruStep call.2 lru call.1) lru calls =
          .ok (final, results) ∧
        ∀ key payload addGrants,
          FailureLeavesCache final key payload addGrants ↔
            AddIsSafe final key addGrants := by
  obtain ⟨caches, positive⟩ := lruCreate_caches created
  have stepKeeps :
      ∀ {state : LruT} {call : LruCall × AddGrants},
        (∃ entries, Caches dim.toInt.toNat state entries) →
        True →
        ∃ next result,
          lruStep call.2 state call.1 = .ok (next, result) ∧
            ∃ entries, Caches dim.toInt.toNat next entries := by
    rintro state call ⟨entries, stateCaches⟩ -
    exact lruStep_atRest positive stateCaches call
  have permitted :
      AlwaysAllowed
        (StepOf fun lru (call : LruCall × AddGrants) =>
          lruStep call.2 lru call.1)
        (fun _ _ => True) lru calls :=
    alwaysAllowed_of_forall (fun _ _ _ => trivial) lru
  obtain ⟨final, results, runs, entries, finalCaches⟩ :=
    runCalls_invariant stepKeeps ⟨[], caches⟩ permitted
  obtain ⟨map, recency, free, rest, -⟩ := finalCaches.exists_cards
  exact ⟨final, results, runs, fun key payload addGrants =>
    add_iff_safe rest positive key payload addGrants⟩

/-- A full cache of two keys: a third key without memory is not safe to add. -/
theorem add_failure_leaves_cache_iff_full :
    ∃ lru final results,
      lruCreate 2 (fun _ => 7) .all = .ok (some lru) ∧
        runCalls (fun lru (call : LruCall × AddGrants) =>
              lruStep call.2 lru call.1) lru
            [(.add ⟨[97], by decide⟩ 1, .all),
              (.add ⟨[98], by decide⟩ 2, .all)] =
          .ok (final, results) ∧
        (FailureLeavesCache final ⟨[99], by decide⟩ 3
            { AddGrants.all with
              key := false } ↔
          AddIsSafe final ⟨[99], by decide⟩
            { AddGrants.all with
              key := false }) := by
  have creates :
      ∃ lru, lruCreate 2 (fun _ => 7) .all = .ok (some lru) := ⟨_, rfl⟩
  obtain ⟨lru, created⟩ := creates
  obtain ⟨final, results, runs, promise⟩ :=
    add_failure_leaves_cache_iff created
      [(.add ⟨[97], by decide⟩ 1, .all), (.add ⟨[98], by decide⟩ 2, .all)]
  exact ⟨lru, final, results, created, runs, promise _ _ _⟩

/--
Adding a key that is cached to a full cache: the call reports the duplicate, and
the least recently used entry is gone.
-/
theorem duplicate_add_evicts :
    ∃ lru final results next,
      lruCreate 2 (fun _ => 7) .all = .ok (some lru) ∧
        runCalls (fun lru (call : LruCall × AddGrants) =>
              lruStep call.2 lru call.1) lru
            [(.add ⟨[97], by decide⟩ 1, .all),
              (.add ⟨[98], by decide⟩ 2, .all)] =
          .ok (final, results) ∧
        lruAdd final ⟨[98], by decide⟩ 3 .all =
          .ok (next, lruDuplicatedElement) ∧
        final.entries =
          [(⟨[98], by decide⟩, 2), (⟨[97], by decide⟩, 1)] ∧
        next.entries = [(⟨[98], by decide⟩, 2)] ∧
        ¬ FailureLeavesCache final ⟨[98], by decide⟩ 3 .all := by
  refine ⟨_, _, _, _, rfl, rfl, rfl, rfl, rfl, ?_⟩
  rw [failureLeavesCache_iff rfl]
  rintro ⟨-, unchanged⟩
  have lengths := congrArg List.length (unchanged (.inl rfl))
  cases lengths

end Clibs.Lru
