import Clibs.Lru.Invariant

namespace Clibs.Lru

open Fh Ll

/-!
# The operations of a cache in a single thread

`LruT.AtRest` is the agreement of table and list between two operations, when
nothing is in hands and no lock is held.  The loop of `lru_add` takes a slot,
evicting the card at the bottom of the list when none is free; the rest of
`lru_add` links the slot at the top or puts it back.  `lru_check` moves a card
to the top and `lru_clear` removes all of them.
-/

/-- No lock is held, and the list has the given number of slots. -/
structure LruT.Stands
    (lru : LruT)
    (capacity : Nat)
    (map : CString → Option (Option OpaqueObj))
    (recency : List Card)
    (free : List Nat)
    (hands : List Hand) : Prop where
  ok : lru.Ok map recency free hands
  locks : lru.fh.locks.Free
  size : lru.ll.size = capacity

/-- The state of a cache between two operations. -/
def LruT.AtRest
    (lru : LruT)
    (capacity : Nat)
    (map : CString → Option (Option OpaqueObj))
    (recency : List Card)
    (free : List Nat) : Prop :=
  lru.Stands capacity map recency free []

section Reading

/-- The slots from the top down are the listed ones. -/
theorem slotsFrom_eq
    {ll : LlT}
    {above : Option Nat}
    {slots : List Nat}
    {fuel : Nat}
    (linked : DoublyLinked ll.next ll.prev above slots none)
    (enough : slots.length ≤ fuel) :
    slotsFrom ll fuel slots.head? = slots := by
  induction slots generalizing above fuel with
  | nil =>
      cases fuel with
      | zero =>
          rfl
      | succ fuel =>
          rfl
  | cons slot rest inductionHypothesis =>
      obtain ⟨-, isBelow, linkedRest⟩ := linked
      rw [Option.or_none] at isBelow
      cases fuel with
      | zero =>
          cases enough
      | succ fuel =>
          rw [List.head?_cons, slotsFrom, isBelow,
            inductionHypothesis linkedRest (Nat.le_of_succ_le_succ enough)]

/-- The cached keys are those of the recency list. -/
theorem LruT.Ok.entries
    {lru : LruT}
    {map : CString → Option (Option OpaqueObj)}
    {recency : List Card}
    {free : List Nat}
    {hands : List Hand}
    (ok : lru.Ok map recency free hands) :
    lru.entries = recency.map Card.entry := by
  have fits : (recency.map Card.slot).length ≤ lru.ll.size := by
    have count := ok.ll.count
    omega
  rw [LruT.entries, ok.ll.top, slotsFrom_eq ok.ll.linked fits,
    List.filterMap_map]
  have isEntry :
      ∀ card ∈ recency,
        ((fun slot => (lru.payloads slot).entry) ∘ Card.slot) card =
          (some ∘ Card.entry) card := by
    intro card member
    have record := ok.records card (List.mem_append_left _ member)
    simp only [Function.comp_apply, record, Card.record, LruPayload.entry,
      Card.entry]
  rw [List.filterMap_congr isEntry, List.filterMap_eq_map]

end Reading

section Stands

variable {lru : LruT}
  {capacity : Nat}
  {map : CString → Option (Option OpaqueObj)}
  {recency : List Card}
  {free : List Nat}
  {hands : List Hand}
  {slot : Nat}

/-- A card of a cache at rest is listed. -/
theorem LruT.Stands.bound_iff
    (stands : lru.Stands capacity map recency free [])
    (key : CString) :
    (∃ object, map key = some object) ↔ ∃ card ∈ recency, card.key = key := by
  have sameCards : cachedCards recency [] = recency := List.append_nil _
  constructor
  · rintro ⟨object, bound⟩
    obtain ⟨card, member, isKey, -⟩ := stands.ok.exists_card bound
    rw [sameCards] at member
    exact ⟨card, member, isKey⟩
  · rintro ⟨card, member, rfl⟩
    rw [← sameCards] at member
    exact ⟨_, stands.ok.bound member⟩

/-- A key that is not cached is not in the table. -/
theorem LruT.Stands.unbound
    (stands : lru.Stands capacity map recency free [])
    {key : CString}
    (absent : key ∉ recency.map Card.key) :
    map key = none := by
  cases isBound : map key with
  | none =>
      rfl
  | some object =>
      obtain ⟨card, member, rfl⟩ :=
        (stands.bound_iff key).mp ⟨object, isBound⟩
      exact (absent (List.mem_map_of_mem member)).elim

/-- There are as many listed, free and held slots as the capacity. -/
theorem LruT.Stands.count
    (stands : lru.Stands capacity map recency free hands) :
    recency.length + free.length + hands.length = capacity := by
  have count := stands.ok.ll.count
  rw [List.length_map, List.length_map, stands.size] at count
  exact count

/-- The listed keys are distinct. -/
theorem LruT.Stands.keys_nodup
    (stands : lru.Stands capacity map recency free []) :
    (recency.map Card.key).Nodup := by
  have distinct := stands.ok.binds.distinct
  rwa [cachedCards, List.filterMap_nil, List.append_nil, List.map_map]
    at distinct

section TakeSlot

/-- A free slot is taken at once. -/
theorem takeSlot_free
    (stands : lru.Stands capacity map recency (slot :: free) [])
    (fuel : Nat) :
    ∃ next,
      takeSlot (fuel + 1) lru = .ok (next, some (slot, slot)) ∧
        next.Stands capacity map recency free [.taken slot] ∧
        next.fh = lru.fh := by
  obtain ⟨ll, takes, ok, size⟩ := slotNew_some stands.ok
  refine ⟨_, ?_, ⟨ok, stands.locks, size.trans stands.size⟩, rfl⟩
  rw [takeSlot, takes]

/-- Without a free slot the card at the bottom of the list is evicted. -/
theorem takeSlot_full
    {victim : Card}
    (stands : lru.Stands capacity map (recency ++ [victim]) [] []) :
    ∃ next,
      takeSlot 2 lru = .ok (next, some (victim.slot, victim.slot)) ∧
        next.Stands capacity (Function.update map victim.key none) recency []
          [.taken victim.slot] ∧
        ∃ code, fhDel lru.fh (some victim.key) = .ok (next.fh, code) := by
  obtain ⟨listed, removes, removedOk, listedSize⟩ := removeLast_some stands.ok
  obtain ⟨fh, deletes, deletedOk, becomes⟩ :=
    delKey_removed removedOk (stands.locks.available _)
  obtain ⟨freed, frees, freedOk, sameFh, freedSize⟩ :=
    freeKeyAndSlot_ok deletedOk rfl rfl
  have locks : freed.fh.locks.Free := by
    rw [sameFh]
    change fh.locks.Free
    rw [becomes.locks]
    exact stands.locks
  obtain ⟨next, takes, nextStands, nextFh⟩ :=
    takeSlot_free ⟨freedOk, locks, freedSize.trans listedSize⟩ 0
  refine ⟨next, ?_, ?_, lru.fh.table.indexOf victim.key, ?_⟩
  · rw [takeSlot, slotNew_none stands.ok]
    simp only [removes, deletes, frees, takes, Checked.ok_bind]
  · rw [stands.size] at nextStands
    exact nextStands
  · rw [nextFh, sameFh]
    have record : lru.payloads victim.slot = victim.record :=
      stands.ok.records victim (by simp)
    unfold delKey at deletes
    simp only [record, Card.record, KeyPointer.read, Checked.ok_bind]
      at deletes
    obtain ⟨⟨table, code⟩, isDeleted, same⟩ := Checked.bind_eq_ok.mp deletes
    cases same
    exact isDeleted

end TakeSlot

/-- An index is not an error of an insertion. -/
theorem insertError_index (index : Nat) :
    insertError index = none := by
  have notDuplicated : (index : Int) ≠ fhDuplicatedElement := by
    unfold fhDuplicatedElement
    omega
  have notMemory : (index : Int) ≠ fhNoMemory := by
    unfold fhNoMemory
    omega
  simp [insertError, notDuplicated, notMemory]

section AddNew

variable {key : CString}
  {payload : Nat}
  {grants : AddGrants}

/-- Without memory for the key the slot is put back. -/
theorem addNew_noKey
    (stands : lru.Stands capacity map recency free [.taken slot])
    (refused : grants.key = false)
    (key : CString)
    (payload : Nat) :
    ∃ next,
      addNew lru slot slot key payload grants = .ok (next, lruNoMemory) ∧
        next.AtRest capacity map recency (slot :: free) := by
  have filled := fillRecord_taken stands.ok key payload false
  refine ⟨freeSlotOnly (fillRecord lru slot slot key payload false) slot, ?_,
    ⟨freeSlotOnly_taken filled, stands.locks, stands.size⟩⟩
  simp only [addNew, refused, if_true]

/-- A slot whose key was refused by the table is put back. -/
theorem addNew_refused
    {code : Int}
    (stands : lru.Stands capacity map recency free [.taken slot])
    (granted : grants.key = true)
    {fh : FhT}
    {lruErr : Int}
    (inserts :
      insertKey (fillRecord lru slot slot key payload true) slot
          grants.insert =
        .ok
          ({ fillRecord lru slot slot key payload true with
              fh := fh },
            lruErr))
    (insertedOk :
      LruT.Ok
        { fillRecord lru slot slot key payload true with
          fh := fh }
        map recency free [.keyed ⟨slot, key, payload⟩])
    (becomes : lru.fh.Becomes fh map)
    (isError : insertError lruErr = some code) :
    ∃ next,
      addNew lru slot slot key payload grants = .ok (next, code) ∧
        next.AtRest capacity map recency (slot :: free) := by
  obtain ⟨next, frees, nextOk, sameFh, size⟩ :=
    freeKeyAndSlot_ok insertedOk rfl rfl
  refine ⟨next, ?_, ⟨nextOk, ?_, size.trans stands.size⟩⟩
  · simp only [addNew, granted, Bool.true_eq_false, if_false, inserts,
      isError, frees, Checked.ok_bind]
  · rw [sameFh]
    change fh.locks.Free
    rw [becomes.locks]
    exact stands.locks

/-- A key that is cached is not added. -/
theorem addNew_bound
    (stands : lru.Stands capacity map recency free [.taken slot])
    (granted : grants.key = true)
    {object : Option OpaqueObj}
    (bound : map key = some object)
    (payload : Nat) :
    ∃ next,
      addNew lru slot slot key payload grants =
          .ok (next, lruDuplicatedElement) ∧
        next.AtRest capacity map recency (slot :: free) := by
  have filled := fillRecord_taken stands.ok key payload true
  obtain ⟨fh, inserts, insertedOk, becomes⟩ :=
    insertKey_bound filled (stands.locks.available _) bound grants.insert
  exact addNew_refused stands granted inserts insertedOk becomes rfl

/-- Without memory for a bucket that is needed the key is not added. -/
theorem addNew_noBucket
    (stands : lru.Stands capacity map recency free [.taken slot])
    (granted : grants.key = true)
    (isUnbound : map key = none)
    (refused : grants.insert.bucket = false)
    (full :
      ChainFull (lru.fh.table.hashTable (lru.fh.table.indexOf key)))
    (payload : Nat) :
    ∃ next,
      addNew lru slot slot key payload grants = .ok (next, lruNoMemory) ∧
        next.AtRest capacity map recency (slot :: free) := by
  have filled := fillRecord_taken stands.ok key payload true
  obtain ⟨fh, inserts, insertedOk, becomes⟩ :=
    insertKey_noBucket filled (stands.locks.available _) isUnbound refused
      full
  exact addNew_refused stands granted inserts insertedOk becomes rfl

/-- A key that is not cached is added at the top of the list. -/
theorem addNew_new
    (stands : lru.Stands capacity map recency free [.taken slot])
    (granted : grants.key = true)
    (isUnbound : map key = none)
    (memory :
      grants.insert.bucket = true ∨
        ¬ ChainFull (lru.fh.table.hashTable (lru.fh.table.indexOf key)))
    (payload : Nat) :
    ∃ next nextMap,
      addNew lru slot slot key payload grants = .ok (next, lruOk) ∧
        next.AtRest capacity nextMap (⟨slot, key, payload⟩ :: recency)
          free := by
  have filled := fillRecord_taken stands.ok key payload true
  obtain ⟨fh, nextMap, inserts, insertedOk, becomes, -⟩ :=
    insertKey_new filled (stands.locks.available _) isUnbound memory
  obtain ⟨addedOk, size⟩ := addToTop_inserted insertedOk
  refine ⟨_, nextMap, ?_, ⟨addedOk, ?_, size.trans stands.size⟩⟩
  · have isIndex := insertError_index (lru.fh.table.indexOf key)
    simp only [addNew, granted, Bool.true_eq_false, if_false]
    rw [show
      insertKey (fillRecord lru slot slot key payload true) slot
          grants.insert = _ from inserts]
    simp only [Checked.ok_bind, fillRecord] at isIndex ⊢
    rw [isIndex]
  · change fh.locks.Free
    rw [becomes.locks]
    exact stands.locks

end AddNew

end Stands

section Operations

variable {lru : LruT}
  {capacity : Nat}
  {map : CString → Option (Option OpaqueObj)}
  {recency : List Card}
  {free : List Nat}
  {key : CString}

/-- A search that misses leaves the cache as it was. -/
theorem lruCheck_miss
    (rest : lru.AtRest capacity map recency free)
    (absent : key ∉ recency.map Card.key) :
    lruCheck lru key = .ok (lru, lruElementNotFound, none) := by
  have searches :=
    searchKey_unbound rest.ok (rest.locks.available _) (rest.unbound absent)
  rw [lruCheck, if_neg (not_not.mpr rest.ok.magic)]
  simp only [searches, Checked.ok_bind]
  rfl

/-- A search that hits returns the payload and moves the card to the top. -/
theorem lruCheck_hit
    {card : Card}
    {front back : List Card}
    (rest : lru.AtRest capacity map (front ++ card :: back) free) :
    ∃ next,
      lruCheck lru card.key = .ok (next, lruOk, some card.payload) ∧
        next.AtRest capacity map (card :: (front ++ back)) free := by
  have isCached : card ∈ cachedCards (front ++ card :: back) [] := by
    simp [cachedCards]
  obtain ⟨held, takes, gives⟩ :=
    (rest.locks.available (lru.fh.table.indexOf card.key)).wlock
  have searches := searchKey_bound rest.ok takes isCached
  obtain ⟨ll, moves, movedOk, size⟩ :=
    moveToTop_listed (rest.ok.with_locks held)
  have releases := releaseKey_eq movedOk gives
  refine ⟨_, ?_, movedOk.with_locks lru.fh.locks, rest.locks,
    size.trans rest.size⟩
  rw [lruCheck, if_neg (not_not.mpr rest.ok.magic)]
  simp only [searches, recordOf, recordBlock, moves, releases,
    Checked.ok_bind]

/-- The loop of `lru_clear` empties the list. -/
theorem lruClearLoop_eq
    (rest : lru.AtRest capacity map recency free)
    {fuel : Nat}
    (enough : recency.length < fuel) :
    ∃ next nextMap nextFree,
      lruClearLoop fuel lru = .ok (next, lruOk) ∧
        next.AtRest capacity nextMap [] nextFree := by
  induction recency using List.reverseRecOn generalizing lru map free fuel with
  | nil =>
      cases fuel with
      | zero =>
          cases enough
      | succ fuel =>
          refine ⟨lru, map, free, ?_, rest⟩
          rw [lruClearLoop, removeLast_none rest.ok]
  | append_singleton recency card inductionHypothesis =>
      cases fuel with
      | zero =>
          cases enough
      | succ fuel =>
          obtain ⟨ll, removes, removedOk, listedSize⟩ :=
            removeLast_some rest.ok
          obtain ⟨fh, deletes, deletedOk, becomes⟩ :=
            delKey_removed removedOk (rest.locks.available _)
          obtain ⟨freed, frees, freedOk, sameFh, freedSize⟩ :=
            freeKeyAndSlot_ok deletedOk rfl rfl
          have locks : freed.fh.locks.Free := by
            rw [sameFh]
            change fh.locks.Free
            rw [becomes.locks]
            exact rest.locks
          have shorter : recency.length < fuel := by
            rw [List.length_append, List.length_singleton] at enough
            omega
          have freedRest : freed.AtRest capacity _ recency _ :=
            ⟨freedOk, locks,
              (freedSize.trans listedSize).trans rest.size⟩
          obtain ⟨next, nextMap, nextFree, loops, nextRest⟩ :=
            inductionHypothesis freedRest shorter
          refine ⟨next, nextMap, nextFree, ?_, nextRest⟩
          have noError :
              ¬ ((lru.fh.table.indexOf card.key : Nat) : Int) < 0 := by
            omega
          rw [lruClearLoop]
          simp only [removes, deletes, frees, loops, noError, if_false,
            Checked.ok_bind]

/-- `lru_clear` empties the list. -/
theorem lruClear_eq
    (rest : lru.AtRest capacity map recency free) :
    ∃ next nextMap nextFree,
      lruClear lru = .ok (next, lruOk) ∧
        next.AtRest capacity nextMap [] nextFree := by
  have count := rest.count
  have enough : recency.length < lru.ll.size + 1 := by
    rw [rest.size]
    omega
  obtain ⟨next, nextMap, nextFree, loops, nextRest⟩ :=
    lruClearLoop_eq rest enough
  refine ⟨next, nextMap, nextFree, ?_, nextRest⟩
  rw [lruClear, if_neg (not_not.mpr rest.ok.magic)]
  exact loops

/-- What `lru_add` does once it has a slot. -/
theorem lruAdd_eq
    (rest : lru.AtRest capacity map recency free)
    {next : LruT}
    {slot : Nat}
    (takes : takeSlot 2 lru = .ok (next, some (slot, slot)))
    (payload : Nat)
    (grants : AddGrants) :
    lruAdd lru key payload grants =
      addNew next slot slot key payload grants := by
  rw [lruAdd, if_neg (not_not.mpr rest.ok.magic)]
  simp only [takes, Checked.ok_bind]

end Operations

end Clibs.Lru
