import Clibs.Fh.Create
import Clibs.Ll.Invariant
import Clibs.Lru.Cache

namespace Clibs.Lru

open Fh Ll

/-!
# The table and the list of a cache agree

A `Card` is a slot with the key and payload of its record.  The recency list is
a list of cards, and so are the slots in the hands of unfinished operations once
they have a key.  `LruT.Ok` says that every slot is listed, free or in hands,
that the records agree with the cards, and that the table binds exactly the keys
of the cards that are listed or in hands that have yet to delete or to link
them.  One lemma for each call gives the new place of the slot it is about.
-/

/-- A slot with the key and the payload of its record. -/
structure Card where
  slot : Nat
  key : CString
  payload : Nat
  deriving Repr, DecidableEq

/-- What the table binds the key of a card to. -/
def Card.binding (card : Card) : CString × Option OpaqueObj :=
  (card.key, some (.pointer (recordBlock card.slot)))

/-- The record of a card. -/
def Card.record (card : Card) : LruPayload where
  payload := card.payload
  llSlot := some card.slot
  fhKey := .allocated card.key

/-- The entry of a card. -/
def Card.entry (card : Card) : CString × Nat :=
  (card.key, card.payload)

/--
A slot in the hands of an operation: taken from the free list, given a record
with a key, inserted into the table; or removed from the list, and its key
deleted from the table.
-/
inductive Hand where
  | taken (slot : Nat)
  | keyed (card : Card)
  | inserted (card : Card)
  | removed (card : Card)
  | deleted (card : Card)
  deriving Repr, DecidableEq

namespace Hand

/-- The slot in hands. -/
def slot : Hand → Nat
  | .taken slot =>
      slot
  | .keyed card =>
      card.slot
  | .inserted card =>
      card.slot
  | .removed card =>
      card.slot
  | .deleted card =>
      card.slot

/-- The card of a slot whose record has a key. -/
def card : Hand → Option Card
  | .taken _ =>
      none
  | .keyed card =>
      some card
  | .inserted card =>
      some card
  | .removed card =>
      some card
  | .deleted card =>
      some card

/-- The card of a slot whose key is in the table. -/
def cached : Hand → Option Card
  | .inserted card =>
      some card
  | .removed card =>
      some card
  | _ =>
      none

/-- The slot comes from the free list. -/
def isNew : Hand → Bool
  | .taken _ =>
      true
  | .keyed _ =>
      true
  | .inserted _ =>
      true
  | _ =>
      false

end Hand

/-- The cards whose keys are in the table. -/
def cachedCards
    (recency : List Card)
    (hands : List Hand) : List Card :=
  recency ++ hands.filterMap Hand.cached

/-- The table and the list agree. -/
structure LruT.Ok
    (lru : LruT)
    (map : CString → Option (Option OpaqueObj))
    (recency : List Card)
    (free : List Nat)
    (hands : List Hand) : Prop where
  magic : lru.magic = lruMagicId
  ll : lru.ll.Ok (recency.map Card.slot) free (hands.map Hand.slot)
  stores : lru.fh.Stores map
  hDatalen : lru.fh.table.hDatalen = fhDatalenVoidp
  dontcopykey : lru.fh.table.dontcopykey = true
  binds : Binds ((cachedCards recency hands).map Card.binding) map
  records :
    ∀ card ∈ recency ++ hands.filterMap Hand.card,
      lru.payloads card.slot = card.record
  cleared :
    ∀ hand ∈ hands, hand.isNew = true → lru.ll.Cleared hand.slot

section Places

variable {lru : LruT}
  {map : CString → Option (Option OpaqueObj)}
  {recency : List Card}
  {free : List Nat}
  {hands : List Hand}
  {card : Card}

/-- The order of the hands does not matter. -/
theorem LruT.Ok.perm
    (ok : lru.Ok map recency free hands)
    {others : List Hand}
    (same : others.Perm hands) :
    lru.Ok map recency free others where
  magic := ok.magic
  ll := ok.ll.perm (same.map _)
  stores := ok.stores
  hDatalen := ok.hDatalen
  dontcopykey := ok.dontcopykey
  binds :=
    ok.binds.perm
      (((same.filterMap Hand.cached).append_left recency).map Card.binding)
  records card member := by
    apply ok.records card
    have samePlaces :=
      (same.filterMap Hand.card).append_left recency
    exact samePlaces.mem_iff.mp member
  cleared hand member := ok.cleared hand (same.mem_iff.mp member)

/-- A cached card is a card of a listed slot or of one in hands. -/
theorem mem_of_cached
    (member : card ∈ cachedCards recency hands) :
    card ∈ recency ++ hands.filterMap Hand.card := by
  rcases List.mem_append.mp member with isListed | isHeld
  · exact List.mem_append_left _ isListed
  · obtain ⟨hand, inHands, isCached⟩ := List.mem_filterMap.mp isHeld
    apply List.mem_append_right
    refine List.mem_filterMap.mpr ⟨hand, inHands, ?_⟩
    cases hand with
    | taken slot =>
        cases isCached
    | keyed card =>
        cases isCached
    | inserted card =>
        exact isCached
    | removed card =>
        exact isCached
    | deleted card =>
        cases isCached

/-- The table binds the key of a cached card to its record. -/
theorem LruT.Ok.bound
    (ok : lru.Ok map recency free hands)
    (member : card ∈ cachedCards recency hands) :
    map card.key = some (some (.pointer (recordBlock card.slot))) :=
  (ok.binds.bound _ _).mpr (List.mem_map_of_mem (f := Card.binding) member)

/-- A key that is bound is the key of a cached card. -/
theorem LruT.Ok.exists_card
    (ok : lru.Ok map recency free hands)
    {key : CString}
    {object : Option OpaqueObj}
    (bound : map key = some object) :
    ∃ card ∈ cachedCards recency hands,
      card.key = key ∧
        object = some (.pointer (recordBlock card.slot)) := by
  obtain ⟨card, member, same⟩ :=
    List.mem_map.mp ((ok.binds.bound _ _).mp bound)
  cases same
  exact ⟨card, member, rfl, rfl⟩

/-- The record of a cached card. -/
theorem LruT.Ok.record
    (ok : lru.Ok map recency free hands)
    (member : card ∈ cachedCards recency hands) :
    lru.payloads card.slot = card.record :=
  ok.records card (mem_of_cached member)

/-- A slot is not in the hands of two operations, nor in the list as well. -/
theorem LruT.Ok.others_apart
    {hand : Hand}
    (ok : lru.Ok map recency free (hand :: hands))
    (member : card ∈ recency ++ hands.filterMap Hand.card) :
    card.slot ≠ hand.slot := by
  have distinct := ok.ll.nodup
  rw [List.append_assoc, List.nodup_append] at distinct
  obtain ⟨-, restDistinct, listedApart⟩ := distinct
  rw [List.nodup_append, List.map_cons, List.nodup_cons] at restDistinct
  rcases List.mem_append.mp member with isListed | isHeld
  · exact listedApart _ (List.mem_map_of_mem (f := Card.slot) isListed) _
      (by simp)
  · obtain ⟨other, inHands, isCard⟩ := List.mem_filterMap.mp isHeld
    have sameSlot : other.slot = card.slot := by
      cases other with
      | taken slot =>
          cases isCard
      | keyed held =>
          cases isCard
          rfl
      | inserted held =>
          cases isCard
          rfl
      | removed held =>
          cases isCard
          rfl
      | deleted held =>
          cases isCard
          rfl
    intro same
    apply restDistinct.2.1.1
    rw [← same, ← sameSlot]
    exact List.mem_map_of_mem inHands

/-- At most as many keys are cached as there are slots. -/
theorem LruT.Ok.cached_le
    (ok : lru.Ok map recency free hands) :
    (cachedCards recency hands).length ≤ lru.ll.size := by
  have count := ok.ll.count
  have fewer := List.length_filterMap_le Hand.cached hands
  simp only [List.length_map] at count
  rw [cachedCards, List.length_append]
  omega

end Places

section ListCalls

variable {lru : LruT}
  {map : CString → Option (Option OpaqueObj)}
  {recency : List Card}
  {free : List Nat}
  {hands : List Hand}

/-- New links of the list: the other hands keep their cleared links. -/
theorem LruT.Ok.cleared_of_keeps
    (ok : lru.Ok map recency free hands)
    {next : LlT}
    {kept : List Hand}
    (keeps : lru.ll.KeepsLinks next (kept.map Hand.slot))
    (inside : ∀ hand ∈ kept, hand ∈ hands) :
    ∀ hand ∈ kept, hand.isNew = true → next.Cleared hand.slot := by
  intro hand member isNew
  exact keeps.cleared (List.mem_map_of_mem member)
    (ok.cleared hand (inside hand member) isNew)

/-- The list is linked anew, and its cards and those in hands change places. -/
theorem LruT.Ok.with_ll
    (ok : lru.Ok map recency free hands)
    {ll : LlT}
    {nextRecency : List Card}
    {nextFree : List Nat}
    {nextHands : List Hand}
    (llOk :
      ll.Ok (nextRecency.map Card.slot) nextFree (nextHands.map Hand.slot))
    (sameCached :
      (cachedCards nextRecency nextHands).Perm (cachedCards recency hands))
    (sameCards :
      (nextRecency ++ nextHands.filterMap Hand.card).Perm
        (recency ++ hands.filterMap Hand.card))
    (cleared :
      ∀ hand ∈ nextHands, hand.isNew = true → ll.Cleared hand.slot) :
    LruT.Ok
      { lru with
        ll := ll }
      map nextRecency nextFree nextHands where
  magic := ok.magic
  ll := llOk
  stores := ok.stores
  hDatalen := ok.hDatalen
  dontcopykey := ok.dontcopykey
  binds := ok.binds.perm (sameCached.map Card.binding)
  records card member := ok.records card (sameCards.mem_iff.mp member)
  cleared := cleared

/-- Without a free slot there is none to take. -/
theorem slotNew_none
    (ok : lru.Ok map recency [] hands) :
    slotNew lru = (lru, none) := by
  simp only [slotNew, llSlotNew_none ok.ll]

/-- The first free slot is taken. -/
theorem slotNew_some
    {slot : Nat}
    (ok : lru.Ok map recency (slot :: free) hands) :
    ∃ ll,
      slotNew lru =
          ({ lru with
              ll := ll },
            some (slot, slot)) ∧
        LruT.Ok
          { lru with
            ll := ll }
          map recency free (.taken slot :: hands) ∧
        ll.size = lru.ll.size := by
  obtain ⟨next, takes, nextOk, cleared, keeps, size⟩ := llSlotNew_some ok.ll
  refine ⟨next, by simp only [slotNew, takes], ?_, size⟩
  refine ok.with_ll nextOk (.refl _) (.refl _) ?_
  rw [List.forall_mem_cons]
  exact ⟨fun _ => cleared, ok.cleared_of_keeps keeps fun _ => id⟩

/-- Without a listed slot there is none to remove. -/
theorem removeLast_none
    (ok : lru.Ok map [] free hands) :
    removeLast lru = (lru, none) := by
  simp only [removeLast, llRemoveLast_none ok.ll]

/-- The card at the bottom of the list is removed from it. -/
theorem removeLast_some
    {card : Card}
    (ok : lru.Ok map (recency ++ [card]) free hands) :
    ∃ ll,
      removeLast lru =
          ({ lru with
              ll := ll },
            some (card.slot, card.slot)) ∧
        LruT.Ok
          { lru with
            ll := ll }
          map recency free (.removed card :: hands) ∧
        ll.size = lru.ll.size := by
  have llOk := ok.ll
  rw [List.map_append, List.map_singleton] at llOk
  obtain ⟨next, removes, nextOk, keeps, size⟩ := llRemoveLast_some llOk
  refine ⟨next, by simp only [removeLast, removes], ?_, size⟩
  have samePlaces :
      ∀ others : List Card,
        (recency ++ card :: others).Perm (recency ++ [card] ++ others) := by
    intro others
    rw [List.append_assoc, List.singleton_append]
  refine ok.with_ll nextOk (samePlaces _) (samePlaces _) ?_
  rw [List.forall_mem_cons]
  refine ⟨?_, ok.cleared_of_keeps keeps fun _ => id⟩
  intro isNew
  cases isNew

/-- A slot without a key is put back on the free list. -/
theorem freeSlotOnly_taken
    {slot : Nat}
    (ok : lru.Ok map recency free (.taken slot :: hands)) :
    (freeSlotOnly lru slot).Ok map recency (slot :: free) hands := by
  obtain ⟨nextOk, keeps, -⟩ := llSlotFree_ok ok.ll
  refine ok.with_ll nextOk (.refl _) (.refl _) ?_
  exact ok.cleared_of_keeps keeps fun _ member => List.mem_cons_of_mem _ member

/-- A card that the table has a key of is linked at the top of the list. -/
theorem addToTop_inserted
    {card : Card}
    (ok : lru.Ok map recency free (.inserted card :: hands)) :
    (addToTop lru card.slot).Ok map (card :: recency) free hands ∧
      (addToTop lru card.slot).ll.size = lru.ll.size := by
  have cleared := ok.cleared (.inserted card) (List.mem_cons_self ..) rfl
  obtain ⟨nextOk, keeps, size⟩ := llSlotAddToTop_ok ok.ll cleared
  have samePlaces :
      ∀ others : List Card,
        (card :: recency ++ others).Perm (recency ++ card :: others) :=
    fun others => List.perm_middle.symm
  refine ⟨?_, size⟩
  refine ok.with_ll nextOk (samePlaces _) (samePlaces _) ?_
  exact ok.cleared_of_keeps keeps fun _ member => List.mem_cons_of_mem _ member

/-- The payload of a listed card is copied out, and it is moved to the top. -/
theorem moveToTop_listed
    {card : Card}
    {front back : List Card}
    (ok : lru.Ok map (front ++ card :: back) free hands) :
    ∃ ll,
      moveToTop lru card.slot =
          .ok
            ({ lru with
                ll := ll },
              card.payload) ∧
        LruT.Ok
          { lru with
            ll := ll }
          map (card :: (front ++ back)) free hands ∧
        ll.size = lru.ll.size := by
  have record : lru.payloads card.slot = card.record :=
    ok.records card (by simp)
  have llOk := ok.ll
  rw [List.map_append, List.map_cons] at llOk
  obtain ⟨nextOk, keeps, size⟩ := llSlotMoveToTop_listed llOk
  rw [← List.map_append] at nextOk
  have samePlaces :
      ∀ others : List Card,
        (card :: (front ++ back) ++ others).Perm
          (front ++ card :: back ++ others) :=
    fun others => (List.perm_middle.symm).append_right others
  refine ⟨llSlotMoveToTop lru.ll card.slot, ?_, ?_, size⟩
  · simp only [moveToTop, record, Card.record]
  · refine ok.with_ll nextOk (samePlaces _) (samePlaces _) ?_
    exact ok.cleared_of_keeps keeps fun _ => id

/-- The payload of a card in hands is copied out, and it is not moved. -/
theorem moveToTop_held
    {hand : Hand}
    {card : Card}
    (ok : lru.Ok map recency free hands)
    (inHands : hand ∈ hands)
    (isCached : hand.cached = some card) :
    moveToTop lru card.slot = .ok (lru, card.payload) := by
  have member : card ∈ cachedCards recency hands :=
    List.mem_append_right _ (List.mem_filterMap.mpr ⟨hand, inHands, isCached⟩)
  have record := ok.record member
  have sameSlot : hand.slot = card.slot := by
    cases hand with
    | taken slot =>
        cases isCached
    | keyed held =>
        cases isCached
    | inserted held =>
        cases isCached
        rfl
    | removed held =>
        cases isCached
        rfl
    | deleted held =>
        cases isCached
  have isHeld : card.slot ∈ hands.map Hand.slot :=
    sameSlot ▸ List.mem_map_of_mem inHands
  simp only [moveToTop, record, Card.record,
    llSlotMoveToTop_held ok.ll isHeld]

end ListCalls

section RecordCalls

variable {lru : LruT}
  {map : CString → Option (Option OpaqueObj)}
  {recency : List Card}
  {free : List Nat}
  {hands : List Hand}

/-- Assigning to the record of a slot in hands leaves the other records. -/
theorem LruT.Ok.records_update
    {hand : Hand}
    (ok : lru.Ok map recency free (hand :: hands))
    (record : LruPayload) :
    ∀ card ∈ recency ++ hands.filterMap Hand.card,
      Function.update lru.payloads hand.slot record card.slot =
        card.record := by
  intro card member
  rw [Function.update_of_ne (ok.others_apart member)]
  apply ok.records card
  rcases List.mem_append.mp member with isListed | isHeld
  · exact List.mem_append_left _ isListed
  · apply List.mem_append_right
    obtain ⟨other, inHands, isCard⟩ := List.mem_filterMap.mp isHeld
    exact List.mem_filterMap.mpr
      ⟨other, List.mem_cons_of_mem _ inHands, isCard⟩

/-- The record of a taken slot is filled in, and gets a key if it is granted. -/
theorem fillRecord_taken
    {slot : Nat}
    (ok : lru.Ok map recency free (.taken slot :: hands))
    (key : CString)
    (payload : Nat)
    (granted : Bool) :
    (fillRecord lru slot slot key payload granted).Ok map recency free
      ((if granted then .keyed ⟨slot, key, payload⟩ else .taken slot) ::
        hands) := by
  have otherRecords :=
    ok.records_update
      { payload := payload
        llSlot := some slot
        fhKey := if granted then .allocated key else .null }
  cases granted with
  | false =>
      exact {
        magic := ok.magic
        ll := ok.ll
        stores := ok.stores
        hDatalen := ok.hDatalen
        dontcopykey := ok.dontcopykey
        binds := ok.binds
        records := otherRecords
        cleared := ok.cleared }
  | true =>
      exact {
        magic := ok.magic
        ll := ok.ll
        stores := ok.stores
        hDatalen := ok.hDatalen
        dontcopykey := ok.dontcopykey
        binds := ok.binds
        records := by
          intro card member
          have places :
              card = ⟨slot, key, payload⟩ ∨
                card ∈ recency ++ hands.filterMap Hand.card := by
            simpa [Hand.card, or_left_comm] using member
          rcases places with rfl | isOther
          · exact Function.update_self ..
          · exact otherRecords card isOther
        cleared := by
          rw [List.forall_mem_cons]
          exact ⟨fun _ => ok.cleared (.taken slot) (List.mem_cons_self ..) rfl,
            fun hand member =>
              ok.cleared hand (List.mem_cons_of_mem _ member)⟩ }

/-- The key of a card that is not in the table is freed, and its slot too. -/
theorem freeKeyAndSlot_ok
    {hand : Hand}
    {card : Card}
    (ok : lru.Ok map recency free (hand :: hands))
    (isCard : hand.card = some card)
    (notCached : hand.cached = none) :
    ∃ next,
      freeKeyAndSlot lru card.slot card.slot = .ok next ∧
        next.Ok map recency (card.slot :: free) hands ∧
        next.fh = lru.fh ∧
        next.ll.size = lru.ll.size := by
  have sameSlot : hand.slot = card.slot := by
    cases hand with
    | taken slot =>
        cases isCard
    | keyed held =>
        cases isCard
        rfl
    | inserted held =>
        cases notCached
    | removed held =>
        cases notCached
    | deleted held =>
        cases isCard
        rfl
  have record : lru.payloads card.slot = card.record := by
    apply ok.records card
    apply List.mem_append_right
    exact List.mem_filterMap.mpr ⟨hand, List.mem_cons_self .., isCard⟩
  have llOk := ok.ll
  rw [List.map_cons, sameSlot] at llOk
  obtain ⟨nextOk, keeps, size⟩ := llSlotFree_ok llOk
  have frees :
      freeKeyAndSlot lru card.slot card.slot =
        .ok
          { lru with
            ll := llSlotFree lru.ll card.slot
            payloads :=
              Function.update lru.payloads card.slot
                { card.record with
                  fhKey := .freed } } := by
    simp only [freeKeyAndSlot, record, Card.record, KeyPointer.free,
      Checked.ok_bind]
  refine ⟨_, frees, ?_, rfl, size⟩
  have otherRecords :=
    ok.records_update
      { card.record with
        fhKey := .freed }
  rw [sameSlot] at otherRecords
  exact {
    magic := ok.magic
    ll := nextOk
    stores := ok.stores
    hDatalen := ok.hDatalen
    dontcopykey := ok.dontcopykey
    binds := by
      have binds := ok.binds
      rw [cachedCards, List.filterMap_cons_none notCached] at binds
      exact binds
    records := otherRecords
    cleared :=
      ok.cleared_of_keeps keeps fun _ member =>
        List.mem_cons_of_mem _ member }

end RecordCalls

section TableCalls

variable {lru : LruT}
  {map : CString → Option (Option OpaqueObj)}
  {recency : List Card}
  {free : List Nat}
  {hands : List Hand}
  {card : Card}

/-- A table that becomes another one keeps the settings of the cache. -/
theorem becomes_settings
    {fh next : FhT}
    (becomes : fh.Becomes next map)
    (hDatalen : fh.table.hDatalen = fhDatalenVoidp)
    (dontcopykey : fh.table.dontcopykey = true) :
    next.table.hDatalen = fhDatalenVoidp ∧
      next.table.dontcopykey = true := by
  refine ⟨becomes.same.hDatalen.trans hDatalen, ?_⟩
  rw [FhTable.dontcopykey, becomes.same.hAttr]
  exact dontcopykey

/-- The key of a card that was removed from the list is deleted. -/
theorem delKey_removed
    (ok : lru.Ok map recency free (.removed card :: hands))
    (available :
      lru.fh.locks.Available (lru.fh.table.indexOf card.key)) :
    ∃ fh,
      delKey lru card.slot =
          .ok
            ({ lru with
                fh := fh },
              lru.fh.table.indexOf card.key) ∧
        LruT.Ok
          { lru with
            fh := fh }
          (Function.update map card.key none) recency free
          (.deleted card :: hands) ∧
        lru.fh.Becomes fh (Function.update map card.key none) := by
  have record : lru.payloads card.slot = card.record :=
    ok.records card (by simp [Hand.card])
  have isCached : card ∈ cachedCards recency (.removed card :: hands) := by
    simp [cachedCards, Hand.cached]
  obtain ⟨fh, deletes, becomes⟩ :=
    fhDel_bound ok.stores available (ok.bound isCached)
  obtain ⟨hDatalen, dontcopykey⟩ :=
    becomes_settings becomes ok.hDatalen ok.dontcopykey
  refine ⟨fh, ?_, ?_, becomes⟩
  · simp only [delKey, record, Card.record, KeyPointer.read, deletes,
      Checked.ok_bind]
  · exact {
      magic := ok.magic
      ll := ok.ll
      stores := becomes.stores
      hDatalen := hDatalen
      dontcopykey := dontcopykey
      binds := by
        apply Binds.tail
        apply ok.binds.perm
        rw [← Card.binding, ← List.map_cons]
        exact List.perm_middle.symm.map Card.binding
      records := ok.records
      cleared := by
        have cleared := ok.cleared
        rw [List.forall_mem_cons] at cleared ⊢
        exact ⟨fun isNew => (by cases isNew), cleared.2⟩ }

/-- What an insertion stores for a record. -/
theorem LruT.Ok.slotKey
    (ok : lru.Ok map recency free hands)
    (key : CString)
    (granted : Bool) :
    lru.fh.table.slotKey key granted =
      some
        { string := key
          copied := false } := by
  simp [FhTable.slotKey, ok.dontcopykey]

/-- The pointer to a record is stored as it is. -/
theorem LruT.Ok.blockObject
    (ok : lru.Ok map recency free hands)
    (slot : Nat)
    (granted : Bool) :
    blockObject lru.fh.table.hDatalen (some (recordBlock slot)) granted =
      .ok (some (.pointer (recordBlock slot))) := by
  rw [ok.hDatalen]
  rfl

section InsertKey

variable {grants : InsertGrants}

/-- The call of `fh_insert` for a record with a key. -/
theorem insertKey_eq
    (ok : lru.Ok map recency free (.keyed card :: hands))
    {fh : FhT}
    {code : Int}
    (inserts :
      fhInsert lru.fh (some card.key) (some (recordBlock card.slot)) grants =
        .ok (fh, code)) :
    insertKey lru card.slot grants =
      .ok
        ({ lru with
            fh := fh },
          code) := by
  have record : lru.payloads card.slot = card.record :=
    ok.records card (by simp [Hand.card])
  simp only [insertKey, record, Card.record, KeyPointer.read, inserts,
    Checked.ok_bind]

/-- A table with the same map leaves the cards. -/
theorem LruT.Ok.with_fh
    (ok : lru.Ok map recency free hands)
    {fh : FhT}
    (becomes : lru.fh.Becomes fh map) :
    LruT.Ok
      { lru with
        fh := fh }
      map recency free hands := by
  obtain ⟨hDatalen, dontcopykey⟩ :=
    becomes_settings becomes ok.hDatalen ok.dontcopykey
  exact {
    magic := ok.magic
    ll := ok.ll
    stores := becomes.stores
    hDatalen := hDatalen
    dontcopykey := dontcopykey
    binds := ok.binds
    records := ok.records
    cleared := ok.cleared }

/-- A key that is in the table is not inserted. -/
theorem insertKey_bound
    (ok : lru.Ok map recency free (.keyed card :: hands))
    (available :
      lru.fh.locks.Available (lru.fh.table.indexOf card.key))
    {object : Option OpaqueObj}
    (bound : map card.key = some object)
    (grants : InsertGrants) :
    ∃ fh,
      insertKey lru card.slot grants =
          .ok
            ({ lru with
                fh := fh },
              fhDuplicatedElement) ∧
        LruT.Ok
          { lru with
            fh := fh }
          map recency free (.keyed card :: hands) ∧
        lru.fh.Becomes fh map := by
  obtain ⟨fh, inserts, becomes⟩ := fhInsert_bound ok.stores available bound
  exact ⟨fh, insertKey_eq ok inserts, ok.with_fh becomes, becomes⟩

/-- Without memory for a bucket that is needed the key is not inserted. -/
theorem insertKey_noBucket
    (ok : lru.Ok map recency free (.keyed card :: hands))
    (available :
      lru.fh.locks.Available (lru.fh.table.indexOf card.key))
    (isUnbound : map card.key = none)
    (refused : grants.bucket = false)
    (full :
      ChainFull
        (lru.fh.table.hashTable (lru.fh.table.indexOf card.key))) :
    ∃ fh,
      insertKey lru card.slot grants =
          .ok
            ({ lru with
                fh := fh },
              fhNoMemory) ∧
        LruT.Ok
          { lru with
            fh := fh }
          map recency free (.keyed card :: hands) ∧
        lru.fh.Becomes fh map := by
  obtain ⟨fh, inserts, becomes⟩ :=
    fhInsert_noBucket ok.stores available isUnbound refused full
  exact ⟨fh, insertKey_eq ok inserts, ok.with_fh becomes, becomes⟩

/-- A key that is not in the table is inserted. -/
theorem insertKey_new
    (ok : lru.Ok map recency free (.keyed card :: hands))
    (available :
      lru.fh.locks.Available (lru.fh.table.indexOf card.key))
    (isUnbound : map card.key = none)
    (memory :
      grants.bucket = true ∨
        ¬ ChainFull
          (lru.fh.table.hashTable (lru.fh.table.indexOf card.key))) :
    ∃ fh nextMap,
      insertKey lru card.slot grants =
          .ok
            ({ lru with
                fh := fh },
              lru.fh.table.indexOf card.key) ∧
        LruT.Ok
          { lru with
            fh := fh }
          nextMap recency free (.inserted card :: hands) ∧
        lru.fh.Becomes fh nextMap ∧
        nextMap =
          Function.update map card.key
            (some (some (.pointer (recordBlock card.slot)))) := by
  obtain ⟨fh, inserts, becomes⟩ :=
    fhInsert_new ok.stores available isUnbound (ok.slotKey card.key _)
      (ok.blockObject card.slot _) memory
  obtain ⟨hDatalen, dontcopykey⟩ :=
    becomes_settings becomes ok.hDatalen ok.dontcopykey
  refine ⟨fh, _, insertKey_eq ok inserts, ?_, becomes, rfl⟩
  exact {
    magic := ok.magic
    ll := ok.ll
    stores := becomes.stores
    hDatalen := hDatalen
    dontcopykey := dontcopykey
    binds := by
      apply (ok.binds.cons isUnbound _).perm
      rw [← Card.binding, ← List.map_cons]
      exact List.perm_middle.map Card.binding
    records := ok.records
    cleared := by
      have cleared := ok.cleared
      rw [List.forall_mem_cons] at cleared ⊢
      exact ⟨fun _ => cleared.1 rfl, cleared.2⟩ }

end InsertKey

/-- A search for a key that is not in the table. -/
theorem searchKey_unbound
    {key : CString}
    (ok : lru.Ok map recency free hands)
    (available : lru.fh.locks.Available (lru.fh.table.indexOf key))
    (isUnbound : map key = none) :
    searchKey lru key = .ok (lru, .failed fhElementNotFound) := by
  simp only [searchKey, fhSearchlock_unbound ok.stores available isUnbound,
    Checked.ok_bind]

/-- A search for the key of a cached card keeps the lock of its chain. -/
theorem searchKey_bound
    (ok : lru.Ok map recency free hands)
    {held : FhLocks}
    (takes :
      lru.fh.locks.wlock (lru.fh.table.indexOf card.key) = .ok held)
    (isCached : card ∈ cachedCards recency hands) :
    searchKey lru card.key =
      .ok
        ({ lru with
            fh :=
              { lru.fh with
                locks := held } },
          { opaqueObj := some (.pointer (recordBlock card.slot))
            error := fhOk
            lockedSlot := some (lru.fh.table.indexOf card.key)
            opaqueObjAddr := none }) := by
  simp only [searchKey,
    fhSearchlock_bound ok.stores takes (ok.bound isCached), Checked.ok_bind]

/-- The locks do not matter for the agreement. -/
theorem LruT.Ok.with_locks
    (ok : lru.Ok map recency free hands)
    (locks : FhLocks) :
    LruT.Ok
      { lru with
        fh :=
          { lru.fh with
            locks := locks } }
      map recency free hands where
  magic := ok.magic
  ll := ok.ll
  stores := {
    magic := ok.stores.magic
    ok := ok.stores.ok
    binds := ok.stores.binds
    counted := ok.stores.counted }
  hDatalen := ok.hDatalen
  dontcopykey := ok.dontcopykey
  binds := ok.binds
  records := ok.records
  cleared := ok.cleared

/-- The lock that a search kept is released. -/
theorem releaseKey_eq
    {slot : Nat}
    {locks : FhLocks}
    (ok : lru.Ok map recency free hands)
    (gives : lru.fh.locks.unlock slot = .ok locks) :
    releaseKey lru (some slot) =
      .ok
        { lru with
          fh :=
            { lru.fh with
              locks := locks } } := by
  have releases : fhReleaselock lru.fh slot = _ :=
    fhReleaselock_eq ok.stores.magic gives
  simp only [releaseKey, releases, Checked.ok_bind]

end TableCalls

/-- A new cache has only free slots. -/
theorem lruCreate_ok
    {dim : Int32}
    {hashFunction : CString → UInt64}
    {grants : LruGrants}
    {lru : LruT}
    (created : lruCreate dim hashFunction grants = .ok (some lru)) :
    lru.Ok (fun _ => none) [] (List.range dim.toInt.toNat) [] ∧
      lru.fh.locks.Free ∧
      lru.ll.size = dim.toInt.toNat ∧
      0 < dim.toInt := by
  unfold lruCreate at created
  split at created
  next =>
    cases created
  next positive =>
    split at created
    next =>
      cases created
    next =>
      obtain ⟨table, creates, rest⟩ := Checked.bind_eq_ok.mp created
      cases table with
      | none =>
          cases rest
      | some fh =>
          simp only at rest
          split at rest
          next =>
            cases rest
          next ll createsList =>
            cases rest
            obtain ⟨bits, small, rfl⟩ := fhCreate_eq creates
            obtain ⟨stores, isFree⟩ :=
              createdFh_stores dim (small.trans (by decide)) fhDatalenVoidp
                hashFunction
            obtain ⟨setStores, -, setDatalen⟩ :=
              fhSetattr_stores stores .dontcopykey 0 true
            have setFree := fhSetattr_free stores isFree .dontcopykey 0 true
            obtain ⟨llOk, size⟩ := llCreate_ok createsList
            refine ⟨?_, setFree, size, by omega⟩
            exact {
              magic := rfl
              ll := llOk
              stores := setStores
              hDatalen := setDatalen
              dontcopykey := by
                simp [fhSetattr, createdFh, FhTable.dontcopykey,
                  fhSetattrDontcopykey]
              binds := .nil
              records := fun _ member => (List.not_mem_nil member).elim
              cleared := fun _ member => (List.not_mem_nil member).elim }

end Clibs.Lru
