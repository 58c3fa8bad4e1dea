import Clibs.Foundation.History
import Clibs.Lru.Interleaving
import Clibs.Lru.Moves
import Clibs.Lru.Operations

namespace Clibs.Lru

open Fh Ll

/-!
# Adding threads do not starve each other

A thread in `lru_add` that finds no free slot evicts one.  Between the two, other
threads may take, evict, link and free any number of slots.  As long as at most
as many threads add as the cache has slots, the list keeps a slot for each
thread that is about to evict, so `lru_add` runs out of memory only when its own
allocation of the key or of a bucket is refused.
-/

/-- The number of slots in the list. -/
def LruT.listed (lru : LruT) : Nat :=
  (slotsFrom lru.ll lru.ll.size lru.ll.top).length

/-- The thread is inside `lru_add`. -/
def ThreadState.isAdding : ThreadState → Bool
  | .adding _ _ _ =>
      true
  | _ =>
      false

/-- The thread is inside `lru_clear`. -/
def ThreadState.isClearing : ThreadState → Bool
  | .clearing _ =>
      true
  | _ =>
      false

/-- The thread found no free slot and is about to evict one. -/
def ThreadState.evicts : ThreadState → Bool
  | .adding _ _ .evict =>
      true
  | _ =>
      false

/-- At most so many threads are inside `lru_add`, and none inside `lru_clear`. -/
structure System.Admits
    {n : Nat}
    (system : System n)
    (most : Nat) : Prop where
  adders : tally ThreadState.isAdding system.threads ≤ most
  noClear : ∀ thread, (system.threads thread).isClearing = false

/-- Inserting the key asks for a bucket: it is not in its chain, which is full. -/
def asksForBucket
    (table : FhTable)
    (key : CString) : Bool :=
  match
    fhFindSlotInBucket key (makeMinihash (table.hashFunction key))
      (table.hashTable (table.indexOf key))
  with
  | .ok none =>
      (table.hashTable (table.indexOf key)).all fun bucket =>
        (freeSlot bucket).isNone
  | _ =>
      false

/-- The step of a thread asks for memory and is refused it. -/
def ThreadState.isRefused
    (lru : LruT)
    (grants : AddGrants) : ThreadState → Bool
  | .adding _ _ (.fill _ _) =>
      !grants.key
  | .adding key _ (.insert _ _) =>
      asksForBucket lru.fh.table key && !grants.insert.bucket
  | _ =>
      false

/--
For each thread, whether the call it is in was refused memory.  A step that
leaves the thread where it was has waited for a lock and asked for none.
-/
def noteRefusal
    {n : Nat}
    (refused : Fin n → Bool)
    (system : System n)
    (label : Label n)
    (_ : LruEvent)
    (next : System n) : Fin n → Bool :=
  match label with
  | .call thread _ =>
      if system.threads thread = .idle then
        Function.update refused thread false
      else
        refused
  | .step thread grants =>
      if next.threads thread = system.threads thread then
        refused
      else
        Function.update refused thread
          (refused thread ||
            (system.threads thread).isRefused system.lru grants)

section Listed

variable {lru next : LruT}
  {map : CString → Option (Option OpaqueObj)}
  {recency : List Card}
  {free : List Nat}
  {hands : List Hand}

/-- The slots in the list are those of the cards in it. -/
theorem LruT.Ok.listed
    (ok : lru.Ok map recency free hands) :
    lru.listed = recency.length := by
  have fits : (recency.map Card.slot).length ≤ lru.ll.size := by
    have count := ok.ll.count
    omega
  rw [LruT.listed, ok.ll.top, slotsFrom_eq ok.ll.linked fits, List.length_map]

/-- The list decides how many slots are in it. -/
theorem listed_congr
    (same : next.ll = lru.ll) :
    next.listed = lru.listed := by
  rw [LruT.listed, LruT.listed, same]

/-- Deleting a key leaves the list. -/
theorem delKey_ll
    {hashpayload : Nat}
    {code : Int}
    (deletes : delKey lru hashpayload = .ok (next, code)) :
    next.ll = lru.ll := by
  obtain ⟨key, -, rest⟩ := Checked.bind_eq_ok.mp deletes
  obtain ⟨⟨fh, made⟩, -, same⟩ := Checked.bind_eq_ok.mp rest
  cases same
  rfl

/-- Inserting a key leaves the list. -/
theorem insertKey_ll
    {new : Nat}
    {grants : InsertGrants}
    {code : Int}
    (inserts : insertKey lru new grants = .ok (next, code)) :
    next.ll = lru.ll := by
  obtain ⟨key, -, rest⟩ := Checked.bind_eq_ok.mp inserts
  obtain ⟨⟨fh, made⟩, -, same⟩ := Checked.bind_eq_ok.mp rest
  cases same
  rfl

/-- Searching for a key leaves the list. -/
theorem searchKey_ll
    {key : CString}
    {found : LockedResult}
    (searches : searchKey lru key = .ok (next, found)) :
    next.ll = lru.ll := by
  obtain ⟨⟨fh, result⟩, -, same⟩ := Checked.bind_eq_ok.mp searches
  cases same
  rfl

/-- Releasing a lock leaves the list. -/
theorem releaseKey_ll
    {fhslot : Option Nat}
    (releases : releaseKey lru fhslot = .ok next) :
    next.ll = lru.ll := by
  cases fhslot with
  | none =>
      cases releases
  | some fhslot =>
      obtain ⟨⟨fh, code⟩, -, same⟩ := Checked.bind_eq_ok.mp releases
      cases same
      rfl

end Listed

/-- The list loses a slot only to a thread that was to evict one. -/
def LeavesSlots
    (lru : LruT)
    (state : ThreadState)
    (next : LruT)
    (after : ThreadState) : Prop :=
  lru.listed + (if after.evicts then 1 else 0) ≤
    next.listed + (if state.evicts then 1 else 0)

section Steps

variable {n : Nat}
  {system : System n}
  {wasAdded : CString → Nat → Prop}
  {capacity : Nat}
  {map : CString → Option (Option OpaqueObj)}
  {recency : List Card}
  {free : List Nat}
  {hands : Fin n → Option Hand}
  {pool : LockPool}
  {thread : Fin n}
  {next : LruT}
  {after : ThreadState}
  {event : LruEvent}

/-- Freeing a slot in hands leaves the list. -/
theorem freeKeyAndSlot_leaves
    (good : system.Ok wasAdded capacity map recency free hands pool)
    {card : Card}
    {hand : Hand}
    (isHand : hands thread = some hand)
    (isCard : hand.card = some card)
    (notCached : hand.cached = none)
    (frees : freeKeyAndSlot system.lru card.slot card.slot = .ok next) :
    next.listed = system.lru.listed := by
  have ok := good.split isHand
  obtain ⟨made, makes, nextOk, -, -⟩ := freeKeyAndSlot_ok ok isCard notCached
  cases Except.ok.inj (makes.symm.trans frees)
  rw [nextOk.listed, ok.listed]

/-- Moving a slot to the top leaves the list as long as it was. -/
theorem move_leaves
    (good : system.Ok wasAdded capacity map recency free hands pool)
    {key : CString}
    {pload payload : Nat}
    {fhslot : Option Nat}
    (isState : system.threads thread = .checking key (.move pload fhslot))
    (moves : moveToTop system.lru pload = .ok (next, payload)) :
    next.listed = system.lru.listed := by
  have checks := good.checks thread
  rw [isState] at checks
  obtain ⟨-, card, isCached, rfl, -⟩ := checks
  have ok := good.ok
  rcases List.mem_append.mp isCached with isListed | isHeld
  · obtain ⟨front, back, rfl⟩ := List.append_of_mem isListed
    obtain ⟨ll, makes, nextOk, -⟩ := moveToTop_listed ok
    cases Except.ok.inj (makes.symm.trans moves)
    rw [nextOk.listed, ok.listed]
    exact List.perm_middle.symm.length_eq
  · obtain ⟨hand, inHands, isCard⟩ := List.mem_filterMap.mp isHeld
    have stays := moveToTop_held ok inHands isCard
    cases Except.ok.inj (stays.symm.trans moves)
    rfl

/-- A step that leaves the list as long as it was. -/
theorem LeavesSlots.of_listed
    {lru : LruT}
    {state : ThreadState}
    (listed : next.listed = lru.listed)
    (evicts : after.evicts = false) :
    LeavesSlots lru state next after := by
  rw [LeavesSlots, listed, evicts]
  exact Nat.le_add_right _ _

/-- A step of a thread that does not clear leaves the slots, or finds none free. -/
theorem threadStep_leaves
    (good : system.Ok wasAdded capacity map recency free hands pool)
    (noClear : (system.threads thread).isClearing = false)
    {grants : AddGrants}
    (steps :
      threadStep system.lru grants (system.threads thread) =
        .ok (next, after, event)) :
    (free = [] ∧
        next = system.lru ∧
        ∃ key payload,
          system.threads thread = .adding key payload .take ∧
            after = .adding key payload .evict) ∨
      LeavesSlots system.lru (system.threads thread) next after := by
  have move := threadStep_move steps
  obtain ⟨hand, isHand, holds⟩ := good.hand rfl
  have ok := good.split isHand
  generalize isState : system.threads thread = state at move holds noClear ⊢
  cases move with
  | idle =>
      exact .inr (.of_listed rfl rfl)
  | takes takes =>
      right
      cases holds with
      | take =>
          cases free with
          | nil =>
              rw [slotNew_none ok] at takes
              cases takes
          | cons first rest =>
              obtain ⟨ll, takesToo, nextOk, -⟩ := slotNew_some ok
              cases takesToo.symm.trans takes
              exact .of_listed (nextOk.listed.trans ok.listed.symm) rfl
  | @takesNone key payload _ takes =>
      cases holds with
      | take =>
          cases free with
          | nil =>
              rw [slotNew_none ok] at takes
              cases takes
              exact .inl ⟨rfl, rfl, key, payload, rfl, rfl⟩
          | cons first rest =>
              obtain ⟨ll, takesToo, -, -⟩ := slotNew_some ok
              cases takesToo.symm.trans takes
  | evicts removes =>
      right
      cases holds with
      | evict =>
          rcases List.eq_nil_or_concat' recency with rfl | ⟨kept, card, rfl⟩
          · rw [removeLast_none ok] at removes
            cases removes
          · obtain ⟨ll, removesToo, nextOk, -⟩ := removeLast_some ok
            cases removesToo.symm.trans removes
            rw [LeavesSlots, nextOk.listed, ok.listed, List.length_append]
            exact Nat.le_refl _
  | evictsNone removes =>
      right
      cases holds with
      | evict =>
          rcases List.eq_nil_or_concat' recency with rfl | ⟨kept, card, rfl⟩
          · rw [removeLast_none ok] at removes
            cases removes
            exact .of_listed rfl rfl
          · obtain ⟨ll, removesToo, -, -⟩ := removeLast_some ok
            cases removesToo.symm.trans removes
  | deletes deletes =>
      exact .inr (.of_listed (listed_congr (delKey_ll deletes)) rfl)
  | frees frees =>
      right
      cases holds with
      | free _ _ card =>
          exact .of_listed (freeKeyAndSlot_leaves good isHand rfl rfl frees) rfl
  | fills granted =>
      exact .inr (.of_listed rfl rfl)
  | fillsNot refused =>
      exact .inr (.of_listed rfl rfl)
  | gives =>
      right
      cases holds with
      | unfilled =>
          exact .of_listed
            ((freeSlotOnly_taken ok).listed.trans ok.listed.symm) rfl
  | inserts inserts noError =>
      exact .inr (.of_listed (listed_congr (insertKey_ll inserts)) rfl)
  | insertsNot inserts isError =>
      exact .inr (.of_listed (listed_congr (insertKey_ll inserts)) rfl)
  | undoes frees =>
      right
      cases holds with
      | undo =>
          exact .of_listed (freeKeyAndSlot_leaves good isHand rfl rfl frees) rfl
  | links =>
      right
      cases holds with
      | link =>
          rw [LeavesSlots, (addToTop_inserted ok).1.listed, ok.listed]
          exact Nat.le_succ _
  | finds searches isRecord =>
      exact .inr (.of_listed (listed_congr (searchKey_ll searches)) rfl)
  | findsNone searches noRecord =>
      exact .inr (.of_listed (listed_congr (searchKey_ll searches)) rfl)
  | moves moves =>
      exact .inr (.of_listed (move_leaves good isState moves) rfl)
  | releases releases =>
      exact .inr (.of_listed (listed_congr (releaseKey_ll releases)) rfl)
  | _ =>
      cases noClear

/-- The table runs out of memory only when it is refused a bucket it needs. -/
theorem insertKey_refused
    (good : system.Ok wasAdded capacity map recency free hands pool)
    {key : CString}
    {payload slot new : Nat}
    {grants : InsertGrants}
    {lruErr : Int}
    (isState :
      system.threads thread = .adding key payload (.insert slot new))
    (inserts : insertKey system.lru new grants = .ok (next, lruErr))
    (noMemory : insertError lruErr = some lruNoMemory) :
    asksForBucket system.lru.fh.table key = true ∧ grants.bucket = false := by
  obtain ⟨hand, isHand, holds⟩ := good.hand isState
  cases holds with
  | insert =>
      have ok := good.split isHand
      have record :
          system.lru.payloads slot = Card.record ⟨slot, key, payload⟩ :=
        ok.records ⟨slot, key, payload⟩ (by simp [Hand.card])
      rcases good.locks.available_or (system.lru.fh.table.indexOf key) with
          available | isTaken
      · cases isBound : map key with
        | some object =>
            obtain ⟨fh, makes, -, -⟩ :=
              insertKey_bound ok available isBound grants
            cases Except.ok.inj (makes.symm.trans inserts)
            cases noMemory
        | none =>
            by_cases memory :
                grants.bucket = true ∨
                  ¬ ChainFull
                    (system.lru.fh.table.hashTable
                      (system.lru.fh.table.indexOf key))
            · obtain ⟨fh, nextMap, makes, -, -, -⟩ :=
                insertKey_new ok available isBound memory
              cases Except.ok.inj (makes.symm.trans inserts)
              rw [insertError_index] at noMemory
              cases noMemory
            · obtain ⟨noBucket, full⟩ := not_or.mp memory
              have absent :
                  ∀ object,
                    (key, object) ∉
                      chainEntries
                        (system.lru.fh.table.hashTable
                          (system.lru.fh.table.indexOf key)) :=
                fun object member =>
                  ok.stores.notMem_entries isBound object
                    (ok.stores.ok.okFor.mem_entries.mpr member)
              refine ⟨?_, by simpa using noBucket⟩
              rw [asksForBucket,
                fhFindSlotInBucket_absent (ok.stores.ok.okFor.slots _) absent]
              simpa [ChainFull] using not_not.mp full
      · have isBlocked :=
          fhInsert_blocked ok.stores.magic
            (good.locks.uses.wlock_taken isTaken)
            (some (recordBlock slot)) grants
        simp only [insertKey, record, Card.record, KeyPointer.read,
          isBlocked, Checked.ok_bind, Checked.error_bind] at inserts
        cases inserts

/-- A thread that is to return for lack of memory was refused some. -/
def ThreadState.Accounted
    (refused : Bool) : ThreadState → Prop
  | .adding _ _ (.unfilled _) =>
      refused = true
  | .adding _ _ (.undo _ _ code) =>
      code = lruNoMemory → refused = true
  | _ =>
      True

/-- A step of a thread accounts for the lack of memory it finds. -/
theorem threadStep_accounted
    (good : system.Ok wasAdded capacity map recency free hands pool)
    {grants : AddGrants}
    (steps :
      threadStep system.lru grants (system.threads thread) =
        .ok (next, after, event)) :
    after.Accounted
      ((system.threads thread).isRefused system.lru grants) := by
  have move := threadStep_move steps
  generalize isState : system.threads thread = state at move ⊢
  cases move with
  | fillsNot refused =>
      simp [ThreadState.Accounted, ThreadState.isRefused, refused]
  | insertsNot inserts isError =>
      rintro rfl
      obtain ⟨asks, refused⟩ := insertKey_refused good isState inserts isError
      simp [ThreadState.isRefused, asks, refused]
  | _ =>
      trivial

/-- Where `lru_add` returns: without a slot or a key, or with a code. -/
theorem LruMove.returns
    {lru : LruT}
    {state : ThreadState}
    {grants : AddGrants}
    {key : CString}
    {payload : Nat}
    {result : LruResult}
    (move :
      LruMove lru grants state next after (.returned (.add key payload) result)) :
    (state = .adding key payload .evict ∧ (removeLast lru).2 = none) ∨
      (∃ slot, state = .adding key payload (.unfilled slot)) ∨
      (∃ slot new,
        state = .adding key payload (.undo slot new result.code)) ∨
      result.code = lruOk := by
  cases move with
  | evictsNone removes =>
      exact .inl ⟨rfl, congrArg Prod.snd removes⟩
  | @gives _ _ slot =>
      exact .inr (.inl ⟨slot, rfl⟩)
  | @undoes _ _ slot new =>
      exact .inr (.inr (.inl ⟨slot, new, rfl⟩))
  | links =>
      exact .inr (.inr (.inr rfl))

end Steps

/-- A call that was refused memory stays so. -/
theorem ThreadState.Accounted.or
    {state : ThreadState}
    {refused : Bool}
    (accounted : state.Accounted refused)
    (before : Bool) :
    state.Accounted (before || refused) := by
  revert accounted
  unfold ThreadState.Accounted
  split
  next =>
    rintro rfl
    exact Bool.or_true before
  next =>
    intro accounted noMemory
    rw [accounted noMemory, Bool.or_true]
  next =>
    exact id

section Systems

variable {n : Nat}
  {system next : System n}
  {capacity : Nat}
  {refused : Fin n → Bool}

/-- The threads about to evict and those with a slot in hands are adding. -/
theorem System.Admits.evicting_and_holding
    (admits : system.Admits capacity) :
    tally ThreadState.evicts system.threads +
        (collect ThreadState.slot system.threads).length ≤
      capacity := by
  rw [length_collect]
  refine le_trans (tally_add_tally_le ?_ ?_ ?_) admits.adders
  · intro thread
    cases system.threads thread with
    | adding key payload point =>
        cases point with
        | evict =>
            exact fun _ => rfl
        | _ =>
            nofun
    | _ =>
        nofun
  · intro thread
    cases system.threads thread with
    | adding key payload point =>
        exact fun _ => rfl
    | _ =>
        nofun
  · intro thread
    have noClear := admits.noClear thread
    cases isState : system.threads thread with
    | adding key payload point =>
        exact fun _ => rfl
    | clearing point =>
        rw [isState] at noClear
        cases noClear
    | _ =>
        nofun

/-- A thread that stays inside `lru_add` is admitted as before. -/
theorem System.Admits.stays
    (admits : system.Admits capacity)
    {thread : Fin n}
    (wasAdding : (system.threads thread).isAdding = true)
    {lru : LruT}
    {state : ThreadState}
    (adds : state.isAdding = true) :
    System.Admits
      { lru := lru
        threads := Function.update system.threads thread state }
      capacity where
  adders := by
    have counts :=
      tally_update ThreadState.isAdding system.threads thread state
    rw [wasAdding, adds] at counts
    exact (Nat.add_right_cancel counts).trans_le admits.adders
  noClear := by
    intro other
    by_cases isThread : other = thread
    · subst isThread
      simp only [Function.update_self]
      cases state with
      | adding key payload point =>
          rfl
      | _ =>
          cases adds
    · simp only [Function.update_of_ne isThread]
      exact admits.noClear other

/-- Every thread about to evict has a slot left for it, and lacks are noted. -/
structure System.Unstarved
    (system : System n)
    (capacity : Nat)
    (refused : Fin n → Bool) : Prop where
  good : system.Good (fun _ _ => True) capacity
  slots : tally ThreadState.evicts system.threads ≤ system.lru.listed
  accounted :
    ∀ thread, (system.threads thread).Accounted (refused thread)

/-- Slots that are left for the threads stay left. -/
theorem LeavesSlots.slots
    {thread : Fin n}
    {lru : LruT}
    {state : ThreadState}
    (leaves : LeavesSlots system.lru (system.threads thread) lru state)
    (slots : tally ThreadState.evicts system.threads ≤ system.lru.listed) :
    tally ThreadState.evicts
        (Function.update system.threads thread state) ≤
      lru.listed := by
  have counts := tally_update ThreadState.evicts system.threads thread state
  unfold LeavesSlots at leaves
  omega

/-- Without a free slot the list has one for each thread about to evict. -/
theorem evictions_fit
    {wasAdded : CString → Nat → Prop}
    {map : CString → Option (Option OpaqueObj)}
    {recency : List Card}
    {hands : Fin n → Option Hand}
    {pool : LockPool}
    (good : system.Ok wasAdded capacity map recency [] hands pool)
    (admits : system.Admits capacity)
    {thread : Fin n}
    {key : CString}
    {payload : Nat}
    (isState : system.threads thread = .adding key payload .take) :
    tally ThreadState.evicts
        (Function.update system.threads thread
          (.adding key payload .evict)) ≤
      system.lru.listed := by
  have wasAdding : (system.threads thread).isAdding = true := by
    rw [isState]
    rfl
  have stays :
      System.Admits
        { lru := system.lru
          threads :=
            Function.update system.threads thread
              (.adding key payload .evict) }
        capacity := admits.stays wasAdding rfl
  have fits := stays.evicting_and_holding
  have sameHeld :
      (collect ThreadState.slot
          (Function.update system.threads thread
            (.adding key payload .evict))).length =
        (collect ThreadState.slot system.threads).length := by
    have counts :=
      tally_update (fun state => (ThreadState.slot state).isSome)
        system.threads thread (.adding key payload .evict)
    rw [isState] at counts
    rw [length_collect, length_collect]
    exact Nat.add_right_cancel counts
  have count := good.ok.ll.count
  rw [good.slots, good.size, List.length_map, List.length_nil] at count
  rw [good.ok.listed]
  simp only [sameHeld] at fits
  omega

/-- A step of a thread keeps a slot for each thread about to evict. -/
theorem threadStep_unstarved
    (unstarved : system.Unstarved capacity refused)
    (admits : system.Admits capacity)
    {thread : Fin n}
    {grants : AddGrants}
    {lru : LruT}
    {state : ThreadState}
    {event : LruEvent}
    (steps :
      threadStep system.lru grants (system.threads thread) =
        .ok (lru, state, event)) :
    tally ThreadState.evicts
          (Function.update system.threads thread state) ≤
        lru.listed ∧
      state.Accounted
        (refused thread ||
          (system.threads thread).isRefused system.lru grants) := by
  obtain ⟨map, recency, free, hands, pool, good⟩ := unstarved.good
  have noClear := admits.noClear thread
  refine ⟨?_, (threadStep_accounted good steps).or _⟩
  rcases threadStep_leaves good noClear steps with
      ⟨rfl, rfl, key, payload, isState, rfl⟩ | leaves
  · exact evictions_fit good admits isState
  · exact leaves.slots unstarved.slots

/-- What is noted of one thread leaves what is noted of the others. -/
theorem accounted_update
    {threads : Fin n → ThreadState}
    (accounted : ∀ thread, (threads thread).Accounted (refused thread))
    {thread : Fin n}
    {state : ThreadState}
    {noted : Bool}
    (isNoted : state.Accounted noted)
    (other : Fin n) :
    (Function.update threads thread state other).Accounted
      (Function.update refused thread noted other) := by
  by_cases isThread : other = thread
  · subst isThread
    rw [Function.update_self, Function.update_self]
    exact isNoted
  · rw [Function.update_of_ne isThread, Function.update_of_ne isThread]
    exact accounted other

/-- A call that begins was not refused memory and evicts nothing yet. -/
theorem start_unstarved
    (unstarved : system.Unstarved capacity refused)
    {thread : Fin n}
    {call : LruCall}
    (isIdle : system.threads thread = .idle)
    (good :
      System.Good
        { system with
          threads := Function.update system.threads thread call.start }
        (fun _ _ => True) capacity) :
    System.Unstarved
      { system with
        threads := Function.update system.threads thread call.start }
      capacity (Function.update refused thread false) where
  good := good
  slots := by
    have counts :=
      tally_update ThreadState.evicts system.threads thread call.start
    have noEviction : call.start.evicts = false := by
      cases call <;> rfl
    rw [isIdle, noEviction] at counts
    exact (Nat.add_right_cancel counts).trans_le unstarved.slots
  accounted := by
    apply accounted_update unstarved.accounted
    cases call <;> trivial

/-- A step of the system keeps a slot for each thread about to evict. -/
theorem systemStep_unstarved
    (unstarved : system.Unstarved capacity refused)
    (admits : system.Admits capacity)
    (label : Label n) :
    ∃ next event,
      systemStep system label = .ok (next, event) ∧
        next.Unstarved capacity
          (noteRefusal refused system label event next) := by
  have adds : label.Adds fun _ _ => True := by
    cases label with
    | call thread call =>
        cases call <;> trivial
    | step thread grants =>
        trivial
  obtain ⟨next, event, steps, good, -⟩ :=
    systemStep_keeps unstarved.good adds
  refine ⟨next, event, steps, ?_⟩
  cases label with
  | call thread call =>
      rcases systemStep_call steps with rfl | ⟨isIdle, rfl⟩
      · by_cases isIdle : next.threads thread = .idle
        · rw [noteRefusal, if_pos isIdle]
          refine ⟨good, unstarved.slots, ?_⟩
          have sameThreads :
              Function.update next.threads thread .idle = next.threads := by
            rw [← isIdle, Function.update_eq_self]
          rw [← sameThreads]
          exact accounted_update unstarved.accounted trivial
        · rw [noteRefusal, if_neg isIdle]
          exact unstarved
      · rw [noteRefusal, if_pos isIdle]
        exact start_unstarved unstarved isIdle good
  | step thread grants =>
      rcases systemStep_step steps with
          ⟨rfl, -⟩ | ⟨lru, state, makes, rfl⟩
      · rw [noteRefusal, if_pos rfl]
        exact unstarved
      · obtain ⟨slots, isNoted⟩ :=
          threadStep_unstarved unstarved admits makes
        refine ⟨good, slots, ?_⟩
        simp only [noteRefusal, Function.update_self]
        split
        next stays =>
          rw [stays, Function.update_eq_self]
          exact unstarved.accounted
        next =>
          exact accounted_update unstarved.accounted isNoted

/-- A thread about to evict finds a slot. -/
theorem System.Unstarved.evicts
    (unstarved : system.Unstarved capacity refused)
    {thread : Fin n}
    {key : CString}
    {payload : Nat}
    (isState : system.threads thread = .adding key payload .evict) :
    ∃ found, (removeLast system.lru).2 = some found := by
  obtain ⟨map, recency, free, hands, pool, good⟩ := unstarved.good
  have isEvicting : (system.threads thread).evicts = true := by
    rw [isState]
    rfl
  have listed := (tally_pos thread isEvicting).trans_le unstarved.slots
  rw [good.ok.listed] at listed
  obtain ⟨kept, card, rfl⟩ :=
    (List.eq_nil_or_concat' recency).resolve_left
      (List.ne_nil_of_length_pos listed)
  obtain ⟨ll, removes, -, -⟩ := removeLast_some good.ok
  exact ⟨_, congrArg Prod.snd removes⟩

/-- An addition that returns for lack of memory was refused some. -/
theorem System.Unstarved.returns
    (unstarved : system.Unstarved capacity refused)
    {thread : Fin n}
    {grants : AddGrants}
    {key : CString}
    {payload : Nat}
    {result : LruResult}
    (steps :
      systemStep system (.step thread grants) =
        .ok (next, .returned (.add key payload) result))
    (noMemory : result.code = lruNoMemory) :
    refused thread = true := by
  rcases systemStep_step steps with ⟨-, isNothing⟩ | ⟨lru, state, makes, -⟩
  · cases isNothing
  · have accounted := unstarved.accounted thread
    rcases (threadStep_move makes).returns with
        ⟨isState, noSlot⟩ | ⟨slot, isState⟩ | ⟨slot, new, isState⟩ | isOk
    · obtain ⟨found, isFound⟩ := unstarved.evicts isState
      rw [isFound] at noSlot
      cases noSlot
    · rw [isState] at accounted
      exact accounted
    · rw [isState] at accounted
      exact accounted noMemory
    · rw [isOk] at noMemory
      cases noMemory

end Systems

/-- No thread is about to evict, and nothing was refused, before the first call. -/
theorem start_isUnstarved
    {dim : Int32}
    {hashFunction : CString → UInt64}
    {grants : LruGrants}
    {lru : LruT}
    (created : lruCreate dim hashFunction grants = .ok (some lru))
    (n : Nat) :
    (start n lru).Unstarved dim.toInt.toNat fun _ => false where
  good := start_good created n _
  slots := by
    rw [tally_eq_zero fun _ => rfl]
    exact Nat.zero_le _
  accounted _ := trivial

/--
Whatever the threads do, as long as at most as many add at a time as the cache
has slots and none clears, a thread that found no free slot finds one to evict,
and `lru_add` returns `LRU_NO_MEMORY` only from a call that was refused memory.
-/
theorem lru_add_not_starved
    {dim : Int32}
    {hashFunction : CString → UInt64}
    {grants : LruGrants}
    {lru : LruT}
    (created : lruCreate dim hashFunction grants = .ok (some lru))
    (n : Nat)
    (labels : List (Label n))
    (admitted :
      AlwaysAllowed (StepOf systemStep)
        (fun system _ => system.Admits dim.toInt.toNat) (start n lru)
        labels) :
    ∃ system refused events,
      runCalls (recordStep systemStep noteRefusal)
          (start n lru, fun _ => false) labels =
        .ok ((system, refused), events) ∧
        (∀ thread key payload,
          system.threads thread = .adding key payload .evict →
          ∃ found, (removeLast system.lru).2 = some found) ∧
        ∀ thread grants next key payload result,
          systemStep system (.step thread grants) =
              .ok (next, .returned (.add key payload) result) →
            result.code = lruNoMemory →
            refused thread = true := by
  have unstarved := start_isUnstarved created n
  obtain ⟨⟨system, refused⟩, events, runs, finalUnstarved⟩ :=
    @runCalls_recorded _ _ _ _ systemStep noteRefusal _
      (fun system refused => system.Unstarved dim.toInt.toNat refused)
      (fun unstarved admits => systemStep_unstarved unstarved admits _)
      _ _ unstarved _ admitted
  exact ⟨system, refused, events, runs,
    fun _ _ _ isState => finalUnstarved.evicts isState,
    fun _ _ _ _ _ _ steps noMemory => finalUnstarved.returns steps noMemory⟩

/-- Two threads add to a cache with two slots, and one of them is done first. -/
theorem lru_add_not_starved_two :
    ∃ lru system refused events,
      lruCreate 2 (fun _ => 7) .all = .ok (some lru) ∧
        runCalls (recordStep systemStep noteRefusal)
            (start 2 lru, fun _ => false)
            [.call 0 (.add ⟨[97], by decide⟩ 1),
              .call 1 (.add ⟨[98], by decide⟩ 2),
              .step 0 .all, .step 1 .all, .step 0 .all] =
          .ok ((system, refused), events) ∧
        ∀ thread key payload,
          system.threads thread = .adding key payload .evict →
          ∃ found, (removeLast system.lru).2 = some found := by
  have admits :
      ∀ system : System 2,
        (∀ thread, (system.threads thread).isClearing = false) →
        system.Admits 2 :=
    fun system noClear => ⟨List.countP_le_length, noClear⟩
  have created : lruCreate 2 (fun _ => 7) .all = .ok (some _) := rfl
  obtain ⟨system, refused, events, runs, evicts, -⟩ :=
    lru_add_not_starved created 2
      [.call 0 (.add ⟨[97], by decide⟩ 1),
        .call 1 (.add ⟨[98], by decide⟩ 2),
        .step 0 .all, .step 1 .all, .step 0 .all]
      (.step rfl (admits _ (by decide))
        (.step rfl (admits _ (by decide))
          (.step rfl (admits _ (by decide))
            (.step rfl (admits _ (by decide))
              (.step rfl (admits _ (by decide)) trivial)))))
  exact ⟨_, system, refused, events, created, runs, evicts⟩

end Clibs.Lru
