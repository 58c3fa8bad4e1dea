import Clibs.Fh.Counter
import Clibs.Fh.Users

namespace Clibs.Fh

/-!
# The calls on a shared table are atomic

Each call on the map of a table takes effect in the locked section it enters,
whatever the other threads do: `FhT.Acts` says so of the section, `Shows` of the
step of a thread that makes it, and `Users.Serves` is what every step keeps.  The
count of elements is no part of the map, and a thread that has yet to count has
already acted.
-/

/-- A locked section does to the map of a table what the call says. -/
structure FhT.Acts
    (fh next : FhT)
    (map : ObjectMap)
    (op : MapCall)
    (result : MapResult) : Prop where
  hDatalen : next.table.hDatalen = fh.table.hDatalen
  acts :
    ∃ after,
      MapStep fh.table.hDatalen fh.table.indexOf map op result after ∧
        Binds next.table.entries after

section Tables

variable {table : FhTable}
  {map : ObjectMap}

/-- The locked section of an insertion binds a key that is not bound. -/
theorem FhTable.Sound.insertSlot_binds
    (sound : table.Sound)
    (binds : Binds table.entries map)
    {key : CString}
    (isUnbound : map key = none)
    (block : Option Block) :
    ∃ next address,
      Fh.insertSlot table key block .all = .ok (next, .ok address) ∧
        next.hDatalen = table.hDatalen ∧
        (next.slotAt (table.indexOf key) address).opaqueObj =
          boundObject table.hDatalen block ∧
        Binds next.entries
          (Function.update map key
            (some (boundObject table.hDatalen block))) := by
  obtain ⟨stored, isKey⟩ := slotKey_granted table key
  obtain ⟨next, address, inserts, inserted⟩ :=
    insertSlot_new sound.ok (binds.unbound.mp isUnbound) isKey
      (blockObject_granted table.hDatalen block) (.inl rfl)
  obtain ⟨rfl, -⟩ := slotKey_spec isKey
  exact ⟨next, address, inserts, inserted.same.hDatalen,
    inserted.slotAt sound.ok,
    (binds.cons isUnbound _).perm (inserted.entries sound.ok)⟩

/-- The locked section of an insertion refuses a key that is bound. -/
theorem FhTable.Sound.insertSlot_refuses
    (sound : table.Sound)
    (binds : Binds table.entries map)
    {key : CString}
    (isBound : map key ≠ none)
    (block : Option Block) :
    Fh.insertSlot table key block .all =
      .ok
        ({ table with
            hCollision := table.hCollision + 1 },
          .error fhDuplicatedElement) := by
  obtain ⟨object, bound⟩ := Option.ne_none_iff_exists'.mp isBound
  exact insertSlot_bound sound.ok ((binds.bound key object).mp bound)

/-- The locked section of a deletion unbinds a key that is bound. -/
theorem FhTable.Sound.fhDelUnlocked_unbinds
    (sound : table.Sound)
    (binds : Binds table.entries map)
    {key : CString}
    (isBound : map key ≠ none) :
    ∃ next,
      Fh.fhDelUnlocked table key (table.indexOf key)
            (makeMinihash (table.hashFunction key)) =
          .ok (next, table.indexOf key) ∧
        next.hDatalen = table.hDatalen ∧
        Binds next.entries (Function.update map key none) := by
  obtain ⟨object, bound⟩ := Option.ne_none_iff_exists'.mp isBound
  obtain ⟨next, stored, found, address, deletes, rfl, deleted⟩ :=
    fhDelUnlocked_bound sound.ok ((binds.bound key object).mp bound)
  exact ⟨next, deletes, deleted.same.hDatalen,
    (binds.perm (deleted.entries sound.ok).symm).tail⟩

/-- It does not find a key that is not bound, or not in the chain it searches. -/
theorem FhTable.Sound.fhDelUnlocked_misses
    (sound : table.Sound)
    (binds : Binds table.entries map)
    {key : CString}
    {index : Nat}
    (inRange : index < table.hDim)
    (missing : index = table.indexOf key → map key = none) :
    Fh.fhDelUnlocked table key index
        (makeMinihash (table.hashFunction key)) =
      .ok (table, fhElementNotFound) := by
  apply fhDelUnlocked_absent sound.ok inRange
  intro object member
  obtain ⟨stored, rfl, isPlaced, -⟩ :=
    FhTable.belongs_of_mem (sound.ok.slots index) member
  subst isPlaced
  exact binds.unbound.mp (missing rfl) object
    (sound.ok.mem_entries.mpr member)

/-- A search finds what the key is bound to. -/
theorem FhTable.Sound.findSlot_binds
    (sound : table.Sound)
    (binds : Binds table.entries map)
    {key : CString}
    {found : Option FhSlot}
    (finds : Fh.findSlot table key = .ok found) :
    found.map FhSlot.opaqueObj = map key := by
  cases isBound : map key with
  | none =>
      rw [findSlot_absent sound.ok (binds.unbound.mp isBound)] at finds
      cases finds
      rfl
  | some object =>
      obtain ⟨slot, isFound, member⟩ :=
        findSlot_bound sound.ok ((binds.bound key object).mp isBound)
      rw [isFound] at finds
      cases finds
      rw [Option.map_some, ← isBound, (binds.bound key slot.opaqueObj).mpr member]

end Tables

section Sections

variable {fh next : FhT}
  {map : ObjectMap}
  (magic : fh.hMagic = fhMagicId)
  (sound : fh.table.Sound)
  (binds : Binds fh.table.entries map)

include binds

/-- A section that refuses a call before it takes a lock. -/
theorem FhT.Acts.refused
    {op : MapCall}
    {result : MapResult}
    (step : MapStep fh.table.hDatalen fh.table.indexOf map op result map) :
    fh.Acts fh map op result :=
  ⟨rfl, map, step, binds⟩

include magic sound

/-- The locked section of `fh_insert`. -/
theorem insertUpdate_acts
    {key : Option CString}
    {block : Option Block}
    {change : Option CountChange}
    {code : Int}
    (updates : insertUpdate fh key block .all = .ok (next, change, code)) :
    fh.Acts next map (.update (.insert key block)) (.returned (.code code)) := by
  cases key with
  | none =>
      rw [insertUpdate, if_neg (not_not.mpr magic)] at updates
      cases updates
      exact .refused binds .insertNoKey
  | some key =>
      rw [insertUpdate, if_neg (not_not.mpr magic)] at updates
      obtain ⟨held, -, updates⟩ := Checked.bind_eq_ok.mp updates
      by_cases isBound : map key = none
      · obtain ⟨table, address, inserts, hDatalen, -, after⟩ :=
          sound.insertSlot_binds binds isBound block
        rw [inserts, Checked.ok_bind] at updates
        obtain ⟨locks, -, updates⟩ := Checked.bind_eq_ok.mp updates
        cases updates
        exact ⟨hDatalen, _, .insertNew isBound, after⟩
      · rw [sound.insertSlot_refuses binds isBound block,
          Checked.ok_bind] at updates
        obtain ⟨locks, -, updates⟩ := Checked.bind_eq_ok.mp updates
        cases updates
        exact ⟨rfl, map, .insertBound isBound, binds⟩

/-- The locked section of `fh_insertlock`. -/
theorem insertlockUpdate_acts
    {key : Option CString}
    {block : Option Block}
    {slotGiven addrGiven : Bool}
    {change : Option CountChange}
    {result : LockedResult}
    (updates :
      insertlockUpdate fh key block slotGiven addrGiven .all =
        .ok (next, change, result)) :
    fh.Acts next map
      (.update (.insertlock key block slotGiven addrGiven))
      (.returned (.locked result)) := by
  cases key with
  | none =>
      rw [insertlockUpdate, if_neg (not_not.mpr magic)] at updates
      cases updates
      exact .refused binds .insertlockNoKey
  | some key =>
      rw [insertlockUpdate, if_neg (not_not.mpr magic)] at updates
      cases slotGiven with
      | false =>
          cases updates
          exact .refused binds .insertlockNoSlot
      | true =>
          obtain ⟨held, -, updates⟩ := Checked.bind_eq_ok.mp updates
          by_cases isBound : map key = none
          · obtain ⟨table, address, inserts, hDatalen, isObject, after⟩ :=
              sound.insertSlot_binds binds isBound block
            rw [inserts, Checked.ok_bind] at updates
            cases updates
            unfold FhTable.indexOf at isObject
            rw [isObject]
            exact ⟨hDatalen, _, .insertlockNew isBound, after⟩
          · rw [sound.insertSlot_refuses binds isBound block,
              Checked.ok_bind] at updates
            obtain ⟨locks, -, updates⟩ := Checked.bind_eq_ok.mp updates
            cases updates
            exact ⟨rfl, map, .insertlockBound isBound, binds⟩

/-- The locked section of `fh_del`. -/
theorem delUpdate_acts
    {key : Option CString}
    {change : Option CountChange}
    {code : Int}
    (updates : delUpdate fh key = .ok (next, change, code)) :
    fh.Acts next map (.update (.del key)) (.returned (.code code)) := by
  cases key with
  | none =>
      rw [delUpdate, if_neg (not_not.mpr magic)] at updates
      cases updates
      exact .refused binds .delNoKey
  | some key =>
      rw [delUpdate, if_neg (not_not.mpr magic)] at updates
      obtain ⟨held, -, updates⟩ := Checked.bind_eq_ok.mp updates
      by_cases isBound : map key = none
      · have misses :=
          sound.fhDelUnlocked_misses binds (sound.ok.indexOf_lt key)
            fun _ => isBound
        unfold FhTable.indexOf at misses
        rw [misses, Checked.ok_bind] at updates
        obtain ⟨locks, -, updates⟩ := Checked.bind_eq_ok.mp updates
        cases updates
        exact ⟨rfl, map, .delUnbound isBound, binds⟩
      · obtain ⟨table, deletes, hDatalen, after⟩ :=
          sound.fhDelUnlocked_unbinds binds isBound
        unfold FhTable.indexOf at deletes
        rw [deletes, Checked.ok_bind] at updates
        obtain ⟨locks, -, updates⟩ := Checked.bind_eq_ok.mp updates
        cases updates
        exact ⟨hDatalen, _, .delBound isBound, after⟩

/-- The table update of `fh_dellocked`. -/
theorem dellockedUpdate_acts
    {key : Option CString}
    {lockedBucket : Nat}
    {change : Option CountChange}
    {code : Int}
    (updates :
      dellockedUpdate fh key lockedBucket = .ok (next, change, code)) :
    fh.Acts next map (.update (.dellocked key lockedBucket))
      (.returned (.code code)) := by
  cases key with
  | none =>
      rw [dellockedUpdate, if_neg (not_not.mpr magic)] at updates
      cases updates
      exact .refused binds .dellockedNoKey
  | some key =>
      rw [dellockedUpdate, if_neg (not_not.mpr magic)] at updates
      obtain ⟨⟨table, deleted⟩, deletes, same⟩ := Checked.bind_eq_ok.mp updates
      cases same
      by_cases missing : lockedBucket = fh.table.indexOf key → map key = none
      · by_cases inRange : lockedBucket < fh.table.hDim
        · rw [sound.fhDelUnlocked_misses binds inRange missing] at deletes
          cases deletes
          exact ⟨rfl, map, .dellockedUnbound missing, binds⟩
        · simp [fhDelUnlocked, inRange] at deletes
      · obtain ⟨rfl, isBound⟩ := Classical.not_imp.mp missing
        obtain ⟨cleared, clears, hDatalen, after⟩ :=
          sound.fhDelUnlocked_unbinds binds isBound
        rw [clears] at deletes
        cases deletes
        exact ⟨hDatalen, _, .dellockedBound isBound, after⟩

/-- The locked section of `fh_searchlock`. -/
theorem fhSearchlock_acts
    {key : Option CString}
    {result : LockedResult}
    (searches : fhSearchlock fh key = .ok (next, result)) :
    fh.Acts next map (.searchlock key) (.returned (.locked result)) := by
  cases key with
  | none =>
      rw [fhSearchlock, if_neg (not_not.mpr magic)] at searches
      cases searches
      exact .refused binds .searchlockNoKey
  | some key =>
      rw [fhSearchlock, if_neg (not_not.mpr magic)] at searches
      obtain ⟨held, -, searches⟩ := Checked.bind_eq_ok.mp searches
      obtain ⟨found, finds, searches⟩ := Checked.bind_eq_ok.mp searches
      have isBound := sound.findSlot_binds binds finds
      cases found with
      | none =>
          obtain ⟨locks, -, searches⟩ := Checked.bind_eq_ok.mp searches
          cases searches
          exact ⟨rfl, map, .searchlockUnbound isBound.symm, binds⟩
      | some slot =>
          cases searches
          exact ⟨rfl, map, .searchlockBound isBound.symm, binds⟩

/-- The step of a call that updates a chain acts. -/
theorem updateStep_acts
    {held : List Nat}
    {call : UpdateCall}
    {done : ThreadStep}
    (steps : updateStep fh held call = .ok done) :
    ∃ next kept result change,
      done = Resume.after next kept (.returns call result) change ∧
        fh.Acts next map (.update call) (.returned result) := by
  cases call with
  | insert key block =>
      obtain ⟨⟨next, change, code⟩, updates, same⟩ :=
        Checked.bind_eq_ok.mp steps
      cases same
      exact ⟨_, _, _, _, rfl, insertUpdate_acts magic sound binds updates⟩
  | insertlock key block slotGiven addrGiven =>
      obtain ⟨⟨next, change, result⟩, updates, same⟩ :=
        Checked.bind_eq_ok.mp steps
      cases same
      exact ⟨_, _, _, _, rfl,
        insertlockUpdate_acts magic sound binds updates⟩
  | del key =>
      obtain ⟨⟨next, change, code⟩, updates, same⟩ :=
        Checked.bind_eq_ok.mp steps
      cases same
      exact ⟨_, _, _, _, rfl, delUpdate_acts magic sound binds updates⟩
  | dellocked key lockedBucket =>
      obtain ⟨⟨next, change, code⟩, updates, same⟩ :=
        Checked.bind_eq_ok.mp steps
      cases same
      exact ⟨_, _, _, _, rfl, dellockedUpdate_acts magic sound binds updates⟩

end Sections

section Readers

variable {fh next : FhT}
  {map : ObjectMap}

/-- Taking a read lock blocks, or the lock can be given back. -/
theorem rlock_blocksOr
    {locks : FhLocks}
    (uses : ∃ pool, locks.Uses pool)
    (slot : Nat) :
    (locks.rlock slot).BlocksOr fun held =>
      held.unlock slot = .ok locks := by
  obtain ⟨pool, uses⟩ := uses
  cases taken : pool (slot % locks.nLock) with
  | true =>
      cases uses with
      | mutexes =>
          simp_all [FhLocks.rlock, FhLocks.lock, takeLock, Checked.BlocksOr]
      | rwlocks =>
          simp_all [FhLocks.rlock, FhLocks.lock, takeLock, Checked.BlocksOr]
  | false =>
      obtain ⟨held, takes, gives⟩ :=
        FhLocks.Available.rlock ⟨pool, uses, taken⟩
      rw [takes]
      exact gives

variable (magic : fh.hMagic = fhMagicId)
  (sound : fh.table.Sound)
  (uses : ∃ pool, fh.locks.Uses pool)
  (binds : Binds fh.table.entries map)

include magic sound uses binds

/-- `fh_get`. -/
theorem fhGet_acts
    (key : Option CString) :
    (fhGet fh key).BlocksOr fun done =>
      done.1 = fh ∧
        fh.Acts fh map (.reader (.get key))
          (.reader (.object done.2.1 done.2.2)) := by
  cases key with
  | none =>
      rw [fhGet, if_neg (not_not.mpr magic)]
      exact ⟨rfl, .refused binds .getNoKey⟩
  | some key =>
      rw [fhGet, if_neg (not_not.mpr magic)]
      apply (rlock_blocksOr uses _).bind
      intro held gives
      obtain ⟨found, finds⟩ := sound.findSlot key
      have isBound := sound.findSlot_binds binds finds
      simp only [finds, gives, Checked.ok_bind]
      cases found with
      | none =>
          exact ⟨rfl, rfl, map, .getUnbound isBound.symm, binds⟩
      | some slot =>
          exact ⟨rfl, rfl, map, .getBound isBound.symm, binds⟩

/-- `fh_search`. -/
theorem fhSearch_acts
    (key : Option CString)
    (blockGiven : Bool)
    (blockSize : Int) :
    (fhSearch fh key blockGiven blockSize).BlocksOr fun done =>
      done.1 = fh ∧
        fh.Acts fh map (.reader (.search key blockGiven blockSize))
          (.reader (.copied done.2.1 done.2.2)) := by
  cases key with
  | none =>
      rw [fhSearch, if_neg (not_not.mpr magic)]
      exact ⟨rfl, .refused binds .searchNoKey⟩
  | some key =>
      rw [fhSearch, if_neg (not_not.mpr magic)]
      cases blockGiven with
      | false =>
          exact ⟨rfl, .refused binds .searchNoBlock⟩
      | true =>
          by_cases isVoidp : fh.table.hDatalen = fhDatalenVoidp
          · simp only [Bool.true_eq_false, if_false, isVoidp, if_true]
            exact ⟨rfl, .refused binds (.searchVoidp isVoidp)⟩
          · simp only [Bool.true_eq_false, if_false, isVoidp]
            apply (rlock_blocksOr uses _).bind
            intro held gives
            obtain ⟨found, finds⟩ := sound.findSlot key
            have isBound := sound.findSlot_binds binds finds
            simp only [finds, gives, Checked.ok_bind]
            cases found with
            | none =>
                exact ⟨rfl, rfl, map, .searchUnbound isVoidp isBound.symm,
                  binds⟩
            | some slot =>
                dsimp only
                cases copies :
                    copyOut fh.table.hDatalen slot.opaqueObj blockSize with
                | error code =>
                    exact ⟨rfl, rfl, map,
                      .searchRefused isVoidp isBound.symm copies, binds⟩
                | ok written =>
                    exact ⟨rfl, rfl, map,
                      .searchBound isVoidp isBound.symm copies, binds⟩

/-- The section of a call that reads. -/
theorem readerSection_acts
    (call : ReaderCall) :
    (readerSection fh call).BlocksOr fun done =>
      done.1 = fh ∧ fh.Acts fh map (.reader call) (.reader done.2) := by
  cases call with
  | get key =>
      apply (fhGet_acts magic sound uses binds key).bind
      exact fun done acts => acts
  | search key blockGiven blockSize =>
      apply (fhSearch_acts magic sound uses binds key blockGiven
        blockSize).bind
      exact fun done acts => acts

end Readers

/-- Where a thread of the table is in its call on the map. -/
def ThreadState.callState
    (state : ThreadState) : CallState MapCall MapResult :=
  match state.work with
  | .entered call =>
      match call.mapCall with
      | some op =>
          .called op
      | none =>
          .idle
  | .counting _ (.returns call result) =>
      .acted (.update call) (.returned result)
  | _ =>
      .idle

/-- Where a thread is in its call on the map. -/
def Users.callState
    {n : Nat}
    (users : Users n)
    (thread : Fin n) : CallState MapCall MapResult :=
  match users.reads thread with
  | some call =>
      .called (.reader call)
  | none =>
      (users.system.threads thread).callState

/--
What a step of a thread does to the table and the thread's call is what the
atomic map does while it shows the same.
-/
def Shows
    {n : Nat}
    (thread : Fin n)
    (fh next : FhT)
    (map : ObjectMap)
    (before after : CallState MapCall MapResult)
    (seen : TableHistory n) : Prop :=
  ∀ shared : Shared (Fin n) MapCall MapResult ObjectMap,
    shared.state = map →
    shared.calls thread = before →
    ∃ moments nextMap,
      moments.filterMap Moment.seen = seen ∧
        ObjectRun (MapStep fh.table.hDatalen fh.table.indexOf) shared moments
          ({ shared with state := nextMap }.goOn thread after) ∧
        Binds next.table.entries nextMap

section Steps

variable {n : Nat}
  {thread : Fin n}
  {fh next : FhT}
  {map : ObjectMap}
  {op : MapCall}
  {result : MapResult}

/-- A step that is no part of a call on the map. -/
theorem Shows.quiet
    (binds : Binds next.table.entries map)
    (call : CallState MapCall MapResult) :
    Shows thread fh next map call call [] := by
  rintro shared rfl rfl
  refine ⟨[], shared.state, rfl, ?_, binds⟩
  rw [Shared.goOn, Function.update_eq_self]
  exact .nil

/-- A thread makes a call. -/
theorem Shows.calls
    (binds : Binds next.table.entries map)
    (op : MapCall) :
    Shows thread fh next map .idle (.called op) [.calls thread op] := by
  rintro shared rfl isIdle
  exact ⟨[.calls thread op], shared.state, rfl, .calls isIdle op, binds⟩

/-- A call returns that has acted. -/
theorem Shows.returns
    (binds : Binds next.table.entries map) :
    Shows thread fh next map (.acted op result) .idle
      [.returns thread op result] := by
  rintro shared rfl isActed
  exact ⟨[.returns thread op result], shared.state, rfl, .returns isActed,
    binds⟩

/-- A section after which the thread has yet to count. -/
theorem FhT.Acts.shows
    (acts : fh.Acts next map op result) :
    Shows thread fh next map (.called op) (.acted op result) [] := by
  rintro shared rfl isCalled
  obtain ⟨after, step, binds⟩ := acts.acts
  exact ⟨[.acts thread op result], after, rfl, .acts isCalled step, binds⟩

/-- A section after which the call returns. -/
theorem FhT.Acts.shows_return
    (acts : fh.Acts next map op result) :
    Shows thread fh next map (.called op) .idle
      [.returns thread op result] := by
  rintro shared rfl isCalled
  obtain ⟨after, step, binds⟩ := acts.acts
  exact ⟨[.acts thread op result, .returns thread op result], after, rfl,
    .acts_returns isCalled step, binds⟩

/-- A section that is seen as a call and its return. -/
theorem FhT.Acts.shows_call
    (acts : fh.Acts next map op result) :
    Shows thread fh next map .idle .idle
      [.calls thread op, .returns thread op result] := by
  rintro shared rfl isIdle
  obtain ⟨after, step, binds⟩ := acts.acts
  exact ⟨[.calls thread op, .acts thread op result,
    .returns thread op result], after, rfl, .whole_call isIdle step, binds⟩

/-- A step of the loop of `fh_clean` that deletes is seen as `fh_del`. -/
theorem cleanedBy_deletes
    {fhe : FhEnum}
    {element : FhElem}
    {error : Option Int}
    {change : Option CountChange}
    {code : Int}
    (isValid : fhEnumIsValid fhe ≠ 0)
    (isValue : fhEnumGetValue fhe = (some element, error))
    (updates :
      delUpdate fh (element.key.map FhKey.string) =
        .ok (next, change, code)) :
    cleanedBy fh thread fhe =
      [.calls thread (.update (.del (element.key.map FhKey.string))),
        .returns thread (.update (.del (element.key.map FhKey.string)))
          (.returned (.code code))] := by
  simp [cleanedBy, isValid, isValue, updates]

/-- The end of the locked section of an update. -/
theorem FhT.Acts.shows_update
    {call : UpdateCall}
    {returned : CallResult}
    (acts : fh.Acts next map (.update call) (.returned returned))
    (held kept : List Nat)
    (change : Option CountChange) :
    Shows thread fh next map (.called (.update call))
      (Resume.after next kept (.returns call returned) change).2.1.callState
      (stepSeen fh thread ⟨.entered (.update call), held⟩
        (Resume.after next kept (.returns call returned) change).2.2) := by
  cases change with
  | none =>
      exact acts.shows_return
  | some change =>
      exact acts.shows

/-- What a step does to the kind of the objects and to the map. -/
structure Shown
    (thread : Fin n)
    (fh : FhT)
    (map : ObjectMap)
    (state : ThreadState)
    (done : ThreadStep) : Prop where
  hDatalen : done.1.table.hDatalen = fh.table.hDatalen
  shows :
    Shows thread fh done.1 map state.callState done.2.1.callState
      (stepSeen fh thread state done.2.2)

/-- A step of a thread that is in no call on the map, and that deletes nothing. -/
theorem Shown.of_quiet
    {state : ThreadState}
    {done : ThreadStep}
    (binds : Binds fh.table.entries map)
    (hDatalen : done.1.table.hDatalen = fh.table.hDatalen)
    (entries : done.1.table.entries = fh.table.entries)
    (before : state.callState = .idle)
    (after : done.2.1.callState = .idle)
    (seen : stepSeen fh thread state done.2.2 = []) :
    Shown thread fh map state done where
  hDatalen := hDatalen
  shows := by
    rw [before, after, seen]
    exact .quiet (entries ▸ binds) .idle

section Thread

variable (magic : fh.hMagic = fhMagicId)
  (sound : fh.table.Sound)
  (binds : Binds fh.table.entries map)

include binds

/-- A call returns that is not one on the map. -/
theorem returnFrom_shown
    {state : ThreadState}
    {call : ThreadCall}
    (before : state.callState = .idle)
    (noMapCall : call.mapCall = none)
    (hDatalen : next.table.hDatalen = fh.table.hDatalen)
    (entries : next.table.entries = fh.table.entries)
    (held : List Nat)
    (returned : CallResult) :
    Shown thread fh map state (returnFrom next held call returned) :=
  .of_quiet binds hDatalen entries before rfl (by simp [returnFrom, stepSeen, noMapCall])

/-- The step that reads the counter. -/
theorem readStep_shown
    (held : List Nat)
    (call : ReadCall) :
    Shown thread fh map ⟨.entered (.read call), held⟩
      (readStep fh held call) := by
  rw [readStep]
  split
  · exact returnFrom_shown binds rfl rfl rfl rfl _ _
  · split
    · exact returnFrom_shown binds rfl rfl rfl rfl _ _
    · exact .of_quiet binds rfl rfl rfl rfl rfl

/-- The step that decides on the value of the counter. -/
theorem decideStep_shown
    (held : List Nat)
    (elements : Int)
    (grants : EnumGrants)
    (call : ReadCall) :
    Shown thread fh map ⟨.hasRead call elements, held⟩
      (decideStep fh held elements grants call) := by
  cases call with
  | getattrElement =>
      exact .of_quiet binds rfl rfl rfl rfl rfl
  | setattrDontcopykey =>
      rw [decideStep]
      split
      · exact returnFrom_shown binds rfl rfl rfl rfl _ _
      · exact .of_quiet binds rfl rfl rfl rfl rfl
  | enumerate call =>
      rw [decideStep]
      split
      · exact returnFrom_shown binds rfl rfl rfl rfl _ _
      · split
        · exact returnFrom_shown binds rfl rfl rfl rfl _ _
        · split
          · exact returnFrom_shown binds rfl rfl rfl rfl _ _
          · exact .of_quiet binds rfl rfl rfl rfl rfl

/-- The step that visits a chain, or ends the enumeration. -/
theorem visitStep_shown
    {held : List Nat}
    {call : EnumCall}
    {elements index : Nat}
    {recorded : List FhElem}
    {done : ThreadStep}
    (steps : visitStep fh held call elements index recorded = .ok done) :
    Shown thread fh map ⟨.visiting call elements index recorded, held⟩
      done := by
  rw [visitStep] at steps
  split at steps
  next =>
    obtain ⟨⟨locks, visited⟩, -, same⟩ := Checked.bind_eq_ok.mp steps
    cases same
    exact .of_quiet binds rfl rfl rfl rfl rfl
  next =>
    cases call with
    | create sortOrder =>
        obtain ⟨sorted, -, same⟩ := Checked.bind_eq_ok.mp steps
        cases same
        exact .of_quiet binds rfl rfl rfl rfl rfl
    | clean withDelFunc =>
        obtain ⟨sorted, -, same⟩ := Checked.bind_eq_ok.mp steps
        cases same
        exact .of_quiet binds rfl rfl rfl rfl rfl

include magic sound

/-- The step of the loop of `fh_clean`. -/
theorem cleanStep_shown
    {held : List Nat}
    {withDelFunc : Bool}
    {fhe : FhEnum}
    {done : ThreadStep}
    (steps : cleanStep fh held withDelFunc fhe = .ok done) :
    Shown thread fh map ⟨.cleaning withDelFunc fhe, held⟩ done := by
  rw [cleanStep] at steps
  split at steps
  next isValid =>
    split at steps
    next =>
      cases steps
      exact returnFrom_shown binds rfl rfl rfl rfl _ _
    next element error isValue =>
      obtain ⟨⟨next, change, code⟩, updates, same⟩ :=
        Checked.bind_eq_ok.mp steps
      cases same
      have acts := delUpdate_acts magic sound binds updates
      have shows :
          Shows thread fh next map .idle .idle (cleanedBy fh thread fhe) := by
        rw [cleanedBy_deletes isValid isValue updates]
        exact acts.shows_call
      cases change with
      | none =>
          exact ⟨acts.hDatalen, shows⟩
      | some change =>
          exact ⟨acts.hDatalen, shows⟩
  next =>
    cases steps
    exact returnFrom_shown binds rfl rfl rfl rfl _ _

/-- The first step of a call. -/
theorem enterStep_shown
    {held : List Nat}
    {call : ThreadCall}
    {done : ThreadStep}
    (steps : enterStep fh held call = .ok done) :
    Shown thread fh map ⟨.entered call, held⟩ done := by
  cases call with
  | update call =>
      obtain ⟨next, kept, returned, change, rfl, acts⟩ :=
        updateStep_acts magic sound binds steps
      refine ⟨?_, ?_⟩
      · cases change with
        | none =>
            exact acts.hDatalen
        | some change =>
            exact acts.hDatalen
      · have shows :
            Shows thread fh next map (.called (.update call)) _ _ :=
          acts.shows_update held kept change
        cases change with
        | none =>
            exact shows
        | some change =>
            exact shows
  | searchlock key =>
      obtain ⟨⟨next, found⟩, searches, same⟩ := Checked.bind_eq_ok.mp steps
      cases same
      have acts := fhSearchlock_acts magic sound binds searches
      exact ⟨acts.hDatalen, acts.shows_return⟩
  | releaselock slot =>
      obtain ⟨⟨next, code⟩, releases, same⟩ := Checked.bind_eq_ok.mp steps
      cases same
      rw [fhReleaselock, if_neg (not_not.mpr magic)] at releases
      obtain ⟨locks, -, same⟩ := Checked.bind_eq_ok.mp releases
      cases same
      exact .of_quiet binds rfl rfl rfl rfl rfl
  | read call =>
      cases steps
      exact readStep_shown binds held call

/-- A step of a thread does to the map what it shows. -/
theorem threadStep_shown
    {grants : EnumGrants}
    {state : ThreadState}
    {done : ThreadStep}
    (steps : threadStep fh grants state = .ok done) :
    Shown thread fh map state done := by
  cases state with
  | mk work held =>
      cases work with
      | idle =>
          cases steps
          exact .of_quiet binds rfl rfl rfl rfl rfl
      | entered call =>
          exact enterStep_shown magic sound binds steps
      | counting change resume =>
          cases steps
          cases change with
          | incElem =>
              cases resume with
              | returns call returned =>
                  exact ⟨rfl, .returns binds⟩
              | cleans withDelFunc fhe =>
                  exact .of_quiet binds rfl rfl rfl rfl rfl
          | decElem =>
              cases resume with
              | returns call returned =>
                  exact ⟨rfl, .returns binds⟩
              | cleans withDelFunc fhe =>
                  exact .of_quiet binds rfl rfl rfl rfl rfl
      | hasRead call elements =>
          cases steps
          exact decideStep_shown binds held elements grants call
      | visiting call elements index recorded =>
          exact visitStep_shown binds steps
      | cleaning withDelFunc fhe =>
          exact cleanStep_shown magic sound binds steps

end Thread

end Steps

/-- The users of a table are where the users of an atomic map are. -/
structure Users.Serves
    {n : Nat}
    (datalen : Int)
    (indexOf : CString → Nat)
    (users : Users n)
    (shared : Shared (Fin n) MapCall MapResult ObjectMap) : Prop where
  ok : ∃ pool, users.system.Ok pool
  hDatalen : users.system.fh.table.hDatalen = datalen
  indexOf : users.system.fh.table.indexOf = indexOf
  binds : Binds users.system.fh.table.entries shared.state
  calls : ∀ thread, shared.calls thread = users.callState thread
  reading :
    ∀ thread,
      users.reads thread ≠ none →
      (users.system.threads thread).work = .idle

section System

variable {n : Nat}
  {datalen : Int}
  {indexOf : CString → Nat}
  {users : Users n}
  {shared : Shared (Fin n) MapCall MapResult ObjectMap}

/-- One step shows what the atomic map can do. -/
def Users.Refines
    (datalen : Int)
    (indexOf : CString → Nat)
    (users : Users n)
    (shared : Shared (Fin n) MapCall MapResult ObjectMap)
    (label : UserLabel n) : Prop :=
  ∃ next moments nextShared,
    usersStep users label = .ok (next, moments.filterMap Moment.seen) ∧
      ObjectRun (MapStep datalen indexOf) shared moments nextShared ∧
      next.Serves datalen indexOf nextShared

/-- A step that does nothing. -/
theorem Users.Serves.refines_nothing
    (serves : users.Serves datalen indexOf shared)
    {label : UserLabel n}
    (waits : usersStep users label = .ok (users, [])) :
    users.Refines datalen indexOf shared label :=
  ⟨users, [], shared, waits, .nil, serves⟩

/-- A step of one thread that shows what it does. -/
theorem Users.Serves.refines_shows
    (serves : users.Serves datalen indexOf shared)
    {label : UserLabel n}
    (thread : Fin n)
    (next : Users n)
    {seen : TableHistory n}
    (steps : usersStep users label = .ok (next, seen))
    (shows :
      Shows thread users.system.fh next.system.fh shared.state
        (users.callState thread) (next.callState thread) seen)
    (ok : ∃ pool, next.system.Ok pool)
    (hDatalen :
      next.system.fh.table.hDatalen = users.system.fh.table.hDatalen)
    (sameIndex :
      next.system.fh.table.indexOf = users.system.fh.table.indexOf)
    (others :
      ∀ other,
        other ≠ thread → next.callState other = users.callState other)
    (reading :
      ∀ other,
        next.reads other ≠ none →
        (next.system.threads other).work = .idle) :
    users.Refines datalen indexOf shared label := by
  obtain ⟨moments, nextMap, rfl, run, binds⟩ :=
    shows shared rfl (serves.calls thread)
  rw [serves.hDatalen, serves.indexOf] at run
  refine ⟨next, moments, _, steps, run, ?_⟩
  constructor
  · exact ok
  · exact hDatalen.trans serves.hDatalen
  · exact sameIndex.trans serves.indexOf
  · exact binds
  · intro other
    by_cases same : other = thread
    · subst same
      exact Shared.goOn_self _
    · rw [Shared.goOn_of_ne same, others other same]
      exact serves.calls other
  · exact reading

/-- A thread that reads is in no other call. -/
theorem Users.callState_of_none
    {thread : Fin n}
    (noRead : users.reads thread = none) :
    users.callState thread = (users.system.threads thread).callState := by
  rw [Users.callState, noRead]

/-- A step of one thread of the table leaves what the others are in. -/
theorem Users.callState_update
    (fh : FhT)
    (state : ThreadState)
    {thread other : Fin n}
    (differs : other ≠ thread) :
    Users.callState
        { users with
          system :=
            { fh := fh
              threads := Function.update users.system.threads thread state } }
        other =
      users.callState other := by
  simp only [Users.callState, Function.update_of_ne differs]

/-- A step of the table's threads that one of them takes. -/
theorem Users.Serves.refines_table
    (serves : users.Serves datalen indexOf shared)
    {label : Label n}
    {thread : Fin n}
    (fh : FhT)
    (state : ThreadState)
    {event : FhEvent}
    (noRead : users.reads thread = none)
    (isThread : label.thread = thread)
    (steps :
      systemStep users.system label =
        .ok
          ({ fh := fh
             threads := Function.update users.system.threads thread state },
            event))
    (hDatalen : fh.table.hDatalen = users.system.fh.table.hDatalen)
    (sameIndex : fh.table.indexOf = users.system.fh.table.indexOf)
    (shows :
      Shows thread users.system.fh fh shared.state
        (users.system.threads thread).callState state.callState
        (tableSeen users.system event label)) :
    users.Refines datalen indexOf shared (.table label) := by
  obtain ⟨pool, ok⟩ := serves.ok
  obtain ⟨next, made, nextPool, made_steps, nextOk⟩ := ok.step label
  rw [steps] at made_steps
  cases made_steps
  rw [← users.callState_of_none noRead] at shows
  apply serves.refines_shows thread
    { users with
      system :=
        { fh := fh
          threads := Function.update users.system.threads thread state } }
  · simp only [usersStep, isThread, noRead, steps, Checked.ok_bind]
    rfl
  · have after :
        Users.callState
            { users with
              system :=
                { fh := fh
                  threads :=
                    Function.update users.system.threads thread state } }
            thread =
          state.callState := by
      simp [Users.callState, noRead]
    rw [after]
    exact shows
  · exact ⟨nextPool, nextOk⟩
  · exact hDatalen
  · exact sameIndex
  · exact fun other differs => Users.callState_update fh state differs
  · intro other isReading
    by_cases same : other = thread
    · subst same
      exact (isReading noRead).elim
    · simp only [Function.update_of_ne same]
      exact serves.reading other isReading

/-- A step of a thread that faults or waits shows nothing. -/
theorem stepSeen_of_error
    {fh : FhT}
    {thread : Fin n}
    {grants : EnumGrants}
    {state : ThreadState}
    {fault : Fault}
    (fails : threadStep fh grants state = .error fault) :
    stepSeen fh thread state .nothing = [] := by
  cases state with
  | mk work held =>
      cases work with
      | cleaning withDelFunc fhe =>
          by_cases isValid : fhEnumIsValid fhe ≠ 0
          · rcases isValue : fhEnumGetValue fhe with ⟨found, error⟩
            cases found with
            | none =>
                simp [stepSeen, cleanedBy, isValid, isValue]
            | some element =>
                cases updates :
                    delUpdate fh (element.key.map FhKey.string) with
                | error other =>
                    simp [stepSeen, cleanedBy, isValid, isValue, updates]
                | ok update =>
                    simp [threadStep, cleanStep, isValid, isValue,
                      updates] at fails
          · simp [stepSeen, cleanedBy, isValid]
      | _ =>
          rfl

/-- A call of a thread of the table. -/
theorem Users.Serves.refines_call
    (serves : users.Serves datalen indexOf shared)
    {thread : Fin n}
    (noRead : users.reads thread = none)
    (call : ThreadCall) :
    users.Refines datalen indexOf shared (.table (.call thread call)) := by
  cases isState : users.system.threads thread with
  | mk work held =>
      by_cases makes : work = .idle ∧ call.keepsLock held = true
      · obtain ⟨rfl, keeps⟩ := makes
        apply serves.refines_table users.system.fh ⟨.entered call, held⟩
          noRead rfl
        · simp only [systemStep, isState, keeps, if_true]
          rfl
        · rfl
        · rfl
        · simp only [tableSeen, callSeen, isState, keeps, if_true]
          cases isMapCall : call.mapCall with
          | none =>
              simp only [ThreadState.callState, isMapCall]
              exact .quiet serves.binds .idle
          | some op =>
              simp only [ThreadState.callState, isMapCall]
              exact .calls serves.binds op
      · apply serves.refines_nothing
        cases work with
        | idle =>
            have refused : call.keepsLock held = false := by
              simpa using makes
            simp [usersStep, Label.thread, noRead, systemStep, isState,
              refused, tableSeen, callSeen]
        | _ =>
            simp [usersStep, Label.thread, noRead, systemStep, isState,
              tableSeen, callSeen]

/-- A step of a thread of the table. -/
theorem Users.Serves.refines_step
    (serves : users.Serves datalen indexOf shared)
    {thread : Fin n}
    (noRead : users.reads thread = none)
    (grants : EnumGrants) :
    users.Refines datalen indexOf shared (.table (.step thread grants)) := by
  obtain ⟨pool, ok⟩ := serves.ok
  cases isStep :
      threadStep users.system.fh grants (users.system.threads thread) with
  | ok done =>
      obtain ⟨fh, state, event⟩ := done
      have shown : Shown thread users.system.fh shared.state _ _ :=
        threadStep_shown ok.magic ok.sound serves.binds isStep
      apply serves.refines_table fh state noRead rfl
      · simp only [systemStep, isStep]
        rfl
      · exact shown.hDatalen
      · exact (ok.moves_of_step isStep).indexOf
      · exact shown.shows
  | error fault =>
      have waits :=
        threadStep_moves ok.sound ok.locks.uses (ok.inRange thread)
          (ok.isTaken thread) (ok.works thread) grants
      rw [isStep] at waits
      cases waits
      apply serves.refines_nothing
      simp [usersStep, Label.thread, noRead, systemStep, isStep, tableSeen,
        stepSeen_of_error isStep]

/-- A call that reads. -/
theorem Users.Serves.refines_calls
    (serves : users.Serves datalen indexOf shared)
    (thread : Fin n)
    (call : ReaderCall) :
    users.Refines datalen indexOf shared (.calls thread call) := by
  by_cases isFree :
      users.reads thread = none ∧
        (users.system.threads thread).work = .idle
  · obtain ⟨noRead, isIdle⟩ := isFree
    apply serves.refines_shows thread
      { users with
        reads := Function.update users.reads thread (some call) }
    · simp only [usersStep, noRead, isIdle]
      rfl
    · simp only [Users.callState, noRead, Function.update_self,
        ThreadState.callState, isIdle]
      exact .calls serves.binds _
    · exact serves.ok
    · rfl
    · rfl
    · intro other differs
      simp only [Users.callState, Function.update_of_ne differs]
    · intro other isReading
      by_cases same : other = thread
      · subst same
        exact isIdle
      · simp only [Function.update_of_ne same] at isReading
        exact serves.reading other isReading
  · apply serves.refines_nothing
    simp only [usersStep]
    split
    next noRead isIdle =>
      exact (isFree ⟨noRead, isIdle⟩).elim
    next =>
      rfl

/-- The section of a call that reads. -/
theorem Users.Serves.refines_reads
    (serves : users.Serves datalen indexOf shared)
    (thread : Fin n) :
    users.Refines datalen indexOf shared (.reads thread) := by
  obtain ⟨pool, ok⟩ := serves.ok
  cases isRead : users.reads thread with
  | none =>
      apply serves.refines_nothing
      simp [usersStep, isRead]
  | some call =>
      have section_acts :=
        readerSection_acts ok.magic ok.sound ⟨pool, ok.locks.uses⟩
          serves.binds call
      cases reads : readerSection users.system.fh call with
      | error fault =>
          rw [reads] at section_acts
          cases section_acts
          apply serves.refines_nothing
          simp [usersStep, isRead, reads]
      | ok done =>
          obtain ⟨fh, result⟩ := done
          rw [reads] at section_acts
          obtain ⟨rfl, acts⟩ := section_acts
          have isIdle :=
            serves.reading thread (by simp [isRead])
          apply serves.refines_shows thread
            { users with
              reads := Function.update users.reads thread none }
          · simp only [usersStep, isRead, reads]
            rfl
          · simp only [Users.callState, isRead, Function.update_self,
              ThreadState.callState, isIdle]
            exact acts.shows_return
          · exact serves.ok
          · rfl
          · rfl
          · intro other differs
            simp only [Users.callState, Function.update_of_ne differs]
          · intro other isReading
            by_cases same : other = thread
            · subst same
              exact isIdle
            · simp only [Function.update_of_ne same] at isReading
              exact serves.reading other isReading

/-- Every step shows what the atomic map can do. -/
theorem Users.Serves.refines
    (serves : users.Serves datalen indexOf shared)
    (label : UserLabel n) :
    users.Refines datalen indexOf shared label := by
  cases label with
  | table label =>
      cases isRead : users.reads label.thread with
      | some call =>
          apply serves.refines_nothing
          simp [usersStep, isRead]
      | none =>
          cases label with
          | call thread call =>
              exact serves.refines_call isRead call
          | step thread grants =>
              exact serves.refines_step isRead grants
  | calls thread call =>
      exact serves.refines_calls thread call
  | reads thread =>
      exact serves.refines_reads thread

end System

/-- Before the first calls. -/
theorem FhT.Prepared.serves
    {fh : FhT}
    (prepared : fh.Prepared)
    (n : Nat)
    {map : ObjectMap}
    (binds : Binds fh.table.entries map) :
    (firstUsers n fh).Serves fh.table.hDatalen fh.table.indexOf
      (.initial map) where
  ok := ⟨_, prepared.start_ok n⟩
  hDatalen := rfl
  indexOf := rfl
  binds := binds
  calls _ := rfl
  reading _ isReading := (isReading rfl).elim

end Clibs.Fh
