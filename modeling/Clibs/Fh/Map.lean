import Clibs.Fh.Clean
import Clibs.Fh.Create
import Clibs.Foundation.Run

namespace Clibs.Fh

/-!
# The hash table as a finite map

Single-threaded runs of calls on a table, in which allocations succeed.  A call
that keeps the lock of its chain is followed by the release of that lock, and
`fh_dellocked` is made between `fh_searchlock` and `fh_releaselock`.  The
abstract state is a map from keys to opaque values.
-/

/-- A call on a hash table, or a sequence of calls under one lock. -/
inductive FhCall where
  | insert (key : CString) (block : Option Block)
  | insertlock (key : CString) (block : Option Block) (addrGiven : Bool)
  | del (key : CString)
  | dellocked (key : CString)
  | get (key : CString)
  | search (key : CString) (blockSize : Int)
  | clean (withDelFunc : Bool)
  | setattr (attr : SetAttr) (value : Int)
  deriving Repr, DecidableEq

/--
What a call returns: a code, an opaque object with `*error`, or a code with the
bytes copied out.
-/
inductive FhResult where
  | code (code : Int)
  | object (opaqueObj : Option OpaqueObj) (error : Int)
  | copied (code : Int) (written : List UInt8)
  deriving Repr, DecidableEq

/-- Release the lock that a successful call kept. -/
def releaseKept
    (fh : FhT)
    (result : LockedResult) : Checked FhT :=
  match result.lockedSlot with
  | none =>
      .ok fh
  | some slot => do
      let (fh, _) ← fhReleaselock fh slot
      .ok fh

/-- `fh_searchlock`, then on a hit `fh_dellocked` and `fh_releaselock`. -/
def searchDelRelease
    (fh : FhT)
    (key : CString) : Checked (FhT × Int) := do
  let (fh, found) ← fhSearchlock fh (some key)
  match found.lockedSlot with
  | none =>
      .ok (fh, found.error)
  | some slot => do
      let (fh, code) ← fhDellocked fh (some key) slot
      let fh ← releaseKept fh found
      .ok (fh, code)

/-- Make one call. -/
def fhStep
    (fh : FhT) :
    FhCall → Checked (FhT × FhResult)
  | .insert key block => do
      let (fh, code) ← fhInsert fh (some key) block .all
      .ok (fh, .code code)
  | .insertlock key block addrGiven => do
      let (fh, result) ← fhInsertlock fh (some key) block true addrGiven .all
      let fh ← releaseKept fh result
      .ok (fh, .object result.opaqueObj result.error)
  | .del key => do
      let (fh, code) ← fhDel fh (some key)
      .ok (fh, .code code)
  | .dellocked key => do
      let (fh, code) ← searchDelRelease fh key
      .ok (fh, .code code)
  | .get key => do
      let (fh, object, error) ← fhGet fh (some key)
      .ok (fh, .object object error)
  | .search key blockSize => do
      let (fh, code, written) ← fhSearch fh (some key) true blockSize
      .ok (fh, .copied code written)
  | .clean withDelFunc => do
      let delFunc : Option (DelFunc Unit) :=
        if withDelFunc then some fun _ _ user => user else none
      let (fh, code, _) ← fhClean fh delFunc .all ()
      .ok (fh, .code code)
  | .setattr attr value =>
      let (fh, code) := fhSetattr fh attr value true
      .ok (fh, .code code)

/-- The keys that are bound, each with its opaque object or `NULL`. -/
abbrev ObjectMap :=
  CString → Option (Option OpaqueObj)

/-- What a block is bound as: `NULL`, the pointer or a copy of the object. -/
def boundObject
    (datalen : Int) :
    Option Block → Option OpaqueObj
  | none =>
      none
  | some block =>
      if 0 < datalen then
        some (.copy (memcpy datalen.toNat block.bytes))
      else if datalen = fhDatalenVoidp then
        some (.pointer block)
      else if datalen = fhDatalenString then
        some (.copy (untilTerminator block.bytes))
      else
        none

/-- A delete function may be passed only when the table holds pointers. -/
def DelFuncAllowed
    (datalen : Int)
    (withDelFunc : Bool) : Prop :=
  withDelFunc = false ∨ datalen = fhDatalenVoidp

/-- The finite map the table stands for. -/
inductive ObjectMapStep
    (datalen : Int) :
    ObjectMap → FhCall → FhResult → ObjectMap → Prop where
  | insertNew
      {map : ObjectMap}
      {key : CString}
      {block : Option Block}
      {index : Nat} :
      map key = none →
      ObjectMapStep datalen map (.insert key block) (.code index)
        (Function.update map key (some (boundObject datalen block)))
  | insertBound
      {map : ObjectMap}
      {key : CString}
      {block : Option Block} :
      map key ≠ none →
      ObjectMapStep datalen map (.insert key block)
        (.code fhDuplicatedElement) map
  | insertlockNew
      {map : ObjectMap}
      {key : CString}
      {block : Option Block}
      {addrGiven : Bool} :
      map key = none →
      ObjectMapStep datalen map (.insertlock key block addrGiven)
        (.object (boundObject datalen block) fhOk)
        (Function.update map key (some (boundObject datalen block)))
  | insertlockBound
      {map : ObjectMap}
      {key : CString}
      {block : Option Block}
      {addrGiven : Bool} :
      map key ≠ none →
      ObjectMapStep datalen map (.insertlock key block addrGiven)
        (.object none fhDuplicatedElement) map
  | delBound
      {map : ObjectMap}
      {key : CString}
      {index : Nat} :
      map key ≠ none →
      ObjectMapStep datalen map (.del key) (.code index)
        (Function.update map key none)
  | delUnbound
      {map : ObjectMap}
      {key : CString} :
      map key = none →
      ObjectMapStep datalen map (.del key) (.code fhElementNotFound) map
  | dellockedBound
      {map : ObjectMap}
      {key : CString}
      {index : Nat} :
      map key ≠ none →
      ObjectMapStep datalen map (.dellocked key) (.code index)
        (Function.update map key none)
  | dellockedUnbound
      {map : ObjectMap}
      {key : CString} :
      map key = none →
      ObjectMapStep datalen map (.dellocked key) (.code fhElementNotFound) map
  | getBound
      {map : ObjectMap}
      {key : CString}
      {object : Option OpaqueObj} :
      map key = some object →
      ObjectMapStep datalen map (.get key) (.object object fhOk) map
  | getUnbound
      {map : ObjectMap}
      {key : CString} :
      map key = none →
      ObjectMapStep datalen map (.get key) (.object none fhElementNotFound) map
  | searchVoidp
      {map : ObjectMap}
      {key : CString}
      {blockSize : Int} :
      datalen = fhDatalenVoidp →
      ObjectMapStep datalen map (.search key blockSize)
        (.copied fhWrongDatalen []) map
  | searchUnbound
      {map : ObjectMap}
      {key : CString}
      {blockSize : Int} :
      datalen ≠ fhDatalenVoidp →
      map key = none →
      ObjectMapStep datalen map (.search key blockSize)
        (.copied fhElementNotFound []) map
  | searchRefused
      {map : ObjectMap}
      {key : CString}
      {object : Option OpaqueObj}
      {blockSize : Int}
      {code : Int} :
      datalen ≠ fhDatalenVoidp →
      map key = some object →
      copyOut datalen object blockSize = .error code →
      ObjectMapStep datalen map (.search key blockSize) (.copied code []) map
  | searchBound
      {map : ObjectMap}
      {key : CString}
      {object : Option OpaqueObj}
      {blockSize : Int}
      {index : Nat}
      {written : List UInt8} :
      datalen ≠ fhDatalenVoidp →
      map key = some object →
      copyOut datalen object blockSize = .ok written →
      ObjectMapStep datalen map (.search key blockSize)
        (.copied index written) map
  | cleanRefused
      {map : ObjectMap} :
      datalen ≠ fhDatalenVoidp →
      ObjectMapStep datalen map (.clean true) (.code fhFreeNotRequested) map
  | cleanEmpty
      {withDelFunc : Bool} :
      DelFuncAllowed datalen withDelFunc →
      ObjectMapStep datalen (fun _ => none) (.clean withDelFunc)
        (.code fhEmptyHashtable) fun _ => none
  | cleanNonempty
      {map : ObjectMap}
      {withDelFunc : Bool} :
      DelFuncAllowed datalen withDelFunc →
      (∃ key, map key ≠ none) →
      ObjectMapStep datalen map (.clean withDelFunc) (.code fhOk) fun _ => none
  | setattr
      {map : ObjectMap}
      {attr : SetAttr}
      {value code : Int} :
      ObjectMapStep datalen map (.setattr attr value) (.code code) map

/-- The result of a call that succeeded. -/
def FhResult.succeeded : FhResult → Bool
  | .code returned =>
      0 ≤ returned
  | .object _ error =>
      error = fhOk
  | .copied returned _ =>
      0 ≤ returned

/-- What a key is bound to after a call, given what it was bound to before. -/
def bindingAfter
    (datalen : Int)
    (key : CString)
    (bound : Option (Option OpaqueObj))
    (event : FhCall × FhResult) : Option (Option OpaqueObj) :=
  if event.2.succeeded then
    match event.1 with
    | .insert inserted block =>
        if inserted = key then some (boundObject datalen block) else bound
    | .insertlock inserted block _ =>
        if inserted = key then some (boundObject datalen block) else bound
    | .del deleted =>
        if deleted = key then none else bound
    | .dellocked deleted =>
        if deleted = key then none else bound
    | .clean _ =>
        none
    | .get _ | .search _ _ | .setattr _ _ =>
        bound
  else
    bound

/--
The value of the last successful insertion of a key, unless the key was deleted
or the table cleaned since, read off the calls and their results.
-/
def lastInserted
    (datalen : Int)
    (key : CString)
    (history : List (FhCall × FhResult)) : Option (Option OpaqueObj) :=
  history.foldl (bindingAfter datalen key) none

section Binding

variable {datalen : Int}
  {map next : ObjectMap}
  {call : FhCall}
  {result : FhResult}

/-- An index is not an error code. -/
@[simp] theorem succeeded_index (index : Nat) :
    (FhResult.code index).succeeded = true :=
  decide_eq_true (Int.natCast_nonneg index)

/-- One step of the map changes the binding of a key as the call says. -/
theorem ObjectMapStep.binding
    (step : ObjectMapStep datalen map call result next)
    (key : CString) :
    next key = bindingAfter datalen key (map key) (call, result) := by
  cases step with
  | @insertNew _ inserted block index isUnbound =>
      by_cases same : inserted = key
      · subst same
        simp [bindingAfter]
      · simp [bindingAfter, same, Function.update_of_ne (Ne.symm same)]
  | insertBound isBound =>
      rfl
  | @insertlockNew _ inserted block addrGiven isUnbound =>
      by_cases same : inserted = key
      · subst same
        simp [bindingAfter, FhResult.succeeded]
      · simp [bindingAfter, FhResult.succeeded, same,
          Function.update_of_ne (Ne.symm same)]
  | insertlockBound isBound =>
      rfl
  | @delBound _ deleted index isBound =>
      by_cases same : deleted = key
      · subst same
        simp [bindingAfter]
      · simp [bindingAfter, same, Function.update_of_ne (Ne.symm same)]
  | delUnbound isUnbound =>
      rfl
  | @dellockedBound _ deleted index isBound =>
      by_cases same : deleted = key
      · subst same
        simp [bindingAfter]
      · simp [bindingAfter, same, Function.update_of_ne (Ne.symm same)]
  | dellockedUnbound isUnbound =>
      rfl
  | getBound isBound =>
      simp [bindingAfter]
  | getUnbound isUnbound =>
      rfl
  | searchVoidp isVoidp =>
      rfl
  | searchUnbound notVoidp isUnbound =>
      rfl
  | searchRefused notVoidp isBound refuses =>
      simp [bindingAfter]
  | searchBound notVoidp isBound copies =>
      simp [bindingAfter]
  | cleanRefused notVoidp =>
      rfl
  | cleanEmpty allowed =>
      rfl
  | cleanNonempty allowed nonempty =>
      rfl
  | setattr =>
      simp [bindingAfter]

/-- The map reached by a run binds each key as the calls and results say. -/
theorem binding_of_run
    {initial final : ObjectMap}
    {calls : List FhCall}
    {results : List FhResult}
    (run : SpecRun (ObjectMapStep datalen) initial calls results final)
    (key : CString) :
    final key =
      (calls.zip results).foldl (bindingAfter datalen key) (initial key) := by
  induction run with
  | nil state =>
      rfl
  | cons step rest inductionHypothesis =>
      rw [List.zip_cons_cons, List.foldl_cons, inductionHypothesis,
        step.binding key]

end Binding

/-- The table stands for the map and none of its locks is taken. -/
structure Represents
    (datalen : Int)
    (fh : FhT)
    (map : ObjectMap) : Prop where
  stores : fh.Stores map
  free : fh.locks.Free
  hDatalen : fh.table.hDatalen = datalen

section Refinement

variable {datalen : Int}
  {fh next : FhT}
  {map after : ObjectMap}

/-- A call that gives the locks back keeps the table in use. -/
theorem Represents.becomes
    (represents : Represents datalen fh map)
    (becomes : fh.Becomes next after) :
    Represents datalen next after where
  stores := becomes.stores
  free := becomes.locks ▸ represents.free
  hDatalen := becomes.same.hDatalen.trans represents.hDatalen

/-- When all allocations succeed, the key is stored. -/
theorem slotKey_granted
    (table : FhTable)
    (key : CString) :
    ∃ stored, table.slotKey key InsertGrants.all.key = some stored := by
  unfold FhTable.slotKey
  split
  next =>
    exact ⟨_, rfl⟩
  next =>
    exact ⟨_, rfl⟩

/-- When all allocations succeed, the block is bound as its kind says. -/
theorem blockObject_granted
    (datalen : Int)
    (block : Option Block) :
    blockObject datalen block InsertGrants.all.opaqueObj =
      .ok (boundObject datalen block) := by
  cases block with
  | none =>
      rfl
  | some block =>
      simp only [blockObject, newOpaqueObj, boundObject, InsertGrants.all,
        if_true]
      split
      next =>
        rfl
      next =>
        split
        next =>
          rfl
        next =>
          split
          next =>
            rfl
          next =>
            rfl

/-- The lock that a call kept is released. -/
theorem releaseKept_eq
    {held : FhLocks}
    {result : LockedResult}
    {slot : Nat}
    (becomes : fh.Becomes next map)
    (kept : result.lockedSlot = some slot)
    (gives : held.unlock slot = .ok fh.locks) :
    releaseKept
        { next with
          locks := held }
        result =
      .ok next := by
  rw [← becomes.locks] at gives
  rw [releaseKept, kept]
  simp only [fhReleaselock_eq becomes.stores.magic gives, Checked.ok_bind]

/-- A call on a table in use that is accepted and leaves it in use. -/
def Accepted
    (datalen : Int)
    (fh : FhT)
    (map : ObjectMap)
    (call : FhCall) : Prop :=
  ∃ next result after,
    fhStep fh call = .ok (next, result) ∧
      ObjectMapStep datalen map call result after ∧
      Represents datalen next after

/-- Insertions refine those of the map. -/
theorem insert_accepted
    (represents : Represents datalen fh map)
    (key : CString)
    (block : Option Block) :
    Accepted datalen fh map (.insert key block) := by
  have stores := represents.stores
  have available := represents.free.available (fh.table.indexOf key)
  cases isBound : map key with
  | none =>
      obtain ⟨stored, isKey⟩ := slotKey_granted fh.table key
      obtain ⟨next, inserts, becomes⟩ :=
        fhInsert_new stores available isBound isKey
          (blockObject_granted fh.table.hDatalen block) (.inl rfl)
      rw [represents.hDatalen] at becomes
      exact ⟨next, .code (fh.table.indexOf key), _,
        by simp [fhStep, inserts], .insertNew isBound,
        represents.becomes becomes⟩
  | some object =>
      obtain ⟨next, inserts, becomes⟩ :
          ∃ next,
            fhInsert fh (some key) block .all =
                .ok (next, fhDuplicatedElement) ∧
              fh.Becomes next map :=
        fhInsert_bound stores available isBound
      exact ⟨next, _, _, by simp [fhStep, inserts],
        .insertBound (by simp [isBound]), represents.becomes becomes⟩

/-- Insertions that keep the lock refine those of the map. -/
theorem insertlock_accepted
    (represents : Represents datalen fh map)
    (key : CString)
    (block : Option Block)
    (addrGiven : Bool) :
    Accepted datalen fh map (.insertlock key block addrGiven) := by
  have stores := represents.stores
  have available := represents.free.available (fh.table.indexOf key)
  cases isBound : map key with
  | none =>
      obtain ⟨stored, isKey⟩ := slotKey_granted fh.table key
      obtain ⟨next, result, held, inserts, isObject, isOk, kept, gives,
          becomes⟩ :=
        fhInsertlock_new stores available isBound addrGiven isKey
          (blockObject_granted fh.table.hDatalen block) (.inl rfl)
      have releases := releaseKept_eq becomes kept gives
      rw [represents.hDatalen] at becomes isObject
      refine ⟨next, .object (boundObject datalen block) fhOk, _, ?_,
        .insertlockNew isBound, represents.becomes becomes⟩
      simp [fhStep, inserts, releases, isObject, isOk]
  | some object =>
      obtain ⟨next, inserts, becomes⟩ :
          ∃ next,
            fhInsertlock fh (some key) block true addrGiven .all =
                .ok (next, .failed fhDuplicatedElement) ∧
              fh.Becomes next map :=
        fhInsertlock_bound stores available isBound addrGiven
      refine ⟨next, _, _, ?_, .insertlockBound (by simp [isBound]),
        represents.becomes becomes⟩
      simp [fhStep, inserts, releaseKept, LockedResult.failed]

/-- Deletions refine those of the map. -/
theorem del_accepted
    (represents : Represents datalen fh map)
    (key : CString) :
    Accepted datalen fh map (.del key) := by
  have stores := represents.stores
  have available := represents.free.available (fh.table.indexOf key)
  cases isBound : map key with
  | none =>
      have deletes := fhDel_unbound stores available isBound
      exact ⟨fh, _, _, by simp [fhStep, deletes], .delUnbound isBound,
        represents⟩
  | some object =>
      obtain ⟨next, deletes, becomes⟩ := fhDel_bound stores available isBound
      exact ⟨next, .code (fh.table.indexOf key), _,
        by simp [fhStep, deletes], .delBound (by simp [isBound]),
        represents.becomes becomes⟩

/-- Deletions under the lock of a search refine those of the map. -/
theorem dellocked_accepted
    (represents : Represents datalen fh map)
    (key : CString) :
    Accepted datalen fh map (.dellocked key) := by
  have stores := represents.stores
  have available := represents.free.available (fh.table.indexOf key)
  cases isBound : map key with
  | none =>
      have finds := fhSearchlock_unbound stores available isBound
      refine ⟨fh, _, _, ?_, .dellockedUnbound isBound, represents⟩
      simp [fhStep, searchDelRelease, finds, LockedResult.failed]
  | some object =>
      obtain ⟨held, takes, gives⟩ := available.wlock
      have finds := fhSearchlock_bound stores takes isBound
      obtain ⟨next, deletes, becomes⟩ := fhDellocked_bound stores held isBound
      have releases :
          releaseKept
              { next with
                locks := held }
              { opaqueObj := object
                error := fhOk
                lockedSlot := some (fh.table.indexOf key)
                opaqueObjAddr := none } =
            .ok next :=
        releaseKept_eq becomes rfl gives
      refine ⟨next, .code (fh.table.indexOf key), _, ?_,
        .dellockedBound (by simp [isBound]), represents.becomes becomes⟩
      simp [fhStep, searchDelRelease, finds, deletes, releases]

/-- Reading refines reading the map. -/
theorem get_accepted
    (represents : Represents datalen fh map)
    (key : CString) :
    Accepted datalen fh map (.get key) := by
  have gets :=
    fhGet_eq represents.stores
      (represents.free.available (fh.table.indexOf key))
  cases isBound : map key with
  | none =>
      rw [isBound] at gets
      exact ⟨fh, _, _, by simp [fhStep, gets], .getUnbound isBound, represents⟩
  | some object =>
      rw [isBound] at gets
      exact ⟨fh, _, _, by simp [fhStep, gets], .getBound isBound, represents⟩

/-- Copying out refines reading the map. -/
theorem search_accepted
    (represents : Represents datalen fh map)
    (key : CString)
    (blockSize : Int) :
    Accepted datalen fh map (.search key blockSize) := by
  by_cases isVoidp : datalen = fhDatalenVoidp
  · have isTable : fh.table.hDatalen = fhDatalenVoidp :=
      represents.hDatalen.trans isVoidp
    refine ⟨fh, _, _, ?_, .searchVoidp isVoidp, represents⟩
    simp only [fhStep, fhSearch, represents.stores.magic, ne_eq,
      not_true_eq_false, if_false, Bool.true_eq_false, isTable, if_true,
      Checked.ok_bind]
  · have notTable : fh.table.hDatalen ≠ fhDatalenVoidp := by
      rw [represents.hDatalen]
      exact isVoidp
    have searches :=
      fhSearch_eq represents.stores
        (represents.free.available (fh.table.indexOf key)) notTable blockSize
    unfold searchResult at searches
    rw [represents.hDatalen] at searches
    cases isBound : map key with
    | none =>
        rw [isBound] at searches
        exact ⟨fh, _, _, by simp [fhStep, searches],
          .searchUnbound isVoidp isBound, represents⟩
    | some object =>
        rw [isBound] at searches
        cases copies : copyOut datalen object blockSize with
        | error code =>
            simp only [copies] at searches
            exact ⟨fh, _, _, by simp [fhStep, searches],
              .searchRefused isVoidp isBound copies, represents⟩
        | ok written =>
            simp only [copies] at searches
            exact ⟨fh, .copied (fh.table.indexOf key) written, _,
              by simp [fhStep, searches],
              .searchBound isVoidp isBound copies, represents⟩

/-- Cleaning refines emptying the map. -/
theorem clean_accepted
    (represents : Represents datalen fh map)
    (withDelFunc : Bool) :
    Accepted datalen fh map (.clean withDelFunc) := by
  by_cases allowed : DelFuncAllowed datalen withDelFunc
  · have permitted :
        (if withDelFunc then
            some fun _ _ user => user
          else
            none : Option (DelFunc Unit)) = none ∨
          fh.table.hDatalen = fhDatalenVoidp := by
      rcases allowed with noFunction | isVoidp
      · simp [noFunction]
      · exact .inr (represents.hDatalen.trans isVoidp)
    by_cases nonempty : ∃ key, map key ≠ none
    · obtain ⟨key, notNone⟩ := nonempty
      obtain ⟨object, isBound⟩ := Option.ne_none_iff_exists'.mp notNone
      obtain ⟨next, released, cleans, becomes⟩ :=
        fhClean_nonempty _ () represents.stores represents.free permitted
          isBound
      exact ⟨next, _, _, by simp only [fhStep, cleans, Checked.ok_bind],
        .cleanNonempty allowed ⟨key, notNone⟩, represents.becomes becomes⟩
    · have isEmpty : map = fun _ => none := by
        funext key
        by_contra notNone
        exact nonempty ⟨key, notNone⟩
      subst isEmpty
      have cleans := fhClean_empty _ () represents.stores permitted
      exact ⟨fh, _, _, by simp only [fhStep, cleans, Checked.ok_bind],
        .cleanEmpty allowed, represents⟩
  · obtain ⟨isGiven, notVoidp⟩ := not_or.mp allowed
    have withOne : withDelFunc = true := by simpa using isGiven
    subst withOne
    have notTable : fh.table.hDatalen ≠ fhDatalenVoidp := by
      rw [represents.hDatalen]
      exact notVoidp
    have cleans :=
      fhClean_refused (fun _ _ user => user) () .all represents.stores.magic
        notTable
    exact ⟨fh, _, _, by simp only [fhStep, if_true, cleans, Checked.ok_bind],
      .cleanRefused notVoidp, represents⟩

/-- Every call refines a step of the map. -/
theorem fhStep_refines
    {call : FhCall}
    (represents : Represents datalen fh map) :
    ∃ next result after,
      fhStep fh call = .ok (next, result) ∧
        ObjectMapStep datalen map call result after ∧
        Represents datalen next after := by
  cases call with
  | insert key block =>
      exact insert_accepted represents key block
  | insertlock key block addrGiven =>
      exact insertlock_accepted represents key block addrGiven
  | del key =>
      exact del_accepted represents key
  | dellocked key =>
      exact dellocked_accepted represents key
  | get key =>
      exact get_accepted represents key
  | search key blockSize =>
      exact search_accepted represents key blockSize
  | clean withDelFunc =>
      exact clean_accepted represents withDelFunc
  | setattr attr value =>
      obtain ⟨stores, -, sameDatalen⟩ :=
        fhSetattr_stores represents.stores attr value true
      have free :=
        fhSetattr_free represents.stores represents.free attr value true
      exact ⟨_, _, map, rfl, .setattr, stores, free,
        sameDatalen.trans represents.hDatalen⟩

end Refinement

/--
Every run of calls on a table that `fh_create` returned refines a finite map,
and what the map binds a key to at the end of the run is what the last
successful insertion bound it to.
-/
theorem fh_refines_finite_map
    {dim : Int32}
    {datalen : Int}
    {hashFunction : CString → UInt64}
    {grants : CreateGrants}
    {fh : FhT}
    (created : fhCreate dim datalen hashFunction grants = .ok (some fh))
    (calls : List FhCall) :
    ∃ final results map,
      runCalls fhStep fh calls = .ok (final, results) ∧
        SpecRun (ObjectMapStep datalen) (fun _ => none) calls results map ∧
        ∀ key,
          map key = lastInserted datalen key (calls.zip results) ∧
            fhGet final (some key) =
              .ok
                (match map key with
                | none =>
                    (final, none, fhElementNotFound)
                | some object =>
                    (final, object, fhOk)) := by
  obtain ⟨bits, small, isCreated⟩ := fhCreate_eq created
  subst isCreated
  obtain ⟨stores, free⟩ :=
    createdFh_stores dim (small.trans (by decide)) datalen hashFunction
  have represents :
      Represents datalen (createdFh dim (2 ^ bits) datalen hashFunction)
        fun _ => none :=
    ⟨stores, free, rfl⟩
  have permitted :
      AlwaysAllowed (ObjectMapStep datalen) (fun _ _ => True)
        (fun _ => none) calls :=
    alwaysAllowed_of_forall (fun _ _ _ => trivial) _
  have stepRefines :
      ∀ {fh map call},
        Represents datalen fh map →
        True →
        ∃ next result after,
          fhStep fh call = .ok (next, result) ∧
            ObjectMapStep datalen map call result after ∧
            Represents datalen next after :=
    fun represents _ => fhStep_refines represents
  obtain ⟨final, results, map, runs, specified, finalRepresents⟩ :=
    runCalls_refines stepRefines represents permitted
  refine ⟨final, results, map, runs, specified, ?_⟩
  intro key
  exact ⟨binding_of_run specified key,
    fhGet_eq finalRepresents.stores
      (finalRepresents.free.available (final.table.indexOf key))⟩

/-- Two keys with the same hash; the first is deleted again. -/
theorem fh_refines_finite_map_collision :
    ∃ final results,
      runCalls fhStep (createdFh 1 1 fhDatalenVoidp fun _ => 7)
          [.insert ⟨[97], by decide⟩ none,
            .insert ⟨[98], by decide⟩ (some ⟨4096, []⟩),
            .del ⟨[97], by decide⟩] =
        .ok (final, results) ∧
      fhGet final (some ⟨[98], by decide⟩) =
        .ok (final, some (.pointer ⟨4096, []⟩), fhOk) := by
  obtain ⟨final, results, map, runs, -, bindings⟩ :=
    fh_refines_finite_map
      (rfl :
        fhCreate 1 fhDatalenVoidp (fun _ => 7) .all =
          .ok (some (createdFh 1 1 fhDatalenVoidp fun _ => 7)))
      [.insert ⟨[97], by decide⟩ none,
        .insert ⟨[98], by decide⟩ (some ⟨4096, []⟩),
        .del ⟨[97], by decide⟩]
  obtain ⟨isBound, gets⟩ := bindings ⟨[98], by decide⟩
  refine ⟨final, results, runs, ?_⟩
  have computed : results = [.code 0, .code 0, .code 0] := by
    have values := congrArg (fun outcome => outcome.map Prod.snd) runs
    exact (Except.ok.inj values).symm
  rw [gets, isBound, computed]
  rfl

end Clibs.Fh
