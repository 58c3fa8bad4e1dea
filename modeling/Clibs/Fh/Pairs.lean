import Clibs.Fh.Balance
import Clibs.Fh.Buffer

namespace Clibs.Fh

/-!
# The calls that keep a lock agree with the plain ones

`fh_insertlock` and `fh_searchlock` are written out a second time in `fh.c`.
Followed by what their callers do next they leave the table that `fh_insert`,
`fh_del` and `fh_get` leave, and report the same.  A deletion under the lock of
a chain that is not the one of the key finds nothing there.
-/

/-- `fh_releaselock` of the stored slot, when `*error` is `FH_OK`. -/
def releaseOnSuccess
    (fh : FhT)
    (result : LockedResult) : Checked FhT :=
  if result.error = fhOk then
    match result.lockedSlot with
    | none =>
        .error .indeterminateRead
    | some slot => do
        let (fh, _) ← fhReleaselock fh slot
        .ok fh
  else
    .ok fh

/-- `fh_insertlock`, then on success `fh_releaselock`. -/
def insertlockRelease
    (fh : FhT)
    (key : Option CString)
    (block : Option Block)
    (addrGiven : Bool)
    (grants : InsertGrants) : Checked (FhT × Int) := do
  let (fh, result) ← Exits.fhInsertlock fh key block true addrGiven grants
  let fh ← releaseOnSuccess fh result
  .ok (fh, result.error)

/-- `fh_searchlock`, then on success `fh_dellocked` and `fh_releaselock`. -/
def searchlockDellocked
    (fh : FhT)
    (key : Option CString) : Checked (FhT × Int) := do
  let (fh, result) ← Exits.fhSearchlock fh key
  if result.error = fhOk then
    match result.lockedSlot with
    | none =>
        .error .indeterminateRead
    | some slot => do
        let (fh, code) ← fhDellocked fh key slot
        let (fh, _) ← fhReleaselock fh slot
        .ok (fh, code)
  else
    .ok (fh, result.error)

/-- `fh_searchlock`, then on success `fh_releaselock`. -/
def searchlockRelease
    (fh : FhT)
    (key : Option CString) : Checked (FhT × Option OpaqueObj × Int) := do
  let (fh, result) ← Exits.fhSearchlock fh key
  let fh ← releaseOnSuccess fh result
  .ok (fh, result.opaqueObj, result.error)

/-- The code that stands in `*error` for what a plain call returns. -/
def errorOf (code : Int) : Int :=
  if 0 ≤ code then
    fhOk
  else
    code

section Pairs

variable {fh : FhT}
  {map : ObjectMap}

/-- Releasing on success gives back the lock that was kept, if one was. -/
theorem EndsLocked.release
    {next : FhT}
    {result : LockedResult}
    (ends : EndsLocked fh next result) :
    releaseOnSuccess next result =
      .ok
        { next with
          locks := fh.locks } := by
  cases ends with
  | failed isError _ same _ =>
      rw [releaseOnSuccess, if_neg isError, ← same]
  | kept success isSlot _ releases =>
      rw [releaseOnSuccess, if_pos success, isSlot]
      simp only [releases, Checked.ok_bind]

/-- `fh_insertlock` and `fh_releaselock` do what `fh_insert` does. -/
theorem insertlock_agrees
    (stores : fh.Stores map)
    (free : fh.locks.Free)
    (key : Option CString)
    (block : Option Block)
    (addrGiven : Bool)
    (grants : InsertGrants) :
    ∃ next code,
      Exits.fhInsert fh key block grants = .ok (next, code) ∧
        insertlockRelease fh key block addrGiven grants =
          .ok (next, errorOf code) := by
  obtain ⟨next, result, returns, ends⟩ :=
    insertlock_keepsLock stores free key block true addrGiven grants
  rw [insertlockRelease, returns, Checked.ok_bind]
  simp only [ends.release, Checked.ok_bind]
  rw [Exits.fhInsertlock_eq] at returns
  rw [Exits.fhInsert_eq]
  cases key with
  | none =>
      rw [fhInsertlock, if_neg (not_not.mpr stores.magic)] at returns
      cases returns
      refine ⟨fh, fhInvalidKey, ?_, rfl⟩
      rw [fhInsert, if_neg (not_not.mpr stores.magic)]
  | some key =>
      obtain ⟨table, outcome, inserts, fails⟩ :=
        insertSlot_outcome stores.ok.okFor key block grants
      have plain := fhInsert_eq stores (free.available _) inserts
      obtain ⟨held, -, -, locked⟩ :=
        fhInsertlock_eq stores (free.available _) addrGiven inserts
      refine ⟨_, _, plain, ?_⟩
      cases outcome with
      | error code =>
          cases locked.symm.trans returns
          have isNegative := fails.error_negative
          have sameCode : errorOf code = code := if_neg (by omega)
          simp only [sameCode]
          rfl
      | ok address =>
          cases locked.symm.trans returns
          have isCode : errorOf (fh.table.indexOf key) = fhOk :=
            if_pos (Int.natCast_nonneg _)
          simp only [isCode]

/-- `fh_dellocked` between `fh_searchlock` and `fh_releaselock` is `fh_del`. -/
theorem dellocked_agrees
    (stores : fh.Stores map)
    (free : fh.locks.Free)
    (key : Option CString) :
    ∃ next code,
      fhDel fh key = .ok (next, code) ∧
        searchlockDellocked fh key = .ok (next, code) := by
  unfold searchlockDellocked
  rw [Exits.fhSearchlock_eq]
  cases key with
  | none =>
      refine ⟨fh, fhInvalidKey, ?_, ?_⟩
      · rw [fhDel, if_neg (not_not.mpr stores.magic)]
      · rw [fhSearchlock, if_neg (not_not.mpr stores.magic), Checked.ok_bind]
        rfl
  | some key =>
      have available := free.available (fh.table.indexOf key)
      cases isBound : map key with
      | none =>
          refine ⟨fh, _, fhDel_unbound stores available isBound, ?_⟩
          rw [fhSearchlock_unbound stores available isBound, Checked.ok_bind]
          rfl
      | some object =>
          obtain ⟨held, takes, gives⟩ := available.wlock
          obtain ⟨table, stored, found, address, deletes, -, -⟩ :=
            fhDelUnlocked_bound stores.ok.okFor (stores.mem_entries isBound)
          have plain := fhDel_eq stores available deletes
          have locked := fhDellocked_eq stores deletes held
          rw [countDeletion_index] at plain locked
          refine ⟨_, _, plain, ?_⟩
          have releases :
              fhReleaselock
                  { fh with
                    hElements := fh.hElements - 1
                    table := table
                    locks := held }
                  (fh.table.indexOf key) =
                .ok
                  ({ fh with
                      hElements := fh.hElements - 1
                      table := table },
                    fhOk) := by
            rw [fhReleaselock, if_neg (not_not.mpr stores.magic)]
            simp only [gives, Checked.ok_bind]
          rw [fhSearchlock_bound stores takes isBound, Checked.ok_bind]
          simp only [if_true, locked, releases, Checked.ok_bind]

/-- `fh_searchlock` and `fh_releaselock` do what `fh_get` does. -/
theorem searchlock_agrees
    (stores : fh.Stores map)
    (free : fh.locks.Free)
    (key : Option CString) :
    ∃ object error,
      Exits.fhGet fh key = .ok (fh, object, error) ∧
        searchlockRelease fh key = .ok (fh, object, error) := by
  obtain ⟨next, result, returns, ends⟩ := searchlock_keepsLock stores free key
  rw [searchlockRelease, returns, Checked.ok_bind]
  simp only [ends.release, Checked.ok_bind]
  rw [Exits.fhSearchlock_eq] at returns
  rw [Exits.fhGet_eq]
  cases key with
  | none =>
      rw [fhSearchlock, if_neg (not_not.mpr stores.magic)] at returns
      cases returns
      refine ⟨none, fhInvalidKey, ?_, rfl⟩
      rw [fhGet, if_neg (not_not.mpr stores.magic)]
  | some key =>
      have available := free.available (fh.table.indexOf key)
      have gets := fhGet_eq stores available
      cases isBound : map key with
      | none =>
          rw [isBound] at gets
          cases (fhSearchlock_unbound stores available isBound).symm.trans
            returns
          exact ⟨_, _, gets, rfl⟩
      | some object =>
          rw [isBound] at gets
          obtain ⟨held, takes, -⟩ := available.wlock
          cases (fhSearchlock_bound stores takes isBound).symm.trans returns
          exact ⟨_, _, gets, rfl⟩

/-- `fh_search` is a hit exactly when `fh_get` is, and else reports the same. -/
theorem search_agrees
    (stores : fh.Stores map)
    (free : fh.locks.Free)
    (notVoidp : fh.table.hDatalen ≠ fhDatalenVoidp)
    {blockSize : Int}
    (notNegative : 0 ≤ blockSize)
    {key : Option CString}
    {object : Option OpaqueObj}
    {error : Int}
    (gets : Exits.fhGet fh key = .ok (fh, object, error)) :
    ∃ code written,
      Exits.fhSearch fh key true blockSize = .ok (fh, code, written) ∧
        errorOf code = error := by
  rw [Exits.fhGet_eq] at gets
  rw [Exits.fhSearch_eq]
  cases key with
  | none =>
      rw [fhGet, if_neg (not_not.mpr stores.magic)] at gets
      cases gets
      refine ⟨fhInvalidKey, [], ?_, rfl⟩
      rw [fhSearch, if_neg (not_not.mpr stores.magic)]
  | some key =>
      have available := free.available (fh.table.indexOf key)
      have found := fhGet_eq stores available
      have searches := fhSearch_eq stores available notVoidp blockSize
      cases isBound : map key with
      | none =>
          rw [isBound] at found searches
          cases found.symm.trans gets
          exact ⟨_, _, searches, rfl⟩
      | some bound =>
          rw [isBound] at found searches
          cases found.symm.trans gets
          have isCode : errorOf (fh.table.indexOf key) = fhOk :=
            if_pos (Int.natCast_nonneg _)
          cases copies : copyOut fh.table.hDatalen object blockSize with
          | ok written =>
              refine ⟨_, _, searches, ?_⟩
              simp only [copies, isCode]
          | error code =>
              have isNegative := (copyOut_error copies).2
              omega

/-- `fh_dellocked` under the lock of another chain finds nothing. -/
theorem dellocked_elsewhere
    (stores : fh.Stores map)
    (key : CString)
    {slot : Nat}
    (inRange : slot < fh.table.hDim)
    (isOther : slot ≠ fh.table.indexOf key)
    (locks : FhLocks) :
    fhDellocked
        { fh with
          locks := locks }
        (some key) slot =
      .ok
        ({ fh with
            locks := locks },
          fhElementNotFound) := by
  obtain ⟨table, code, deletes, ends⟩ :=
    fhDelUnlocked_outcome stores.ok.okFor key inRange
  rw [fhDellocked_eq stores deletes]
  cases ends with
  | deleted isIndex =>
      exact (isOther isIndex).elim
  | missing =>
      rfl

end Pairs

/--
On every table that was reached, with any key, block and outcome of the
allocations: an insertion, a deletion and a search under a lock that is kept and
then released leave the table of the plain call and report what it does; and
`fh_dellocked` with another chain finds nothing and changes nothing.
-/
theorem locked_calls_agree
    {fh : FhT}
    (reached : fh.Reached) :
    (∀ key block addrGiven grants,
      ∃ next code,
        Exits.fhInsert fh key block grants = .ok (next, code) ∧
          insertlockRelease fh key block addrGiven grants =
            .ok (next, errorOf code)) ∧
      (∀ key,
        ∃ next code,
          fhDel fh key = .ok (next, code) ∧
            searchlockDellocked fh key = .ok (next, code)) ∧
      (∀ key,
        ∃ object error,
          Exits.fhGet fh key = .ok (fh, object, error) ∧
            searchlockRelease fh key = .ok (fh, object, error) ∧
            ∀ blockSize,
              fh.table.hDatalen ≠ fhDatalenVoidp →
              0 ≤ blockSize →
              ∃ code written,
                Exits.fhSearch fh key true blockSize =
                    .ok (fh, code, written) ∧
                  errorOf code = error) ∧
      ∀ key slot locks,
        slot < fh.table.hDim →
        slot ≠ fh.table.indexOf key →
        fhDellocked
            { fh with
              locks := locks }
            (some key) slot =
          .ok
            ({ fh with
                locks := locks },
              fhElementNotFound) := by
  obtain ⟨free, map, stores⟩ := reached.stores
  refine ⟨insertlock_agrees stores free, dellocked_agrees stores free, ?_, ?_⟩
  · intro key
    obtain ⟨object, error, gets, searches⟩ := searchlock_agrees stores free key
    exact ⟨object, error, gets, searches,
      fun _ notVoidp notNegative =>
        search_agrees stores free notVoidp notNegative gets⟩
  · intro key slot locks inRange isOther
    exact dellocked_elsewhere stores key inRange isOther locks

/-- In a table of pointers a cached key is deleted in both ways. -/
theorem locked_calls_agree_shared :
    ∃ (fh next : FhT) (code : Int),
      fh.Reached ∧
        fhDel fh (some ⟨[97], by decide⟩) = .ok (next, code) ∧
        searchlockDellocked fh (some ⟨[97], by decide⟩) = .ok (next, code) := by
  obtain ⟨fh, reached, -⟩ := reached_shared
  obtain ⟨-, deletes, -⟩ := locked_calls_agree reached
  obtain ⟨next, code, plain, locked⟩ := deletes (some ⟨[97], by decide⟩)
  exact ⟨fh, next, code, reached, plain, locked⟩

end Clibs.Fh
