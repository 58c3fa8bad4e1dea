import Clibs.Fh.Table
import Mathlib.Data.List.Sort

namespace Clibs.Fh

/-!
# The enumerator and `fh_clean`

`fh_enum_create` records the used slots of the table chain after chain, each
chain under its lock, and `fh_clean` deletes the recorded keys one by one.  The
user's delete function of `fh_clean` acts on a state of its own; it is also
given the table at the time of the call.
-/

/-- `FHE_MAGIC_ID`. -/
def fheMagicId : Nat :=
  0xBACCA

/-- `FH_ENUM_SORTED_ASC`. -/
def fhEnumSortedAsc : Int :=
  1

/-- `FH_ENUM_SORTED_DESC`. -/
def fhEnumSortedDesc : Int :=
  2

/-- `fh_elem_t`. -/
structure FhElem where
  key : Option FhKey
  opaqueObj : Option OpaqueObj
  deriving Repr, DecidableEq

/-- An element as `calloc` leaves it. -/
def FhElem.zero : FhElem where
  key := none
  opaqueObj := none

/-- `fh_enum_t`. -/
structure FhEnum where
  magic : Nat
  idx : Nat
  elemList : List FhElem
  size : Nat
  isValid : Int
  deriving Repr, DecidableEq

/-- `fh_ascfunc`; the keys are not `NULL`. -/
def fhAscfunc (first second : FhElem) : Int :=
  match first.key, second.key with
  | some firstKey, some secondKey =>
      strcmp firstKey.string secondKey.string
  | _, _ =>
      0

/-- `fh_descfunc`. -/
def fhDescfunc (first second : FhElem) : Int :=
  fhAscfunc second first

/-- `qsort` with a comparison that reads the keys. -/
def qsort
    (elements : List FhElem)
    (compare : FhElem → FhElem → Int) : Checked (List FhElem) :=
  if elements.all fun element => element.key.isSome then
    .ok (elements.mergeSort fun first second => compare first second ≤ 0)
  else
    .error .nullDereference

/-- Which allocations of `fh_enum_create` succeed. -/
structure EnumGrants where
  handle : Bool
  elemList : Bool
  deriving Repr, DecidableEq

/-- All allocations of `fh_enum_create` succeed. -/
def EnumGrants.all : EnumGrants where
  handle := true
  elemList := true

/-- The loop over the slots of a bucket; it ends when the list is full. -/
def recordBucket
    (elements : Nat)
    (bucket : FhBucket) :
    List (Fin bucketSize) → List FhElem → List FhElem
  | [], recorded =>
      recorded
  | index :: rest, recorded =>
      if (bucket.slot index).miniHash ≠ 0 then
        if elements ≤ recorded.length then
          recorded
        else
          recordBucket elements bucket rest
            (recorded ++
              [{ key := (bucket.slot index).key
                 opaqueObj := (bucket.slot index).opaqueObj }])
      else
        recordBucket elements bucket rest recorded

/-- The loop over the buckets of a chain. -/
def recordChain
    (elements : Nat) :
    List FhBucket → List FhElem → List FhElem
  | [], recorded =>
      recorded
  | bucket :: rest, recorded =>
      recordChain elements rest
        (recordBucket elements bucket (List.finRange bucketSize) recorded)

/-- The loop over the chains, each visited under its lock. -/
def recordChains
    (table : FhTable)
    (elements : Nat) :
    List Nat → FhLocks → List FhElem → Checked (FhLocks × List FhElem)
  | [], locks, recorded =>
      .ok (locks, recorded)
  | index :: rest, locks, recorded =>
      if recorded.length < elements then do
        let locks ← locks.wlock index
        let recorded := recordChain elements (table.hashTable index) recorded
        let locks ← locks.unlock index
        recordChains table elements rest locks recorded
      else
        .ok (locks, recorded)

/-- The recorded elements in the order asked for. -/
def sortElems
    (sortOrder : Int)
    (recorded : List FhElem) : Checked (List FhElem) :=
  if sortOrder = fhEnumSortedAsc then
    qsort recorded fhAscfunc
  else if sortOrder = fhEnumSortedDesc then
    qsort recorded fhDescfunc
  else
    .ok recorded

/-- `fh_enum_create`: the enumerator, or `NULL` with the code in `*error`. -/
def fhEnumCreate
    (fh : FhT)
    (sortOrder : Int)
    (grants : EnumGrants) : Checked (FhT × Except Int FhEnum) :=
  if fh.hMagic ≠ fhMagicId then
    .ok (fh, .error fhBadHandle)
  else if fh.hElements < 1 then
    .ok (fh, .error fhEmptyHashtable)
  else if grants.handle = false then
    .ok (fh, .error fhNoMemory)
  else if grants.elemList = false then
    .ok (fh, .error fhNoMemory)
  else do
    let elements := fh.hElements.toNat
    let (locks, recorded) ←
      recordChains fh.table elements (List.range fh.table.hDim) fh.locks []
    let sorted ← sortElems sortOrder recorded
    .ok
      ({ fh with
          locks := locks },
        .ok
          { magic := fheMagicId
            idx := 0
            elemList :=
              sorted ++
                List.replicate (elements - recorded.length) FhElem.zero
            size := recorded.length
            isValid := 1 })

/-- `fh_enum_is_valid`. -/
def fhEnumIsValid (fhe : FhEnum) : Int :=
  if fhe.magic ≠ fheMagicId then
    fhBadHandle
  else
    fhe.isValid

/-- `fh_enum_move_next`. -/
def fhEnumMoveNext (fhe : FhEnum) : FhEnum × Int :=
  if fhe.magic ≠ fheMagicId then
    (fhe, fhBadHandle)
  else if fhe.size ≤ fhe.idx + 1 then
    ({ fhe with
        idx := fhe.idx + 1
        isValid := 0 },
      fhOk)
  else
    ({ fhe with
        idx := fhe.idx + 1 },
      fhOk)

/-- `fh_enum_get_value`: the element, and the code stored in `*error` if any. -/
def fhEnumGetValue (fhe : FhEnum) : Option FhElem × Option Int :=
  if fhe.magic ≠ fheMagicId then
    (none, some fhBadHandle)
  else if fhe.isValid = 1 then
    (some (fhe.elemList.getD fhe.idx FhElem.zero), none)
  else
    (none, none)

/-- `fh_enum_destroy`. -/
def fhEnumDestroy (fhe : FhEnum) : FhEnum × Int :=
  if fhe.magic ≠ fheMagicId then
    (fhe, fhBadHandle)
  else
    ({ fhe with
        magic := 0
        elemList := [] },
      fhOk)

/-- The user's delete function, on a state of its own. -/
abbrev DelFunc (User : Type) :=
  FhT → Option OpaqueObj → User → User

/-- The delete function is called on pointers the table did not allocate. -/
def callDelFunc
    {User : Type}
    (delFunc : Option (DelFunc User))
    (fh : FhT)
    (opaqueObj : Option OpaqueObj)
    (user : User) : User :=
  if fh.table.hDatalen = fhDatalenVoidp then
    match delFunc with
    | none =>
        user
    | some function =>
        function fh opaqueObj user
  else
    user

/-- The loop of `fh_clean`. -/
def fhCleanLoop
    {User : Type}
    (delFunc : Option (DelFunc User)) :
    Nat → FhT → FhEnum → Int → User → Checked (FhT × Int × User)
  | 0, _, _, _, _ =>
      .error .divergence
  | fuel + 1, fh, fhe, result, user =>
      if fhEnumIsValid fhe ≠ 0 then
        match fhEnumGetValue fhe with
        | (none, error) =>
            .ok (fh, error.getD result, user)
        | (some element, error) => do
            let (fh, _) ← fhDel fh (element.key.map FhKey.string)
            let user := callDelFunc delFunc fh element.opaqueObj user
            fhCleanLoop delFunc fuel fh (fhEnumMoveNext fhe).1
              (error.getD result) user
      else
        .ok (fh, result, user)

/--
`fh_clean`.  The enumerator visits each place of its list at most once, which
bounds the loop.
-/
def fhClean
    {User : Type}
    (fh : FhT)
    (delFunc : Option (DelFunc User))
    (grants : EnumGrants)
    (user : User) : Checked (FhT × Int × User) :=
  if fh.hMagic ≠ fhMagicId then
    .ok (fh, fhBadHandle, user)
  else if delFunc.isSome ∧ fh.table.hDatalen ≠ fhDatalenVoidp then
    .ok (fh, fhFreeNotRequested, user)
  else do
    match ← fhEnumCreate fh 0 grants with
    | (fh, .error code) =>
        .ok (fh, code, user)
    | (fh, .ok fhe) =>
        fhCleanLoop delFunc (fhe.elemList.length + 1) fh fhe fhOk user

end Clibs.Fh
