import Clibs.Fh.Calls

namespace Clibs.Fh

/-!
# Enumeration and `fh_clean`

The scan of `fh_enum_create` records the used slots in the order of the chains;
the counter is exact, so all of them fit into the list.  The loop of `fh_clean`
keeps the invariant that the elements not yet visited are the entries of the
table, and each turn deletes one of them.
-/

/-- What the scan records of a slot. -/
def slotElems (slot : FhSlot) : List FhElem :=
  if slot.miniHash = 0 then
    []
  else
    [{ key := slot.key
       opaqueObj := slot.opaqueObj }]

/-- What the scan records of a bucket. -/
def bucketElems (bucket : FhBucket) : List FhElem :=
  gather slotElems (List.finRange bucketSize) bucket.slot

/-- What the scan records of a chain. -/
def chainElems (chain : List FhBucket) : List FhElem :=
  chain.flatMap bucketElems

/-- What the scan records of a table. -/
def FhTable.elems (table : FhTable) : List FhElem :=
  gather chainElems (List.range table.hDim) table.hashTable

/-- The entry of a recorded element. -/
def FhElem.entries (element : FhElem) : List Entry :=
  element.key.toList.map fun key => (key.string, element.opaqueObj)

section Record

variable {table : FhTable}
  {elements : Nat}
  {recorded : List FhElem}

/-- The scan of a bucket ends when the list is full. -/
theorem recordBucket_take
    (bucket : FhBucket)
    (indices : List (Fin bucketSize))
    (hasRoom : recorded.length ≤ elements) :
    recordBucket elements bucket indices recorded =
      (recorded ++ gather slotElems indices bucket.slot).take elements := by
  induction indices generalizing recorded with
  | nil =>
      simp [recordBucket, gather, List.take_of_length_le hasRoom]
  | cons index rest inductionHypothesis =>
      simp only [gather, List.flatMap_cons] at inductionHypothesis ⊢
      by_cases free : (bucket.slot index).miniHash = 0
      · have nothing : slotElems (bucket.slot index) = [] := if_pos free
        rw [recordBucket, if_neg (not_not.mpr free), nothing, List.nil_append]
        exact inductionHypothesis hasRoom
      · have one :
            slotElems (bucket.slot index) =
              [{ key := (bucket.slot index).key
                 opaqueObj := (bucket.slot index).opaqueObj }] :=
          if_neg free
        rw [recordBucket, if_pos free, one]
        by_cases full : elements ≤ recorded.length
        · rw [if_pos full, List.take_append_of_le_length full,
            List.take_of_length_le hasRoom]
        · rw [if_neg full, ← List.append_assoc]
          apply inductionHypothesis
          rw [List.length_append, List.length_singleton]
          omega

/-- A list that was cut to a length is not cut again before that length. -/
theorem take_append_full
    {Item : Type}
    (first second : List Item)
    {count : Nat} :
    (first.take count ++ second).take count =
      (first ++ second).take count := by
  have sameRest : count - min count first.length = count - first.length := by
    omega
  rw [List.take_append, List.take_append, List.take_take, min_self,
    List.length_take, sameRest]

/-- The scan of a chain ends when the list is full. -/
theorem recordChain_take
    (chain : List FhBucket)
    (hasRoom : recorded.length ≤ elements) :
    recordChain elements chain recorded =
      (recorded ++ chainElems chain).take elements := by
  induction chain generalizing recorded with
  | nil =>
      simp [recordChain, chainElems, List.take_of_length_le hasRoom]
  | cons bucket rest inductionHypothesis =>
      have fits :
          ((recorded ++ bucketElems bucket).take elements).length ≤
            elements :=
        List.length_take_le ..
      rw [recordChain, recordBucket_take bucket _ hasRoom]
      change recordChain elements rest
          ((recorded ++ bucketElems bucket).take elements) =
        (recorded ++ (bucketElems bucket ++ chainElems rest)).take elements
      rw [inductionHypothesis fits, ← List.append_assoc]
      exact take_append_full _ _

/-- The scan of a chain whose elements fit into the list. -/
theorem recordChain_eq
    (chain : List FhBucket)
    (fits : recorded.length + (chainElems chain).length ≤ elements) :
    recordChain elements chain recorded = recorded ++ chainElems chain := by
  rw [recordChain_take chain (by omega), List.take_of_length_le]
  rwa [List.length_append]

/-- The scan of the chains when their elements fit and no lock is taken. -/
theorem recordChains_eq
    {locks : FhLocks}
    (free : locks.Free)
    (indices : List Nat)
    (fits :
      recorded.length +
          (gather chainElems indices table.hashTable).length ≤
        elements) :
    recordChains table elements indices locks recorded =
      .ok (locks, recorded ++ gather chainElems indices table.hashTable) := by
  induction indices generalizing recorded with
  | nil =>
      simp [recordChains, gather]
  | cons index rest inductionHypothesis =>
      simp only [gather, List.flatMap_cons, List.length_append]
        at fits inductionHypothesis ⊢
      by_cases hasRoom : recorded.length < elements
      · obtain ⟨held, takes, gives⟩ := (free.available index).wlock
        have chainFits :
            recorded.length +
                (chainElems (table.hashTable index)).length ≤
              elements := by
          omega
        rw [recordChains, if_pos hasRoom, takes, Checked.ok_bind,
          recordChain_eq _ chainFits, gives, Checked.ok_bind,
          inductionHypothesis, List.append_assoc]
        rw [List.length_append]
        omega
      · have noneLeft :
            chainElems (table.hashTable index) ++
                rest.flatMap (fun other =>
                  chainElems (table.hashTable other)) =
              [] := by
          apply List.eq_nil_of_length_eq_zero
          rw [List.length_append]
          omega
        rw [recordChains, if_neg hasRoom, noneLeft, List.append_nil]

end Record

section Elems

variable {table : FhTable}

/-- The entries of a slot are those of what the scan records of it. -/
theorem slotElems_entries (slot : FhSlot) :
    (slotElems slot).flatMap FhElem.entries = slot.entries := by
  unfold slotElems FhSlot.entries
  split
  · rfl
  · simp [FhElem.entries]

/-- The entries of a chain are those of what the scan records of it. -/
theorem chainElems_entries (chain : List FhBucket) :
    (chainElems chain).flatMap FhElem.entries = chainEntries chain := by
  simp only [chainElems, chainEntries, gather, bucketElems,
    List.flatMap_assoc, slotElems_entries]
  rfl

/-- The entries of a table are those of what the scan records of it. -/
theorem elems_entries (table : FhTable) :
    table.elems.flatMap FhElem.entries = table.entries := by
  simp only [FhTable.elems, FhTable.entries, gather, List.flatMap_assoc,
    chainElems_entries]

/-- Every element recorded from a chain has a key, which belongs there. -/
theorem chainElems_key
    {keyOk : FhKey → Prop}
    (ok : table.OkFor keyOk)
    {index : Nat}
    {element : FhElem}
    (member : element ∈ chainElems (table.hashTable index)) :
    ∃ key, element.key = some key ∧ table.indexOf key.string = index := by
  obtain ⟨bucket, isBucket, inBucket⟩ := List.mem_flatMap.mp member
  obtain ⟨position, -, inSlot⟩ := mem_gather.mp inBucket
  generalize bucket.slot position = slot,
    ok.slots index bucket isBucket position = slotOk at inSlot
  cases slotOk with
  | cleared =>
      simp [slotElems, FhSlot.cleared] at inSlot
  | @used stored object isPlaced =>
      simp only [slotElems, usedSlot, makeMinihash_ne_zero, if_false,
        List.mem_singleton] at inSlot
      exact ⟨stored, by rw [inSlot], isPlaced.1⟩

/-- Every recorded element has a key. -/
theorem elems_key
    {keyOk : FhKey → Prop}
    (ok : table.OkFor keyOk)
    {element : FhElem}
    (member : element ∈ table.elems) :
    ∃ key, element.key = some key := by
  obtain ⟨index, -, inChain⟩ := mem_gather.mp member
  obtain ⟨key, isKey, -⟩ := chainElems_key ok inChain
  exact ⟨key, isKey⟩

/-- Sorting rearranges the elements. -/
theorem sortElems_perm
    {recorded sorted : List FhElem}
    {sortOrder : Int}
    (sorts : sortElems sortOrder recorded = .ok sorted) :
    sorted.Perm recorded := by
  have rearranges :
      ∀ compare,
        qsort recorded compare = .ok sorted →
        sorted.Perm recorded := by
    intro compare sorts
    unfold qsort at sorts
    split at sorts
    next =>
      cases sorts
      exact List.mergeSort_perm _ _
    next =>
      cases sorts
  unfold sortElems at sorts
  split at sorts
  next =>
    exact rearranges fhAscfunc sorts
  next =>
    split at sorts
    next =>
      exact rearranges fhDescfunc sorts
    next =>
      cases sorts
      exact .refl recorded

/-- Elements with keys are sorted without a fault. -/
theorem sortElems_keys
    {recorded : List FhElem}
    (keys : ∀ element ∈ recorded, element.key.isSome = true)
    (sortOrder : Int) :
    ∃ sorted, sortElems sortOrder recorded = .ok sorted := by
  have sorts : ∀ compare, ∃ sorted, qsort recorded compare = .ok sorted :=
    fun compare => ⟨_, if_pos (List.all_eq_true.mpr keys)⟩
  unfold sortElems
  split
  · exact sorts fhAscfunc
  · split
    · exact sorts fhDescfunc
    · exact ⟨recorded, rfl⟩

/-- Elements with keys have an entry each. -/
theorem length_entries
    {elements : List FhElem}
    (keys : ∀ element ∈ elements, ∃ key, element.key = some key) :
    (elements.flatMap FhElem.entries).length = elements.length := by
  induction elements with
  | nil =>
      rfl
  | cons element rest inductionHypothesis =>
      rw [List.forall_mem_cons] at keys
      obtain ⟨⟨key, isKey⟩, restKeys⟩ := keys
      rw [List.flatMap_cons, List.length_append, inductionHypothesis restKeys,
        List.length_cons]
      simp [FhElem.entries, isKey, Nat.add_comm]

end Elems

/-- The enumerator after the elements `visited`, before the others. -/
def enumAt
    (visited rest : List FhElem) : FhEnum where
  magic := fheMagicId
  idx := visited.length
  elemList := visited ++ rest
  size := (visited ++ rest).length
  isValid := if rest = [] then 0 else 1

/-- Moving on visits the next element. -/
theorem fhEnumMoveNext_enumAt
    (visited : List FhElem)
    (element : FhElem)
    (rest : List FhElem) :
    (fhEnumMoveNext (enumAt visited (element :: rest))).1 =
      enumAt (visited ++ [element]) rest := by
  cases rest with
  | nil =>
      simp [fhEnumMoveNext, enumAt]
  | cons next others =>
      simp [fhEnumMoveNext, enumAt]

section Clean

variable {fh : FhT}
  {map : CString → Option (Option OpaqueObj)}

/-- A new enumerator is before all elements of the table, in the order asked. -/
theorem fhEnumCreate_sorted
    (stores : fh.Stores map)
    (free : fh.locks.Free)
    (nonempty : fh.table.entries ≠ [])
    {sortOrder : Int}
    {sorted : List FhElem}
    (sorts : sortElems sortOrder fh.table.elems = .ok sorted) :
    fhEnumCreate fh sortOrder .all = .ok (fh, .ok (enumAt [] sorted)) := by
  have sameLength : fh.table.entries.length = fh.table.elems.length := by
    rw [← elems_entries, length_entries fun _ => elems_key stores.ok.okFor]
  have positive : 0 < fh.table.elems.length := by
    rw [← sameLength]
    exact List.length_pos_iff.mpr nonempty
  have counted : fh.hElements = fh.table.elems.length := by
    rw [stores.counted, sameLength]
  have records :
      recordChains fh.table fh.table.elems.length (List.range fh.table.hDim)
          fh.locks [] =
        .ok (fh.locks, fh.table.elems) := by
    apply recordChains_eq free
    exact Nat.le_of_eq (Nat.zero_add fh.table.elems.length)
  have sortedLength : sorted.length = fh.table.elems.length :=
    (sortElems_perm sorts).length_eq
  have notEmpty : sorted ≠ [] :=
    List.length_pos_iff.mp (sortedLength ▸ positive)
  have notZero : ¬ fh.hElements < 1 := by omega
  have listed : fh.hElements.toNat = fh.table.elems.length := by
    rw [counted, Int.toNat_natCast]
  rw [fhEnumCreate, if_neg (not_not.mpr stores.magic), if_neg notZero]
  simp only [EnumGrants.all, Bool.true_eq_false, if_false, listed, records,
    sorts, Checked.ok_bind]
  simp [enumAt, notEmpty, sortedLength]

/-- Without an order a new enumerator has the elements as they were recorded. -/
theorem fhEnumCreate_eq
    (stores : fh.Stores map)
    (free : fh.locks.Free)
    (nonempty : fh.table.entries ≠ []) :
    fhEnumCreate fh 0 .all = .ok (fh, .ok (enumAt [] fh.table.elems)) :=
  fhEnumCreate_sorted stores free nonempty rfl

/-- An enumerator before an element hands it out. -/
theorem enumAt_value
    (visited : List FhElem)
    (element : FhElem)
    (rest : List FhElem) :
    fhEnumIsValid (enumAt visited (element :: rest)) = 1 ∧
      fhEnumGetValue (enumAt visited (element :: rest)) =
        (some element, none) := by
  simp [fhEnumIsValid, fhEnumGetValue, enumAt]

/--
What the loop of `fh_clean` calls the delete function on: the table at the time
of each call, and the element.
-/
abbrev CleanVisits :=
  List (FhT × FhElem)

/-- The state of the delete function after the calls of the loop. -/
def CleanVisits.released
    {User : Type}
    (visits : CleanVisits)
    (delFunc : Option (DelFunc User))
    (user : User) : User :=
  visits.foldl
    (fun user visit =>
      callDelFunc delFunc visit.1 visit.2.opaqueObj user)
    user

/-- Each element is visited when its key is no longer in the table. -/
def CleanVisits.AfterDeletion
    (visits : CleanVisits)
    (fh : FhT) : Prop :=
  ∀ visit ∈ visits,
    ∀ key,
      visit.2.key = some key →
      ∃ map, fh.Becomes visit.1 map ∧ map key.string = none

/-- The loop of `fh_clean` deletes the elements it has not visited. -/
theorem fhCleanLoop_eq
    {User : Type}
    (delFunc : Option (DelFunc User))
    (stores : fh.Stores map)
    (free : fh.locks.Free)
    {rest : List FhElem}
    (visited : List FhElem)
    (keys : ∀ element ∈ rest, ∃ key, element.key = some key)
    (binds : Binds (rest.flatMap FhElem.entries) map)
    {fuel : Nat}
    (enough : rest.length < fuel)
    (user : User) :
    ∃ (next : FhT) (visits : CleanVisits),
      fhCleanLoop delFunc fuel fh (enumAt visited rest) fhOk user =
          .ok (next, fhOk, visits.released delFunc user) ∧
        fh.Becomes next (fun _ => none) ∧
        visits.map Prod.snd = rest ∧
        visits.AfterDeletion fh := by
  obtain ⟨fuel, rfl⟩ := Nat.exists_eq_succ_of_ne_zero (Nat.ne_zero_of_lt enough)
  induction rest generalizing fh map visited fuel user with
  | nil =>
      rw [binds.eq_empty] at stores
      have noVisits : CleanVisits.AfterDeletion [] fh := by
        intro visit member
        cases member
      refine ⟨fh, [], ?_, stores.becomes, rfl, noVisits⟩
      simp [fhCleanLoop, fhEnumIsValid, enumAt, CleanVisits.released]
  | cons element rest inductionHypothesis =>
      have restEnough : rest.length < fuel := Nat.lt_of_succ_lt_succ enough
      obtain ⟨fuel, rfl⟩ :=
        Nat.exists_eq_succ_of_ne_zero (Nat.ne_zero_of_lt restEnough)
      rw [List.forall_mem_cons] at keys
      obtain ⟨⟨key, isKey⟩, restKeys⟩ := keys
      have isEntry : element.entries = [(key.string, element.opaqueObj)] := by
        simp [FhElem.entries, isKey]
      rw [List.flatMap_cons, isEntry, List.singleton_append] at binds
      obtain ⟨middle, deletes, becomes⟩ :=
        fhDel_bound stores (free.available _) binds.head
      have middleFree : middle.locks.Free := becomes.locks ▸ free
      obtain ⟨next, visits, cleans, cleaned, areRest, afterDeletion⟩ :=
        inductionHypothesis becomes.stores middleFree (visited ++ [element])
          restKeys binds.tail
          (callDelFunc delFunc middle element.opaqueObj user) fuel restEnough
      obtain ⟨isValid, hasValue⟩ := enumAt_value visited element rest
      refine ⟨next, (middle, element) :: visits, ?_, becomes.trans cleaned,
        by rw [List.map_cons, areRest], ?_⟩
      · rw [CleanVisits.released, List.foldl_cons]
        rw [CleanVisits.released] at cleans
        rw [← cleans, fhCleanLoop, if_pos (by rw [isValid]; decide), hasValue]
        simp [isKey, deletes, fhEnumMoveNext_enumAt]
      · intro visit member other isOther
        rcases List.mem_cons.mp member with isThis | isLater
        · subst isThis
          cases isKey.symm.trans isOther
          exact ⟨_, becomes, Function.update_self ..⟩
        · obtain ⟨later, isLaterTable, isGone⟩ :=
            afterDeletion visit isLater other isOther
          exact ⟨later, becomes.trans isLaterTable, isGone⟩

/-- A delete function that may be called is not refused. -/
theorem not_refused_of_allowed
    {User : Type}
    {delFunc : Option (DelFunc User)}
    (allowed : delFunc = none ∨ fh.table.hDatalen = fhDatalenVoidp) :
    ¬ (delFunc.isSome ∧ fh.table.hDatalen ≠ fhDatalenVoidp) := by
  rintro ⟨hasFunction, notVoidp⟩
  rcases allowed with noFunction | isVoidp
  · rw [noFunction] at hasFunction
    cases hasFunction
  · exact notVoidp isVoidp

/-- Cleaning a table that is not empty empties it. -/
theorem fhClean_visits
    {User : Type}
    (delFunc : Option (DelFunc User))
    (user : User)
    (stores : fh.Stores map)
    (free : fh.locks.Free)
    (allowed : delFunc = none ∨ fh.table.hDatalen = fhDatalenVoidp)
    (nonempty : fh.table.entries ≠ []) :
    ∃ (next : FhT) (visits : CleanVisits),
      fhClean fh delFunc .all user =
          .ok (next, fhOk, visits.released delFunc user) ∧
        fh.Becomes next (fun _ => none) ∧
        visits.map Prod.snd = fh.table.elems ∧
        visits.AfterDeletion fh := by
  have binds : Binds (fh.table.elems.flatMap FhElem.entries) map := by
    rw [elems_entries]
    exact stores.binds
  have permitted := not_refused_of_allowed allowed
  obtain ⟨next, visits, cleans, becomes, areElems, afterDeletion⟩ :=
    fhCleanLoop_eq delFunc stores free [] (fun _ => elems_key stores.ok.okFor) binds
      (Nat.lt_succ_self _) user
  refine ⟨next, visits, ?_, becomes, areElems, afterDeletion⟩
  rw [fhClean, if_neg (not_not.mpr stores.magic), if_neg permitted,
    fhEnumCreate_eq stores free nonempty, Checked.ok_bind]
  exact cleans

/-- Cleaning a table that binds a key empties it. -/
theorem fhClean_nonempty
    {User : Type}
    (delFunc : Option (DelFunc User))
    (user : User)
    (stores : fh.Stores map)
    (free : fh.locks.Free)
    (allowed : delFunc = none ∨ fh.table.hDatalen = fhDatalenVoidp)
    {key : CString}
    {object : Option OpaqueObj}
    (bound : map key = some object) :
    ∃ next released,
      fhClean fh delFunc .all user = .ok (next, fhOk, released) ∧
        fh.Becomes next fun _ => none := by
  obtain ⟨next, visits, cleans, becomes, -⟩ :=
    fhClean_visits delFunc user stores free allowed
      (List.ne_nil_of_mem (stores.mem_entries bound))
  exact ⟨next, _, cleans, becomes⟩

/-- Cleaning an empty table reports that it is empty. -/
theorem fhClean_empty
    {User : Type}
    (delFunc : Option (DelFunc User))
    (user : User)
    (stores : fh.Stores fun _ => none)
    (allowed : delFunc = none ∨ fh.table.hDatalen = fhDatalenVoidp) :
    fhClean fh delFunc .all user = .ok (fh, fhEmptyHashtable, user) := by
  have noEntries : fh.table.entries = [] :=
    List.Perm.eq_nil (stores.binds.unique .nil)
  have noElements : fh.hElements < 1 := by
    rw [stores.counted, noEntries]
    decide
  have permitted := not_refused_of_allowed allowed
  rw [fhClean, if_neg (not_not.mpr stores.magic), if_neg permitted,
    fhEnumCreate, if_neg (not_not.mpr stores.magic), if_pos noElements]
  rfl

/-- A delete function is refused unless the table holds pointers. -/
theorem fhClean_refused
    {User : Type}
    (function : DelFunc User)
    (user : User)
    (grants : EnumGrants)
    (magic : fh.hMagic = fhMagicId)
    (notVoidp : fh.table.hDatalen ≠ fhDatalenVoidp) :
    fhClean fh (some function) grants user =
      .ok (fh, fhFreeNotRequested, user) := by
  rw [fhClean, if_neg (not_not.mpr magic), if_pos ⟨rfl, notVoidp⟩]

end Clean

end Clibs.Fh
