import Clibs.Fh.Lending
import Clibs.Fh.Snapshot

namespace Clibs.Fh

/-!
# What an enumerator lists

In a table that a run of one user reached, the counter is the number of used
slots, so the scan that the counter cuts off is complete.  Each key is listed
once with its object, in the order asked for; the map of the table alone decides
a listing in order.
-/

/--
A table that a run of calls and writes of one user reached, whose locks were all
given back.
-/
def FhT.Reached (fh : FhT) : Prop :=
  ∃ dim datalen hashFunction grants first calls results loans,
    fhCreate dim datalen hashFunction grants = .ok (some first) ∧
      (∀ call ∈ calls, UserCall.Granted call) ∧
      runCalls userStep (UserState.start first) calls =
        .ok ({ fh := fh, loans := loans }, results) ∧
      fh.locks.Free

/-- `fh_get` returns the object for the key. -/
def FhT.Holds
    (fh : FhT)
    (key : CString)
    (object : Option OpaqueObj) : Prop :=
  fhGet fh (some key) = .ok (fh, object, fhOk)

/-- The enumerator that `fh_enum_create` returns hands out the elements. -/
structure FhT.Listing
    (fh : FhT)
    (sortOrder : Int)
    (listed : List FhElem) : Prop where
  created :
    ∃ fhe,
      fhEnumCreate fh sortOrder .all = .ok (fh, .ok fhe) ∧
        enumLoop (listed.length + 1) fhe = .ok listed
  counted : (listed.length : Int) = fh.hElements
  keys : ∀ element ∈ listed, element.key.isSome = true
  once : (keysOf listed).Nodup
  complete :
    ∀ key object,
      (key, object) ∈ listed.flatMap FhElem.entries ↔ fh.Holds key object
  ascending :
    sortOrder = fhEnumSortedAsc →
    (keysOf listed).Pairwise fun first second => strcmp first second < 0
  descending :
    sortOrder = fhEnumSortedDesc →
    (keysOf listed).Pairwise fun first second => 0 < strcmp first second

section Order

variable {elements sorted : List FhElem}

/-- The key of an element as a string. -/
def FhElem.name (element : FhElem) : CString :=
  match element.key with
  | none =>
      ⟨[], CString.noTerminator_nil⟩
  | some key =>
      key.string

/-- The keys of elements that have one. -/
theorem keysOf_eq_map
    (keys : ∀ element ∈ elements, element.key.isSome = true) :
    keysOf elements = elements.map FhElem.name := by
  induction elements with
  | nil =>
      rfl
  | cons element rest inductionHypothesis =>
      rw [List.forall_mem_cons] at keys
      obtain ⟨hasKey, restKeys⟩ := keys
      obtain ⟨key, isKey⟩ := Option.isSome_iff_exists.mp hasKey
      have split : keysOf (element :: rest) = keysOf [element] ++ keysOf rest :=
        keysOf_append [element] rest
      rw [split, inductionHypothesis restKeys]
      simp [keysOf, FhElem.entries, FhElem.name, isKey]

/-- The comparison of two elements that have keys. -/
theorem fhAscfunc_eq
    {first second : FhElem}
    (firstKey : first.key.isSome = true)
    (secondKey : second.key.isSome = true) :
    fhAscfunc first second = strcmp first.name second.name := by
  obtain ⟨key, isKey⟩ := Option.isSome_iff_exists.mp firstKey
  obtain ⟨other, isOther⟩ := Option.isSome_iff_exists.mp secondKey
  simp [fhAscfunc, FhElem.name, isKey, isOther]

/-- `strcmp` is not positive when the first string does not come later. -/
theorem strcmp_nonpos
    {first second : CString} :
    strcmp first second ≤ 0 ↔ first ≤ second := by
  rw [← not_lt, strcmp_pos, not_lt]

/-- `qsort` orders the keys, for a comparison by keys. -/
theorem qsort_names
    {order : CString → CString → Prop}
    [DecidableRel order]
    [Std.Total order]
    [IsTrans CString order]
    {compare : FhElem → FhElem → Int}
    (compares :
      ∀ first ∈ elements,
        ∀ second ∈ elements,
          compare first second ≤ 0 ↔ order first.name second.name)
    (sorts : qsort elements compare = .ok sorted) :
    (sorted.map FhElem.name).Pairwise order := by
  unfold qsort at sorts
  split at sorts
  next =>
    cases sorts
    rw [List.map_mergeSort (s := fun first second => order first second)]
    · exact List.pairwise_mergeSort' order _
    · intro first isFirst second isSecond
      exact decide_eq_decide.mpr (compares first isFirst second isSecond)
  next =>
    cases sorts

/-- Keys in order without repetition are strictly in order. -/
theorem keysOf_pairwise
    {order strict : CString → CString → Prop}
    (keys : ∀ element ∈ sorted, element.key.isSome = true)
    (once : (keysOf sorted).Nodup)
    (ordered : (sorted.map FhElem.name).Pairwise order)
    (isStrict :
      ∀ first second, order first second → first ≠ second →
        strict first second) :
    (keysOf sorted).Pairwise strict := by
  rw [keysOf_eq_map keys] at once ⊢
  exact (ordered.and once).imp fun both => isStrict _ _ both.1 both.2

/-- Elements listed in ascending order. -/
theorem sortElems_ascending
    (keys : ∀ element ∈ elements, element.key.isSome = true)
    (once : (keysOf elements).Nodup)
    (sorts : sortElems fhEnumSortedAsc elements = .ok sorted) :
    (keysOf sorted).Pairwise fun first second => strcmp first second < 0 := by
  have permuted := sortElems_perm sorts
  have sortedKeys : ∀ element ∈ sorted, element.key.isSome = true :=
    fun element member => keys element (permuted.mem_iff.mp member)
  rw [sortElems, if_pos rfl] at sorts
  have ordered : (sorted.map FhElem.name).Pairwise (· ≤ ·) :=
    qsort_names
      (fun first isFirst second isSecond => by
        rw [fhAscfunc_eq (keys first isFirst) (keys second isSecond),
          strcmp_nonpos])
      sorts
  exact keysOf_pairwise sortedKeys ((keysOf_perm permuted).nodup_iff.mpr once)
    ordered fun first second before differ =>
      strcmp_neg.mpr (lt_of_le_of_ne before differ)

/-- Elements listed in descending order. -/
theorem sortElems_descending
    (keys : ∀ element ∈ elements, element.key.isSome = true)
    (once : (keysOf elements).Nodup)
    (sorts : sortElems fhEnumSortedDesc elements = .ok sorted) :
    (keysOf sorted).Pairwise fun first second => 0 < strcmp first second := by
  have permuted := sortElems_perm sorts
  have sortedKeys : ∀ element ∈ sorted, element.key.isSome = true :=
    fun element member => keys element (permuted.mem_iff.mp member)
  rw [sortElems, if_neg (by decide), if_pos rfl] at sorts
  have ordered : (sorted.map FhElem.name).Pairwise (· ≥ ·) :=
    qsort_names
      (fun first isFirst second isSecond => by
        rw [fhDescfunc, fhAscfunc_eq (keys second isSecond) (keys first isFirst),
          strcmp_nonpos])
      sorts
  exact keysOf_pairwise sortedKeys ((keysOf_perm permuted).nodup_iff.mpr once)
    ordered fun first second after differ =>
      strcmp_pos.mpr (lt_of_le_of_ne after differ.symm)

end Order

section Listings

variable {fh other : FhT}
  {map : ObjectMap}
  {sortOrder : Int}

/-- A table that was reached stands for a map. -/
theorem FhT.Reached.stores
    (reached : fh.Reached) :
    fh.locks.Free ∧ ∃ map, fh.Stores map := by
  obtain ⟨dim, datalen, hashFunction, grants, first, calls, results, loans,
    created, granted, runs, free⟩ := reached
  obtain ⟨map, pool, stores, -⟩ := (userOk_of_run created granted runs).inUse
  exact ⟨free, map, stores⟩

/-- What a table holds is what its map binds. -/
theorem FhT.Stores.holds_iff
    (stores : fh.Stores map)
    (free : fh.locks.Free)
    (key : CString)
    (object : Option OpaqueObj) :
    fh.Holds key object ↔ map key = some object := by
  rw [FhT.Holds, fhGet_eq stores (free.available _)]
  cases isBound : map key with
  | none =>
      simp [fhOk, fhElementNotFound]
  | some bound =>
      simp

/-- The entries of a listing bind what the table holds. -/
theorem FhT.Listing.binds
    {listed : List FhElem}
    (listing : fh.Listing sortOrder listed)
    (stores : fh.Stores map)
    (free : fh.locks.Free) :
    Binds (listed.flatMap FhElem.entries) map where
  distinct := listing.once
  bound key object := by
    rw [← stores.holds_iff free]
    exact (listing.complete key object).symm

/-- A table that holds a key has a listing in every order. -/
theorem FhT.Stores.listing
    (stores : fh.Stores map)
    (free : fh.locks.Free)
    (nonempty : ∃ key object, fh.Holds key object)
    (sortOrder : Int) :
    ∃ listed, fh.Listing sortOrder listed := by
  obtain ⟨key, object, holds⟩ := nonempty
  have bound := (stores.holds_iff free key object).mp holds
  have notEmpty : fh.table.entries ≠ [] :=
    List.ne_nil_of_mem (stores.mem_entries bound)
  have hasKey :
      ∀ element ∈ fh.table.elems, ∃ key, element.key = some key :=
    fun _ => elems_key stores.ok.okFor
  have keys : ∀ element ∈ fh.table.elems, element.key.isSome = true :=
    fun element member => Option.isSome_iff_exists.mpr (hasKey element member)
  obtain ⟨sorted, sorts⟩ := sortElems_keys keys sortOrder
  have permuted := sortElems_perm sorts
  have once : (keysOf fh.table.elems).Nodup := by
    rw [keysOf, elems_entries]
    exact stores.binds.distinct
  refine ⟨sorted, ?_, ?_, ?_, ?_, ?_, ?_, ?_⟩
  · refine ⟨_, fhEnumCreate_sorted stores free notEmpty sorts, ?_⟩
    have isOver : enumAt [] sorted = enumOver [] sorted [] := by
      simp [enumAt, enumOver]
    rw [isOver]
    exact enumLoop_enumOver [] sorted [] (Nat.lt_succ_self _)
  · rw [permuted.length_eq, stores.counted, ← elems_entries,
      length_entries hasKey]
  · exact fun element member => keys element (permuted.mem_iff.mp member)
  · exact (keysOf_perm permuted).nodup_iff.mpr once
  · intro key object
    rw [(permuted.flatMap_right _).mem_iff, elems_entries,
      stores.holds_iff free, stores.binds.bound]
  · rintro rfl
    exact sortElems_ascending keys once sorts
  · rintro rfl
    exact sortElems_descending keys once sorts

/-- Two orders of the same entries are the same when keys are strictly in order. -/
theorem entries_eq_of_pairwise
    {strict : CString → CString → Prop}
    (asymmetric : ∀ first second, strict first second → ¬ strict second first)
    {listed otherListed : List FhElem}
    (permuted :
      (otherListed.flatMap FhElem.entries).Perm
        (listed.flatMap FhElem.entries))
    (ordered : (keysOf listed).Pairwise strict)
    (otherOrdered : (keysOf otherListed).Pairwise strict) :
    otherListed.flatMap FhElem.entries = listed.flatMap FhElem.entries := by
  have inOrder :
      (otherListed.flatMap FhElem.entries).Pairwise fun first second =>
        strict first.1 second.1 :=
    List.pairwise_map.mp otherOrdered
  apply List.Perm.eq_of_pairwise ?_ inOrder (List.pairwise_map.mp ordered)
    permuted
  intro first second _ _ before after
  exact (asymmetric _ _ before after).elim

/-- Listings in order of tables that stand for one map are the same. -/
theorem FhT.Listing.unique
    {listed otherListed : List FhElem}
    (isSorted : sortOrder = fhEnumSortedAsc ∨ sortOrder = fhEnumSortedDesc)
    (listing : fh.Listing sortOrder listed)
    (otherListing : other.Listing sortOrder otherListed)
    (permuted :
      (otherListed.flatMap FhElem.entries).Perm
        (listed.flatMap FhElem.entries)) :
    otherListed.flatMap FhElem.entries = listed.flatMap FhElem.entries := by
  rcases isSorted with isAscending | isDescending
  · apply entries_eq_of_pairwise _ permuted (listing.ascending isAscending)
      (otherListing.ascending isAscending)
    intro first second before after
    exact lt_asymm (strcmp_neg.mp before) (strcmp_neg.mp after)
  · apply entries_eq_of_pairwise _ permuted (listing.descending isDescending)
      (otherListing.descending isDescending)
    intro first second after before
    exact lt_asymm (strcmp_pos.mp after) (strcmp_pos.mp before)

end Listings

/--
An enumerator of a table that holds a key hands out as many elements as the
counter says, each key once with its object and in the order asked for, and a
table with the same map has the same listing in that order.
-/
theorem fh_enum_lists_table
    {fh : FhT}
    (reached : fh.Reached)
    (nonempty : ∃ key object, fh.Holds key object)
    (sortOrder : Int) :
    ∃ listed,
      fh.Listing sortOrder listed ∧
        ∀ other : FhT,
          other.Reached →
          (∀ key object, other.Holds key object ↔ fh.Holds key object) →
          sortOrder = fhEnumSortedAsc ∨ sortOrder = fhEnumSortedDesc →
          ∃ otherListed,
            other.Listing sortOrder otherListed ∧
              otherListed.flatMap FhElem.entries =
                listed.flatMap FhElem.entries := by
  obtain ⟨free, map, stores⟩ := reached.stores
  obtain ⟨listed, listing⟩ := stores.listing free nonempty sortOrder
  refine ⟨listed, listing, ?_⟩
  intro other otherReached same isSorted
  obtain ⟨otherFree, otherMap, otherStores⟩ := otherReached.stores
  have otherNonempty : ∃ key object, other.Holds key object := by
    obtain ⟨key, object, holds⟩ := nonempty
    exact ⟨key, object, (same key object).mpr holds⟩
  obtain ⟨otherListed, otherListing⟩ :=
    otherStores.listing otherFree otherNonempty sortOrder
  have sameMap : otherMap = map := by
    funext key
    apply Option.ext
    intro object
    rw [← otherStores.holds_iff otherFree, ← stores.holds_iff free, same]
  refine ⟨otherListed, otherListing,
    listing.unique isSorted otherListing ?_⟩
  exact (otherListing.binds otherStores otherFree).unique
    (sameMap ▸ listing.binds stores free)

/-- A table of pointers with one chain that two keys share. -/
theorem reached_shared :
    ∃ fh : FhT,
      fh.Reached ∧
        fh.Holds ⟨[97], by decide⟩ (some (.pointer ⟨4096, []⟩)) ∧
        fh.hElements = 2 ∧
        fh.table.hDatalen = fhDatalenVoidp := by
  have runs :
      ∃ fh loans results,
        runCalls userStep
            (UserState.start (createdFh 1 1 fhDatalenVoidp fun _ => 7))
            [.call (.insert (some ⟨[97], by decide⟩) (some ⟨4096, []⟩) .all),
              .call (.insert (some ⟨[98], by decide⟩) none .all)] =
          .ok ({ fh := fh, loans := loans }, results) ∧
        (⟨[97], by decide⟩, some (.pointer ⟨4096, []⟩)) ∈ fh.table.entries ∧
        fh.hElements = 2 ∧
        fh.table.hDatalen = fhDatalenVoidp ∧
        ∃ pool, fh.locks.Uses pool ∧ pool = fun _ => false :=
    ⟨_, _, _, rfl, by decide, rfl, rfl, _, .mutexes, by
      funext lock
      simp [Function.update_apply]⟩
  obtain ⟨fh, loans, results, returns, member, isTwo, isVoidp, pool, free,
    rfl⟩ := runs
  have reached : fh.Reached :=
    ⟨1, fhDatalenVoidp, fun _ => 7, .all, _, _, results, loans, rfl,
      by simp [UserCall.Granted, TableCall.Granted], returns, free⟩
  obtain ⟨-, map, stores⟩ := reached.stores
  have holds : fh.Holds ⟨[97], by decide⟩ (some (.pointer ⟨4096, []⟩)) :=
    (stores.holds_iff free _ _).mpr ((stores.binds.bound _ _).mpr member)
  exact ⟨fh, reached, holds, isTwo, isVoidp⟩

/-- The two keys of a chain are listed in descending order. -/
theorem fh_enum_lists_table_shared :
    ∃ (fh : FhT) (listed : List FhElem),
      fh.Holds ⟨[97], by decide⟩ (some (.pointer ⟨4096, []⟩)) ∧
        fh.Listing fhEnumSortedDesc listed ∧
        listed.length = 2 := by
  obtain ⟨fh, reached, holds, isTwo, -⟩ := reached_shared
  obtain ⟨listed, listing, -⟩ :=
    fh_enum_lists_table reached ⟨_, _, holds⟩ fhEnumSortedDesc
  refine ⟨fh, listed, holds, listing, ?_⟩
  have counted := listing.counted
  rw [isTwo] at counted
  exact_mod_cast counted

end Clibs.Fh
