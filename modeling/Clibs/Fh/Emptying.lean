import Clibs.Fh.Listing

namespace Clibs.Fh

/-!
# What `fh_clean` hands to the delete function

`fh_clean` walks an enumeration without an order and deletes each key before it
hands the object to the delete function.  The enumeration lists every entry
once, so every object is handed over once and the table is empty in the end.
-/

/-- The state of the delete function when it was handed the objects in turn. -/
def CleanVisits.handedTo
    {User : Type}
    (visits : CleanVisits)
    (delFunc : Option (DelFunc User))
    (user : User) : User :=
  match delFunc with
  | none =>
      user
  | some function =>
      visits.foldl
        (fun user visit => function visit.1 visit.2.opaqueObj user) user

/-- The elements that are visited are the entries of the table, each once. -/
structure CleanVisits.OfEntries
    (visits : CleanVisits)
    (fh : FhT) : Prop where
  keys : ∀ visit ∈ visits, visit.2.key.isSome = true
  once : (keysOf (visits.map Prod.snd)).Nodup
  complete :
    ∀ key object,
      (key, object) ∈ (visits.map Prod.snd).flatMap FhElem.entries ↔
        fh.Holds key object

/-- The key of each visited element is no longer in the table of the visit. -/
def CleanVisits.KeysGone (visits : CleanVisits) : Prop :=
  ∀ visit ∈ visits,
    ∀ key,
      visit.2.key = some key →
      fhGet visit.1 (some key.string) =
        .ok (visit.1, none, fhElementNotFound)

section Visits

variable {visits : CleanVisits}
  {fh : FhT}
  {map : ObjectMap}

/-- A delete function that is allowed is called on every visit. -/
theorem CleanVisits.released_eq
    {User : Type}
    {delFunc : Option (DelFunc User)}
    {datalen : Int}
    (sameDatalen : ∀ visit ∈ visits, visit.1.table.hDatalen = datalen)
    (allowed : delFunc = none ∨ datalen = fhDatalenVoidp)
    (user : User) :
    visits.released delFunc user = visits.handedTo delFunc user := by
  induction visits generalizing user with
  | nil =>
      cases delFunc <;> rfl
  | cons visit rest inductionHypothesis =>
      rw [List.forall_mem_cons] at sameDatalen
      obtain ⟨isDatalen, restDatalen⟩ := sameDatalen
      have restReleased := inductionHypothesis restDatalen
      simp only [CleanVisits.released] at restReleased ⊢
      rw [List.foldl_cons, restReleased]
      cases delFunc with
      | none =>
          simp [CleanVisits.handedTo, callDelFunc]
      | some function =>
          have isVoidp : visit.1.table.hDatalen = fhDatalenVoidp :=
            isDatalen.trans (allowed.resolve_left nofun)
          simp [CleanVisits.handedTo, callDelFunc, isVoidp]

/-- Visits after the deletions find the keys gone. -/
theorem CleanVisits.AfterDeletion.keysGone
    (afterDeletion : visits.AfterDeletion fh)
    (free : fh.locks.Free) :
    visits.KeysGone := by
  intro visit member key isKey
  obtain ⟨left, becomes, isGone⟩ := afterDeletion visit member key isKey
  have visitFree : visit.1.locks.Free := becomes.locks ▸ free
  rw [fhGet_eq becomes.stores (visitFree.available _), isGone]

/-- Visits of what the scan recorded are visits of the entries. -/
theorem CleanVisits.ofEntries
    (stores : fh.Stores map)
    (free : fh.locks.Free)
    (areElems : visits.map Prod.snd = fh.table.elems) :
    visits.OfEntries fh where
  keys visit member := by
    have isElem : visit.2 ∈ fh.table.elems :=
      areElems ▸ List.mem_map_of_mem member
    exact Option.isSome_iff_exists.mpr (elems_key stores.ok.okFor isElem)
  once := by
    rw [areElems, keysOf, elems_entries]
    exact stores.binds.distinct
  complete key object := by
    rw [areElems, elems_entries, stores.holds_iff free, stores.binds.bound]

end Visits

/--
`fh_clean` on a table that holds a key returns `FH_OK` and leaves no chain and a
counter of zero; an allowed delete function was handed the object of each entry
once, after its key was removed, and nothing else.  A delete function on a table
that does not hold pointers is refused.
-/
theorem fh_clean_empties_table
    {fh : FhT}
    (reached : fh.Reached)
    (nonempty : ∃ key object, fh.Holds key object)
    {User : Type}
    (delFunc : Option (DelFunc User))
    (user : User) :
    (delFunc = none ∨ fh.table.hDatalen = fhDatalenVoidp →
        ∃ (next : FhT) (visits : CleanVisits),
          fhClean fh delFunc .all user =
              .ok (next, fhOk, visits.handedTo delFunc user) ∧
            (∀ index, next.table.hashTable index = []) ∧
            next.hElements = 0 ∧
            visits.OfEntries fh ∧
            visits.KeysGone) ∧
      (delFunc ≠ none ∧ fh.table.hDatalen ≠ fhDatalenVoidp →
        fhClean fh delFunc .all user =
          .ok (fh, fhFreeNotRequested, user)) := by
  obtain ⟨free, map, stores⟩ := reached.stores
  constructor
  · intro allowed
    obtain ⟨key, object, holds⟩ := nonempty
    have bound := (stores.holds_iff free key object).mp holds
    obtain ⟨next, visits, cleans, becomes, areElems, afterDeletion⟩ :=
      fhClean_visits delFunc user stores free allowed
        (List.ne_nil_of_mem (stores.mem_entries bound))
    have ofEntries := CleanVisits.ofEntries stores free areElems
    have sameDatalen :
        ∀ visit ∈ visits, visit.1.table.hDatalen = fh.table.hDatalen := by
      intro visit member
      obtain ⟨visitKey, isKey⟩ :=
        Option.isSome_iff_exists.mp (ofEntries.keys visit member)
      obtain ⟨left, visitBecomes, -⟩ :=
        afterDeletion visit member visitKey isKey
      exact visitBecomes.same.hDatalen
    have noEntries : next.table.entries = [] :=
      List.Perm.eq_nil (becomes.stores.binds.unique .nil)
    rw [CleanVisits.released_eq sameDatalen allowed] at cleans
    refine ⟨next, visits, cleans, becomes.stores.ok.chains_nil noEntries, ?_,
      ofEntries, afterDeletion.keysGone free⟩
    rw [becomes.stores.counted, noEntries]
    rfl
  · rintro ⟨isGiven, notVoidp⟩
    obtain ⟨function, rfl⟩ := Option.ne_none_iff_exists'.mp isGiven
    exact fhClean_refused function user .all stores.magic notVoidp

/-- A delete function that collects the objects of two keys of one chain. -/
theorem fh_clean_empties_table_shared :
    ∃ (fh next : FhT) (visits : CleanVisits),
      fh.Holds ⟨[97], by decide⟩ (some (.pointer ⟨4096, []⟩)) ∧
        fhClean fh (some fun _ object collected => object :: collected) .all
            [] =
          .ok (next, fhOk,
            visits.handedTo
              (some fun _ object collected => object :: collected) []) ∧
        next.hElements = 0 ∧
        visits.OfEntries fh := by
  obtain ⟨fh, reached, holds, -, isVoidp⟩ := reached_shared
  obtain ⟨next, visits, cleans, -, isZero, ofEntries, -⟩ :=
    (fh_clean_empties_table reached ⟨_, _, holds⟩
      (some fun _ object collected => object :: collected) []).1
      (.inr isVoidp)
  exact ⟨fh, next, visits, holds, cleans, isZero, ofEntries⟩

end Clibs.Fh
