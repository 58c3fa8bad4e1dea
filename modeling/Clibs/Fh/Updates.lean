import Clibs.Fh.Representation
import Clibs.Fh.Threads

namespace Clibs.Fh

/-!
# What the locked sections of threads do

Other threads may change the settings of a table between two sections of a call,
so `FhTable.Sound` says nothing of how keys were copied.  Each section that
returns keeps it, changes the number of entries by what it leaves to be counted,
and takes or gives back at most one lock.
-/

/-- The chains are well formed and list each key once. -/
structure FhTable.Sound (table : FhTable) : Prop where
  ok : table.OkFor fun _ => True
  distinct : (table.entries.map Prod.fst).Nodup

/-- What a change adds to the element counter. -/
def changeAmount : Option CountChange → Int
  | none =>
      0
  | some .incElem =>
      1
  | some .decElem =>
      -1

/--
A locked section keeps a table well formed and changes the number of its entries
by what is left to be counted.
-/
structure FhTable.Updated
    (table next : FhTable)
    (change : Option CountChange) : Prop where
  sound : next.Sound
  same : next.SameSettings table
  entries :
    (next.entries.length : Int) = table.entries.length + changeAmount change

/-- A section leaves the locks, or takes or gives back that of a chain. -/
inductive LockMove
    (dim : Nat)
    (locks : FhLocks)
    (held : List Nat) : FhLocks → List Nat → Prop where
  | same :
      LockMove dim locks held locks held
  | taken
      {slot : Nat}
      {next : FhLocks} :
      slot < dim →
      locks.wlock slot = .ok next →
      LockMove dim locks held next (slot :: held)
  | released
      {slot : Nat}
      {next : FhLocks} :
      slot ∈ held →
      locks.unlock slot = .ok next →
      LockMove dim locks held next (held.erase slot)

section Tables

variable {table next : FhTable}

/-- A table with the same chains as a sound one. -/
theorem FhTable.Sound.updated_same
    (sound : table.Sound)
    (same : next.SameSettings table)
    (chains : next.hashTable = table.hashTable)
    (grows : table.nextBucket ≤ next.nextBucket) :
    table.Updated next none := by
  have step : table.ChainStep next 0 (table.hashTable 0) := by
    refine ⟨same, ?_, grows⟩
    rw [chains, Function.update_eq_self]
  have entries : next.entries = table.entries := by
    rw [FhTable.entries, FhTable.entries, same.hDim, chains]
  have ok : next.OkFor fun _ => True := by
    apply sound.ok.chainStep step
    · exact sound.ok.slots 0
    · exact sound.ok.noneEmpty 0
    · exact sound.ok.distinct 0
    · exact fun bucket member =>
        (sound.ok.below 0 bucket member).trans_le grows
  refine ⟨⟨ok, ?_⟩, same, ?_⟩
  · rw [entries]
    exact sound.distinct
  · rw [entries]
    exact (Int.add_zero _).symm

/-- A sound table that was not changed. -/
theorem FhTable.Sound.updated_refl
    (sound : table.Sound) :
    table.Updated table none :=
  sound.updated_same (.refl table) rfl (Nat.le_refl _)

/-- A table that gained the entry of a new key. -/
theorem FhTable.Sound.updated_inserted
    (sound : table.Sound)
    {key : FhKey}
    {object : Option OpaqueObj}
    {address : SlotAddress}
    (absent : ∀ object, (key.string, object) ∉ table.entries)
    (inserted : table.Inserted next key object address) :
    table.Updated next (some .incElem) := by
  have entries := inserted.entries sound.ok
  have isNew : key.string ∉ table.entries.map Prod.fst := by
    rintro member
    obtain ⟨⟨name, other⟩, isEntry, rfl⟩ := List.mem_map.mp member
    exact absent other isEntry
  refine ⟨⟨inserted.okFor sound.ok trivial, ?_⟩, inserted.same, ?_⟩
  · rw [(entries.map Prod.fst).nodup_iff]
    exact List.nodup_cons.mpr ⟨isNew, sound.distinct⟩
  · rw [entries.length_eq, List.length_cons]
    exact Nat.cast_succ _

/-- A table that lost an entry. -/
theorem FhTable.Sound.updated_deleted
    (sound : table.Sound)
    {key : FhKey}
    {object : Option OpaqueObj}
    {address : SlotAddress}
    (deleted : table.Deleted next key object address) :
    table.Updated next (some .decElem) := by
  have entries := deleted.entries sound.ok
  have distinct := (entries.map Prod.fst).nodup_iff.mp sound.distinct
  refine ⟨⟨deleted.okFor sound.ok, ?_⟩, deleted.same, ?_⟩
  · exact (List.nodup_cons.mp distinct).2
  · rw [entries.length_eq, List.length_cons, changeAmount]
    omega

/-- The change of the counter an insertion calls for. -/
def insertionChange : Except Int SlotAddress → Option CountChange
  | .ok _ =>
      some .incElem
  | .error _ =>
      none

/-- The locked section of an insertion whose allocations succeed. -/
theorem FhTable.Sound.insertSlot
    (sound : table.Sound)
    (key : CString)
    (block : Option Block) :
    ∃ next outcome,
      insertSlot table key block .all = .ok (next, outcome) ∧
        table.Updated next (insertionChange outcome) := by
  obtain ⟨next, outcome, inserts, outcomes⟩ :=
    insertSlot_outcome sound.ok key block .all
  refine ⟨next, outcome, inserts, ?_⟩
  cases outcomes with
  | duplicate member =>
      exact sound.updated_same table.sameSettings_collision rfl
        (Nat.le_refl _)
  | noBucket absent same chains grows =>
      exact sound.updated_same same chains grows
  | inserted absent isKey isObject sameKey inserted =>
      subst sameKey
      exact sound.updated_inserted absent inserted
  | halfWritten absent memory fills placed =>
      exact (copyFails_granted _ _ _ (filledSlot_fails fills)).elim

/-- The locked section of a deletion. -/
theorem FhTable.Sound.fhDelUnlocked
    (sound : table.Sound)
    (key : CString)
    {index : Nat}
    (inRange : index < table.hDim) :
    ∃ next code,
      fhDelUnlocked table key index (makeMinihash (table.hashFunction key)) =
          .ok (next, code) ∧
        table.Updated next (deletionChange code) := by
  obtain ⟨next, code, deletes, outcomes⟩ :=
    fhDelUnlocked_outcome sound.ok key inRange
  refine ⟨next, code, deletes, ?_⟩
  cases outcomes with
  | deleted isIndex sameKey deleted =>
      rw [deletionChange, if_pos (Int.natCast_nonneg _)]
      exact sound.updated_deleted deleted
  | missing absent =>
      exact sound.updated_refl

end Tables

section Locks

variable {locks : FhLocks}

/-- Taking a write lock blocks, or the lock can be given back. -/
theorem wlock_blocksOr
    (uses : ∃ pool, locks.Uses pool)
    (slot : Nat) :
    (locks.wlock slot).BlocksOr fun held =>
      locks.wlock slot = .ok held ∧ held.unlock slot = .ok locks := by
  obtain ⟨pool, uses⟩ := uses
  cases taken : pool (slot % locks.nLock) with
  | true =>
      rw [uses.wlock_taken taken]
      rfl
  | false =>
      obtain ⟨held, takes, gives⟩ :=
        FhLocks.Available.wlock ⟨pool, uses, taken⟩
      rw [takes]
      exact ⟨rfl, gives⟩

end Locks

section Sections

variable {fh : FhT}

/-- The handle after a locked section that gave its lock back. -/
def FhT.UpdatedTo
    (fh next : FhT)
    (change : Option CountChange) : Prop :=
  ∃ table,
    next =
        { fh with
          table := table } ∧
      fh.table.Updated table change

/-- The handle after a section that did nothing. -/
theorem FhT.updatedTo_refl
    (sound : fh.table.Sound) :
    fh.UpdatedTo fh none :=
  ⟨fh.table, rfl, sound.updated_refl⟩

/-- The locked section of `fh_insert`. -/
theorem insertUpdate_blocksOr
    (sound : fh.table.Sound)
    (uses : ∃ pool, fh.locks.Uses pool)
    (key : Option CString)
    (block : Option Block) :
    (insertUpdate fh key block .all).BlocksOr fun update =>
      fh.UpdatedTo update.1 update.2.1 := by
  unfold insertUpdate
  split
  · exact FhT.updatedTo_refl sound
  · cases key with
    | none =>
        exact FhT.updatedTo_refl sound
    | some key =>
        apply (wlock_blocksOr uses _).bind
        rintro held ⟨-, gives⟩
        obtain ⟨table, outcome, inserts, updated⟩ :=
          sound.insertSlot key block
        simp only [inserts, gives, Checked.ok_bind]
        cases outcome with
        | error code =>
            exact ⟨table, rfl, updated⟩
        | ok address =>
            exact ⟨table, rfl, updated⟩

/-- The locked section of `fh_del`. -/
theorem delUpdate_blocksOr
    (sound : fh.table.Sound)
    (uses : ∃ pool, fh.locks.Uses pool)
    (key : Option CString) :
    (delUpdate fh key).BlocksOr fun update =>
      fh.UpdatedTo update.1 update.2.1 := by
  unfold delUpdate
  split
  · exact FhT.updatedTo_refl sound
  · cases key with
    | none =>
        exact FhT.updatedTo_refl sound
    | some key =>
        apply (wlock_blocksOr uses _).bind
        rintro held ⟨-, gives⟩
        obtain ⟨table, code, deletes, updated⟩ :=
          sound.fhDelUnlocked key (sound.ok.indexOf_lt key)
        rw [FhTable.indexOf] at deletes
        simp only [deletes, gives, Checked.ok_bind]
        exact ⟨table, rfl, updated⟩

/-- The table update of `fh_dellocked`. -/
theorem dellockedUpdate_blocksOr
    (sound : fh.table.Sound)
    (key : Option CString)
    {lockedBucket : Nat}
    (inRange : lockedBucket < fh.table.hDim) :
    (dellockedUpdate fh key lockedBucket).BlocksOr fun update =>
      fh.UpdatedTo update.1 update.2.1 := by
  unfold dellockedUpdate
  split
  · exact FhT.updatedTo_refl sound
  · cases key with
    | none =>
        exact FhT.updatedTo_refl sound
    | some key =>
        obtain ⟨table, code, deletes, updated⟩ :=
          sound.fhDelUnlocked key inRange
        simp only [deletes, Checked.ok_bind]
        exact ⟨table, rfl, updated⟩

/-- The locked section of a call that may keep its lock. -/
def FhT.LockedTo
    (fh : FhT)
    (held : List Nat)
    (next : FhT)
    (change : Option CountChange)
    (result : LockedResult) : Prop :=
  ∃ table locks,
    next =
        { fh with
          table := table
          locks := locks } ∧
      fh.table.Updated table change ∧
      LockMove fh.table.hDim fh.locks held locks
        (result.lockedSlot.toList ++ held)

/-- A call that failed before it took a lock. -/
theorem FhT.lockedTo_refl
    (sound : fh.table.Sound)
    (held : List Nat)
    (code : Int) :
    fh.LockedTo held fh none (.failed code) :=
  ⟨fh.table, fh.locks, rfl, sound.updated_refl, .same⟩

/-- The table update of `fh_insertlock`. -/
theorem insertlockUpdate_blocksOr
    (sound : fh.table.Sound)
    (uses : ∃ pool, fh.locks.Uses pool)
    (key : Option CString)
    (block : Option Block)
    (slotGiven addrGiven : Bool)
    (held : List Nat) :
    (insertlockUpdate fh key block slotGiven addrGiven .all).BlocksOr
      fun update => fh.LockedTo held update.1 update.2.1 update.2.2 := by
  unfold insertlockUpdate
  split
  · exact FhT.lockedTo_refl sound held _
  · cases key with
    | none =>
        exact FhT.lockedTo_refl sound held _
    | some key =>
        cases slotGiven with
        | false =>
            exact FhT.lockedTo_refl sound held _
        | true =>
            apply (wlock_blocksOr uses _).bind
            rintro locks ⟨takes, gives⟩
            obtain ⟨table, outcome, inserts, updated⟩ :=
              sound.insertSlot key block
            rw [inserts, Checked.ok_bind]
            cases outcome with
            | error code =>
                simp only [gives, Checked.ok_bind]
                exact ⟨table, fh.locks, rfl, updated, .same⟩
            | ok address =>
                exact ⟨table, locks, rfl, updated,
                  .taken (sound.ok.indexOf_lt key) takes⟩

/-- A search in a well formed table. -/
theorem FhTable.Sound.findSlot
    {table : FhTable}
    (sound : table.Sound)
    (key : CString) :
    ∃ found, findSlot table key = .ok found := by
  by_cases bound : ∃ object, (key, object) ∈ table.entries
  · obtain ⟨object, member⟩ := bound
    obtain ⟨slot, finds, -⟩ := findSlot_bound sound.ok member
    exact ⟨_, finds⟩
  · exact ⟨_, findSlot_absent sound.ok (not_exists.mp bound)⟩

/-- The locked section of `fh_searchlock`. -/
theorem fhSearchlock_blocksOr
    (sound : fh.table.Sound)
    (uses : ∃ pool, fh.locks.Uses pool)
    (key : Option CString)
    (held : List Nat) :
    (fhSearchlock fh key).BlocksOr fun done =>
      fh.LockedTo held done.1 none done.2 := by
  unfold fhSearchlock
  split
  · exact FhT.lockedTo_refl sound held _
  · cases key with
    | none =>
        exact FhT.lockedTo_refl sound held _
    | some key =>
        apply (wlock_blocksOr uses _).bind
        rintro locks ⟨takes, gives⟩
        obtain ⟨found, finds⟩ := sound.findSlot key
        rw [finds, Checked.ok_bind]
        cases found with
        | none =>
            simp only [gives, Checked.ok_bind]
            exact ⟨fh.table, fh.locks, rfl, sound.updated_refl, .same⟩
        | some slot =>
            exact ⟨fh.table, locks, rfl, sound.updated_refl,
              .taken (sound.ok.indexOf_lt key) takes⟩

/-- The locked visit of a chain. -/
theorem visitChain_blocksOr
    {table : FhTable}
    {locks : FhLocks}
    (uses : ∃ pool, locks.Uses pool)
    (elements index : Nat)
    (recorded : List FhElem) :
    (visitChain table elements index locks recorded).BlocksOr fun done =>
      done =
        (locks, recordChain elements (table.hashTable index) recorded) := by
  apply (wlock_blocksOr uses index).bind
  rintro held ⟨-, gives⟩
  rw [gives]
  rfl

end Sections

end Clibs.Fh
