import Clibs.Fh.Counter
import Clibs.Fh.Users

namespace Clibs.Fh

/-!
# What a kept lock protects

A thread that keeps the lock of a chain, after `fh_searchlock` or
`fh_insertlock`, shuts the other threads out of every chain that shares the lock:
a step changes only a chain whose lock is free or kept by its own thread.
-/

/-- A chain that changes is one whose lock is free or kept by the thread. -/
def FhT.ChangesGuarded
    (fh next : FhT)
    (held : List Nat) : Prop :=
  ∀ index,
    next.table.hashTable index ≠ fh.table.hashTable index →
    (∃ locks, fh.locks.wlock index = .ok locks) ∨ index ∈ held

section Sections

variable {table next : FhTable}
  {fh : FhT}
  {held : List Nat}

/-- The locked section of an insertion leaves the other chains. -/
theorem FhTable.Sound.insertSlot_chains
    (sound : table.Sound)
    {key : CString}
    {block : Option Block}
    {grants : InsertGrants}
    {outcome : Except Int SlotAddress}
    (inserts : Fh.insertSlot table key block grants = .ok (next, outcome)) :
    ∀ index,
      next.hashTable index ≠ table.hashTable index →
      index = table.indexOf key := by
  intro index changes
  by_contra differs
  obtain ⟨made, how, isMade, outcomes⟩ :=
    insertSlot_outcome sound.ok key block grants
  rw [inserts] at isMade
  cases isMade
  cases outcomes with
  | duplicate member =>
      exact changes rfl
  | noBucket absent same chains grows =>
      exact changes (congrFun chains index)
  | inserted absent isKey isObject sameKey inserted =>
      subst sameKey
      obtain ⟨chain, step, -⟩ := inserted.step
      rw [step.chains, Function.update_of_ne differs] at changes
      exact changes rfl
  | halfWritten absent memory fills placed =>
      obtain ⟨chain, step, -⟩ := placed.step
      rw [step.chains, Function.update_of_ne differs] at changes
      exact changes rfl

/-- The locked section of a deletion leaves the other chains. -/
theorem FhTable.Sound.fhDelUnlocked_chains
    (sound : table.Sound)
    {key : CString}
    {index : Nat}
    {code : Int}
    (deletes :
      Fh.fhDelUnlocked table key index
          (makeMinihash (table.hashFunction key)) =
        .ok (next, code)) :
    ∀ other,
      next.hashTable other ≠ table.hashTable other → other = index := by
  intro other changes
  by_contra differs
  by_cases inRange : index < table.hDim
  · obtain ⟨made, how, isMade, outcomes⟩ :=
      fhDelUnlocked_outcome sound.ok key inRange
    rw [deletes] at isMade
    cases isMade
    cases outcomes with
    | deleted isIndex sameKey deleted =>
        subst sameKey isIndex
        obtain ⟨chain, step, -⟩ := deleted.step
        rw [step.chains, Function.update_of_ne differs] at changes
        exact changes rfl
    | missing absent =>
        exact changes rfl
  · simp [Fh.fhDelUnlocked, inRange] at deletes

/-- A step that leaves the chains. -/
theorem FhT.ChangesGuarded.of_same
    {next : FhT}
    (same : next.table.hashTable = fh.table.hashTable) :
    fh.ChangesGuarded next held :=
  fun index changes => (changes (congrFun same index)).elim

/-- The locked section of `fh_insert`. -/
theorem insertUpdate_guarded
    (sound : fh.table.Sound)
    {key : Option CString}
    {block : Option Block}
    {update : Update Int}
    (updates : insertUpdate fh key block .all = .ok update) :
    fh.ChangesGuarded update.1 held := by
  unfold insertUpdate at updates
  split at updates
  · cases updates
    exact .of_same rfl
  · cases key with
    | none =>
        cases updates
        exact .of_same rfl
    | some key =>
        obtain ⟨locks, takes, updates⟩ := Checked.bind_eq_ok.mp updates
        obtain ⟨⟨table, outcome⟩, inserts, updates⟩ :=
          Checked.bind_eq_ok.mp updates
        obtain ⟨given, -, same⟩ := Checked.bind_eq_ok.mp updates
        intro index changes
        left
        have isIndex : index = fh.table.indexOf key := by
          apply sound.insertSlot_chains inserts
          cases outcome with
          | error code =>
              cases same
              exact changes
          | ok address =>
              cases same
              exact changes
        exact ⟨locks, isIndex ▸ takes⟩

/-- The table update of `fh_insertlock`. -/
theorem insertlockUpdate_guarded
    (sound : fh.table.Sound)
    {key : Option CString}
    {block : Option Block}
    {slotGiven addrGiven : Bool}
    {update : Update LockedResult}
    (updates :
      insertlockUpdate fh key block slotGiven addrGiven .all =
        .ok update) :
    fh.ChangesGuarded update.1 held := by
  unfold insertlockUpdate at updates
  split at updates
  · cases updates
    exact .of_same rfl
  · cases key with
    | none =>
        cases updates
        exact .of_same rfl
    | some key =>
        cases slotGiven with
        | false =>
            cases updates
            exact .of_same rfl
        | true =>
            obtain ⟨locks, takes, updates⟩ := Checked.bind_eq_ok.mp updates
            obtain ⟨⟨table, outcome⟩, inserts, updates⟩ :=
              Checked.bind_eq_ok.mp updates
            intro index changes
            left
            have isIndex : index = fh.table.indexOf key := by
              apply sound.insertSlot_chains inserts
              cases outcome with
              | error code =>
                  obtain ⟨given, -, same⟩ := Checked.bind_eq_ok.mp updates
                  cases same
                  exact changes
              | ok address =>
                  cases updates
                  exact changes
            exact ⟨locks, isIndex ▸ takes⟩

/-- The locked section of `fh_del`. -/
theorem delUpdate_guarded
    (sound : fh.table.Sound)
    {key : Option CString}
    {update : Update Int}
    (updates : delUpdate fh key = .ok update) :
    fh.ChangesGuarded update.1 held := by
  unfold delUpdate at updates
  split at updates
  · cases updates
    exact .of_same rfl
  · cases key with
    | none =>
        cases updates
        exact .of_same rfl
    | some key =>
        obtain ⟨locks, takes, updates⟩ := Checked.bind_eq_ok.mp updates
        obtain ⟨⟨table, code⟩, deletes, updates⟩ :=
          Checked.bind_eq_ok.mp updates
        obtain ⟨given, -, same⟩ := Checked.bind_eq_ok.mp updates
        cases same
        intro index changes
        have isIndex := sound.fhDelUnlocked_chains deletes index changes
        exact .inl ⟨locks, isIndex ▸ takes⟩

/-- The table update of `fh_dellocked`. -/
theorem dellockedUpdate_guarded
    (sound : fh.table.Sound)
    {key : Option CString}
    {lockedBucket : Nat}
    {update : Update Int}
    (updates : dellockedUpdate fh key lockedBucket = .ok update)
    (isHeld : lockedBucket ∈ held) :
    fh.ChangesGuarded update.1 held := by
  unfold dellockedUpdate at updates
  split at updates
  · cases updates
    exact .of_same rfl
  · cases key with
    | none =>
        cases updates
        exact .of_same rfl
    | some key =>
        obtain ⟨⟨table, code⟩, deletes, same⟩ :=
          Checked.bind_eq_ok.mp updates
        cases same
        intro index changes
        have isIndex := sound.fhDelUnlocked_chains deletes index changes
        exact .inr (isIndex ▸ isHeld)

/-- The end of a locked section leaves the table. -/
theorem Resume.after_fh
    (fh : FhT)
    (held : List Nat)
    (resume : Resume)
    (change : Option CountChange) :
    (resume.after fh held change).1 = fh := by
  cases change with
  | some change =>
      rfl
  | none =>
      cases resume with
      | returns call result =>
          rfl
      | cleans withDelFunc fhe =>
          rfl

/-- The step of a call that updates a chain. -/
theorem updateStep_guarded
    (sound : fh.table.Sound)
    {call : UpdateCall}
    (keeps : (ThreadCall.update call).keepsLock held = true)
    {done : ThreadStep}
    (steps : updateStep fh held call = .ok done) :
    fh.ChangesGuarded done.1 held := by
  cases call with
  | insert key block =>
      obtain ⟨update, updates, same⟩ := Checked.bind_eq_ok.mp steps
      rw [← Except.ok.inj same, Resume.after_fh]
      exact insertUpdate_guarded sound updates
  | insertlock key block slotGiven addrGiven =>
      obtain ⟨update, updates, same⟩ := Checked.bind_eq_ok.mp steps
      rw [← Except.ok.inj same, Resume.after_fh]
      exact insertlockUpdate_guarded sound updates
  | del key =>
      obtain ⟨update, updates, same⟩ := Checked.bind_eq_ok.mp steps
      rw [← Except.ok.inj same, Resume.after_fh]
      exact delUpdate_guarded sound updates
  | dellocked key lockedBucket =>
      obtain ⟨update, updates, same⟩ := Checked.bind_eq_ok.mp steps
      rw [← Except.ok.inj same, Resume.after_fh]
      exact dellockedUpdate_guarded sound updates
        (by simpa [ThreadCall.keepsLock] using keeps)

/-- The first step of a call. -/
theorem enterStep_guarded
    (sound : fh.table.Sound)
    {call : ThreadCall}
    (keeps : call.keepsLock held = true)
    {done : ThreadStep}
    (steps : enterStep fh held call = .ok done) :
    fh.ChangesGuarded done.1 held := by
  cases call with
  | update call =>
      exact updateStep_guarded sound keeps steps
  | searchlock key =>
      obtain ⟨⟨next, result⟩, searches, same⟩ := Checked.bind_eq_ok.mp steps
      cases same
      apply FhT.ChangesGuarded.of_same
      unfold fhSearchlock at searches
      split at searches
      · cases searches
        rfl
      · cases key with
        | none =>
            cases searches
            rfl
        | some key =>
            obtain ⟨locks, -, searches⟩ := Checked.bind_eq_ok.mp searches
            obtain ⟨found, -, searches⟩ := Checked.bind_eq_ok.mp searches
            cases found with
            | none =>
                obtain ⟨given, -, same⟩ := Checked.bind_eq_ok.mp searches
                cases same
                rfl
            | some slot =>
                cases searches
                rfl
  | releaselock slot =>
      obtain ⟨⟨next, code⟩, releases, same⟩ := Checked.bind_eq_ok.mp steps
      cases same
      apply FhT.ChangesGuarded.of_same
      unfold fhReleaselock at releases
      split at releases
      · cases releases
        rfl
      · obtain ⟨locks, -, same⟩ := Checked.bind_eq_ok.mp releases
        cases same
        rfl
  | read call =>
      cases steps
      apply FhT.ChangesGuarded.of_same
      unfold readStep
      split
      · rfl
      · split
        · rfl
        · rfl

/-- A step changes only a chain whose lock is free or kept by its thread. -/
theorem threadStep_guarded
    (sound : fh.table.Sound)
    {grants : EnumGrants}
    {state : ThreadState}
    (ok : state.Ok)
    {done : ThreadStep}
    (steps : threadStep fh grants state = .ok done) :
    fh.ChangesGuarded done.1 state.held := by
  cases state with
  | mk work held =>
      cases work with
      | idle =>
          cases steps
          exact .of_same rfl
      | entered call =>
          exact enterStep_guarded sound ok steps
      | counting change resume =>
          cases steps
          apply FhT.ChangesGuarded.of_same
          cases change with
          | incElem =>
              cases resume with
              | returns call result =>
                  rfl
              | cleans withDelFunc fhe =>
                  rfl
          | decElem =>
              cases resume with
              | returns call result =>
                  rfl
              | cleans withDelFunc fhe =>
                  rfl
      | hasRead call elements =>
          cases steps
          apply FhT.ChangesGuarded.of_same
          cases call with
          | getattrElement =>
              rfl
          | setattrDontcopykey =>
              rw [decideStep]
              split
              · rfl
              · rfl
          | enumerate call =>
              rw [decideStep]
              split
              · rfl
              · split
                · rfl
                · split
                  · rfl
                  · rfl
      | visiting call elements index recorded =>
          apply FhT.ChangesGuarded.of_same
          simp only [threadStep, visitStep] at steps
          split at steps
          · obtain ⟨⟨locks, visited⟩, -, same⟩ := Checked.bind_eq_ok.mp steps
            cases same
            rfl
          · cases call with
            | create sortOrder =>
                obtain ⟨sorted, -, same⟩ := Checked.bind_eq_ok.mp steps
                cases same
                rfl
            | clean withDelFunc =>
                obtain ⟨sorted, -, same⟩ := Checked.bind_eq_ok.mp steps
                cases same
                rfl
      | cleaning withDelFunc fhe =>
          simp only [threadStep, cleanStep] at steps
          split at steps
          · split at steps
            · cases steps
              exact .of_same rfl
            · obtain ⟨update, updates, same⟩ := Checked.bind_eq_ok.mp steps
              rw [← Except.ok.inj same, Resume.after_fh]
              exact delUpdate_guarded sound updates
          · cases steps
            exact .of_same rfl

end Sections

section System

variable {n : Nat}
  {system : System n}
  {pool : LockPool}
  {thread : Fin n}
  {slot : Nat}

/-- A step of another thread leaves the chains that share a kept lock. -/
theorem System.Ok.guarded
    (ok : system.Ok pool)
    (keeps : slot ∈ (system.threads thread).held)
    {other : Fin n}
    (differs : other ≠ thread)
    {fh : FhT}
    (guarded : system.fh.ChangesGuarded fh (system.threads other).held)
    {index : Nat}
    (sameLock :
      index % system.fh.locks.nLock = slot % system.fh.locks.nLock) :
    fh.table.hashTable index = system.fh.table.hashTable index := by
  by_contra changes
  rcases guarded index changes with ⟨locks, takes⟩ | isHeld
  · have isTaken := ok.isTaken thread slot keeps
    rw [← sameLock] at isTaken
    rw [ok.locks.uses.wlock_taken isTaken] at takes
    cases takes
  · have inOther :
        slot % system.fh.locks.nLock ∈
          ThreadState.locksKept system.fh.locks (system.threads other) :=
      List.mem_map.mpr ⟨index, isHeld, sameLock⟩
    have inThread :
        slot % system.fh.locks.nLock ∈
          ThreadState.locksKept system.fh.locks (system.threads thread) :=
      List.mem_map.mpr ⟨slot, keeps, rfl⟩
    exact differs
      (eq_of_gather_nodup ok.locks.distinct (List.mem_finRange other)
        (List.mem_finRange thread) inOther inThread)

/-- A step of a thread leaves the number of locks. -/
theorem System.Ok.nLock_moves
    (ok : system.Ok pool)
    {fh : FhT}
    {state : ThreadState}
    (moves : Moves system.fh (system.threads thread) fh state) :
    fh.locks.nLock = system.fh.locks.nLock := by
  obtain ⟨others, whole, -⟩ :=
    gather_update (ThreadState.locksKept system.fh.locks)
      (List.nodup_finRange n) (List.mem_finRange thread) system.threads
  exact ((ok.locks.perm whole.symm).move moves.locks).1

/-- What the threads other than one have left of a system. -/
structure System.LeavesGuarded
    (thread : Fin n)
    (slot : Nat)
    (system final : System n) : Prop where
  state : final.threads thread = system.threads thread
  nLock : final.fh.locks.nLock = system.fh.locks.nLock
  indexOf : final.fh.table.indexOf = system.fh.table.indexOf
  chains :
    ∀ index,
      index % system.fh.locks.nLock = slot % system.fh.locks.nLock →
      final.fh.table.hashTable index = system.fh.table.hashTable index

/-- A system is left as it is by no step. -/
theorem System.leavesGuarded_refl
    (thread : Fin n)
    (slot : Nat)
    (system : System n) :
    system.LeavesGuarded thread slot system :=
  ⟨rfl, rfl, rfl, fun _ _ => rfl⟩

/-- Steps after each other leave what each of them leaves. -/
theorem System.LeavesGuarded.trans
    {middle final : System n}
    (first : system.LeavesGuarded thread slot middle)
    (second : middle.LeavesGuarded thread slot final) :
    system.LeavesGuarded thread slot final where
  state := second.state.trans first.state
  nLock := second.nLock.trans first.nLock
  indexOf := second.indexOf.trans first.indexOf
  chains index sameLock := by
    rw [second.chains index (by rwa [first.nLock]), first.chains index sameLock]

/-- A step of another thread leaves what a kept lock protects. -/
theorem System.Ok.step_leavesGuarded
    (ok : system.Ok pool)
    (keeps : slot ∈ (system.threads thread).held)
    {label : Label n}
    (isOther : label.thread ≠ thread)
    {next : System n}
    {event : FhEvent}
    (steps : systemStep system label = .ok (next, event)) :
    system.LeavesGuarded thread slot next := by
  cases systemStep_moves steps with
  | waits =>
      exact system.leavesGuarded_refl thread slot
  | enters isState =>
      exact ⟨Function.update_of_ne (Ne.symm isOther) .., rfl, rfl,
        fun _ _ => rfl⟩
  | moves isStep =>
      have moves := ok.moves_of_step isStep
      have guarded := threadStep_guarded ok.sound (ok.works _) isStep
      exact ⟨Function.update_of_ne (Ne.symm isOther) ..,
        ok.nLock_moves moves, moves.indexOf,
        fun _ sameLock => ok.guarded keeps isOther guarded sameLock⟩

/-- A run of the other threads leaves what a kept lock protects. -/
theorem System.Ok.run_leavesGuarded
    (ok : ∃ pool, system.Ok pool)
    (keeps : slot ∈ (system.threads thread).held)
    {labels : List (Label n)}
    (others : ∀ label ∈ labels, label.thread ≠ thread) :
    ∃ final events pool,
      runCalls systemStep system labels = .ok (final, events) ∧
        final.Ok pool ∧ system.LeavesGuarded thread slot final := by
  induction labels generalizing system with
  | nil =>
      obtain ⟨pool, ok⟩ := ok
      exact ⟨system, [], pool, rfl, ok, system.leavesGuarded_refl thread slot⟩
  | cons label rest inductionHypothesis =>
      obtain ⟨pool, ok⟩ := ok
      obtain ⟨isOther, others⟩ := List.forall_mem_cons.mp others
      obtain ⟨middle, event, middlePool, steps, middleOk⟩ := ok.step label
      have leaves := ok.step_leavesGuarded keeps isOther steps
      rw [← leaves.state] at keeps
      obtain ⟨final, events, finalPool, runs, finalOk, restLeaves⟩ :=
        inductionHypothesis ⟨middlePool, middleOk⟩ keeps others
      exact ⟨final, event :: events, finalPool, runCalls_cons steps runs,
        finalOk, leaves.trans restLeaves⟩

end System

/--
While a thread keeps the lock of a chain, the other threads, whatever they call,
leave every chain with that lock as it is, so that the keys of these chains stay
bound as they are; a key of the chain that was bound can still be deleted with
`fh_dellocked`.
-/
theorem kept_lock_guards_chain
    {fh : FhT}
    (prepared : fh.Prepared)
    {n : Nat}
    {before : List (Label n)}
    {system : System n}
    {events : List FhEvent}
    (reached :
      runCalls systemStep (start n fh) before = .ok (system, events))
    {thread : Fin n}
    {slot : Nat}
    (keeps : slot ∈ (system.threads thread).held)
    {labels : List (Label n)}
    (others : ∀ label ∈ labels, label.thread ≠ thread) :
    ∃ final later,
      runCalls systemStep system labels = .ok (final, later) ∧
        final.threads thread = system.threads thread ∧
        (∀ index,
          index % system.fh.locks.nLock = slot % system.fh.locks.nLock →
          final.fh.table.hashTable index =
            system.fh.table.hashTable index) ∧
        ∀ key,
          system.fh.table.indexOf key = slot →
          (∀ object,
            (key, object) ∈ final.fh.table.entries ↔
              (key, object) ∈ system.fh.table.entries) ∧
          ((∃ object, (key, object) ∈ system.fh.table.entries) →
            ∃ next,
              dellockedUpdate final.fh (some key) slot =
                .ok (next, some .decElem, slot)) := by
  obtain ⟨reachedFinal, reachedEvents, reachedRuns, reachedOk⟩ :=
    run_ok ⟨_, prepared.start_ok n⟩ before
  rw [reached] at reachedRuns
  cases reachedRuns
  obtain ⟨pool, ok⟩ := reachedOk
  obtain ⟨final, later, finalPool, runs, finalOk, leaves⟩ :=
    System.Ok.run_leavesGuarded ⟨pool, ok⟩ keeps others
  refine ⟨final, later, runs, leaves.state, leaves.chains, ?_⟩
  intro key isIndex
  have bindings :
      ∀ object,
        (key, object) ∈ final.fh.table.entries ↔
          (key, object) ∈ system.fh.table.entries := by
    intro object
    rw [finalOk.sound.ok.mem_entries, ok.sound.ok.mem_entries, leaves.indexOf,
      isIndex, leaves.chains slot rfl]
  refine ⟨bindings, ?_⟩
  rintro ⟨object, bound⟩
  obtain ⟨table, stored, found, address, deletes, -, -⟩ :=
    fhDelUnlocked_bound finalOk.sound.ok ((bindings object).mpr bound)
  rw [leaves.indexOf, isIndex] at deletes
  refine ⟨{ final.fh with table := table }, ?_⟩
  rw [dellockedUpdate, if_neg (not_not.mpr finalOk.magic)]
  simp only [deletes, Checked.ok_bind, deletionChange, Int.natCast_nonneg,
    if_true]

/-- A key that `fh_searchlock` found, while another thread tries to delete it. -/
theorem kept_lock_guards_chain_searched :
    ∃ system events final later,
      runCalls systemStep
          (start 2 (createdFh 1 1 fhDatalenVoidp fun _ => 7))
          [.call 0 (.update (.insert (some ⟨[97], by decide⟩) none)),
            .step 0 .all,
            .step 0 .all,
            .call 0 (.searchlock (some ⟨[97], by decide⟩)),
            .step 0 .all] =
        .ok (system, events) ∧
      runCalls systemStep system
          [.call 1 (.update (.del (some ⟨[97], by decide⟩))),
            .step 1 .all] =
        .ok (final, later) ∧
      final.fh.table.hashTable 0 = system.fh.table.hashTable 0 := by
  have isCreated :
      fhCreate 1 fhDatalenVoidp (fun _ => 7) .all =
        .ok (some (createdFh 1 1 fhDatalenVoidp fun _ => 7)) :=
    rfl
  have prepared := createdFh_prepared isCreated
  obtain ⟨system, events, reached, -⟩ :=
    run_ok ⟨_, prepared.start_ok 2⟩
      [.call (0 : Fin 2) (.update (.insert (some ⟨[97], by decide⟩) none)),
        .step 0 .all,
        .step 0 .all,
        .call 0 (.searchlock (some ⟨[97], by decide⟩)),
        .step 0 .all]
  have held : (system.threads 0).held = [0] := by
    have values :=
      congrArg
        (fun outcome : Checked (System 2 × List FhEvent) =>
          outcome.map fun done => (done.1.threads 0).held)
        reached
    exact (Except.ok.inj values).symm
  have keeps : 0 ∈ (system.threads 0).held := by
    rw [held]
    exact List.mem_singleton_self 0
  obtain ⟨final, later, runs, -, chains, -⟩ :=
    kept_lock_guards_chain prepared reached keeps
      (show
        ∀ label ∈
          [Label.call (1 : Fin 2) (.update (.del (some ⟨[97], by decide⟩))),
            .step 1 .all],
          label.thread ≠ 0
        by decide)
  exact ⟨system, events, final, later, reached, runs, chains 0 rfl⟩

end Clibs.Fh
