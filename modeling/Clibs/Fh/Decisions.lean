import Clibs.Fh.Counter
import Clibs.Foundation.History

namespace Clibs.Fh

/-!
# Decisions on the element counter

A call that reads the counter may see an insertion that has filled its slot and
not counted it, so the value can be too small and even negative.  When every
read finds fewer such insertions than used slots and uncounted deletions, or an
empty table and as many, no value is negative, and whoever decides that the
table is empty has seen it empty.
-/

/-- The event is the result of a call that found the table empty. -/
def FhEvent.ClaimsEmpty : FhEvent → Prop
  | .returned (.read .setattrDontcopykey) result =>
      result = .code fhOk
  | .returned (.read (.enumerate call)) result =>
      result = ReadCall.failed fhEmptyHashtable (.enumerate call)
  | _ =>
      False

/-- The threads whose call has seen a moment at which the table held no key. -/
def sawEmpty
    {n : Nat}
    (saw : Fin n → Bool)
    (system : System n)
    (_ : Label n)
    (_ : FhEvent)
    (next : System n) : Fin n → Bool :=
  fun thread =>
    next.fh.table.entries.isEmpty ||
      (saw thread && (system.threads thread).work ≠ .idle)

/-- A system, with the threads whose call has seen the table empty. -/
abbrev Watched (n : Nat) :=
  System n × (Fin n → Bool)

/-- A step of a watched system. -/
def watchedStep
    {n : Nat} :
    Watched n → Label n → Checked (Watched n × FhEvent) :=
  recordStep systemStep sawEmpty

/-- The threads before their first calls. -/
def watch
    (n : Nat)
    (fh : FhT) : Watched n :=
  (start n fh, fun _ => false)

/-- The runs that are watched are the runs of the threads. -/
theorem watched_runs_iff
    {n : Nat}
    {fh : FhT}
    {labels : List (Label n)}
    {system : System n}
    {events : List FhEvent} :
    (∃ saw,
        runCalls watchedStep (watch n fh) labels =
          .ok ((system, saw), events)) ↔
      runCalls systemStep (start n fh) labels = .ok (system, events) :=
  recorded_run_iff

/--
The insertions that have yet to be counted are fewer than the used slots and the
deletions that have yet to be counted; they may be as many when the table is
empty.
-/
def System.Settled
    {n : Nat}
    (system : System n) : Prop :=
  system.pendingInserts < system.fh.table.usedSlots + system.pendingDeletes ∨
    (system.fh.table.usedSlots = 0 ∧
      system.pendingInserts = system.pendingDeletes)

/-- The step does not read the counter of a system that is not settled. -/
def Watched.ReadsSettled
    {n : Nat}
    (watched : Watched n)
    (label : Label n) : Prop :=
  ∀ next elements,
    systemStep watched.1 label = .ok (next, .read elements) →
    watched.1.Settled

section Steps

/-- A step that neither reads the counter nor finds the table empty. -/
structure Quiet (done : ThreadStep) : Prop where
  work : ∀ call elements, done.2.1.work ≠ .hasRead call elements
  event : ∀ elements, done.2.2 ≠ .read elements
  claims : ¬ done.2.2.ClaimsEmpty

/-- What a step of a thread says about the counter. -/
structure StepTells
    (fh : FhT)
    (state : ThreadState)
    (done : ThreadStep) : Prop where
  reads : ∀ elements, done.2.2 = .read elements → elements = fh.hElements
  hasRead :
    ∀ call elements,
      done.2.1.work = .hasRead call elements →
      done.2.2 = .read elements ∧ done.1 = fh
  claims :
    done.2.2.ClaimsEmpty →
    ∃ call elements, state.work = .hasRead call elements ∧ elements < 1

variable {fh : FhT}
  {state : ThreadState}

/-- What a quiet step tells. -/
theorem Quiet.tells
    {done : ThreadStep}
    (quiet : Quiet done) :
    StepTells fh state done where
  reads elements isRead := (quiet.event elements isRead).elim
  hasRead call elements isWork := (quiet.work call elements isWork).elim
  claims isClaim := (quiet.claims isClaim).elim

/-- Ending a locked section is quiet. -/
theorem Resume.after_quiet
    (fh : FhT)
    (held : List Nat)
    (resume : Resume)
    (change : Option CountChange) :
    Quiet (resume.after fh held change) := by
  cases change with
  | some change =>
      exact ⟨by simp [Resume.after], by simp [Resume.after], id⟩
  | none =>
      cases resume with
      | returns call result =>
          exact ⟨by simp [Resume.after, Resume.go, returnFrom],
            by simp [Resume.after, Resume.go, returnFrom], id⟩
      | cleans withDelFunc fhe =>
          exact ⟨by simp [Resume.after, Resume.go],
            by simp [Resume.after, Resume.go], id⟩

/-- Updating a chain is quiet. -/
theorem updateStep_quiet
    {held : List Nat}
    {call : UpdateCall}
    {done : ThreadStep}
    (steps : updateStep fh held call = .ok done) :
    Quiet done := by
  obtain ⟨next, kept, result, change, rfl⟩ := updateStep_after steps
  exact Resume.after_quiet ..

/-- A call that fails for another reason does not find the table empty. -/
theorem failed_quiet
    (fh : FhT)
    (held : List Nat)
    (call : ReadCall)
    {code : Int}
    (notOk : code ≠ fhOk)
    (notEmpty : code ≠ fhEmptyHashtable) :
    Quiet (returnFrom fh held (.read call) (call.failed code)) := by
  refine ⟨by simp [returnFrom], by simp [returnFrom], ?_⟩
  cases call with
  | getattrElement =>
      exact id
  | setattrDontcopykey =>
      simpa [returnFrom, FhEvent.ClaimsEmpty, ReadCall.failed] using notOk
  | enumerate call =>
      cases call with
      | create sortOrder =>
          simpa [returnFrom, FhEvent.ClaimsEmpty, ReadCall.failed]
            using notEmpty
      | clean withDelFunc =>
          simpa [returnFrom, FhEvent.ClaimsEmpty, ReadCall.failed]
            using notEmpty

/-- What reading the counter tells. -/
theorem readStep_tells
    (held : List Nat)
    (call : ReadCall) :
    StepTells fh state (readStep fh held call) := by
  unfold readStep
  split
  · exact (failed_quiet fh held call (by decide) (by decide)).tells
  · split
    · exact (failed_quiet fh held call (by decide) (by decide)).tells
    · constructor
      · intro elements isRead
        cases isRead
        rfl
      · intro other elements isWork
        cases isWork
        exact ⟨rfl, rfl⟩
      · exact False.elim

/-- A step in which a call returns that decided on a value below one. -/
theorem StepTells.of_decision
    {call : ReadCall}
    {elements : Int}
    (isWork : state.work = .hasRead call elements)
    (small : elements < 1)
    (next : FhT)
    (held : List Nat)
    (result : CallResult) :
    StepTells fh state (returnFrom next held (.read call) result) where
  reads _ isRead := by cases isRead
  hasRead _ _ isWork := by cases isWork
  claims _ := ⟨call, elements, isWork, small⟩

/-- What the decision on the value of the counter tells. -/
theorem decideStep_tells
    {call : ReadCall}
    {elements : Int}
    (isWork : state.work = .hasRead call elements)
    (held : List Nat)
    (grants : EnumGrants) :
    StepTells fh state (decideStep fh held elements grants call) := by
  cases call with
  | getattrElement =>
      rw [decideStep]
      exact Quiet.tells ⟨by simp [returnFrom], by simp [returnFrom], id⟩
  | setattrDontcopykey =>
      rw [decideStep]
      split
      next =>
        exact (failed_quiet fh held .setattrDontcopykey (by decide)
          (by decide)).tells
      next small =>
        exact StepTells.of_decision isWork (by omega) _ _ _
  | enumerate call =>
      rw [decideStep]
      split
      next small =>
        exact StepTells.of_decision isWork small _ _ _
      next =>
        split
        next =>
          exact (failed_quiet fh held (.enumerate call) (by decide)
            (by decide)).tells
        next =>
          split
          next =>
            exact (failed_quiet fh held (.enumerate call) (by decide)
              (by decide)).tells
          next =>
            exact Quiet.tells ⟨by simp, by simp, id⟩

/-- Visiting a chain and ending an enumeration are quiet. -/
theorem visitStep_quiet
    {held : List Nat}
    {call : EnumCall}
    {elements index : Nat}
    {recorded : List FhElem}
    {done : ThreadStep}
    (steps : visitStep fh held call elements index recorded = .ok done) :
    Quiet done := by
  unfold visitStep at steps
  split at steps
  next =>
    obtain ⟨⟨locks, next⟩, -, same⟩ := Checked.bind_eq_ok.mp steps
    cases same
    exact ⟨by simp, by simp, id⟩
  next =>
    cases call with
    | create sortOrder =>
        obtain ⟨sorted, -, same⟩ := Checked.bind_eq_ok.mp steps
        cases same
        exact ⟨by simp [returnFrom], by simp [returnFrom],
          by simp [returnFrom, FhEvent.ClaimsEmpty, ReadCall.failed]⟩
    | clean withDelFunc =>
        obtain ⟨sorted, -, same⟩ := Checked.bind_eq_ok.mp steps
        cases same
        exact ⟨by simp, by simp, id⟩

/-- `fh_clean` that deletes does not find the table empty. -/
theorem cleanStep_quiet
    {held : List Nat}
    {withDelFunc : Bool}
    {fhe : FhEnum}
    {done : ThreadStep}
    (steps : cleanStep fh held withDelFunc fhe = .ok done) :
    Quiet done := by
  have returned :
      ∀ code,
        code ≠ fhEmptyHashtable →
        Quiet
          (returnFrom fh held (.read (.enumerate (.clean withDelFunc)))
            (.code code)) := by
    intro code notEmpty
    refine ⟨by simp [returnFrom], by simp [returnFrom], ?_⟩
    simpa [returnFrom, FhEvent.ClaimsEmpty, ReadCall.failed] using notEmpty
  unfold cleanStep at steps
  split at steps
  next =>
    split at steps
    next error isValue =>
      cases steps
      unfold fhEnumGetValue at isValue
      split at isValue
      next =>
        cases isValue
        exact returned _ (by decide)
      next =>
        split at isValue
        next =>
          cases isValue
        next =>
          cases isValue
          exact returned _ (by decide)
    next element error isValue =>
      obtain ⟨⟨next, change, code⟩, -, same⟩ := Checked.bind_eq_ok.mp steps
      cases same
      exact Resume.after_quiet ..
  next =>
    cases steps
    exact returned _ (by decide)

/-- What each step of a thread says about the counter. -/
theorem threadStep_tells
    {grants : EnumGrants}
    {done : ThreadStep}
    (steps : threadStep fh grants state = .ok done) :
    StepTells fh state done := by
  cases state with
  | mk work held =>
      cases work with
      | idle =>
          cases steps
          exact Quiet.tells ⟨by simp, by simp, id⟩
      | entered call =>
          cases call with
          | update call =>
              exact (updateStep_quiet steps).tells
          | searchlock key =>
              obtain ⟨⟨next, result⟩, -, same⟩ := Checked.bind_eq_ok.mp steps
              cases same
              exact Quiet.tells ⟨by simp [returnFrom], by simp [returnFrom], id⟩
          | releaselock slot =>
              obtain ⟨⟨next, code⟩, -, same⟩ := Checked.bind_eq_ok.mp steps
              cases same
              exact Quiet.tells ⟨by simp [returnFrom], by simp [returnFrom], id⟩
          | read call =>
              cases steps
              exact readStep_tells held call
      | counting change resume =>
          cases steps
          exact (resume.after_quiet (fh.changeElem change) held none).tells
      | hasRead call elements =>
          cases steps
          exact decideStep_tells rfl held grants
      | visiting call elements index recorded =>
          exact (visitStep_quiet steps).tells
      | cleaning withDelFunc fhe =>
          exact (cleanStep_quiet steps).tells

end Steps

section Watched

variable {n : Nat}

/-- A settled system is one whose counter is positive, or right about zero. -/
theorem System.Ok.settled_iff
    {system : System n}
    {pool : LockPool}
    (ok : system.Ok pool) :
    system.Settled ↔
      0 < system.fh.hElements ∨
        (system.fh.hElements = 0 ∧ system.fh.table.entries = []) := by
  have counted := ok.counted
  rw [System.Settled, usedSlots_entries ok.sound.ok,
    ← List.length_eq_zero_iff]
  omega

/-- Whoever has read a value below one has seen the table empty. -/
def Watched.SawEmpty (watched : Watched n) : Prop :=
  ∀ thread call elements,
    (watched.1.threads thread).work = .hasRead call elements →
    elements < 1 →
    watched.2 thread = true

/-- What the event of a step says of the counter is right. -/
structure Watched.Right
    (watched : Watched n)
    (label : Label n)
    (event : FhEvent) : Prop where
  reads : ∀ elements, event = .read elements → 0 ≤ elements
  claims :
    ∀ thread grants,
      label = .step thread grants →
      event.ClaimsEmpty →
      watched.2 thread = true

/-- A thread in a call that has seen the table empty has still seen it. -/
theorem sawEmpty_of_saw
    {saw : Fin n → Bool}
    {system : System n}
    {thread : Fin n}
    (busy : (system.threads thread).work ≠ .idle)
    (isSeen : saw thread = true)
    (label : Label n)
    (event : FhEvent)
    (next : System n) :
    sawEmpty saw system label event next thread = true := by
  simp [sawEmpty, busy, isSeen]

variable {watched next : Watched n}
  {label : Label n}
  {event : FhEvent}

/-- Whoever reads a settled counter and finds it below one sees the table empty. -/
theorem sawEmpty_of_settled
    {system : System n}
    {pool : LockPool}
    (ok : system.Ok pool)
    (settled : system.Settled)
    (small : system.fh.hElements < 1) :
    system.fh.table.entries.isEmpty = true := by
  rcases ok.settled_iff.mp settled with positive | ⟨-, noEntries⟩
  · omega
  · rw [noEntries]
    rfl

/-- A step that reads only settled counters keeps what threads have seen. -/
theorem Watched.SawEmpty.step
    (sees : watched.SawEmpty)
    (ok : ∃ pool, watched.1.Ok pool)
    (settled : watched.ReadsSettled label)
    (steps : watchedStep watched label = .ok (next, event)) :
    next.SawEmpty := by
  obtain ⟨system, saw⟩ := watched
  obtain ⟨nextSystem, nextSaw⟩ := next
  obtain ⟨pool, ok⟩ : ∃ pool, system.Ok pool := ok
  obtain ⟨made, isRecord⟩ := recordStep_eq_ok.mp steps
  change systemStep system label = .ok (nextSystem, event) at made
  change nextSaw = sawEmpty saw system label event nextSystem at isRecord
  have still :
      ∀ thread call elements,
        (system.threads thread).work = .hasRead call elements →
        elements < 1 →
        nextSaw thread = true := by
    intro thread call elements isWork small
    rw [isRecord]
    exact sawEmpty_of_saw (by rw [isWork]; exact Work.noConfusion)
      (sees thread call elements isWork small) label event nextSystem
  intro thread call elements isWork small
  cases systemStep_moves made with
  | waits =>
      exact still thread call elements isWork small
  | @enters mover _ _ isState =>
      by_cases same : thread = mover
      · subst same
        simp [Function.update_self] at isWork
      · apply still thread call elements _ small
        simpa [Function.update_of_ne same] using isWork
  | @moves mover grants fh state _ isStep =>
      by_cases same : thread = mover
      · subst same
        have tells := threadStep_tells isStep
        have isHasRead : state.work = .hasRead call elements := by
          simpa [Function.update_self] using isWork
        obtain ⟨isRead, sameFh⟩ := tells.hasRead call elements isHasRead
        subst isRead sameFh
        have isCounter := tells.reads elements rfl
        have noEntries :=
          sawEmpty_of_settled ok (settled _ elements made)
            (by rw [← isCounter]; exact small)
        simp [isRecord, sawEmpty, noEntries]
      · apply still thread call elements _ small
        simpa [Function.update_of_ne same] using isWork

/-- A step that lets one see nothing is right about the counter. -/
theorem Watched.right_of_nothing :
    watched.Right label .nothing where
  reads elements isRead := by cases isRead
  claims thread grants isLabel claims := claims.elim

/-- A step that reads only settled counters is right about the counter. -/
theorem Watched.SawEmpty.right
    (sees : watched.SawEmpty)
    (ok : ∃ pool, watched.1.Ok pool)
    (settled : watched.ReadsSettled label)
    (steps : watchedStep watched label = .ok (next, event)) :
    watched.Right label event := by
  obtain ⟨system, saw⟩ := watched
  obtain ⟨nextSystem, nextSaw⟩ := next
  obtain ⟨pool, ok⟩ : ∃ pool, system.Ok pool := ok
  obtain ⟨made, -⟩ := recordStep_eq_ok.mp steps
  change systemStep system label = .ok (nextSystem, event) at made
  cases systemStep_moves made with
  | waits =>
      exact Watched.right_of_nothing
  | enters isState =>
      exact Watched.right_of_nothing
  | @moves mover grants fh state _ isStep =>
      have tells := threadStep_tells isStep
      constructor
      · intro elements isRead
        have isCounter := tells.reads elements isRead
        subst isRead
        rcases ok.settled_iff.mp (settled _ elements made) with
            positive | ⟨isZero, -⟩
        · omega
        · omega
      · intro thread others isLabel claims
        cases isLabel
        obtain ⟨call, elements, isWork, small⟩ := tells.claims claims
        exact sees _ call elements isWork small

/--
In every run whose calls read the counter only when it is settled, no value that
is read is negative, and a call that reports or relies on an empty table has
seen a moment at which the table held no key.
-/
theorem counter_decisions
    {fh : FhT}
    (prepared : fh.Prepared)
    {labels : List (Label n)}
    (settled :
      AlwaysAllowed (StepOf watchedStep) Watched.ReadsSettled (watch n fh)
        (labels ++ [label]))
    {events : List FhEvent}
    (runs :
      runCalls watchedStep (watch n fh) labels = .ok (watched, events))
    (steps : watchedStep watched label = .ok (next, event)) :
    watched.Right label event := by
  have stepKeeps :
      ∀ {state : Watched n} {label : Label n} {next : Watched n}
        {event : FhEvent},
        (∃ pool, state.1.Ok pool) ∧ state.SawEmpty →
        state.ReadsSettled label →
        watchedStep state label = .ok (next, event) →
        (∃ pool, next.1.Ok pool) ∧ next.SawEmpty := by
    rintro state label next event ⟨ok, sees⟩ settled steps
    refine ⟨?_, sees.step ok settled steps⟩
    obtain ⟨pool, ok⟩ := ok
    obtain ⟨other, happened, nextPool, made, nextOk⟩ := ok.step label
    cases (recordStep_eq_ok.mp steps).1.symm.trans made
    exact ⟨nextPool, nextOk⟩
  have initial :
      (∃ pool, (watch n fh).1.Ok pool) ∧ (watch n fh).SawEmpty := by
    refine ⟨⟨_, prepared.start_ok n⟩, ?_⟩
    intro thread call elements isWork
    cases isWork
  obtain ⟨ok, sees⟩ :=
    runCalls_keeps stepKeeps initial settled.of_append runs
  exact sees.right ok (settled.after_run runs).1 steps

/-- A step that does not read the counter is free to be made. -/
theorem Watched.readsSettled_of_else
    {system : System n}
    (steps : systemStep watched.1 label = .ok (system, event))
    (isElse : ∀ elements, event ≠ .read elements) :
    watched.ReadsSettled label := by
  intro other elements reads
  cases steps.symm.trans reads
  exact (isElse elements rfl).elim

attribute [local instance] neZero_three

/--
A key is inserted and deleted, and neither is counted, when a third thread reads
the counter.
-/
def uncountedRun (key : CString) : List (Label 3) :=
  [.call 0 (.update (.insert (some key) none)), .step 0 .all,
    .call 1 (.update (.del (some key))), .step 1 .all,
    .call 2 (.read .setattrDontcopykey), .step 2 .all]

/-- The third thread is granted uncopied keys, since the table is empty again. -/
theorem counter_decisions_granted :
    ∃ watched events next,
      runCalls watchedStep
            (watch 3 (createdFh 1 1 fhDatalenVoidp fun _ => 7))
            (uncountedRun ⟨[97], by decide⟩) =
          .ok (watched, events) ∧
        watched.1.pendingInserts = 1 ∧
        watched.1.pendingDeletes = 1 ∧
        watchedStep watched (.step 2 .all) =
          .ok
            (next, .returned (.read .setattrDontcopykey) (.code fhOk)) ∧
        watched.2 2 = true := by
  have isCreated :
      fhCreate 1 fhDatalenVoidp (fun _ => 7) .all =
        .ok (some (createdFh 1 1 fhDatalenVoidp fun _ => 7)) :=
    rfl
  have settled :
      AlwaysAllowed (StepOf watchedStep) Watched.ReadsSettled
        (watch 3 (createdFh 1 1 fhDatalenVoidp fun _ => 7))
        (uncountedRun ⟨[97], by decide⟩ ++ [.step 2 .all]) :=
    .step rfl (Watched.readsSettled_of_else rfl fun _ => nofun)
      (.step rfl (Watched.readsSettled_of_else rfl fun _ => nofun)
        (.step rfl (Watched.readsSettled_of_else rfl fun _ => nofun)
          (.step rfl (Watched.readsSettled_of_else rfl fun _ => nofun)
            (.step rfl (Watched.readsSettled_of_else rfl fun _ => nofun)
              (.step rfl (fun _ _ _ => .inr ⟨rfl, rfl⟩)
                (.step rfl
                  (Watched.readsSettled_of_else rfl fun _ => nofun)
                  trivial))))))
  have returns :
      ∃ watched events next,
        runCalls watchedStep
              (watch 3 (createdFh 1 1 fhDatalenVoidp fun _ => 7))
              (uncountedRun ⟨[97], by decide⟩) =
            .ok (watched, events) ∧
          (watched.1.pendingInserts = 1 ∧ watched.1.pendingDeletes = 1) ∧
          watchedStep watched (.step 2 .all) =
            .ok
              (next, .returned (.read .setattrDontcopykey) (.code fhOk)) :=
    ⟨_, _, _, rfl, ⟨rfl, rfl⟩, rfl⟩
  obtain ⟨watched, events, next, runs, ⟨inserts, deletes⟩, steps⟩ := returns
  have right :=
    counter_decisions (createdFh_prepared isCreated) settled runs steps
  exact ⟨watched, events, next, runs, inserts, deletes, steps,
    right.claims 2 .all rfl rfl⟩

/--
An insertion that has filled its slot is overtaken: by a deletion of its key, so
that a reader sees a negative counter, and by a call that is granted uncopied
keys although the table held a key all the time.
-/
theorem counter_decisions_overtaken :
    (∃ watched events next,
        runCalls watchedStep
              (watch 3 (createdFh 1 1 fhDatalenVoidp fun _ => 7))
              [.call 0 (.update (.insert (some ⟨[97], by decide⟩) none)),
                .step 0 .all,
                .call 1 (.update (.del (some ⟨[97], by decide⟩))),
                .step 1 .all,
                .step 1 .all,
                .call 2 (.read .getattrElement)] =
            .ok (watched, events) ∧
          watchedStep watched (.step 2 .all) = .ok (next, .read (-1))) ∧
      ∃ watched events next,
        runCalls watchedStep
              (watch 2 (createdFh 1 1 fhDatalenVoidp fun _ => 7))
              [.call 0 (.update (.insert (some ⟨[97], by decide⟩) none)),
                .step 0 .all,
                .call 1 (.read .setattrDontcopykey),
                .step 1 .all] =
            .ok (watched, events) ∧
          watchedStep watched (.step 1 .all) =
            .ok (next,
              .returned (.read .setattrDontcopykey) (.code fhOk)) ∧
          watched.2 1 = false :=
  ⟨⟨_, _, _, rfl, rfl⟩, ⟨_, _, _, rfl, rfl, rfl⟩⟩

end Watched

end Clibs.Fh
