import Clibs.Fh.Decisions

namespace Clibs.Fh

/-!
# Enumerations while the table is updated

`fh_enum_create` sizes its list by the counter and fills it chain by chain, so
what it lists is what the chains held at different moments.  The keys of a chain
belong to it alone, which keeps the list free of repetitions.  A list that
stayed empty is still valid and hands out an element that was never recorded.
-/

/-- The keys of recorded elements. -/
def keysOf (elements : List FhElem) : List CString :=
  (elements.flatMap FhElem.entries).map Prod.fst

/-- The loop of a user over an enumerator: the elements it is handed. -/
def enumLoop : Nat → FhEnum → Checked (List FhElem)
  | 0, _ =>
      .error .divergence
  | fuel + 1, fhe =>
      if fhEnumIsValid fhe ≠ 0 then
        match (fhEnumGetValue fhe).1 with
        | none =>
            .error .nullDereference
        | some element => do
            let rest ← enumLoop fuel (fhEnumMoveNext fhe).1
            .ok (element :: rest)
      else
        .ok []

/-- What each chain held that the current enumeration of a thread visited. -/
def visitedChains
    {n : Nat}
    (visits : Fin n → List (List FhElem))
    (_ : System n)
    (label : Label n)
    (event : FhEvent)
    (_ : System n) : Fin n → List (List FhElem) :=
  match label, event with
  | .step thread _, .visited held =>
      Function.update visits thread (visits thread ++ [held])
  | .step thread _, .read _ =>
      Function.update visits thread []
  | _, _ =>
      visits

/-- A system, with what the chains held that its threads have visited. -/
abbrev Visited (n : Nat) :=
  System n × (Fin n → List (List FhElem))

/-- A step of a system whose visits are recorded. -/
def visitedStep
    {n : Nat} :
    Visited n → Label n → Checked (Visited n × FhEvent) :=
  recordStep systemStep visitedChains

/-- The threads before their first calls, with nothing visited. -/
def unvisited
    (n : Nat)
    (fh : FhT) : Visited n :=
  (start n fh, fun _ => [])

/-- The runs whose visits are recorded are the runs of the threads. -/
theorem visited_runs_iff
    {n : Nat}
    {fh : FhT}
    {labels : List (Label n)}
    {system : System n}
    {events : List FhEvent} :
    (∃ visits,
        runCalls visitedStep (unvisited n fh) labels =
          .ok ((system, visits), events)) ↔
      runCalls systemStep (start n fh) labels = .ok (system, events) :=
  recorded_run_iff

/-- What is recorded are the first elements of the chains that were visited. -/
structure Visits
    (table : FhTable)
    (elements index : Nat)
    (recorded : List FhElem)
    (visits : List (List FhElem)) : Prop where
  positive : 1 ≤ elements
  recorded : recorded = visits.flatten.take elements
  keys : ∀ element ∈ visits.flatten, element.key.isSome = true
  once : (keysOf visits.flatten).Nodup
  before : ∀ key ∈ keysOf visits.flatten, table.indexOf key < index

/-- What the enumeration of a thread relies on. -/
def VisitsOk
    (table : FhTable)
    (work : Work)
    (visits : List (List FhElem)) : Prop :=
  match work with
  | .hasRead _ _ =>
      visits = []
  | .visiting _ elements index recorded =>
      Visits table elements index recorded visits
  | _ =>
      True

section Keys

/-- The keys of two lists. -/
theorem keysOf_append
    (first second : List FhElem) :
    keysOf (first ++ second) = keysOf first ++ keysOf second := by
  rw [keysOf, List.flatMap_append, List.map_append]
  rfl

/-- The keys of a chain are those of its entries. -/
theorem keysOf_chainElems
    (chain : List FhBucket) :
    keysOf (chainElems chain) = (chainEntries chain).map Prod.fst := by
  rw [keysOf, chainElems_entries]

/-- The order of the elements does not matter for whether keys repeat. -/
theorem keysOf_perm
    {first second : List FhElem}
    (same : first.Perm second) :
    (keysOf first).Perm (keysOf second) :=
  (same.flatMap_right _).map _

variable {table : FhTable}

/-- The keys of a chain of a sound table do not repeat. -/
theorem FhTable.Sound.chainKeys_nodup
    (sound : table.Sound)
    {index : Nat}
    (inRange : index < table.hDim) :
    (keysOf (chainElems (table.hashTable index))).Nodup := by
  obtain ⟨others, whole, -⟩ :=
    gather_update chainEntries List.nodup_range (List.mem_range.mpr inRange)
      table.hashTable
  have distinct := (whole.map Prod.fst).nodup_iff.mp sound.distinct
  rw [List.map_append] at distinct
  rw [keysOf_chainElems]
  exact (List.nodup_append.mp distinct).1

/-- The keys of a chain belong to it. -/
theorem FhTable.Sound.chainKeys_indexOf
    (sound : table.Sound)
    {index : Nat}
    {key : CString}
    (member : key ∈ keysOf (chainElems (table.hashTable index))) :
    table.indexOf key = index := by
  rw [keysOf_chainElems] at member
  obtain ⟨⟨name, object⟩, isEntry, rfl⟩ := List.mem_map.mp member
  obtain ⟨stored, sameKey, isPlaced, -⟩ :=
    FhTable.belongs_of_mem (sound.ok.slots index) isEntry
  rw [FhTable.indexOf, ← sameKey]
  exact isPlaced

/-- Visiting the next chain. -/
theorem Visits.next
    {elements index : Nat}
    {recorded : List FhElem}
    {visits : List (List FhElem)}
    (sound : table.Sound)
    (inRange : index < table.hDim)
    (hasRoom : recorded.length ≤ elements)
    (visited : Visits table elements index recorded visits) :
    Visits table elements (index + 1)
      (recordChain elements (table.hashTable index) recorded)
      (visits ++ [chainElems (table.hashTable index)]) := by
  have whole :
      (visits ++ [chainElems (table.hashTable index)]).flatten =
        visits.flatten ++ chainElems (table.hashTable index) := by
    rw [List.flatten_append, List.flatten_cons, List.flatten_nil,
      List.append_nil]
  constructor
  · exact visited.positive
  · rw [whole, recordChain_take _ hasRoom, visited.recorded]
    exact take_append_full _ _
  · rw [whole]
    intro element member
    rcases List.mem_append.mp member with isOld | isNew
    · exact visited.keys element isOld
    · obtain ⟨key, isKey, -⟩ := chainElems_key sound.ok isNew
      rw [isKey]
      rfl
  · rw [whole, keysOf_append, List.nodup_append]
    refine ⟨visited.once, sound.chainKeys_nodup inRange, ?_⟩
    rintro key isOld other isNew rfl
    have isBefore := visited.before key isOld
    have isHere := sound.chainKeys_indexOf isNew
    omega
  · rw [whole, keysOf_append]
    intro key member
    rcases List.mem_append.mp member with isOld | isNew
    · exact Nat.lt_succ_of_lt (visited.before key isOld)
    · rw [sound.chainKeys_indexOf isNew]
      exact Nat.lt_succ_self index

end Keys

section Steps

/-- The enumerator that `fh_enum_create` returned to its user. -/
def FhEvent.snapshot : FhEvent → Option FhEnum
  | .returned (.read (.enumerate (.create _))) (.enum (.ok fhe)) =>
      some fhe
  | _ =>
      none

/-- How a thread gets to visit chains. -/
inductive VisitMove
    (table : FhTable) : Work → Work → FhEvent → Prop where
  | begins
      {call : EnumCall}
      {read : Int} :
      1 ≤ read →
      VisitMove table (.hasRead (.enumerate call) read)
        (.visiting call read.toNat 0 []) .nothing
  | visits
      {call : EnumCall}
      {elements index : Nat}
      {recorded : List FhElem} :
      index < table.hDim →
      recorded.length ≤ elements →
      VisitMove table (.visiting call elements index recorded)
        (.visiting call elements (index + 1)
          (recordChain elements (table.hashTable index) recorded))
        (.visited (chainElems (table.hashTable index)))

/-- The thread visits chains. -/
def Work.Visiting : Work → Prop
  | .visiting .. =>
      True
  | _ =>
      False

/-- What a step of a thread does to its enumeration. -/
structure StepVisits
    (fh : FhT)
    (state : ThreadState)
    (done : ThreadStep) : Prop where
  moves :
    done.2.1.work.Visiting →
    VisitMove fh.table state.work done.2.1.work done.2.2
  created :
    ∀ fhe,
      done.2.2.snapshot = some fhe →
      ∃ sortOrder elements index recorded sorted,
        state.work = .visiting (.create sortOrder) elements index recorded ∧
          sorted.Perm recorded ∧
          fhe = createdEnum elements recorded sorted

/-- A step that has nothing to do with enumerating. -/
structure Plain (done : ThreadStep) : Prop where
  work : ¬ done.2.1.work.Visiting
  event : done.2.2.snapshot = none

variable {fh : FhT}
  {state : ThreadState}
  {held : List Nat}

/-- What a plain step does. -/
theorem Plain.visits
    {done : ThreadStep}
    (plain : Plain done) :
    StepVisits fh state done where
  moves isVisiting := (plain.work isVisiting).elim
  created fhe isCreated := by
    rw [plain.event] at isCreated
    cases isCreated

/-- A thread that returns something else than an enumerator. -/
theorem returnFrom_plain
    (fh : FhT)
    (held : List Nat)
    (call : ThreadCall)
    {result : CallResult}
    (noEnum : (FhEvent.returned call result).snapshot = none) :
    Plain (returnFrom fh held call result) :=
  ⟨id, noEnum⟩

/-- A call that fails creates no enumerator. -/
theorem failed_plain
    (fh : FhT)
    (held : List Nat)
    (call : ReadCall)
    (code : Int) :
    Plain (returnFrom fh held (.read call) (call.failed code)) := by
  cases call with
  | getattrElement =>
      exact returnFrom_plain _ _ _ rfl
  | setattrDontcopykey =>
      exact returnFrom_plain _ _ _ rfl
  | enumerate call =>
      cases call with
      | create sortOrder =>
          exact returnFrom_plain _ _ _ rfl
      | clean withDelFunc =>
          exact returnFrom_plain _ _ _ rfl

/-- Ending a locked section is plain. -/
theorem Resume.after_plain
    (fh : FhT)
    (held : List Nat)
    (resume : Resume)
    (change : Option CountChange) :
    Plain (resume.after fh held change) := by
  cases change with
  | some change =>
      exact ⟨id, rfl⟩
  | none =>
      cases resume with
      | returns call result =>
          exact returnFrom_plain _ _ _ rfl
      | cleans withDelFunc fhe =>
          exact ⟨id, rfl⟩

/-- What reading the counter does to an enumeration. -/
theorem readStep_plain
    (fh : FhT)
    (held : List Nat)
    (call : ReadCall) :
    Plain (readStep fh held call) := by
  unfold readStep
  split
  · exact failed_plain fh held call fhBadHandle
  · split
    · exact failed_plain fh held call fhFreeNotRequested
    · exact ⟨id, rfl⟩

/-- What the decision on the value of the counter does to an enumeration. -/
theorem decideStep_visits
    {call : ReadCall}
    {elements : Int}
    (isWork : state.work = .hasRead call elements)
    (held : List Nat)
    (grants : EnumGrants) :
    StepVisits fh state (decideStep fh held elements grants call) := by
  cases call with
  | getattrElement =>
      exact (returnFrom_plain fh held _ rfl).visits
  | setattrDontcopykey =>
      rw [decideStep]
      split
      next =>
        exact (returnFrom_plain _ _ _ rfl).visits
      next =>
        exact (returnFrom_plain _ _ _ rfl).visits
  | enumerate call =>
      rw [decideStep]
      split
      next =>
        exact (failed_plain fh held (.enumerate call) _).visits
      next notSmall =>
        split
        next =>
          exact (failed_plain fh held (.enumerate call) _).visits
        next =>
          split
          next =>
            exact (failed_plain fh held (.enumerate call) _).visits
          next =>
            constructor
            · intro isVisiting
              rw [isWork]
              exact .begins (by omega)
            · intro fhe isCreated
              cases isCreated

/-- What a step of the loop over the chains does to an enumeration. -/
theorem visitStep_visits
    {call : EnumCall}
    {elements index : Nat}
    {recorded : List FhElem}
    (isWork : state.work = .visiting call elements index recorded)
    (uses : ∃ pool, fh.locks.Uses pool)
    {done : ThreadStep}
    (steps : visitStep fh held call elements index recorded = .ok done) :
    StepVisits fh state done := by
  unfold visitStep at steps
  split at steps
  next more =>
    have visits :
        (visitChain fh.table elements index fh.locks recorded).BlocksOr
          fun done =>
            done =
              (fh.locks,
                recordChain elements (fh.table.hashTable index) recorded) :=
      visitChain_blocksOr uses elements index recorded
    obtain ⟨⟨locks, next⟩, visited, same⟩ := Checked.bind_eq_ok.mp steps
    rw [visited] at visits
    cases visits
    cases same
    constructor
    · intro isVisiting
      rw [isWork]
      exact .visits more.1 more.2.le
    · intro fhe isCreated
      cases isCreated
  next =>
    cases call with
    | create sortOrder =>
        obtain ⟨sorted, sorts, same⟩ := Checked.bind_eq_ok.mp steps
        cases same
        constructor
        · exact False.elim
        · intro fhe isCreated
          cases isCreated
          exact ⟨sortOrder, elements, index, recorded, sorted, isWork,
            sortElems_perm sorts, rfl⟩
    | clean withDelFunc =>
        obtain ⟨sorted, sorts, same⟩ := Checked.bind_eq_ok.mp steps
        cases same
        exact Plain.visits ⟨id, rfl⟩

/-- The loop of `fh_clean` is plain. -/
theorem cleanStep_plain
    {withDelFunc : Bool}
    {fhe : FhEnum}
    {done : ThreadStep}
    (steps : cleanStep fh held withDelFunc fhe = .ok done) :
    Plain done := by
  unfold cleanStep at steps
  split at steps
  next =>
    split at steps
    next =>
      cases steps
      exact returnFrom_plain _ _ _ rfl
    next =>
      obtain ⟨⟨next, change, code⟩, -, same⟩ := Checked.bind_eq_ok.mp steps
      cases same
      exact Resume.after_plain ..
  next =>
    cases steps
    exact returnFrom_plain _ _ _ rfl

/-- What each step of a thread does to its enumeration. -/
theorem threadStep_visits
    {grants : EnumGrants}
    (uses : ∃ pool, fh.locks.Uses pool)
    {done : ThreadStep}
    (steps : threadStep fh grants state = .ok done) :
    StepVisits fh state done := by
  cases state with
  | mk work held =>
      cases work with
      | idle =>
          cases steps
          exact Plain.visits ⟨id, rfl⟩
      | entered call =>
          cases call with
          | update call =>
              obtain ⟨next, kept, result, change, rfl⟩ :=
                updateStep_after steps
              exact (Resume.after_plain ..).visits
          | searchlock key =>
              obtain ⟨⟨next, result⟩, -, same⟩ := Checked.bind_eq_ok.mp steps
              cases same
              exact (returnFrom_plain _ _ _ rfl).visits
          | releaselock slot =>
              obtain ⟨⟨next, code⟩, -, same⟩ := Checked.bind_eq_ok.mp steps
              cases same
              exact (returnFrom_plain _ _ _ rfl).visits
          | read call =>
              cases steps
              exact (readStep_plain fh held call).visits
      | counting change resume =>
          cases steps
          exact (resume.after_plain (fh.changeElem change) held none).visits
      | hasRead call elements =>
          cases steps
          exact decideStep_visits rfl held grants
      | visiting call elements index recorded =>
          exact visitStep_visits rfl uses steps
      | cleaning withDelFunc fhe =>
          exact (cleanStep_plain steps).visits

end Steps

section Loop

/-- An enumerator between the elements that it has handed out and the others. -/
def enumOver
    (handed rest unused : List FhElem) : FhEnum where
  magic := fheMagicId
  idx := handed.length
  elemList := handed ++ rest ++ unused
  size := (handed ++ rest).length
  isValid := if rest = [] then 0 else 1

/-- Moving on hands out the next element. -/
theorem fhEnumMoveNext_enumOver
    (handed : List FhElem)
    (element : FhElem)
    (rest unused : List FhElem) :
    (fhEnumMoveNext (enumOver handed (element :: rest) unused)).1 =
      enumOver (handed ++ [element]) rest unused := by
  cases rest with
  | nil =>
      simp [fhEnumMoveNext, enumOver]
  | cons next others =>
      simp [fhEnumMoveNext, enumOver]

/-- A user's loop is handed the elements that were not handed out before. -/
theorem enumLoop_enumOver
    (handed rest unused : List FhElem)
    {fuel : Nat}
    (enough : rest.length < fuel) :
    enumLoop fuel (enumOver handed rest unused) = .ok rest := by
  induction rest generalizing handed fuel with
  | nil =>
      obtain ⟨fuel, rfl⟩ := Nat.exists_eq_succ_of_ne_zero enough.ne'
      simp [enumLoop, fhEnumIsValid, enumOver]
  | cons element rest inductionHypothesis =>
      obtain ⟨fuel, rfl⟩ :=
        Nat.exists_eq_succ_of_ne_zero (Nat.zero_lt_of_lt enough).ne'
      have isValid :
          fhEnumIsValid (enumOver handed (element :: rest) unused) = 1 := by
        simp [fhEnumIsValid, enumOver]
      have isValue :
          (fhEnumGetValue (enumOver handed (element :: rest) unused)).1 =
            some element := by
        simp [fhEnumGetValue, enumOver]
      rw [enumLoop, if_pos (by rw [isValid]; decide), isValue,
        fhEnumMoveNext_enumOver]
      simp only [inductionHypothesis (handed ++ [element])
        (Nat.lt_of_succ_lt_succ enough), Checked.ok_bind]

end Loop

section Snapshot

variable {n : Nat}

/-- The enumerations of all threads are as they should be. -/
def Visited.Ok (visited : Visited n) : Prop :=
  (∃ pool, visited.1.Ok pool) ∧
    ∀ thread,
      VisitsOk visited.1.fh.table (visited.1.threads thread).work
        (visited.2 thread)

/-- An enumeration relies on where keys belong, not on what is stored. -/
theorem VisitsOk.of_indexOf
    {table next : FhTable}
    {work : Work}
    {visits : List (List FhElem)}
    (visited : VisitsOk table work visits)
    (same : next.indexOf = table.indexOf) :
    VisitsOk next work visits := by
  cases work with
  | visiting call elements index recorded =>
      exact {
        positive := visited.positive
        recorded := visited.recorded
        keys := visited.keys
        once := visited.once
        before := by
          rw [same]
          exact visited.before }
  | _ =>
      exact visited

/-- A thread that does not enumerate relies on nothing. -/
theorem visitsOk_of_not
    {table : FhTable}
    {work : Work}
    (notRead : ∀ call elements, work ≠ .hasRead call elements)
    (notVisiting : ¬ work.Visiting)
    (visits : List (List FhElem)) :
    VisitsOk table work visits := by
  cases work with
  | hasRead call elements =>
      exact (notRead call elements rfl).elim
  | visiting call elements index recorded =>
      exact (notVisiting trivial).elim
  | _ =>
      trivial

/-- A step of a thread keeps what its enumeration relies on. -/
theorem VisitsOk.step
    {fh : FhT}
    {state : ThreadState}
    (sound : fh.table.Sound)
    {done : ThreadStep}
    (tells : StepTells fh state done)
    (visits : StepVisits fh state done)
    {before : List (List FhElem)}
    (ok : VisitsOk fh.table state.work before) :
    VisitsOk fh.table done.2.1.work
      (match done.2.2 with
      | .visited held => before ++ [held]
      | .read _ => []
      | _ => before) := by
  by_cases isVisiting : done.2.1.work.Visiting
  · have moves := visits.moves isVisiting
    generalize state.work = work, done.2.1.work = next,
      done.2.2 = event at moves ok
    cases moves with
    | begins positive =>
        obtain rfl : before = [] := ok
        exact {
          positive := by omega
          recorded := by simp
          keys := by simp
          once := List.nodup_nil
          before := by simp [keysOf] }
    | visits inRange hasRoom =>
        exact Visits.next sound inRange hasRoom ok
  · by_cases reads : ∃ call elements, done.2.1.work = .hasRead call elements
    · obtain ⟨call, elements, isWork⟩ := reads
      rw [(tells.hasRead call elements isWork).1, isWork]
      rfl
    · exact visitsOk_of_not
        (fun call elements isWork => reads ⟨call, elements, isWork⟩)
        isVisiting _

/-- What a step records of the visits of the thread that takes it. -/
theorem visitedChains_self
    (visits : Fin n → List (List FhElem))
    (system next : System n)
    (thread : Fin n)
    (grants : EnumGrants)
    (event : FhEvent) :
    visitedChains visits system (.step thread grants) event next thread =
      match event with
      | .visited held => visits thread ++ [held]
      | .read _ => []
      | _ => visits thread := by
  cases event with
  | visited held =>
      exact Function.update_self ..
  | read elements =>
      exact Function.update_self ..
  | _ =>
      rfl

/-- A step records nothing of the visits of other threads. -/
theorem visitedChains_other
    (visits : Fin n → List (List FhElem))
    (system next : System n)
    {thread other : Fin n}
    (isOther : other ≠ thread)
    (grants : EnumGrants)
    (event : FhEvent) :
    visitedChains visits system (.step thread grants) event next other =
      visits other := by
  cases event with
  | visited held =>
      exact Function.update_of_ne isOther ..
  | read elements =>
      exact Function.update_of_ne isOther ..
  | _ =>
      rfl

variable {visited next : Visited n}
  {label : Label n}
  {event : FhEvent}

/-- A step keeps the enumerations of all threads as they should be. -/
theorem Visited.Ok.step
    (ok : visited.Ok)
    (steps : visitedStep visited label = .ok (next, event)) :
    next.Ok := by
  obtain ⟨system, visits⟩ := visited
  obtain ⟨nextSystem, nextVisits⟩ := next
  obtain ⟨⟨pool, systemOk⟩, visitsOk⟩ := ok
  obtain ⟨made, isRecord⟩ := recordStep_eq_ok.mp steps
  change systemStep system label = .ok (nextSystem, event) at made
  change nextVisits =
    visitedChains visits system label event nextSystem at isRecord
  obtain ⟨other, happened, nextPool, alsoMade, nextOk⟩ := systemOk.step label
  cases made.symm.trans alsoMade
  refine ⟨⟨nextPool, nextOk⟩, ?_⟩
  intro thread
  subst isRecord
  cases systemStep_moves made with
  | waits =>
      have unchanged :
          visitedChains visits system label .nothing system = visits := by
        cases label with
        | call thread call =>
            rfl
        | step thread grants =>
            rfl
      rw [unchanged]
      exact visitsOk thread
  | @enters mover call held isState =>
      change VisitsOk system.fh.table
        (Function.update system.threads mover ⟨.entered call, held⟩
          thread).work
        (visits thread)
      by_cases same : thread = mover
      · subst same
        rw [Function.update_self]
        trivial
      · rw [Function.update_of_ne same]
        exact visitsOk thread
  | @moves mover grants fh state event isStep =>
      have indexOf := (systemOk.moves_of_step isStep).indexOf
      by_cases same : thread = mover
      · subst same
        simp only [visitedChains_self, Function.update_self]
        exact (VisitsOk.step systemOk.sound (threadStep_tells isStep)
          (threadStep_visits ⟨pool, systemOk.locks.uses⟩ isStep)
          (visitsOk thread)).of_indexOf indexOf
      · simp only [visitedChains_other _ _ _ same,
          Function.update_of_ne same]
        exact (visitsOk thread).of_indexOf indexOf

attribute [local instance] neZero_two

end Snapshot

end Clibs.Fh
