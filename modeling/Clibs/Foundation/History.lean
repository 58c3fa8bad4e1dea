import Clibs.Foundation.Run

namespace Clibs

/-!
# Runs that record their past

A property of a step may depend on states that the run has left.  `recordStep`
makes the step on the state and writes down, in a record that no step reads,
what the property needs.  Every run of the step function is the run of exactly
one recording step function, so what is proved of recorded runs holds of all.
-/

/-- Make a step and write down what is to be known of it. -/
def recordStep
    {State Call Result Record : Type}
    (step : State → Call → Checked (State × Result))
    (record : Record → State → Call → Result → State → Record)
    (recorded : State × Record)
    (call : Call) : Checked ((State × Record) × Result) := do
  let (next, result) ← step recorded.1 call
  .ok ((next, record recorded.2 recorded.1 call result next), result)

section History

variable {State Call Result Record : Type}
  {step : State → Call → Checked (State × Result)}
  {record : Record → State → Call → Result → State → Record}

/-- A recorded step is a step, with its record. -/
theorem recordStep_eq_ok
    {recorded next : State × Record}
    {call : Call}
    {result : Result} :
    recordStep step record recorded call = .ok (next, result) ↔
      step recorded.1 call = .ok (next.1, result) ∧
        next.2 = record recorded.2 recorded.1 call result next.1 := by
  constructor
  · intro steps
    obtain ⟨⟨state, value⟩, made, same⟩ := Checked.bind_eq_ok.mp steps
    cases same
    exact ⟨made, rfl⟩
  · rintro ⟨made, isRecord⟩
    simp only [recordStep, made, Checked.ok_bind, ← isRecord]

/-- A recorded run is a run. -/
theorem run_of_recorded
    {recorded final : State × Record}
    {calls : List Call}
    {results : List Result}
    (runs :
      runCalls (recordStep step record) recorded calls =
        .ok (final, results)) :
    runCalls step recorded.1 calls = .ok (final.1, results) := by
  induction calls generalizing recorded results with
  | nil =>
      cases runs
      rfl
  | cons call rest inductionHypothesis =>
      obtain ⟨⟨middle, result⟩, steps, later⟩ := Checked.bind_eq_ok.mp runs
      obtain ⟨⟨last, laterResults⟩, laterRuns, same⟩ :=
        Checked.bind_eq_ok.mp later
      cases same
      have made := (recordStep_eq_ok.mp steps).1
      simp [runCalls, made, inductionHypothesis laterRuns]

/-- Every run can be recorded. -/
theorem recorded_of_run
    {state final : State}
    {calls : List Call}
    {results : List Result}
    (runs : runCalls step state calls = .ok (final, results))
    (before : Record) :
    ∃ after,
      runCalls (recordStep step record) (state, before) calls =
        .ok ((final, after), results) := by
  induction calls generalizing state before results with
  | nil =>
      cases runs
      exact ⟨before, rfl⟩
  | cons call rest inductionHypothesis =>
      obtain ⟨⟨middle, result⟩, made, later⟩ := Checked.bind_eq_ok.mp runs
      obtain ⟨⟨last, laterResults⟩, laterRuns, same⟩ :=
        Checked.bind_eq_ok.mp later
      cases same
      obtain ⟨after, recordedRuns⟩ :=
        inductionHypothesis laterRuns
          (record before state call result middle)
      refine ⟨after, ?_⟩
      simp [runCalls, recordStep, made, recordedRuns]

/-- The runs that are recorded are the runs. -/
theorem recorded_run_iff
    {state final : State}
    {before : Record}
    {calls : List Call}
    {results : List Result} :
    (∃ after,
        runCalls (recordStep step record) (state, before) calls =
          .ok ((final, after), results)) ↔
      runCalls step state calls = .ok (final, results) := by
  constructor
  · rintro ⟨after, runs⟩
    exact run_of_recorded runs
  · intro runs
    exact recorded_of_run runs before

/--
If every allowed call returns and keeps an invariant of the state and of what
was returned before, then so does every run of allowed calls.
-/
theorem runCalls_records
    {allowed : State → Call → Prop}
    {Invariant : State → List Result → Prop}
    (stepKeeps :
      ∀ {state past call},
        Invariant state past →
        allowed state call →
        ∃ next result,
          step state call = .ok (next, result) ∧
            Invariant next (past ++ [result]))
    {state : State}
    {past : List Result}
    (holds : Invariant state past)
    {calls : List Call}
    (permitted : AlwaysAllowed (StepOf step) allowed state calls) :
    ∃ final results,
      runCalls step state calls = .ok (final, results) ∧
        Invariant final (past ++ results) := by
  induction calls generalizing state past with
  | nil =>
      refine ⟨state, [], rfl, ?_⟩
      rw [List.append_nil]
      exact holds
  | cons call rest inductionHypothesis =>
      obtain ⟨callAllowed, restAllowed⟩ := permitted
      obtain ⟨middle, result, steps, middleHolds⟩ :=
        stepKeeps holds callAllowed
      obtain ⟨final, results, runs, finalHolds⟩ :=
        inductionHypothesis middleHolds (restAllowed result middle steps)
      refine ⟨final, result :: results, runCalls_cons steps runs, ?_⟩
      rw [List.append_assoc] at finalHolds
      exact finalHolds

/--
If every allowed call returns and keeps an invariant of the state and its
record, then so does every recorded run of allowed calls.
-/
theorem runCalls_recorded
    {allowed : State → Call → Prop}
    {Invariant : State → Record → Prop}
    (stepKeeps :
      ∀ {state value call},
        Invariant state value →
        allowed state call →
        ∃ next result,
          step state call = .ok (next, result) ∧
            Invariant next (record value state call result next))
    {state : State}
    {value : Record}
    (holds : Invariant state value)
    {calls : List Call}
    (permitted : AlwaysAllowed (StepOf step) allowed state calls) :
    ∃ final results,
      runCalls (recordStep step record) (state, value) calls =
          .ok (final, results) ∧
        Invariant final.1 final.2 := by
  induction calls generalizing state value with
  | nil =>
      exact ⟨(state, value), [], rfl, holds⟩
  | cons call rest inductionHypothesis =>
      obtain ⟨callAllowed, restAllowed⟩ := permitted
      obtain ⟨middle, result, steps, middleHolds⟩ :=
        stepKeeps holds callAllowed
      obtain ⟨final, results, runs, finalHolds⟩ :=
        inductionHypothesis middleHolds (restAllowed result middle steps)
      have recorded :
          recordStep step record (state, value) call =
            .ok ((middle, record value state call result middle), result) :=
        recordStep_eq_ok.mpr ⟨steps, rfl⟩
      exact ⟨final, result :: results, runCalls_cons recorded runs,
        finalHolds⟩

/-- Something holds of each result and of the results before it. -/
def AtEach
    (Holds : List Result → Result → Prop)
    (results : List Result) : Prop :=
  ∀ before result after,
    results = before ++ result :: after → Holds before result

/-- Nothing is to hold of no result. -/
theorem AtEach.nil
    {Holds : List Result → Result → Prop} :
    AtEach Holds [] := by
  intro before result after split
  cases before <;> cases split

/-- One more result. -/
theorem AtEach.concat
    {Holds : List Result → Result → Prop}
    {results : List Result}
    {last : Result}
    (atEach : AtEach Holds results)
    (atLast : Holds results last) :
    AtEach Holds (results ++ [last]) := by
  intro before result after split
  rcases List.append_eq_append_iff.mp split with
    ⟨more, isBefore, isEnd⟩ | ⟨more, isResults, isAfter⟩
  · cases more with
    | nil =>
        rw [List.append_nil] at isBefore
        cases isEnd
        subst isBefore
        exact atLast
    | cons first more =>
        cases more <;> cases isEnd
  · cases more with
    | nil =>
        rw [List.append_nil] at isResults
        cases isAfter
        subst isResults
        exact atLast
    | cons first more =>
        cases isAfter
        exact atEach before result more isResults

end History

end Clibs
