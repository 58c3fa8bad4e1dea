import Clibs.Foundation.Checked

namespace Clibs

/-!
# Runs of calls on an object, and their refinement

An object is a state with a step function: a call on a state returns a new
state and a result, or faults.  A specification is a relation that says, for an
abstract state and a call, which results and successor states are acceptable.
`runCalls_refines` turns a step-by-step correspondence into one over runs of
any length.
-/

/-- Make the calls of a list one after the other and collect the results. -/
def runCalls
    {State Call Result : Type}
    (step : State → Call → Checked (State × Result)) :
    State → List Call → Checked (State × List Result)
  | state, [] =>
      .ok (state, [])
  | state, call :: rest => do
      let (middle, result) ← step state call
      let (final, results) ← runCalls step middle rest
      .ok (final, result :: results)

/-- The results of a list of calls are acceptable one after the other. -/
inductive SpecRun
    {Abstract Call Result : Type}
    (spec : Abstract → Call → Result → Abstract → Prop) :
    Abstract → List Call → List Result → Abstract → Prop where
  | nil (state : Abstract) :
      SpecRun spec state [] [] state
  | cons
      {initial middle final : Abstract}
      {call : Call}
      {result : Result}
      {calls : List Call}
      {results : List Result} :
      spec initial call result middle →
      SpecRun spec middle calls results final →
      SpecRun spec initial (call :: calls) (result :: results) final

/-- A call of a run and its result are a step of the specification. -/
theorem SpecRun.exists_step
    {Abstract Call Result : Type}
    {spec : Abstract → Call → Result → Abstract → Prop}
    {initial final : Abstract}
    {calls : List Call}
    {results : List Result}
    (run : SpecRun spec initial calls results final)
    {step : Call × Result}
    (member : step ∈ calls.zip results) :
    ∃ before after, spec before step.1 step.2 after := by
  induction run with
  | nil state =>
      cases member
  | @cons initial middle _ call result _ _ isStep _ inductionHypothesis =>
      rw [List.zip_cons_cons, List.mem_cons] at member
      rcases member with rfl | later
      · exact ⟨initial, middle, isStep⟩
      · exact inductionHypothesis later

/--
Every call of the list is allowed in the abstract states in which the
specification can reach it.
-/
def AlwaysAllowed
    {Abstract Call Result : Type}
    (spec : Abstract → Call → Result → Abstract → Prop)
    (allowed : Abstract → Call → Prop) :
    Abstract → List Call → Prop
  | _, [] =>
      True
  | state, call :: rest =>
      allowed state call ∧
        ∀ result next,
          spec state call result next →
          AlwaysAllowed spec allowed next rest

/--
If every allowed call keeps the states related and its result is acceptable,
then so do all runs of allowed calls.
-/
theorem runCalls_refines
    {State Abstract Call Result : Type}
    {step : State → Call → Checked (State × Result)}
    {spec : Abstract → Call → Result → Abstract → Prop}
    {allowed : Abstract → Call → Prop}
    {Related : State → Abstract → Prop}
    (stepRefines :
      ∀ {state abstract call},
        Related state abstract →
        allowed abstract call →
        ∃ next result nextAbstract,
          step state call = .ok (next, result) ∧
            spec abstract call result nextAbstract ∧
            Related next nextAbstract)
    {state : State}
    {abstract : Abstract}
    (related : Related state abstract)
    {calls : List Call}
    (permitted : AlwaysAllowed spec allowed abstract calls) :
    ∃ final results finalAbstract,
      runCalls step state calls = .ok (final, results) ∧
        SpecRun spec abstract calls results finalAbstract ∧
        Related final finalAbstract := by
  induction calls generalizing state abstract with
  | nil =>
      exact ⟨state, [], abstract, rfl, .nil abstract, related⟩
  | cons call rest inductionHypothesis =>
      obtain ⟨callAllowed, restAllowed⟩ := permitted
      obtain ⟨middle, result, middleAbstract,
          steps, accepted, middleRelated⟩ :=
        stepRefines related callAllowed
      obtain ⟨final, results, finalAbstract,
          runs, acceptedRest, finalRelated⟩ :=
        inductionHypothesis middleRelated
          (restAllowed result middleAbstract accepted)
      refine ⟨final, result :: results, finalAbstract, ?_,
        .cons accepted acceptedRest, finalRelated⟩
      simp [runCalls, steps, runs]

/-- The first calls of an allowed list are an allowed list. -/
theorem AlwaysAllowed.of_append
    {Abstract Call Result : Type}
    {spec : Abstract → Call → Result → Abstract → Prop}
    {allowed : Abstract → Call → Prop}
    {state : Abstract}
    {calls rest : List Call}
    (permitted : AlwaysAllowed spec allowed state (calls ++ rest)) :
    AlwaysAllowed spec allowed state calls := by
  induction calls generalizing state with
  | nil =>
      trivial
  | cons call calls inductionHypothesis =>
      obtain ⟨callAllowed, restAllowed⟩ := permitted
      exact ⟨callAllowed,
        fun result next accepted =>
          inductionHypothesis (restAllowed result next accepted)⟩

/-- Calls that are allowed in every state are allowed in a list. -/
theorem alwaysAllowed_of_forall
    {Abstract Call Result : Type}
    {spec : Abstract → Call → Result → Abstract → Prop}
    {allowed : Abstract → Call → Prop}
    {calls : List Call}
    (allAllowed : ∀ call ∈ calls, ∀ state, allowed state call)
    (state : Abstract) :
    AlwaysAllowed spec allowed state calls := by
  induction calls generalizing state with
  | nil =>
      trivial
  | cons call rest inductionHypothesis =>
      exact ⟨allAllowed call (by simp) state,
        fun result next _ =>
          inductionHypothesis
            (fun other member => allAllowed other (by simp [member])) next⟩

/-- A step function as the specification of itself. -/
def StepOf
    {State Call Result : Type}
    (step : State → Call → Checked (State × Result))
    (state : State)
    (call : Call)
    (result : Result)
    (next : State) : Prop :=
  step state call = .ok (next, result)

/-- A run that a step function accepts is its run. -/
theorem SpecRun.runCalls
    {State Call Result : Type}
    {step : State → Call → Checked (State × Result)}
    {state final : State}
    {calls : List Call}
    {results : List Result}
    (run : SpecRun (StepOf step) state calls results final) :
    runCalls step state calls = .ok (final, results) := by
  induction run with
  | nil state =>
      rfl
  | cons steps rest inductionHypothesis =>
      unfold StepOf at steps
      simp [Clibs.runCalls, steps, inductionHypothesis]

/-- A call before a run makes a longer run. -/
theorem runCalls_cons
    {State Call Result : Type}
    {step : State → Call → Checked (State × Result)}
    {state middle final : State}
    {call : Call}
    {result : Result}
    {calls : List Call}
    {results : List Result}
    (steps : step state call = .ok (middle, result))
    (runs : runCalls step middle calls = .ok (final, results)) :
    runCalls step state (call :: calls) = .ok (final, result :: results) := by
  simp [runCalls, steps, runs]

/-- Two runs after each other are one run. -/
theorem runCalls_append
    {State Call Result : Type}
    {step : State → Call → Checked (State × Result)}
    {state middle final : State}
    {calls laterCalls : List Call}
    {results laterResults : List Result}
    (runs : runCalls step state calls = .ok (middle, results))
    (laterRuns :
      runCalls step middle laterCalls = .ok (final, laterResults)) :
    runCalls step state (calls ++ laterCalls) =
      .ok (final, results ++ laterResults) := by
  induction calls generalizing state results with
  | nil =>
      cases runs
      exact laterRuns
  | cons call calls inductionHypothesis =>
      obtain ⟨⟨next, result⟩, steps, rest⟩ := Checked.bind_eq_ok.mp runs
      obtain ⟨⟨last, restResults⟩, restRuns, same⟩ :=
        Checked.bind_eq_ok.mp rest
      cases same
      simp [runCalls, steps, inductionHypothesis restRuns]

/-- Calls that are allowed for two reasons. -/
theorem AlwaysAllowed.and
    {Abstract Call Result : Type}
    {spec : Abstract → Call → Result → Abstract → Prop}
    {first second : Abstract → Call → Prop}
    {state : Abstract}
    {calls : List Call}
    (firstAllowed : AlwaysAllowed spec first state calls)
    (secondAllowed : AlwaysAllowed spec second state calls) :
    AlwaysAllowed spec (fun state call => first state call ∧ second state call)
      state calls := by
  induction calls generalizing state with
  | nil =>
      trivial
  | cons call rest inductionHypothesis =>
      exact ⟨⟨firstAllowed.1, secondAllowed.1⟩,
        fun result next accepted =>
          inductionHypothesis (firstAllowed.2 result next accepted)
            (secondAllowed.2 result next accepted)⟩

/-- A run of a step function is allowed when each call it makes is. -/
theorem AlwaysAllowed.step
    {State Call Result : Type}
    {step : State → Call → Checked (State × Result)}
    {allowed : State → Call → Prop}
    {state next : State}
    {call : Call}
    {result : Result}
    {rest : List Call}
    (steps : step state call = .ok (next, result))
    (callAllowed : allowed state call)
    (permitted : AlwaysAllowed (StepOf step) allowed next rest) :
    AlwaysAllowed (StepOf step) allowed state (call :: rest) := by
  refine ⟨callAllowed, ?_⟩
  intro otherResult otherNext otherSteps
  cases steps.symm.trans otherSteps
  exact permitted

/-- After the first calls of an allowed run, the others are allowed. -/
theorem AlwaysAllowed.after_run
    {State Call Result : Type}
    {step : State → Call → Checked (State × Result)}
    {allowed : State → Call → Prop}
    {state final : State}
    {calls rest : List Call}
    {results : List Result}
    (permitted : AlwaysAllowed (StepOf step) allowed state (calls ++ rest))
    (runs : runCalls step state calls = .ok (final, results)) :
    AlwaysAllowed (StepOf step) allowed final rest := by
  induction calls generalizing state results with
  | nil =>
      cases runs
      exact permitted
  | cons call calls inductionHypothesis =>
      obtain ⟨⟨middle, result⟩, steps, later⟩ := Checked.bind_eq_ok.mp runs
      obtain ⟨⟨last, laterResults⟩, laterRuns, same⟩ :=
        Checked.bind_eq_ok.mp later
      cases same
      exact inductionHypothesis (permitted.2 result middle steps) laterRuns

/--
If every allowed call returns and keeps an invariant, then every run of allowed
calls returns and ends in a state with the invariant.
-/
theorem runCalls_invariant
    {State Call Result : Type}
    {step : State → Call → Checked (State × Result)}
    {allowed : State → Call → Prop}
    {Invariant : State → Prop}
    (stepKeeps :
      ∀ {state call},
        Invariant state →
        allowed state call →
        ∃ next result,
          step state call = .ok (next, result) ∧ Invariant next)
    {state : State}
    (holds : Invariant state)
    {calls : List Call}
    (permitted : AlwaysAllowed (StepOf step) allowed state calls) :
    ∃ final results,
      runCalls step state calls = .ok (final, results) ∧
        Invariant final := by
  induction calls generalizing state with
  | nil =>
      exact ⟨state, [], rfl, holds⟩
  | cons call rest inductionHypothesis =>
      obtain ⟨callAllowed, restAllowed⟩ := permitted
      obtain ⟨middle, result, steps, middleHolds⟩ :=
        stepKeeps holds callAllowed
      obtain ⟨final, results, runs, finalHolds⟩ :=
        inductionHypothesis middleHolds (restAllowed result middle steps)
      refine ⟨final, result :: results, ?_, finalHolds⟩
      simp [runCalls, steps, runs]

/--
If every allowed call that returns keeps an invariant, then so does every run
of allowed calls that returns.
-/
theorem runCalls_keeps
    {State Call Result : Type}
    {step : State → Call → Checked (State × Result)}
    {allowed : State → Call → Prop}
    {Invariant : State → Prop}
    (stepKeeps :
      ∀ {state call next result},
        Invariant state →
        allowed state call →
        step state call = .ok (next, result) →
        Invariant next)
    {state final : State}
    (holds : Invariant state)
    {calls : List Call}
    (permitted : AlwaysAllowed (StepOf step) allowed state calls)
    {results : List Result}
    (runs : runCalls step state calls = .ok (final, results)) :
    Invariant final := by
  induction calls generalizing state results with
  | nil =>
      cases runs
      exact holds
  | cons call rest inductionHypothesis =>
      obtain ⟨callAllowed, restAllowed⟩ := permitted
      obtain ⟨⟨middle, result⟩, steps, later⟩ := Checked.bind_eq_ok.mp runs
      obtain ⟨⟨last, laterResults⟩, laterRuns, same⟩ :=
        Checked.bind_eq_ok.mp later
      cases same
      exact inductionHypothesis (stepKeeps holds callAllowed steps)
        (restAllowed result middle steps) laterRuns

/--
If every allowed call returns the same from two related states and keeps them
related, then so does every run of allowed calls.
-/
theorem runCalls_simulates
    {State Other Call Result : Type}
    {step : State → Call → Checked (State × Result)}
    {otherStep : Other → Call → Checked (Other × Result)}
    {allowed : State → Call → Prop}
    {Related : State → Other → Prop}
    (stepSimulates :
      ∀ {state other call},
        Related state other →
        allowed state call →
        ∃ next result nextOther,
          step state call = .ok (next, result) ∧
            otherStep other call = .ok (nextOther, result) ∧
            Related next nextOther)
    {state : State}
    {other : Other}
    (related : Related state other)
    {calls : List Call}
    (permitted : AlwaysAllowed (StepOf step) allowed state calls) :
    ∃ final results finalOther,
      runCalls step state calls = .ok (final, results) ∧
        runCalls otherStep other calls = .ok (finalOther, results) ∧
        Related final finalOther := by
  induction calls generalizing state other with
  | nil =>
      exact ⟨state, [], other, rfl, rfl, related⟩
  | cons call rest inductionHypothesis =>
      obtain ⟨callAllowed, restAllowed⟩ := permitted
      obtain ⟨middle, result, otherMiddle, steps, otherSteps, middleRelated⟩ :=
        stepSimulates related callAllowed
      obtain ⟨final, results, finalOther, runs, otherRuns, finalRelated⟩ :=
        inductionHypothesis middleRelated (restAllowed result middle steps)
      exact ⟨final, result :: results, finalOther, runCalls_cons steps runs,
        runCalls_cons otherSteps otherRuns, finalRelated⟩

/--
If the calls of two states agree and keep the states alike, then so do runs of
the same calls.
-/
theorem runCalls_agree
    {State Other Call Result : Type}
    {step : State → Call → Checked (State × Result)}
    {otherStep : Other → Call → Checked (Other × Result)}
    {Alike : State → Other → Prop}
    {allowed : Call → Prop}
    (stepAgrees :
      ∀ {state other call},
        Alike state other →
        allowed call →
        Checked.Agree (fun done otherDone =>
            Alike done.1 otherDone.1 ∧ done.2 = otherDone.2)
          (step state call) (otherStep other call))
    {state : State}
    {other : Other}
    (alike : Alike state other)
    {calls : List Call}
    (permitted : ∀ call ∈ calls, allowed call) :
    Checked.Agree (fun done otherDone =>
        Alike done.1 otherDone.1 ∧ done.2 = otherDone.2)
      (runCalls step state calls) (runCalls otherStep other calls) := by
  induction calls generalizing state other with
  | nil =>
      exact .ok ⟨alike, rfl⟩
  | cons call rest inductionHypothesis =>
      rw [List.forall_mem_cons] at permitted
      obtain ⟨callAllowed, restAllowed⟩ := permitted
      apply (stepAgrees alike callAllowed).bind
      rintro ⟨middle, result⟩ ⟨otherMiddle, otherResult⟩ ⟨middleAlike, same⟩
      apply (inductionHypothesis middleAlike restAllowed).bind
      rintro ⟨final, results⟩ ⟨otherFinal, otherResults⟩ ⟨finalAlike, sameRest⟩
      exact .ok ⟨finalAlike, congrArg₂ List.cons same sameRest⟩

/-- The calls of a list that are not observers. -/
def withoutObservers
    {Call : Type}
    (observer : Call → Bool)
    (calls : List Call) : List Call :=
  calls.filter fun call => !observer call

/-- The results of the calls of a list that are not observers. -/
def resultsWithout
    {Call Result : Type}
    (observer : Call → Bool) :
    List Call → List Result → List Result
  | call :: calls, result :: results =>
      if observer call then
        resultsWithout observer calls results
      else
        result :: resultsWithout observer calls results
  | _, _ =>
      []

/--
Observers that leave the state as it is can be left out of a run: the other
calls return the same and the run ends in the same state.
-/
theorem runCalls_withoutObservers
    {State Call Result : Type}
    {step : State → Call → Checked (State × Result)}
    {observer : Call → Bool}
    {allowed : State → Call → Prop}
    {Invariant : State → Prop}
    (stepKeeps :
      ∀ {state call},
        Invariant state →
        allowed state call →
        ∃ next result,
          step state call = .ok (next, result) ∧
            Invariant next ∧
            (observer call = true → next = state))
    {state : State}
    (holds : Invariant state)
    {calls : List Call}
    (permitted : AlwaysAllowed (StepOf step) allowed state calls) :
    ∃ final results,
      runCalls step state calls = .ok (final, results) ∧
        runCalls step state (withoutObservers observer calls) =
          .ok (final, resultsWithout observer calls results) ∧
        Invariant final := by
  induction calls generalizing state with
  | nil =>
      exact ⟨state, [], rfl, rfl, holds⟩
  | cons call rest inductionHypothesis =>
      obtain ⟨callAllowed, restAllowed⟩ := permitted
      obtain ⟨middle, result, steps, middleHolds, observes⟩ :=
        stepKeeps holds callAllowed
      obtain ⟨final, results, runs, runsWithout, finalHolds⟩ :=
        inductionHypothesis middleHolds (restAllowed result middle steps)
      refine ⟨final, result :: results, by simp [runCalls, steps, runs],
        ?_, finalHolds⟩
      cases isObserver : observer call with
      | false =>
          simp only [withoutObservers] at runsWithout
          simp [withoutObservers, resultsWithout, isObserver, runCalls,
            steps, runsWithout]
      | true =>
          rw [observes isObserver] at runsWithout
          simp only [withoutObservers] at runsWithout
          simp [withoutObservers, resultsWithout, isObserver, runsWithout]

end Clibs
