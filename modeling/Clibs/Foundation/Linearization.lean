import Clibs.Foundation.Run
import Mathlib.Logic.Function.Basic

namespace Clibs

/-!
# Linearizable histories

The history of a shared object is what its users see: the calls that threads
make and their returns.  It is linearizable when every call that has returned
can be given one moment, between the call and its return, at which it takes
effect, so that the effects in the order of these moments are a run of a
sequential object.  Other calls may have taken effect or not.

`ObjectStep` is the object that takes effect at such moments.  An implementation
each step of which shows what some steps of this object show has linearizable
histories only.
-/

/-- What a user of a shared object sees. -/
inductive HistoryEvent (Thread Op Result : Type) where
  | calls (thread : Thread) (op : Op)
  | returns (thread : Thread) (op : Op) (result : Result)
  deriving Repr, DecidableEq

/-- A history with the moments at which its calls take effect. -/
inductive Moment (Thread Op Result : Type) where
  | calls (thread : Thread) (op : Op)
  | acts (thread : Thread) (op : Op) (result : Result)
  | returns (thread : Thread) (op : Op) (result : Result)
  deriving Repr, DecidableEq

namespace Moment

variable {Thread Op Result : Type}

/-- What the users see of a moment. -/
def seen : Moment Thread Op Result → Option (HistoryEvent Thread Op Result)
  | .calls thread op =>
      some (.calls thread op)
  | .acts _ _ _ =>
      none
  | .returns thread op result =>
      some (.returns thread op result)

/-- The thread of a moment. -/
def thread : Moment Thread Op Result → Thread
  | .calls thread _ =>
      thread
  | .acts thread _ _ =>
      thread
  | .returns thread _ _ =>
      thread

/-- The call that takes effect, and its result. -/
def effect : Moment Thread Op Result → Option (Op × Result)
  | .acts _ op result =>
      some (op, result)
  | _ =>
      none

end Moment

/-- Where a thread is in its call. -/
inductive CallState (Op Result : Type) where
  | idle
  | called (op : Op)
  | acted (op : Op) (result : Result)
  deriving Repr, DecidableEq

/-- The moments of one thread: calls, each followed by its effect and return. -/
inductive Alternates
    {Thread Op Result : Type} :
    CallState Op Result → List (Moment Thread Op Result) → Prop where
  | ends
      {state : CallState Op Result} :
      Alternates state []
  | calls
      {thread : Thread}
      {op : Op}
      {rest : List (Moment Thread Op Result)} :
      Alternates (.called op) rest →
      Alternates .idle (.calls thread op :: rest)
  | acts
      {thread : Thread}
      {op : Op}
      {result : Result}
      {rest : List (Moment Thread Op Result)} :
      Alternates (.acted op result) rest →
      Alternates (.called op) (.acts thread op result :: rest)
  | returns
      {thread : Thread}
      {op : Op}
      {result : Result}
      {rest : List (Moment Thread Op Result)} :
      Alternates .idle rest →
      Alternates (.acted op result) (.returns thread op result :: rest)

/--
The moments make a history linearizable: they show it, every call takes effect
once and between its call and its return, and the effects are a run of the
sequential object.
-/
structure Linearizes
    {Thread Op Result Abstract : Type}
    [DecidableEq Thread]
    (spec : Abstract → Op → Result → Abstract → Prop)
    (initial : Abstract)
    (history : List (HistoryEvent Thread Op Result))
    (moments : List (Moment Thread Op Result))
    (final : Abstract) : Prop where
  shows : moments.filterMap Moment.seen = history
  alternates :
    ∀ thread,
      Alternates .idle
        (moments.filter fun moment => moment.thread = thread)
  effects :
    SpecRun spec initial ((moments.filterMap Moment.effect).map Prod.fst)
      ((moments.filterMap Moment.effect).map Prod.snd) final

/-- The state of a sequential object and where each thread is in its call. -/
structure Shared (Thread Op Result Abstract : Type) where
  state : Abstract
  calls : Thread → CallState Op Result

section Object

variable {Thread Op Result Abstract : Type} [DecidableEq Thread]

/-- The object with another state of the call of a thread. -/
def Shared.goOn
    (shared : Shared Thread Op Result Abstract)
    (thread : Thread)
    (call : CallState Op Result) : Shared Thread Op Result Abstract :=
  { shared with calls := Function.update shared.calls thread call }

/-- The object before the first call. -/
def Shared.initial
    (state : Abstract) : Shared Thread Op Result Abstract where
  state := state
  calls _ := .idle

/-- A call, its effect at one moment, and its return. -/
inductive ObjectStep
    (spec : Abstract → Op → Result → Abstract → Prop) :
    Shared Thread Op Result Abstract →
      Moment Thread Op Result →
        Shared Thread Op Result Abstract → Prop where
  | calls
      {shared : Shared Thread Op Result Abstract}
      {thread : Thread}
      {op : Op} :
      shared.calls thread = .idle →
      ObjectStep spec shared (.calls thread op)
        (shared.goOn thread (.called op))
  | acts
      {shared : Shared Thread Op Result Abstract}
      {thread : Thread}
      {op : Op}
      {result : Result}
      {next : Abstract} :
      shared.calls thread = .called op →
      spec shared.state op result next →
      ObjectStep spec shared (.acts thread op result)
        ({ shared with state := next }.goOn thread (.acted op result))
  | returns
      {shared : Shared Thread Op Result Abstract}
      {thread : Thread}
      {op : Op}
      {result : Result} :
      shared.calls thread = .acted op result →
      ObjectStep spec shared (.returns thread op result)
        (shared.goOn thread .idle)

/-- Steps of the object, one after the other. -/
inductive ObjectRun
    (spec : Abstract → Op → Result → Abstract → Prop) :
    Shared Thread Op Result Abstract →
      List (Moment Thread Op Result) →
        Shared Thread Op Result Abstract → Prop where
  | nil
      {shared : Shared Thread Op Result Abstract} :
      ObjectRun spec shared [] shared
  | cons
      {shared middle final : Shared Thread Op Result Abstract}
      {moment : Moment Thread Op Result}
      {rest : List (Moment Thread Op Result)} :
      ObjectStep spec shared moment middle →
      ObjectRun spec middle rest final →
      ObjectRun spec shared (moment :: rest) final

variable {spec : Abstract → Op → Result → Abstract → Prop}
  {shared middle final : Shared Thread Op Result Abstract}
  {thread : Thread} {op : Op} {result : Result}

@[simp] theorem Shared.goOn_self
    (call : CallState Op Result) :
    (shared.goOn thread call).calls thread = call :=
  Function.update_self ..

@[simp] theorem Shared.goOn_of_ne
    {other : Thread}
    (differs : other ≠ thread)
    (call : CallState Op Result) :
    (shared.goOn thread call).calls other = shared.calls other :=
  Function.update_of_ne differs ..

@[simp] theorem Shared.goOn_goOn
    (first second : CallState Op Result) :
    (shared.goOn thread first).goOn thread second =
      shared.goOn thread second := by
  simp [Shared.goOn]

/-- Two runs after each other are one run. -/
theorem ObjectRun.append
    {moments later : List (Moment Thread Op Result)}
    (run : ObjectRun spec shared moments middle)
    (laterRun : ObjectRun spec middle later final) :
    ObjectRun spec shared (moments ++ later) final := by
  induction run with
  | nil =>
      exact laterRun
  | cons step _ inductionHypothesis =>
      exact .cons step (inductionHypothesis laterRun)

/-- A thread makes a call. -/
theorem ObjectRun.calls
    (isIdle : shared.calls thread = .idle)
    (op : Op) :
    ObjectRun spec shared [.calls thread op]
      (shared.goOn thread (.called op)) :=
  .cons (.calls isIdle) .nil

/-- A call takes effect. -/
theorem ObjectRun.acts
    {next : Abstract}
    (isCalled : shared.calls thread = .called op)
    (accepted : spec shared.state op result next) :
    ObjectRun spec shared [.acts thread op result]
      ({ shared with state := next }.goOn thread (.acted op result)) :=
  .cons (.acts isCalled accepted) .nil

/-- A call returns. -/
theorem ObjectRun.returns
    (isActed : shared.calls thread = .acted op result) :
    ObjectRun spec shared [.returns thread op result]
      (shared.goOn thread .idle) :=
  .cons (.returns isActed) .nil

/-- A call takes effect and returns. -/
theorem ObjectRun.acts_returns
    {next : Abstract}
    (isCalled : shared.calls thread = .called op)
    (accepted : spec shared.state op result next) :
    ObjectRun spec shared
      [.acts thread op result, .returns thread op result]
      ({ shared with state := next }.goOn thread .idle) := by
  have returned :=
    (ObjectRun.acts isCalled accepted).append (.returns (Shared.goOn_self _))
  rwa [Shared.goOn_goOn] at returned

/-- A call is made, takes effect and returns. -/
theorem ObjectRun.whole_call
    {next : Abstract}
    (isIdle : shared.calls thread = .idle)
    (accepted : spec shared.state op result next) :
    ObjectRun spec shared
      [.calls thread op, .acts thread op result,
        .returns thread op result]
      ({ shared with state := next }.goOn thread .idle) := by
  have done :=
    (ObjectRun.calls isIdle op).append
      (.acts_returns (Shared.goOn_self _) accepted)
  rwa [show
    ({ shared.goOn thread (CallState.called op) with
      state := next } : Shared Thread Op Result Abstract).goOn thread .idle =
        { shared with state := next }.goOn thread .idle by
      simp [Shared.goOn]] at done

/-- A step of a thread goes on with the call that the thread is in. -/
theorem ObjectStep.alternates
    {moment : Moment Thread Op Result}
    {moments : List (Moment Thread Op Result)}
    (step : ObjectStep spec shared moment middle)
    (rest : Alternates (middle.calls moment.thread) moments) :
    Alternates (shared.calls moment.thread) (moment :: moments) := by
  cases step with
  | calls isIdle =>
      rw [Moment.thread, Shared.goOn_self] at rest
      rw [Moment.thread, isIdle]
      exact .calls rest
  | acts isCalled accepted =>
      rw [Moment.thread, Shared.goOn_self] at rest
      rw [Moment.thread, isCalled]
      exact .acts rest
  | returns isActed =>
      rw [Moment.thread, Shared.goOn_self] at rest
      rw [Moment.thread, isActed]
      exact .returns rest

/-- A step of a thread leaves the calls of the others. -/
theorem ObjectStep.others
    {moment : Moment Thread Op Result}
    (step : ObjectStep spec shared moment middle)
    (differs : thread ≠ moment.thread) :
    middle.calls thread = shared.calls thread := by
  cases step with
  | calls isIdle =>
      exact Shared.goOn_of_ne differs _
  | acts isCalled accepted =>
      exact Shared.goOn_of_ne differs _
  | returns isActed =>
      exact Shared.goOn_of_ne differs _

/-- In a run, each thread's calls take effect between call and return. -/
theorem ObjectRun.alternates
    {moments : List (Moment Thread Op Result)}
    (run : ObjectRun spec shared moments final)
    (thread : Thread) :
    Alternates (shared.calls thread)
      (moments.filter fun moment => moment.thread = thread) := by
  induction run with
  | nil =>
      exact .ends
  | @cons shared middle final moment rest step _ inductionHypothesis =>
      by_cases isThread : moment.thread = thread
      · subst isThread
        rw [List.filter_cons_of_pos (by simp)]
        exact step.alternates inductionHypothesis
      · rw [List.filter_cons_of_neg (by simpa using isThread)]
        rwa [step.others (Ne.symm isThread)] at inductionHypothesis

/-- The effects of a run are a run of the sequential object. -/
theorem ObjectRun.effects
    {moments : List (Moment Thread Op Result)}
    (run : ObjectRun spec shared moments final) :
    SpecRun spec shared.state
      ((moments.filterMap Moment.effect).map Prod.fst)
      ((moments.filterMap Moment.effect).map Prod.snd) final.state := by
  induction run with
  | nil =>
      exact .nil _
  | cons step _ inductionHypothesis =>
      cases step with
      | calls _ =>
          exact inductionHypothesis
      | acts _ accepted =>
          exact .cons accepted inductionHypothesis
      | returns _ =>
          exact inductionHypothesis

/-- The moments of a run make what it shows linearizable. -/
theorem ObjectRun.linearizes
    {initial : Abstract}
    {moments : List (Moment Thread Op Result)}
    (run : ObjectRun spec (.initial initial) moments final) :
    Linearizes spec initial (moments.filterMap Moment.seen) moments
      final.state :=
  ⟨rfl, run.alternates, run.effects⟩

/--
If every allowed step of an implementation shows what a run of the object shows
and keeps the two related, then so does every run of allowed steps.
-/
theorem runCalls_shows
    {State Call : Type}
    {step : State → Call → Checked (State × List (HistoryEvent Thread Op Result))}
    {allowed : State → Call → Prop}
    {Related : State → Shared Thread Op Result Abstract → Prop}
    (stepShows :
      ∀ {state call shared},
        Related state shared →
        allowed state call →
        ∃ next moments nextShared,
          step state call = .ok (next, moments.filterMap Moment.seen) ∧
            ObjectRun spec shared moments nextShared ∧
            Related next nextShared)
    {state : State}
    (related : Related state shared)
    {calls : List Call}
    (permitted : AlwaysAllowed (StepOf step) allowed state calls) :
    ∃ last histories moments final,
      runCalls step state calls = .ok (last, histories) ∧
        ObjectRun spec shared moments final ∧
        moments.filterMap Moment.seen = histories.flatten ∧
        Related last final := by
  induction calls generalizing state shared with
  | nil =>
      exact ⟨state, [], [], shared, rfl, .nil, rfl, related⟩
  | cons call rest inductionHypothesis =>
      obtain ⟨callAllowed, restAllowed⟩ := permitted
      obtain ⟨middle, moments, middleShared, steps, run, middleRelated⟩ :=
        stepShows related callAllowed
      obtain ⟨last, histories, later, final, runs, laterRun, shows,
          lastRelated⟩ :=
        inductionHypothesis middleRelated (restAllowed _ middle steps)
      refine ⟨last, _ :: histories, moments ++ later, final,
        runCalls_cons steps runs, run.append laterRun, ?_, lastRelated⟩
      rw [List.filterMap_append, List.flatten_cons, shows]

/-- Then every history of the implementation is linearizable. -/
theorem runCalls_linearizes
    {State Call : Type}
    {step : State → Call → Checked (State × List (HistoryEvent Thread Op Result))}
    {allowed : State → Call → Prop}
    {Related : State → Shared Thread Op Result Abstract → Prop}
    (stepShows :
      ∀ {state call shared},
        Related state shared →
        allowed state call →
        ∃ next moments nextShared,
          step state call = .ok (next, moments.filterMap Moment.seen) ∧
            ObjectRun spec shared moments nextShared ∧
            Related next nextShared)
    {state : State}
    {initial : Abstract}
    (related : Related state (.initial initial))
    {calls : List Call}
    (permitted : AlwaysAllowed (StepOf step) allowed state calls) :
    ∃ last histories moments final,
      runCalls step state calls = .ok (last, histories) ∧
        Linearizes spec initial histories.flatten moments final.state ∧
        Related last final := by
  obtain ⟨last, histories, moments, final, runs, run, shows, lastRelated⟩ :=
    runCalls_shows stepShows related permitted
  refine ⟨last, histories, moments, final, runs, ?_, lastRelated⟩
  rw [← shows]
  exact run.linearizes

end Object

end Clibs
