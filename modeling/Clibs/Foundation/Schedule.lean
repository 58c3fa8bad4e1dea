import Clibs.Foundation.Run

namespace Clibs

/-!
# Fair schedules

A schedule says which call comes next, for ever.  It is fair to the turns of a
system when it takes each of them again and again.  If a measure of the state
never grows, if some turn is always ready until the goal is reached, and if a
ready turn makes the measure fall when it is taken and stays ready until then or
until the measure falls, then every fair schedule reaches the goal.
-/

/-- The first calls of a schedule. -/
def firstCalls
    {Call : Type}
    (schedule : Nat → Call)
    (time : Nat) : List Call :=
  (List.range time).map schedule

/-- The schedule takes each turn again and again. -/
def Fair
    {Call Turn : Type}
    (takes : Turn → Call → Prop)
    (schedule : Nat → Call) : Prop :=
  ∀ turn time, ∃ later, time ≤ later ∧ takes turn (schedule later)

/-- The steps that a call can make from a state with the invariant lower the measure. -/
structure Descends
    {State Call Result Turn : Type}
    (step : State → Call → Checked (State × Result))
    (takes : Turn → Call → Prop)
    (allowed : Call → Prop)
    (Invariant : State → Prop)
    (measure : State → Nat)
    (Ready : State → Turn → Prop)
    (Goal : State → Prop) : Prop where
  keeps :
    ∀ {state call},
      Invariant state →
      allowed call →
      ∃ next result, step state call = .ok (next, result) ∧ Invariant next
  falls :
    ∀ {state call next result},
      Invariant state →
      allowed call →
      step state call = .ok (next, result) →
      measure next ≤ measure state
  someReady :
    ∀ {state},
      Invariant state →
      Goal state ∨ ∃ turn, Ready state turn
  taken :
    ∀ {state call next result turn},
      Invariant state →
      allowed call →
      step state call = .ok (next, result) →
      Ready state turn →
      takes turn call →
      measure next < measure state
  stays :
    ∀ {state call next result turn},
      Invariant state →
      allowed call →
      step state call = .ok (next, result) →
      Ready state turn →
      ¬ takes turn call →
      measure next = measure state →
      Ready next turn

section Schedule

variable {State Call Result Turn : Type}
  {step : State → Call → Checked (State × Result)}
  {takes : Turn → Call → Prop}
  {allowed : Call → Prop}
  {Invariant : State → Prop}
  {measure : State → Nat}
  {Ready : State → Turn → Prop}
  {Goal : State → Prop}
  {schedule : Nat → Call}

/-- A schedule that has begun is fair still. -/
theorem Fair.later
    (fair : Fair takes schedule)
    (time : Nat) :
    Fair takes fun delay => schedule (time + delay) := by
  intro turn delay
  obtain ⟨later, isLater, isTaken⟩ := fair turn (time + delay)
  refine ⟨later - time, by omega, ?_⟩
  have isTime : time + (later - time) = later := by
    omega
  simpa only [isTime] using isTaken

/-- The calls up to some time, and then the others. -/
theorem firstCalls_add
    (schedule : Nat → Call)
    (time delay : Nat) :
    firstCalls schedule (time + delay) =
      firstCalls schedule time ++
        firstCalls (fun later => schedule (time + later)) delay := by
  rw [firstCalls, List.range_add, List.map_append, List.map_map]
  rfl

/-- The first call of a schedule, and then the others. -/
theorem firstCalls_head
    (schedule : Nat → Call)
    (time : Nat) :
    firstCalls schedule (time + 1) =
      schedule 0 :: firstCalls (fun delay => schedule (1 + delay)) time := by
  rw [Nat.add_comm, firstCalls_add]
  rfl

/-- The schedule of calls that are allowed reaches a state of a smaller measure. -/
theorem Descends.lower
    (descends : Descends step takes allowed Invariant measure Ready Goal)
    {turn : Turn}
    {delay : Nat}
    (isTaken : takes turn (schedule delay))
    (permitted : ∀ time, allowed (schedule time))
    {state : State}
    (holds : Invariant state)
    (isReady : Ready state turn) :
    ∃ time next results,
      runCalls step state (firstCalls schedule time) = .ok (next, results) ∧
        Invariant next ∧ measure next < measure state := by
  induction delay generalizing schedule state with
  | zero =>
      obtain ⟨next, result, steps, nextHolds⟩ :=
        descends.keeps holds (permitted 0)
      exact ⟨1, next, [result], runCalls_cons steps rfl, nextHolds,
        descends.taken holds (permitted 0) steps isReady isTaken⟩
  | succ delay inductionHypothesis =>
      obtain ⟨next, result, steps, nextHolds⟩ :=
        descends.keeps holds (permitted 0)
      have falls := descends.falls holds (permitted 0) steps
      by_cases isLower : measure next < measure state
      · exact ⟨1, next, [result], runCalls_cons steps rfl, nextHolds, isLower⟩
      have sameMeasure : measure next = measure state :=
        Nat.le_antisymm falls (Nat.le_of_not_lt isLower)
      by_cases takesNow : takes turn (schedule 0)
      · exact (isLower
          (descends.taken holds (permitted 0) steps isReady takesNow)).elim
      have staysReady :=
        descends.stays holds (permitted 0) steps isReady takesNow sameMeasure
      have isTakenLater : takes turn (schedule (1 + delay)) := by
        rwa [Nat.add_comm]
      obtain ⟨time, final, results, runs, finalHolds, lower⟩ :=
        @inductionHypothesis (fun delay => schedule (1 + delay)) isTakenLater
          (fun time => permitted (1 + time)) next nextHolds staysReady
      rw [sameMeasure] at lower
      refine ⟨time + 1, final, result :: results, ?_, finalHolds, lower⟩
      rw [firstCalls_head]
      exact runCalls_cons steps runs

/-- Every fair schedule of allowed calls reaches the goal. -/
theorem Descends.eventually
    (descends : Descends step takes allowed Invariant measure Ready Goal)
    (fair : Fair takes schedule)
    (permitted : ∀ time, allowed (schedule time))
    {state : State}
    (holds : Invariant state) :
    ∃ time final results,
      runCalls step state (firstCalls schedule time) = .ok (final, results) ∧
        Invariant final ∧ Goal final := by
  induction isMeasure : measure state using Nat.strongRecOn
    generalizing schedule state with
  | ind bound inductionHypothesis =>
      rcases descends.someReady holds with isGoal | ⟨turn, isReady⟩
      · exact ⟨0, state, [], rfl, holds, isGoal⟩
      obtain ⟨delay, -, isTaken⟩ := fair turn 0
      obtain ⟨time, next, results, runs, nextHolds, lower⟩ :=
        descends.lower isTaken permitted holds isReady
      rw [isMeasure] at lower
      obtain ⟨later, final, laterResults, laterRuns, finalHolds, isGoal⟩ :=
        inductionHypothesis (measure next) lower (fair.later time)
          (fun delay => permitted (time + delay)) nextHolds rfl
      refine ⟨time + later, final, results ++ laterResults, ?_, finalHolds,
        isGoal⟩
      rw [firstCalls_add]
      exact runCalls_append runs laterRuns

end Schedule

end Clibs
