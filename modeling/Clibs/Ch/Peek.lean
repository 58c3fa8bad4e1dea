import Clibs.Ch.Refinement

namespace Clibs.Ch

/-!
# Peeking

`ch_peek` looks at the first element and leaves it in the channel, except that
it lowers `count` when the element is an end marker, although the element stays
linked.  A run in which no peek meets a marker is unaffected by its peeks.
-/

open CellHeap

/-- The label calls `ch_peek`. -/
def Label.isPeek
    {n : Nat} : Label n → Bool
  | .call _ (.peek _) _ =>
      true
  | _ =>
      false

/--
On a channel that is not empty, a peek reports what the next get would return:
the same code and, unless it is an end marker, the same block.
-/
def ReportsNextGet
    (ch : ChH)
    (block : Nat)
    (event : ChEvent) : Prop :=
  block ≠ 0 →
  ch.head ≠ none →
  ∃ next item code condvar,
    chGetEnter ch block = .ok (next, .taken item code, condvar) ∧
      event =
        .peeked (if item.2.isEndoftransmission then none else some item.2)
          code

/-- A peek leaves the whole system as it was and reports the next get. -/
def PeekObserves
    {n : Nat}
    (system : System n) : Label n → Prop
  | .call thread (.peek block) choice =>
      system.threads thread = .idle →
      ∃ event,
        systemStep system (.call thread (.peek block) choice) =
            .ok (system, event) ∧
          ReportsNextGet system.ch block event
  | _ =>
      True

/--
Peeks make no difference to a run: at every moment the count is the number of
linked elements, the run without its peeks has come to the same state with the
same results, and a peek made now changes nothing and reports the next get.
-/
def PeeksObserve
    {n : Nat}
    (settings : Settings)
    (labels : List (Label n)) : Prop :=
  ∀ done, done <+: labels →
    ∃ system events queue,
      runCalls systemStep (start n settings) done = .ok (system, events) ∧
        runCalls systemStep (start n settings)
            (withoutObservers Label.isPeek done) =
          .ok (system, resultsWithout Label.isPeek done events) ∧
        Holds settings system.ch queue ∧
        ∀ label, done ++ [label] <+: labels → PeekObserves system label

section Peek

variable {n : Nat} {settings : Settings}

/-- A step with a peek that does not meet an end marker. -/
theorem peekStep_of_safe
    {system : System n}
    {state : Fifo n}
    {thread : Fin n}
    {block choice : Nat}
    (refines : Refines settings system state)
    (isIdle : system.threads thread = .idle)
    (safe : PeekSafe system (.call thread (.peek block) choice)) :
    ∃ event,
      systemStep system (.call thread (.peek block) choice) =
          .ok (system, event) ∧
        ReportsNextGet system.ch block event := by
  have holds := refines.related.holds
  by_cases isNull : block = 0
  · subst isNull
    refine ⟨.returned chWrongParam, ?_, fun wanted => (wanted rfl).elim⟩
    simp [systemStep, isIdle, callStep, chPeek]
  · have unmarked := safe.unmarked holds isIdle isNull
    refine ⟨peekedAt state.queue, ?_, ?_⟩
    · simp [systemStep, isIdle, callStep, chPeek_spec holds isNull unmarked]
    · intro _ notEmpty
      cases isQueue : state.queue with
      | nil =>
          rw [holds.head, isQueue] at notEmpty
          exact (notEmpty rfl).elim
      | cons item rest =>
          have owns := refines.related.owns
          rw [isQueue] at holds owns unmarked
          have isData : item.2.isEndoftransmission = false :=
            unmarked item rfl
          have counted : system.ch.count ≠ 0 :=
            mt holds.count_eq_zero.mp (by simp)
          obtain ⟨next, takes, -⟩ := chGetTake_spec holds owns
          have enters : chGetEnter system.ch block = chGetTake system.ch := by
            rw [chGetEnter, if_neg (by simp [isNull, holds.magic]),
              if_neg (by simp [counted]), chGetLoop, if_neg counted]
          refine ⟨next, item, takenCode item.2, _, enters.trans takes, ?_⟩
          simp [peekedAt, takenCode_of_isData isData, isData]

/-- The system stands for some state of the queue. -/
def IsQueue
    (settings : Settings)
    (system : System n) : Prop :=
  ∃ state, Refines settings system state

/-- Every step of a safe run stays a queue; its peeks change nothing. -/
theorem step_of_safe
    {system : System n}
    {label : Label n}
    (isQueue : IsQueue settings system)
    (allowed : label.keepsSettings = true ∧ PeekSafe system label) :
    ∃ next event,
      systemStep system label = .ok (next, event) ∧
        IsQueue settings next ∧
        (label.isPeek = true → next = system) := by
  obtain ⟨state, refines⟩ := isQueue
  obtain ⟨keeps, safe⟩ := allowed
  obtain ⟨next, event, after, steps, -, nextRefines, -⟩ :=
    systemStep_refines refines keeps safe
  refine ⟨next, event, steps, ⟨after, nextRefines⟩, ?_⟩
  intro isPeek
  cases label with
  | call thread call choice =>
      cases call with
      | peek block =>
          cases isState : system.threads thread with
          | idle =>
              obtain ⟨other, peeks, -⟩ :=
                peekStep_of_safe refines isState safe
              cases steps.symm.trans peeks
              rfl
          | waiting pending stage =>
              simp only [systemStep, isState] at steps
              cases steps
              rfl
      | _ =>
          cases isPeek
  | _ =>
      cases isPeek

/-- The labels make no `ch_setattr` call, and no peek meets an end marker. -/
def PeeksSafely
    (settings : Settings)
    (labels : List (Label n)) : Prop :=
  AlwaysAllowed (StepOf systemStep) PeekSafe (start n settings) labels

/--
In every run of puts, gets, peeks and cleans in which no peek meets an end
marker, peeks make no difference.
-/
theorem peeks_observe_of_safe
    (n : Nat)
    (settings : Settings)
    (labels : List (Label n))
    (keeps : ∀ label ∈ labels, label.keepsSettings = true)
    (safe : PeeksSafely settings labels) :
    PeeksObserve settings labels := by
  rintro done ⟨rest, rfl⟩
  have permitted :
      AlwaysAllowed (StepOf systemStep)
        (fun system label => label.keepsSettings = true ∧ PeekSafe system label)
        (start n settings) (done ++ rest) :=
    (alwaysAllowed_of_forall (fun label member _ => keeps label member) _).and
      safe
  have startsQueue : IsQueue settings (start n settings) :=
    ⟨_, start_refines n settings⟩
  obtain ⟨system, events, runs, runsWithout, state, refines⟩ :=
    runCalls_withoutObservers step_of_safe startsQueue permitted.of_append
  refine ⟨system, events, state.queue, runs, runsWithout,
    refines.related.holds, ?_⟩
  rintro label ⟨later, isList⟩
  rw [List.append_assoc, List.append_cancel_left_eq] at isList
  subst isList
  have safeNow := (safe.after_run runs).1
  cases label with
  | call thread call choice =>
      cases call with
      | peek block =>
          intro isIdle
          exact peekStep_of_safe refines isIdle safeNow
      | _ =>
          trivial
  | _ =>
      trivial

/-- A put and two peeks at its element. -/
def peekingRun : List (Label 1) :=
  [.call 0 (.put ⟨100, [1]⟩ .std) 0, .call 0 (.peek 1) 0,
    .call 0 (.peek 1) 0, .call 0 (.get 1) 0]

/-- Peeking at an element that is not a marker makes no difference. -/
theorem peeks_observe_of_safe_data :
    PeeksObserve ⟨.voidp, true, 0⟩ peekingRun := by
  refine peeks_observe_of_safe 1 ⟨.voidp, true, 0⟩ peekingRun (by decide) ?_
  have dataFirst :
      ∀ element elem,
        (some 0 : Option Nat) = some element →
        Function.update (fun _ => none) 0
            (some (⟨.pointer 100, none⟩ : ChElem)) element = some elem →
        elem.block.isEndoftransmission = false := by
    rintro element elem ⟨⟩ isCell
    cases isCell
    rfl
  refine .step rfl trivial (.step rfl ?_ (.step rfl ?_
    (.step rfl trivial trivial)))
  · exact fun _ _ => dataFirst
  · exact fun _ _ => dataFirst

/-- An end marker is put, and a peek finds it. -/
def markerRun : List (Label 1) :=
  [.call 0 (.put ⟨chEndoftransmission, []⟩ .std) 0, .call 0 (.peek 1) 0]

/--
Peeking at an end marker lowers the count below the number of linked elements.
-/
theorem peek_at_marker_lowers_count :
    ¬ PeeksObserve ⟨.voidp, true, 0⟩ markerRun := by
  intro observe
  obtain ⟨system, events, queue, runs, -, holds, -⟩ :=
    observe _ (List.prefix_refl _)
  have leaves :
      (fun outcome => (outcome.1.ch.head, outcome.1.ch.count)) <$>
          runCalls systemStep (start 1 ⟨.voidp, true, 0⟩) markerRun =
        .ok (some 0, 0) :=
    rfl
  rw [runs, Checked.map_ok] at leaves
  obtain ⟨isHead, isCount⟩ := Prod.mk.inj (Except.ok.inj leaves)
  have isEmpty := holds.count_eq_zero.mp isCount
  rw [holds.head, isEmpty] at isHead
  cases isHead

end Peek

end Clibs.Ch
