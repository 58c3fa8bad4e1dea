import Clibs.Ch.Wakeup

namespace Clibs.Ch

/-!
# Administrative calls and sleepers

`ch_clean` and `ch_setattr` change what the wait loops test, and a put in
non-blocking mode adds an element, all without a signal.  Each of them is
harmless as long as the threads that are already on their way take the elements
or fill the room; `Steady` says so of a step, in terms of the state before it,
and no run of steady steps strands a sleeper.
-/

/-- The settings of a channel after a call of `ch_setattr`. -/
def Settings.set
    (settings : Settings)
    (attr val : Int) : Settings :=
  if attr = chBlockingMode then
    if val = 1 then
      { settings with blocking := true }
    else if val = 0 then
      { settings with blocking := false }
    else
      settings
  else if attr = chFixedSize ∧ 0 ≤ val then
    { settings with size := val.toNat }
  else
    settings

section Settings

variable {n : Nat} {settings : Settings} {ch : ChH}

/-- Setting the mode bit makes a channel block. -/
theorem attr_or_blocking
    (attr : UInt32) :
    (attr ||| chAttrBlockingGetput) &&& chAttrBlockingGetput =
      chAttrBlockingGetput := by
  apply UInt32.eq_of_toBitVec_eq
  simp only [chAttrBlockingGetput, UInt32.toBitVec_and, UInt32.toBitVec_or]
  ext index inRange
  simp only [BitVec.getElem_and, BitVec.getElem_or]
  grind

/-- A call of `ch_setattr` exchanges the mode bit and the size. -/
theorem chSetattr_spec
    {queue : List Item}
    (holds : Holds settings ch queue)
    (attr val : Int) :
    ∃ mode size code,
      chSetattr ch attr val =
          ({ ch with attr := mode, maxSize := size }, code) ∧
        size = (settings.set attr val).size ∧
        ({ ch with attr := mode, maxSize := size } : ChH).blocking =
          (settings.set attr val).blocking := by
  have one : (chAttrBlockingGetput.toNat : Int) = 1 :=
    rfl
  have zero : (chAttrNonBlockingGetput.toNat : Int) = 0 :=
    rfl
  have accepted : ¬ ch.magic ≠ chMagicId :=
    not_not_intro holds.magic
  simp only [chSetattr, if_neg accepted, one, zero, Settings.set]
  by_cases isMode : attr = chBlockingMode
  · simp only [if_pos isMode]
    by_cases isOne : val = 1
    · refine ⟨ch.attr ||| chAttrBlockingGetput, ch.maxSize, chOk, ?_, ?_, ?_⟩
      · simp [isOne]
      · simp [isOne, holds.maxSize]
      · rw [if_pos isOne]
        exact decide_eq_true (attr_or_blocking ch.attr)
    · by_cases isZero : val = 0
      · refine ⟨ch.attr &&& chAttrNonBlockingGetput, ch.maxSize, chOk, ?_, ?_,
          ?_⟩
        · simp [isZero]
        · simp [isZero, holds.maxSize]
        · rw [if_neg isOne, if_pos isZero]
          simp [ChH.blocking, chAttrNonBlockingGetput, chAttrBlockingGetput]
      · refine ⟨ch.attr, ch.maxSize, chWrongValue, ?_, ?_, ?_⟩
        · simp [isOne, isZero]
        · simp [isOne, isZero, holds.maxSize]
        · rw [if_neg isOne, if_neg isZero]
          exact holds.blocking
  · simp only [if_neg isMode]
    by_cases isSize : attr = chFixedSize
    · by_cases isLength : 0 ≤ val
      · refine ⟨ch.attr, val, chOk, ?_, ?_, ?_⟩
        · simp [isSize, isLength]
        · simp [isSize, isLength]
        · rw [if_pos ⟨isSize, isLength⟩]
          exact holds.blocking
      · refine ⟨ch.attr, ch.maxSize, chOk, ?_, ?_, ?_⟩
        · simp [isSize, isLength]
        · simp [isLength, holds.maxSize]
        · rw [if_neg (fun both => isLength both.2)]
          exact holds.blocking
    · refine ⟨ch.attr, ch.maxSize, chWrongAttr, ?_, ?_, ?_⟩
      · simp [isSize]
      · simp [isSize, holds.maxSize]
      · rw [if_neg (fun both => isSize both.1)]
        exact holds.blocking

/-- A call of `ch_setattr` keeps the data length. -/
theorem Settings.datalen_set
    (settings : Settings)
    (attr val : Int) :
    (settings.set attr val).datalen = settings.datalen := by
  unfold Settings.set
  split_ifs <;> rfl

/-- A call of `ch_setattr` keeps the system carried, under the new settings. -/
theorem Carries.setattr
    {system : System n}
    {state : Fifo n}
    (carries : Carries settings system state)
    (attr val : Int) :
    Carries (settings.set attr val)
      { system with ch := (chSetattr system.ch attr val).1 } state := by
  have intact := carries.intact
  have holds := intact.holds
  obtain ⟨mode, size, code, sets, isSize, isMode⟩ :=
    chSetattr_spec holds attr val
  have sameDatalen := settings.datalen_set attr val
  rw [sets]
  refine ⟨⟨⟨holds.magic, holds.datalen.trans sameDatalen.symm, isSize, isMode,
    holds.count, holds.chain, holds.tail⟩, intact.owns, intact.grants,
    intact.fresh, ?_, ?_⟩, carries.pending⟩
  · rw [sameDatalen]
    exact intact.prepared
  · intro condvar
    have counted := intact.waiting condvar
    cases condvar <;> exact counted

/-- The system carries a queue under some settings. -/
def IsCarried
    {n : Nat}
    (system : System n) : Prop :=
  ∃ settings state, Carries settings system state

/-- Threads that have not called anything carry the empty queue. -/
theorem start_isCarried
    (n : Nat)
    (settings : Settings) :
    IsCarried (start n settings) :=
  ⟨settings, Fifo.initial n, (start_refines n settings).carries⟩

/--
Every step in which no peek meets an end marker returns and keeps the system
carried.
-/
theorem step_of_carried
    {system : System n}
    {label : Label n}
    (isCarried : IsCarried system)
    (safe : PeekSafe system label) :
    ∃ next event,
      systemStep system label = .ok (next, event) ∧ IsCarried next := by
  obtain ⟨settings, state, carries⟩ := isCarried
  cases keeps : label.keepsSettings with
  | true =>
      rcases systemStep_carries carries keeps safe with
        ⟨next, event, after, steps, -, nextCarries, -⟩ |
          ⟨thread, pending, again⟩
      · exact ⟨next, event, steps, settings, after, nextCarries⟩
      · have waits : (system.threads thread).pending = some pending := by
          rcases again.isBack with same | same <;> rw [same] <;> rfl
        exact ⟨_, _, again.steps, settings, state,
          carries.restage waits .asleep⟩
  | false =>
      cases label with
      | call thread call choice =>
          cases call with
          | setattr attr val =>
              cases isState : system.threads thread with
              | idle =>
                  refine ⟨_, .returned (chSetattr system.ch attr val).2, ?_,
                    _, state, carries.setattr attr val⟩
                  simp only [systemStep, isState, callStep]
              | waiting pending stage =>
                  refine ⟨system, .nothing, ?_, settings, state, carries⟩
                  simp only [systemStep, isState]
          | _ =>
              cases keeps
      | _ =>
          cases keeps

end Settings

/--
The sleepers are covered and, while the size is unlimited, nobody waits to put.
-/
structure Attended
    {n : Nat}
    (settings : Settings)
    (threads : Fin n → ThreadState)
    (queue : List Item) : Prop where
  covered : Covered settings threads queue
  sized :
    settings.size = 0 →
    ∀ thread, waitsFor .put (threads thread).pending = false

section Attended

variable {n : Nat} {settings : Settings} {threads : Fin n → ThreadState}
  {thread : Fin n} {queue after : List Item}

/-- A put makes the queue longer by one. -/
theorem Place.length_insert
    (place : Place)
    (item : Item)
    (queue : List Item) :
    (place.insert item queue).length = queue.length + 1 := by
  cases place <;> simp [Place.insert]

/-- An element linked without a signal keeps the sleepers covered. -/
theorem Covered.linked_quietly
    {element : Nat}
    {block : Block}
    {place : Place}
    {item : Item}
    {code : Int}
    (covered : Covered settings threads queue)
    (canMove : CanMove threads thread (.put element block place))
    (grows : after.length = queue.length + 1)
    (enough :
      SomeSleeps .get threads → queue.length + 1 ≤ notifiedOf .get threads) :
    Covered settings
      (Function.update threads thread
        (.afterSection (.put element block place) (.linked item code)))
      after := by
  have getters := notifiedOf_section canMove (.linked item code) .get
  have putters := notifiedOf_section canMove (.linked item code) .put
  simp only [Pending.condvar, ↓reduceIte, reduceCtorEq, Nat.add_zero]
    at getters putters
  constructor
  · intro sleeps
    rcases sleeps.of_section with slept | ⟨impossible, -⟩
    · rw [grows]
      exact (enough slept).trans getters
    · cases impossible
  · intro sleeps
    rcases sleeps.of_section with slept | ⟨impossible, -⟩
    · have filled := covered.putters slept
      rw [grows]
      omega
    · cases impossible

/-- Only a put that sleeps makes another thread wait to put. -/
theorem noPutter_after
    {pending : Pending}
    {event : ChEvent}
    {choice : Nat}
    {signals : Option Condvar}
    (nobody : ∀ other, waitsFor .put (threads other).pending = false)
    (step : QueueStep settings pending queue event after)
    (unlimited : settings.size = 0) :
    ∀ other,
      waitsFor .put
          (signal
            (Function.update threads thread (.afterSection pending event))
            choice signals other).pending = false := by
  intro other
  rw [signal_pending]
  by_cases isThread : other = thread
  · subst isThread
    rw [Function.update_self]
    cases step with
    | putSleeps _ fixed _ =>
        exact (fixed unlimited).elim
    | _ =>
        rfl
  · rw [Function.update_of_ne isThread]
    exact nobody other

/--
A step of the threads keeps the sleepers attended, if a put that does not signal
and a clean leave enough threads on their way.
-/
theorem Attended.step
    {label : Label n}
    {next : Fin n → ThreadState}
    (attended : Attended settings threads queue)
    (moves : Scheduled settings label threads queue next after)
    (links :
      after.length = queue.length + 1 →
      settings.blocking = false →
      (settings.size = 0 ∨ queue.length < settings.size) →
      SomeSleeps .get threads →
      queue.length + 1 ≤ notifiedOf .get threads)
    (cleans :
      ∀ thread delFunc choice,
        label = .call thread (.clean delFunc) choice →
        SomeSleeps .put threads →
        settings.size ≤ notifiedOf .put threads) :
    Attended settings next after := by
  have covered := attended.covered
  cases moves with
  | still =>
      exact attended
  | @wakes _ _ _ thread pending isAsleep =>
      refine ⟨covered.woken isAsleep, ?_⟩
      intro unlimited other
      have nobody := attended.sized unlimited
      by_cases isThread : other = thread
      · subst isThread
        have own := nobody other
        rw [isAsleep] at own
        rw [Function.update_self]
        exact own
      · rw [Function.update_of_ne isThread]
        exact nobody other
  | @moves _ _ _ _ thread pending event choice canMove step =>
      refine ⟨?_, fun unlimited =>
        noPutter_after (attended.sized unlimited) step unlimited⟩
      cases step with
      | putSleeps isBlocking fixed full =>
          exact covered.sleeps canMove (.putSleeps isBlocking fixed full)
      | putFull _ _ full =>
          exact covered.blocked canMove full _
      | @putLinks _ _ _ place _ _ room =>
          have grows := place.length_insert
          cases isMode : settings.blocking with
          | true =>
              exact covered.linked isMode canMove (grows _ _) choice
          | false =>
              simp only [signalled, isMode, Bool.false_eq_true, ↓reduceIte,
                signal]
              exact covered.linked_quietly canMove (grows _ _)
                (links (grows _ _) isMode room)
      | getSleeps isBlocking =>
          exact covered.sleeps canMove (.getSleeps isBlocking)
      | getNodata _ =>
          exact covered.blocked canMove rfl _
      | getTakes =>
          exact covered.taken canMove choice
  | @cleaned thread delFunc choice =>
      refine ⟨⟨fun _ => Nat.zero_le _, ?_⟩, attended.sized⟩
      intro sleeps
      have enough := cleans thread delFunc choice rfl sleeps
      exact enough.trans (Nat.le_add_left _ _)

/-- Only a put makes the queue longer. -/
theorem QueueStep.longer
    {pending : Pending}
    {event : ChEvent}
    (step : QueueStep settings pending queue event after)
    (longer : after.length = queue.length + 1) :
    ∃ element block place, pending = .put element block place := by
  cases step with
  | @putLinks _ element block place _ _ _ =>
      exact ⟨element, block, place, rfl⟩
  | getTakes =>
      simp only [List.length_cons] at longer
      omega
  | _ =>
      omega

/-- Only a call of a put, or a put that comes back, makes the queue longer. -/
theorem FifoStep.longer
    {state next : Fifo n}
    {label : Label n}
    {event : ChEvent}
    (step : FifoStep settings state label event next)
    (longer : next.queue.length = state.queue.length + 1) :
    (∃ thread block place choice,
      label = .call thread (.put block place) choice) ∨
      ∃ thread choice element block place,
        label = .resume thread choice ∧
          state.pending thread = some (.put element block place) := by
  cases step with
  | @put thread block place choice _ _ _ _ _ =>
      exact .inl ⟨thread, block, place, choice, rfl⟩
  | @get _ _ _ _ queue _ _ done =>
      obtain ⟨_, _, _, impossible⟩ := done.longer longer
      cases impossible
  | @resume thread pending choice _ queue isPending done =>
      obtain ⟨element, block, place, rfl⟩ := done.longer longer
      exact .inr ⟨thread, choice, element, block, place, rfl, isPending⟩
  | clean _ _ =>
      simp only [List.length_nil] at longer
      omega
  | _ =>
      omega

/-- The label calls a put, or a thread comes back to one. -/
def Label.mayLink : Label n → Bool
  | .call _ (.put _ _) _ =>
      true
  | .resume _ _ =>
      true
  | _ =>
      false

/-- Other labels do not make the queue longer. -/
theorem FifoStep.not_longer
    {state next : Fifo n}
    {label : Label n}
    {event : ChEvent}
    (step : FifoStep settings state label event next)
    (noLink : label.mayLink = false) :
    next.queue.length ≠ state.queue.length + 1 := by
  intro longer
  rcases step.longer longer with
    ⟨_, _, _, _, rfl⟩ | ⟨_, _, _, _, _, rfl, _⟩
  · cases noLink
  · cases noLink

end Attended

/--
A put that links an element without a signal leaves at least as many notified
getters as there are then elements, if a getter sleeps.
-/
def LinksQuietly
    {n : Nat}
    (system : System n) : Prop :=
  system.ch.blocking = false →
  (system.ch.maxSize = 0 ∨ system.ch.count < system.ch.maxSize) →
  SomeSleeps .get system.threads →
  system.ch.count + 1 ≤ notifiedOf .get system.threads

/--
A clean leaves at least as many notified putters as there is then room, if a
putter sleeps.
-/
def CleansQuietly
    {n : Nat}
    (system : System n) : Prop :=
  SomeSleeps .put system.threads →
  system.ch.maxSize ≤ notifiedOf .put system.threads

/--
A new size leaves at least as many notified putters as there is then room, if a
putter sleeps, and is not zero while a thread waits to put.
-/
def ResizesQuietly
    {n : Nat}
    (system : System n)
    (size : Int) : Prop :=
  (size = 0 →
    ∀ thread, waitsFor .put (system.threads thread).pending = false) ∧
    (SomeSleeps .put system.threads →
      size ≤ system.ch.count + notifiedOf .put system.threads)

/-- The step changes what sleepers wait for only where that strands nobody. -/
def Steady
    {n : Nat}
    (system : System n) : Label n → Prop
  | .call thread (.put block _) _ =>
      system.threads thread = .idle →
      block.address ≠ 0 →
      LinksQuietly system
  | .call thread (.clean delFunc) _ =>
      system.threads thread = .idle →
      (delFunc = true → system.ch.datalen = .voidp) →
      CleansQuietly system
  | .call thread (.setattr attr val) _ =>
      system.threads thread = .idle →
      attr = chFixedSize →
      0 ≤ val →
      ResizesQuietly system val
  | .resume thread _ =>
      ∀ element block place stage,
        system.threads thread = .waiting (.put element block place) stage →
        stage ≠ .asleep →
        LinksQuietly system
  | _ =>
      True

/-- The system carries a queue whose sleepers are attended. -/
def IsAttended
    {n : Nat}
    (system : System n) : Prop :=
  ∃ settings state,
    Carries settings system state ∧
      Attended settings system.threads state.queue

section Steady

variable {n : Nat} {settings : Settings} {system : System n} {state : Fifo n}

/-- A put that does not signal, in terms of the queue. -/
theorem LinksQuietly.links
    (quiet : LinksQuietly system)
    (carries : Carries settings system state)
    (nonBlocking : settings.blocking = false)
    (room : settings.size = 0 ∨ state.queue.length < settings.size)
    (sleeps : SomeSleeps .get system.threads) :
    state.queue.length + 1 ≤ notifiedOf .get system.threads := by
  have holds := carries.intact.holds
  have count := holds.count
  have maxSize := holds.maxSize
  have enough :=
    quiet (holds.blocking.trans nonBlocking) (by omega) sleeps
  omega

/-- A step of the queue keeps the system attended. -/
theorem attended_of_step
    {label : Label n}
    (attended : Attended settings system.threads state.queue)
    (step : StepCarries settings system state label)
    (links :
      ∀ event after,
        FifoStep settings state label event after →
        after.queue.length = state.queue.length + 1 →
        settings.blocking = false →
        (settings.size = 0 ∨ state.queue.length < settings.size) →
        SomeSleeps .get system.threads →
        state.queue.length + 1 ≤ notifiedOf .get system.threads)
    (cleans :
      ∀ thread delFunc choice,
        label = .call thread (.clean delFunc) choice →
        SomeSleeps .put system.threads →
        settings.size ≤ notifiedOf .put system.threads) :
    ∃ next event,
      systemStep system label = .ok (next, event) ∧ IsAttended next := by
  obtain ⟨next, event, after, steps, allowed, carries, moves⟩ := step
  exact ⟨next, event, steps, settings, after, carries,
    attended.step moves (links event after allowed) cleans⟩

/-- A call of `ch_setattr` that is steady keeps the system attended. -/
theorem attended_setattr
    {attr val : Int}
    (carries : Carries settings system state)
    (attended : Attended settings system.threads state.queue)
    (resizes : attr = chFixedSize → 0 ≤ val → ResizesQuietly system val) :
    Attended (settings.set attr val) system.threads state.queue := by
  have covered := attended.covered
  have sameSize :
      (settings.set attr val).size = settings.size →
      Attended (settings.set attr val) system.threads state.queue := by
    intro same
    refine ⟨⟨covered.getters, ?_⟩, ?_⟩
    · rw [same]
      exact covered.putters
    · rw [same]
      exact attended.sized
  by_cases isMode : attr = chBlockingMode
  · apply sameSize
    rw [Settings.set, if_pos isMode]
    split_ifs <;> rfl
  · by_cases resized : attr = chFixedSize ∧ 0 ≤ val
    · obtain ⟨unlimited, room⟩ := resizes resized.1 resized.2
      have isSize : (settings.set attr val).size = val.toNat := by
        rw [Settings.set, if_neg isMode, if_pos resized]
      have count := carries.intact.holds.count
      refine ⟨⟨covered.getters, ?_⟩, ?_⟩
      · intro sleeps
        have enough := room sleeps
        rw [isSize]
        omega
      · rw [isSize]
        intro noSize
        exact unlimited (by omega)
    · apply sameSize
      rw [Settings.set, if_neg isMode, if_neg resized]

/-- Every steady step returns and keeps the system attended. -/
theorem step_of_steady
    {label : Label n}
    (isAttended : IsAttended system)
    (allowed : Steady system label ∧ PeekSafe system label) :
    ∃ next event,
      systemStep system label = .ok (next, event) ∧ IsAttended next := by
  have wasAttended := isAttended
  obtain ⟨settings, state, carries, attended⟩ := isAttended
  obtain ⟨steady, safe⟩ := allowed
  have holds := carries.intact.holds
  cases label with
  | call thread call choice =>
      cases isState : system.threads thread with
      | waiting pending stage =>
          exact ⟨system, .nothing, by simp only [systemStep, isState],
            wasAttended⟩
      | idle =>
          cases call with
          | put block place =>
              by_cases isNull : block.address = 0
              · refine ⟨system, .returned chWrongParam, ?_, wasAttended⟩
                simp only [systemStep, isState, callStep, chPutPrepare,
                  isNull, true_or, ↓reduceIte]
              · have quiet := steady isState isNull
                exact attended_of_step attended
                  (put_carries carries isState block place choice)
                  (fun _ _ _ _ => quiet.links carries)
                  (by rintro _ _ _ ⟨⟩)
          | get block =>
              refine attended_of_step attended
                (get_carries carries isState block choice) ?_
                (by rintro _ _ _ ⟨⟩)
              intro event after step longer
              exact (step.not_longer rfl longer).elim
          | peek block =>
              refine attended_of_step attended
                (peek_carries carries isState safe) ?_
                (by rintro _ _ _ ⟨⟩)
              intro event after step longer
              exact (step.not_longer rfl longer).elim
          | clean delFunc =>
              by_cases requested : delFunc = true → settings.datalen = .voidp
              · have quiet : CleansQuietly system := by
                  apply steady isState
                  rw [holds.datalen]
                  exact requested
                refine attended_of_step attended
                  (clean_carries carries isState delFunc choice) ?_ ?_
                · intro event after step longer
                  exact (step.not_longer rfl longer).elim
                · intro _ _ _ _ sleeps
                  have enough := quiet sleeps
                  rw [holds.maxSize] at enough
                  exact_mod_cast enough
              · obtain ⟨rfl, notVoidp⟩ := Classical.not_imp.mp requested
                refine ⟨system, .returned chFreeNotRequested, ?_,
                  wasAttended⟩
                simp [systemStep, isState, callStep, chClean, holds.magic,
                  holds.datalen, notVoidp]
          | setattr attr val =>
              have kept := attended_setattr carries attended (steady isState)
              refine ⟨{ system with ch := (chSetattr system.ch attr val).1 },
                .returned (chSetattr system.ch attr val).2, ?_,
                settings.set attr val, state, carries.setattr attr val, kept⟩
              simp only [systemStep, isState, callStep]
  | resume thread choice =>
      have comesBack :
          ∀ pending stage,
            system.threads thread = .waiting pending stage →
            stage ≠ .asleep →
            (system.threads thread = .waiting pending .notified ∨
              system.threads thread = .waiting pending .awake) →
            ∃ next event,
              systemStep system (.resume thread choice) = .ok (next, event) ∧
                IsAttended next := by
        intro pending stage isState notAsleep isBack
        rcases resume_carries carries isBack choice with
          step | again
        · refine attended_of_step attended step ?_ (by rintro _ _ _ ⟨⟩)
          intro event after fifoStep longer
          rcases fifoStep.longer longer with
            ⟨_, _, _, _, ⟨⟩⟩ | ⟨_, _, element, block, place, ⟨⟩, isPending⟩
          have samePending : some pending = some (.put element block place) := by
            rw [← isPending, ← carries.pending, isState]
            rfl
          cases samePending
          exact (steady element block place stage isState notAsleep).links
            carries
        · have waits : (system.threads thread).pending = some pending := by
            rw [isState]
            rfl
          refine ⟨_, .sleeps, again.steps, settings, state,
            carries.restage waits .asleep,
            attended.covered.blocked (.inr isBack) again.blocked .sleeps, ?_⟩
          intro unlimited other
          have nobody := attended.sized unlimited
          by_cases isThread : other = thread
          · subst isThread
            have own := nobody other
            rw [isState] at own
            simp only [Function.update_self]
            exact own
          · simp only [Function.update_of_ne isThread]
            exact nobody other
      cases isState : system.threads thread with
      | idle =>
          exact ⟨system, .nothing, by simp only [systemStep, isState],
            wasAttended⟩
      | waiting pending stage =>
          cases stage with
          | asleep =>
              exact ⟨system, .nothing, by simp only [systemStep, isState],
                wasAttended⟩
          | notified =>
              exact comesBack pending .notified isState (by simp)
                (.inl isState)
          | awake =>
              exact comesBack pending .awake isState (by simp) (.inr isState)
  | wake thread =>
      refine attended_of_step attended (wake_carries carries thread) ?_
        (by rintro _ _ _ ⟨⟩)
      intro event after step longer
      exact (step.not_longer rfl longer).elim

/-- Threads that have not called anything are attended. -/
theorem start_isAttended
    (n : Nat)
    (settings : Settings) :
    IsAttended (start n settings) := by
  have nobodySleeps :
      ∀ condvar, ¬ SomeSleeps condvar (start n settings).threads := by
    rintro condvar ⟨thread, isAsleep⟩
    cases isAsleep
  refine ⟨settings, Fifo.initial n, (start_refines n settings).carries, ?_⟩
  exact ⟨⟨fun sleeps => (nobodySleeps .get sleeps).elim,
    fun sleeps => (nobodySleeps .put sleeps).elim⟩, fun _ _ => rfl⟩

end Steady

/--
No sleeper is stranded: when every thread is idle or sleeps un-notified,
putters sleep on a full channel only and getters on an empty one; and a putter
that comes back while the size is unlimited leaves its loop.
-/
structure NotStranded
    {n : Nat}
    (system : System n) : Prop where
  putters :
    (∀ thread,
      system.threads thread = .idle ∨
        ∃ pending, system.threads thread = .waiting pending .asleep) →
    SomeSleeps .put system.threads →
    system.ch.maxSize ≠ 0 ∧ system.ch.maxSize ≤ system.ch.count
  getters :
    (∀ thread,
      system.threads thread = .idle ∨
        ∃ pending, system.threads thread = .waiting pending .asleep) →
    SomeSleeps .get system.threads →
    system.ch.count = 0
  unlimited :
    system.ch.maxSize = 0 →
    ∀ thread element block place stage choice next event,
      system.threads thread = .waiting (.put element block place) stage →
      stage ≠ .asleep →
      systemStep system (.resume thread choice) = .ok (next, event) →
      event ≠ .sleeps

section Runs

variable {n : Nat}

/-- A thread that sleeps to put is one that waits to put. -/
theorem SomeSleeps.waiter
    {condvar : Condvar}
    {threads : Fin n → ThreadState}
    (sleeps : SomeSleeps condvar threads) :
    ∃ thread, waitsFor condvar (threads thread).pending = true := by
  obtain ⟨thread, isAsleep⟩ := sleeps
  refine ⟨thread, ?_⟩
  cases isState : threads thread with
  | idle =>
      rw [isState] at isAsleep
      cases isAsleep
  | waiting pending stage =>
      rw [isState] at isAsleep
      simp only [ThreadState.waits, decide_eq_true_eq] at isAsleep
      simp [ThreadState.pending, waitsFor, isAsleep.1]

/-- Attended sleepers are not stranded. -/
theorem notStranded_of_attended
    {system : System n}
    (isAttended : IsAttended system) :
    NotStranded system := by
  obtain ⟨settings, state, carries, attended⟩ := isAttended
  have holds := carries.intact.holds
  have count := holds.count
  have maxSize := holds.maxSize
  refine ⟨?_, ?_, ?_⟩
  · intro stuck sleeps
    have enough := attended.covered.putters sleeps
    rw [notifiedOf_eq_zero stuck] at enough
    refine ⟨?_, by omega⟩
    intro unlimited
    obtain ⟨thread, waits⟩ := sleeps.waiter
    rw [attended.sized (by omega) thread] at waits
    cases waits
  · intro stuck sleeps
    have enough := attended.covered.getters sleeps
    rw [notifiedOf_eq_zero stuck] at enough
    omega
  · intro unlimited thread element block place stage choice next event
      isState _ _
    have noPutter := attended.sized (by omega) thread
    rw [isState] at noPutter
    cases noPutter

/-- A call of `ch_clean` wakes nobody. -/
theorem clean_silent
    {system next : System n}
    {thread : Fin n}
    {delFunc : Bool}
    {choice : Nat}
    {event : ChEvent}
    (steps :
      systemStep system (.call thread (.clean delFunc) choice) =
        .ok (next, event)) :
    next.threads = system.threads := by
  cases isState : system.threads thread with
  | waiting pending stage =>
      simp only [systemStep, isState] at steps
      cases steps
      rfl
  | idle =>
      simp only [systemStep, isState] at steps
      obtain ⟨⟨ch, done, signals⟩, -, same⟩ :=
        Checked.bind_eq_ok.mp steps
      cases same
      rfl

/--
A clean wakes nobody; for any number of threads and every interleaving of puts,
gets, cleans and changes of the size and the mode in which every step is steady,
no sleeper is stranded.
-/
theorem steady_calls_strand_nobody
    (n : Nat)
    (settings : Settings)
    (labels : List (Label n))
    (steady :
      AlwaysAllowed (StepOf systemStep)
        (fun system label => Steady system label ∧ PeekSafe system label)
        (start n settings) labels) :
    ∃ system events,
      runCalls systemStep (start n settings) labels = .ok (system, events) ∧
        NotStranded system ∧
        ∀ thread delFunc choice next event,
          systemStep system (.call thread (.clean delFunc) choice) =
            .ok (next, event) →
          next.threads = system.threads := by
  obtain ⟨system, events, runs, isAttended⟩ :=
    runCalls_invariant step_of_steady (start_isAttended n settings) steady
  refine ⟨system, events, runs, notStranded_of_attended isAttended, ?_⟩
  intro thread delFunc choice next event steps
  exact clean_silent steps

attribute [local instance] neZero_two neZero_three

/--
Two producers sleep on a full channel, and one of them is signalled.  The channel
is filled again, cleaned, and given its size anew before that one comes back.
-/
def refilledRun : List (Label 3) :=
  [.call 0 (.put ⟨100, [1]⟩ .std) 0, .call 1 (.put ⟨200, [2]⟩ .std) 0,
    .call 2 (.put ⟨300, [3]⟩ .std) 0, .call 0 (.get 1) 0,
    .call 0 (.put ⟨400, [4]⟩ .std) 0, .call 0 (.clean false) 0,
    .call 0 (.setattr chFixedSize 1) 0, .resume 1 0]

/-- The other producer sleeps through that run, and the channel is full again. -/
theorem steady_calls_strand_nobody_refilled :
    ∃ system events,
      runCalls systemStep (start 3 ⟨.voidp, true, 1⟩) refilledRun =
          .ok (system, events) ∧
        system.threads 2 = .waiting (.put 2 ⟨300, [3]⟩ .std) .asleep ∧
        events[5]? = some (.cleaned [(3, .pointer 400)] [] chOk) ∧
        NotStranded system ∧
        ∀ thread delFunc choice next event,
          systemStep system (.call thread (.clean delFunc) choice) =
            .ok (next, event) →
          next.threads = system.threads := by
  have steady :
      AlwaysAllowed (StepOf systemStep)
        (fun system label => Steady system label ∧ PeekSafe system label)
        (start 3 ⟨.voidp, true, 1⟩) refilledRun := by
    have linksQuietly :
        ∀ {system : System 3},
          system.ch.blocking = true →
          LinksQuietly system := by
      intro system isBlocking notBlocking
      rw [isBlocking] at notBlocking
      cases notBlocking
    refine .step rfl ⟨?_, trivial⟩ (.step rfl ⟨?_, trivial⟩
      (.step rfl ⟨?_, trivial⟩ (.step rfl ⟨trivial, trivial⟩
        (.step rfl ⟨?_, trivial⟩ (.step rfl ⟨?_, trivial⟩
          (.step rfl ⟨?_, trivial⟩ (.step rfl ⟨?_, trivial⟩ trivial)))))))
    · exact fun _ _ => linksQuietly rfl
    · exact fun _ _ => linksQuietly rfl
    · exact fun _ _ => linksQuietly rfl
    · exact fun _ _ => linksQuietly rfl
    · exact fun _ _ _ => by decide
    · exact fun _ _ _ =>
        ⟨fun noSize => absurd noSize (by decide), fun _ => by decide⟩
    · exact fun _ _ _ _ _ _ => linksQuietly rfl
  obtain ⟨system, events, runs, kept⟩ :=
    steady_calls_strand_nobody 3 ⟨.voidp, true, 1⟩ refilledRun steady
  have seen :
      (runCalls systemStep (start 3 ⟨.voidp, true, 1⟩) refilledRun).map
          (fun outcome => (outcome.1.threads 2, outcome.2[5]?)) =
        .ok
          (.waiting (.put 2 ⟨300, [3]⟩ .std) .asleep,
            some (.cleaned [(3, .pointer 400)] [] chOk)) :=
    rfl
  rw [runs] at seen
  obtain ⟨isAsleep, cleans⟩ := Prod.mk.inj (Except.ok.inj seen)
  exact ⟨system, events, runs, isAsleep, cleans, kept⟩

/-- A producer sleeps on a full channel, and the channel is cleaned. -/
def cleanedRun : List (Label 2) :=
  [.call 0 (.put ⟨100, [1]⟩ .std) 0, .call 1 (.put ⟨200, [2]⟩ .std) 0,
    .call 0 (.clean false) 0]

/--
A producer sleeps on a full channel, its size becomes unlimited, and the
producer wakes and tests again.
-/
def unlimitedRun : List (Label 2) :=
  [.call 0 (.put ⟨100, [1]⟩ .std) 0, .call 1 (.put ⟨200, [2]⟩ .std) 0,
    .call 0 (.setattr chFixedSize 0) 0, .wake 1, .resume 1 0]

/-- A consumer sleeps, and a producer puts in non-blocking mode. -/
def nonBlockingRun : List (Label 2) :=
  [.call 0 (.get 1) 0, .call 1 (.setattr chBlockingMode 0) 0,
    .call 1 (.put ⟨100, [1]⟩ .std) 0]

/-- What a run of two threads leaves for them to see. -/
def seenAfter
    (outcome : System 2 × List ChEvent) :
    Int × Int × ThreadState × ThreadState :=
  (outcome.1.ch.maxSize, outcome.1.ch.count, outcome.1.threads 0,
    outcome.1.threads 1)

/-- A thread that is idle or sleeps un-notified. -/
def ThreadState.isStuck : ThreadState → Bool
  | .idle =>
      true
  | .waiting _ stage =>
      stage = .asleep

/-- A stuck thread is idle or sleeps. -/
theorem ThreadState.stuck
    {state : ThreadState}
    (isStuck : state.isStuck = true) :
    state = .idle ∨ ∃ pending, state = .waiting pending .asleep := by
  cases state with
  | idle =>
      exact .inl rfl
  | waiting pending stage =>
      have isAsleep : stage = .asleep :=
        of_decide_eq_true isStuck
      exact .inr ⟨pending, by rw [isAsleep]⟩

/-- A run of two threads that leaves both stuck strands a sleeper. -/
theorem strands_of_seen
    {settings : Settings}
    {labels : List (Label 2)}
    {maxSize count : Int}
    {first second : ThreadState}
    (seen :
      (seenAfter <$> runCalls systemStep (start 2 settings) labels) =
        .ok (maxSize, count, first, second))
    (stuck : first.isStuck = true ∧ second.isStuck = true)
    (strands :
      second.waits .put .asleep = true ∧ (maxSize = 0 ∨ count < maxSize) ∨
        first.waits .get .asleep = true ∧ count ≠ 0) :
    ∃ system events,
      runCalls systemStep (start 2 settings) labels = .ok (system, events) ∧
        ¬ NotStranded system := by
  obtain ⟨⟨system, events⟩, runs, saw⟩ := Checked.map_eq_ok.mp seen
  simp only [seenAfter, Prod.mk.injEq] at saw
  obtain ⟨rfl, rfl, rfl, rfl⟩ := saw
  refine ⟨system, events, runs, ?_⟩
  intro notStranded
  have allStuck :
      ∀ thread,
        system.threads thread = .idle ∨
          ∃ pending, system.threads thread = .waiting pending .asleep := by
    intro thread
    match thread with
    | 0 =>
        exact ThreadState.stuck stuck.1
    | 1 =>
        exact ThreadState.stuck stuck.2
  rcases strands with ⟨isAsleep, room⟩ | ⟨isAsleep, notEmpty⟩
  · have full := notStranded.putters allStuck ⟨1, isAsleep⟩
    omega
  · exact notEmpty (notStranded.getters allStuck ⟨0, isAsleep⟩)

/--
A clean and a change of the size leave a producer asleep although there is room;
one that wakes while the size is unlimited sleeps again; and a put in
non-blocking mode leaves a consumer asleep although there is an element.
-/
theorem administrative_calls_strand :
    (∃ system events,
      runCalls systemStep (start 2 ⟨.voidp, true, 1⟩) cleanedRun =
          .ok (system, events) ∧
        ¬ NotStranded system) ∧
      (∃ system events,
        runCalls systemStep (start 2 ⟨.voidp, true, 1⟩) unlimitedRun =
            .ok (system, events) ∧
          ¬ NotStranded system) ∧
      ∃ system events,
        runCalls systemStep (start 2 ⟨.voidp, true, 0⟩) nonBlockingRun =
            .ok (system, events) ∧
          ¬ NotStranded system := by
  refine ⟨?_, ?_, ?_⟩
  · exact strands_of_seen rfl ⟨rfl, rfl⟩ (.inl ⟨rfl, .inr (by decide)⟩)
  · exact strands_of_seen rfl ⟨rfl, rfl⟩ (.inl ⟨rfl, .inl rfl⟩)
  · exact strands_of_seen rfl ⟨rfl, rfl⟩ (.inr ⟨rfl, by decide⟩)

end Runs

end Clibs.Ch
