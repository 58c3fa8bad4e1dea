import Clibs.Ch.Refinement
import Clibs.Foundation.Linearization

namespace Clibs.Ch

/-!
# The calls on a shared channel are atomic

What the users of a channel see of its threads: the calls, each of which may wait
before its first section and sleep any number of times, and their results.
`ChannelStep` is a bounded queue each call on which is a single step; a call that
finds no room or no data in blocking mode has no step, it takes effect later.
The sections in which a call goes to sleep are seen by nobody.
-/

/-- `CH_COUNT`. -/
def chCount : Int :=
  200

/-- `ch_getattr`: the code and `*val`. -/
def chGetattr
    (ch : ChH)
    (attr : Int) : Int × Option Int :=
  if ch.magic ≠ chMagicId then
    (chBadHandle, none)
  else if attr = chBlockingMode then
    (chOk, some ch.attr.toNat)
  else if attr = chCount then
    (chOk, some ch.count)
  else if attr = chFixedSize then
    (chOk, some ch.maxSize)
  else
    (chWrongAttr, none)

/-- A call on a channel. -/
inductive ChannelCall where
  | call (call : ChCall)
  | getattr (attr : Int)
  deriving Repr, DecidableEq

/--
What a call returns and stores for its caller; an end of transmission stores no
block.
-/
inductive ChannelResult where
  | code (code : Int)
  | block (block : Option ElemBlock) (code : Int)
  | cleaned (deleted : List Nat) (code : Int)
  | attr (code : Int) (value : Option Int)
  deriving Repr, DecidableEq

/-- The calls and results that users see of a channel. -/
abbrev ChannelHistory (n : Nat) :=
  List (HistoryEvent (Fin n) ChannelCall ChannelResult)

/-- The block that `ch_get` stores for an element. -/
def givenBlock (block : ElemBlock) : Option ElemBlock :=
  if block.isEndoftransmission then
    none
  else
    some block

/-- The result of a call whose section ends with the event, if it returns. -/
def ChEvent.result : ChEvent → Option ChannelResult
  | .nothing =>
      none
  | .sleeps =>
      none
  | .returned code =>
      some (.code code)
  | .linked _ code =>
      some (.code code)
  | .taken item code =>
      some (.block (givenBlock item.2) code)
  | .peeked block code =>
      some (.block block code)
  | .cleaned _ deleted code =>
      some (.cleaned deleted code)

/-- A channel, its threads, and the calls that these are in. -/
structure Users (n : Nat) where
  system : System n
  calls : Fin n → Option ChannelCall

/--
A thread makes a call, takes the first section of it, comes back from waiting, or
wakes up on its own.
-/
inductive UserLabel (n : Nat) where
  | enters (thread : Fin n) (call : ChannelCall)
  | begins (thread : Fin n) (choice : Nat)
  | resume (thread : Fin n) (choice : Nat)
  | wake (thread : Fin n)
  deriving Repr, DecidableEq

/-- The users after a section of a call, and what is seen of it. -/
def Users.afterSection
    {n : Nat}
    (users : Users n)
    (thread : Fin n)
    (call : ChannelCall) :
    System n × ChEvent → Users n × ChannelHistory n
  | (system, event) =>
      match event.result with
      | none =>
          ({ users with
              system := system },
            [])
      | some result =>
          ({ system := system
             calls := Function.update users.calls thread none },
            [.returns thread call result])

/-- One step.  A label that asks for what a thread cannot do does nothing. -/
def usersStep
    {n : Nat}
    (users : Users n) : UserLabel n → Checked (Users n × ChannelHistory n)
  | .enters thread call =>
      match users.calls thread with
      | none =>
          .ok
            ({ users with
                calls := Function.update users.calls thread (some call) },
              [.calls thread call])
      | some _ =>
          .ok (users, [])
  | .begins thread choice =>
      match users.calls thread, users.system.threads thread with
      | some (.call call), .idle => do
          let done ← systemStep users.system (.call thread call choice)
          .ok (users.afterSection thread (.call call) done)
      | some (.getattr attr), .idle =>
          let (code, value) := chGetattr users.system.ch attr
          .ok
            ({ users with
                calls := Function.update users.calls thread none },
              [.returns thread (.getattr attr) (.attr code value)])
      | _, _ =>
          .ok (users, [])
  | .resume thread choice =>
      match users.calls thread with
      | some call => do
          let done ← systemStep users.system (.resume thread choice)
          .ok (users.afterSection thread call done)
      | none =>
          .ok (users, [])
  | .wake thread => do
      let (system, _) ← systemStep users.system (.wake thread)
      .ok
        ({ users with
            system := system },
          [])

/-- The threads before their first calls. -/
def firstUsers
    (n : Nat)
    (settings : Settings) : Users n where
  system := start n settings
  calls _ := none

/-- Where a block comes in a queue of blocks. -/
def Place.add
    (block : ElemBlock)
    (queue : List ElemBlock) : Place → List ElemBlock
  | .std =>
      queue ++ [block]
  | .top =>
      block :: queue

/-- A bounded queue. -/
inductive ChannelStep
    (settings : Settings) :
    List ElemBlock → ChannelCall → ChannelResult → List ElemBlock →
      Prop where
  | put
      {queue : List ElemBlock}
      {block : Block}
      {place : Place}
      {value : ElemBlock} :
      block.address ≠ 0 →
      block.QueuedAs settings.datalen value →
      (settings.size = 0 ∨ queue.length < settings.size) →
      ChannelStep settings queue (.call (.put block place))
        (.code (queue.length + 1)) (place.add value queue)
  | putFull
      {queue : List ElemBlock}
      {block : Block}
      {place : Place} :
      block.address ≠ 0 →
      settings.blocking = false →
      settings.size ≠ 0 →
      settings.size ≤ queue.length →
      ChannelStep settings queue (.call (.put block place))
        (.code chPutChannelFull) queue
  | putNull
      {queue : List ElemBlock}
      {block : Block}
      {place : Place} :
      block.address = 0 →
      ChannelStep settings queue (.call (.put block place))
        (.code chWrongParam) queue
  | get
      {first : ElemBlock}
      {queue : List ElemBlock}
      {block : Nat} :
      block ≠ 0 →
      first ≠ .pointer chEndoftransmission →
      ChannelStep settings (first :: queue) (.call (.get block))
        (.block (some first) chOk) queue
  | getEnd
      {queue : List ElemBlock}
      {block : Nat} :
      block ≠ 0 →
      ChannelStep settings (.pointer chEndoftransmission :: queue)
        (.call (.get block)) (.block none chGetEndoftransmission) queue
  | getNodata
      {block : Nat} :
      block ≠ 0 →
      settings.blocking = false →
      ChannelStep settings [] (.call (.get block)) (.code chGetNodata) []
  | getNull
      {queue : List ElemBlock} :
      ChannelStep settings queue (.call (.get 0)) (.code chWrongParam) queue
  | peek
      {first : ElemBlock}
      {queue : List ElemBlock}
      {block : Nat} :
      block ≠ 0 →
      first.isEndoftransmission = false →
      ChannelStep settings (first :: queue) (.call (.peek block))
        (.block (some first) chOk) (first :: queue)
  | peekNodata
      {block : Nat} :
      block ≠ 0 →
      ChannelStep settings [] (.call (.peek block)) (.code chGetNodata) []
  | peekNull
      {queue : List ElemBlock} :
      ChannelStep settings queue (.call (.peek 0)) (.code chWrongParam) queue
  | clean
      {queue : List ElemBlock}
      {delFunc : Bool} :
      (delFunc = true → settings.datalen = .voidp) →
      ChannelStep settings queue (.call (.clean delFunc))
        (.cleaned (handedOver delFunc queue) chOk) []
  | cleanRefused
      {queue : List ElemBlock} :
      settings.datalen ≠ .voidp →
      ChannelStep settings queue (.call (.clean true))
        (.code chFreeNotRequested) queue
  | getattrBlocking
      {queue : List ElemBlock}
      {attr : UInt32} :
      decide (attr &&& chAttrBlockingGetput = chAttrBlockingGetput) =
        settings.blocking →
      ChannelStep settings queue (.getattr chBlockingMode)
        (.attr chOk (some attr.toNat)) queue
  | getattrCount
      {queue : List ElemBlock} :
      ChannelStep settings queue (.getattr chCount)
        (.attr chOk (some queue.length)) queue
  | getattrFixedSize
      {queue : List ElemBlock} :
      ChannelStep settings queue (.getattr chFixedSize)
        (.attr chOk (some settings.size)) queue
  | getattrWrong
      {queue : List ElemBlock}
      {attr : Int} :
      attr ≠ chBlockingMode →
      attr ≠ chCount →
      attr ≠ chFixedSize →
      ChannelStep settings queue (.getattr attr) (.attr chWrongAttr none)
        queue

/-- The blocks of a queue. -/
abbrev blocksOf (queue : List Item) : List ElemBlock :=
  queue.map Prod.snd

/-- Inserting an element inserts its block. -/
theorem blocksOf_insert
    (place : Place)
    (item : Item)
    (queue : List Item) :
    blocksOf (place.insert item queue) = place.add item.2 (blocksOf queue) := by
  cases place with
  | std =>
      exact List.map_append
  | top =>
      rfl

/-- The waiting call is a part of the call of the user. -/
inductive Pending.PartOf : Pending → ChannelCall → Prop where
  | put
      {element : Nat}
      {block : Block}
      {place : Place} :
      block.address ≠ 0 →
      Pending.PartOf (.put element block place) (.call (.put block place))
  | get
      {block : Nat} :
      block ≠ 0 →
      Pending.PartOf .get (.call (.get block))

section Sections

variable {settings : Settings}
  {pending : Pending}
  {call : ChannelCall}
  {queue after : List Item}
  {event : ChEvent}

/-- A section in which a call goes to sleep leaves the queue. -/
theorem QueueStep.asleep
    (step : QueueStep settings pending queue event after)
    (noResult : event.result = none) :
    event = .sleeps ∧ after = queue := by
  cases step with
  | putSleeps blocking fixed full =>
      exact ⟨rfl, rfl⟩
  | getSleeps blocking =>
      exact ⟨rfl, rfl⟩
  | putFull blocking fixed full =>
      cases noResult
  | putLinks queues room =>
      cases noResult
  | getNodata blocking =>
      cases noResult
  | getTakes =>
      cases noResult

/-- A section after which a call returns is a step of the bounded queue. -/
theorem QueueStep.acts
    (step : QueueStep settings pending queue event after)
    (isPart : pending.PartOf call)
    {result : ChannelResult}
    (isResult : event.result = some result) :
    ChannelStep settings (blocksOf queue) call result (blocksOf after) := by
  cases step with
  | putSleeps blocking fixed full =>
      cases isResult
  | getSleeps blocking =>
      cases isResult
  | putFull blocking fixed full =>
      cases isResult
      cases isPart with
      | put notNull =>
          exact .putFull notNull blocking fixed (by simpa using full)
  | @putLinks _ element block place value queues room =>
      cases isResult
      cases isPart with
      | put notNull =>
          have sameLength : (blocksOf queue).length = queue.length :=
            List.length_map _
          rw [blocksOf_insert, ← sameLength]
          exact .put notNull queues (by rwa [sameLength])
  | getNodata blocking =>
      cases isResult
      cases isPart with
      | get notNull =>
          exact .getNodata notNull blocking
  | @getTakes item =>
      cases isResult
      cases isPart with
      | get notNull =>
          obtain ⟨address, first⟩ := item
          by_cases isEnd : first = .pointer chEndoftransmission
          · subst isEnd
            exact .getEnd notNull
          · have isData : first.isEndoftransmission = false :=
              Bool.not_eq_true _ ▸ mt ElemBlock.isEndoftransmission_iff.mp isEnd
            rw [givenBlock, isData, takenCode_of_isData isData]
            exact .get notNull isEnd

end Sections

/-- Where a thread is in its call. -/
def Users.callState
    {n : Nat}
    (users : Users n)
    (thread : Fin n) : CallState ChannelCall ChannelResult :=
  match users.calls thread with
  | none =>
      .idle
  | some call =>
      .called call

/-- The users of a channel are where the users of an atomic queue are. -/
structure Users.Serves
    {n : Nat}
    (settings : Settings)
    (users : Users n)
    (state : Fifo n)
    (shared :
      Shared (Fin n) ChannelCall ChannelResult (List ElemBlock)) :
    Prop where
  refines : Refines settings users.system state
  queue : shared.state = blocksOf state.queue
  calls : ∀ thread, shared.calls thread = users.callState thread
  parts :
    ∀ thread pending,
      state.pending thread = some pending →
      ∃ call, users.calls thread = some call ∧ pending.PartOf call
  noSetattr :
    ∀ thread attr val,
      users.calls thread ≠ some (.call (.setattr attr val))

/-- A step that makes no `ch_setattr` call and no `ch_peek` of an end marker. -/
def UserLabel.Allowed
    {n : Nat}
    (users : Users n) : UserLabel n → Prop
  | .enters _ call =>
      ∀ attr val, call ≠ .call (.setattr attr val)
  | .begins thread choice =>
      ∀ call,
        users.calls thread = some (.call call) →
        PeekSafe users.system (.call thread call choice)
  | .resume _ _ =>
      True
  | .wake _ =>
      True

section System

variable {n : Nat}
  {settings : Settings}
  {users : Users n}
  {state : Fifo n}
  {shared : Shared (Fin n) ChannelCall ChannelResult (List ElemBlock)}

/-- One step shows what the atomic queue can do. -/
def Users.StepServes
    (settings : Settings)
    (users : Users n)
    (shared : Shared (Fin n) ChannelCall ChannelResult (List ElemBlock))
    (label : UserLabel n) : Prop :=
  ∃ next moments nextShared,
    usersStep users label = .ok (next, moments.filterMap Moment.seen) ∧
      ObjectRun (ChannelStep settings) shared moments nextShared ∧
      ∃ nextState, next.Serves settings nextState nextShared

/-- A step that does nothing. -/
theorem Users.Serves.refines_nothing
    (serves : users.Serves settings state shared)
    {label : UserLabel n}
    (waits : usersStep users label = .ok (users, [])) :
    users.StepServes settings shared label :=
  ⟨users, [], shared, waits, .nil, state, serves⟩

/-- A thread that is in a call has been seen to make it. -/
theorem Users.Serves.isCalled
    (serves : users.Serves settings state shared)
    {thread : Fin n}
    {call : ChannelCall}
    (inCall : users.calls thread = some call) :
    shared.calls thread = .called call := by
  rw [serves.calls thread, Users.callState, inCall]

/-- A step of the system that goes to sleep, or that does nothing. -/
theorem Users.Serves.goOn
    (serves : users.Serves settings state shared)
    {system : System n}
    {next : Fifo n}
    (refines : Refines settings system next)
    (queue : next.queue = state.queue)
    (parts :
      ∀ thread pending,
        next.pending thread = some pending →
        ∃ call, users.calls thread = some call ∧ pending.PartOf call) :
    Users.Serves settings
      { users with
        system := system }
      next shared where
  refines := refines
  queue := queue ▸ serves.queue
  calls := serves.calls
  parts := parts
  noSetattr := serves.noSetattr

/-- A step after which a call returns. -/
theorem Users.Serves.returns
    (serves : users.Serves settings state shared)
    {thread : Fin n}
    {system : System n}
    {next : Fifo n}
    (refines : Refines settings system next)
    (notWaiting : next.pending thread = none)
    (others :
      ∀ other,
        other ≠ thread → next.pending other = state.pending other) :
    Users.Serves settings
      { system := system
        calls := Function.update users.calls thread none }
      next
      ({ shared with
        state := blocksOf next.queue }.goOn thread .idle) where
  refines := refines
  queue := rfl
  calls other := by
    by_cases same : other = thread
    · subst same
      simp [Users.callState]
    · rw [Shared.goOn_of_ne same]
      simp only [Users.callState, Function.update_of_ne same]
      exact serves.calls other
  parts other pending waits := by
    by_cases same : other = thread
    · subst same
      rw [notWaiting] at waits
      cases waits
    · simp only [Function.update_of_ne same]
      exact serves.parts other pending (others other same ▸ waits)
  noSetattr other attr val := by
    by_cases same : other = thread
    · subst same
      simp
    · simp only [Function.update_of_ne same]
      exact serves.noSetattr other attr val

/-- The step of the system acts for the call, and the call returns. -/
theorem Users.Serves.refines_return
    (serves : users.Serves settings state shared)
    {thread : Fin n}
    {call : ChannelCall}
    (inCall : users.calls thread = some call)
    {label : UserLabel n}
    {system : System n}
    {next : Fifo n}
    {result : ChannelResult}
    (steps :
      usersStep users label =
        .ok
          ({ system := system
             calls := Function.update users.calls thread none },
            [.returns thread call result]))
    (refines : Refines settings system next)
    (notWaiting : next.pending thread = none)
    (others :
      ∀ other,
        other ≠ thread → next.pending other = state.pending other)
    (acts :
      ChannelStep settings (blocksOf state.queue) call result
        (blocksOf next.queue)) :
    users.StepServes settings shared label := by
  rw [← serves.queue] at acts
  exact ⟨_, [.acts thread call result, .returns thread call result], _, steps,
    .acts_returns (serves.isCalled inCall) acts,
    next, serves.returns refines notWaiting others⟩

/-- A section of a call that may wait. -/
theorem Users.Serves.refines_section
    (serves : users.Serves settings state shared)
    {thread : Fin n}
    {call : ChannelCall}
    {pending : Pending}
    (inCall : users.calls thread = some call)
    (isPart : pending.PartOf call)
    {label : UserLabel n}
    {system : System n}
    (before : Fifo n)
    {event : ChEvent}
    {queue : List Item}
    (steps :
      usersStep users label =
        .ok (users.afterSection thread call (system, event)))
    (sameQueue : before.queue = state.queue)
    (samePending : before.pending = state.pending)
    (step : QueueStep settings pending before.queue event queue)
    (refines :
      Refines settings system (before.after thread pending event queue)) :
    users.StepServes settings shared label := by
  have others :
      ∀ other,
        other ≠ thread →
        (before.after thread pending event queue).pending other =
          state.pending other := by
    intro other differs
    rw [Fifo.after, ← samePending]
    exact Function.update_of_ne differs ..
  cases isResult : event.result with
  | none =>
      obtain ⟨rfl, rfl⟩ := step.asleep isResult
      refine ⟨_, [], shared, steps, .nil, _,
        serves.goOn refines sameQueue ?_⟩
      intro other waiting waits
      by_cases same : other = thread
      · subst same
        have isPending : waiting = pending := by
          simpa [Fifo.after, pendingAfter, eq_comm] using waits
        exact ⟨call, inCall, isPending ▸ isPart⟩
      · exact serves.parts other waiting (others other same ▸ waits)
  | some result =>
      have notWaiting :
          (before.after thread pending event queue).pending thread = none := by
        simp only [Fifo.after, Function.update_self]
        cases event with
        | sleeps =>
            cases isResult
        | _ =>
            rfl
      rw [Users.afterSection, isResult] at steps
      exact serves.refines_return inCall steps refines notWaiting others
        (sameQueue ▸ step.acts isPart isResult)

/-- A thread makes a call. -/
theorem Users.Serves.enters
    (serves : users.Serves settings state shared)
    {thread : Fin n}
    {call : ChannelCall}
    (keeps : ∀ attr val, call ≠ .call (.setattr attr val)) :
    users.StepServes settings shared (.enters thread call) := by
  cases inCall : users.calls thread with
  | some other =>
      apply serves.refines_nothing
      simp only [usersStep, inCall]
  | none =>
      have isIdle : shared.calls thread = .idle := by
        rw [serves.calls thread, Users.callState, inCall]
      have notWaiting : state.pending thread = none := by
        cases waits : state.pending thread with
        | none =>
            rfl
        | some pending =>
            obtain ⟨other, isCall, -⟩ := serves.parts thread pending waits
            rw [inCall] at isCall
            cases isCall
      refine ⟨{ users with
          calls := Function.update users.calls thread (some call) },
        [.calls thread call], _, ?_, .calls isIdle call, state, ?_⟩
      · simp only [usersStep, inCall]
        rfl
      · constructor
        · exact serves.refines
        · exact serves.queue
        · intro other
          by_cases same : other = thread
          · subst same
            simp [Users.callState]
          · rw [Shared.goOn_of_ne same]
            simp only [Users.callState, Function.update_of_ne same]
            exact serves.calls other
        · intro other pending waits
          by_cases same : other = thread
          · subst same
            rw [notWaiting] at waits
            cases waits
          · simp only [Function.update_of_ne same]
            exact serves.parts other pending waits
        · intro other attr val
          by_cases same : other = thread
          · subst same
            simpa using keeps attr val
          · simp only [Function.update_of_ne same]
            exact serves.noSetattr other attr val

/-- The first section of a call. -/
theorem Users.Serves.begins_call
    (serves : users.Serves settings state shared)
    {thread : Fin n}
    {call : ChCall}
    (inCall : users.calls thread = some (.call call))
    (isIdle : users.system.threads thread = .idle)
    (choice : Nat)
    (safe : PeekSafe users.system (.call thread call choice)) :
    users.StepServes settings shared (.begins thread choice) := by
  have keeps :
      Label.keepsSettings (.call thread call choice) = true := by
    cases call with
    | setattr attr val =>
        exact (serves.noSetattr thread attr val inCall).elim
    | _ =>
        rfl
  have notWaiting : state.pending thread = none := by
    rw [← serves.refines.pending, isIdle]
    rfl
  obtain ⟨system, event, next, steps, fifo, refines, -⟩ :=
    systemStep_refines serves.refines keeps safe
  have made :
      usersStep users (.begins thread choice) =
        .ok (users.afterSection thread (.call call) (system, event)) := by
    simp only [usersStep, inCall, isIdle, steps, Checked.ok_bind]
  cases fifo with
  | busy waits =>
      exact (waits notWaiting).elim
  | putNull idle isNull =>
      exact serves.refines_return inCall made refines notWaiting
        (fun _ _ => rfl) (.putNull isNull)
  | put idle notNull step =>
      exact serves.refines_section inCall (.put notNull) state.take made rfl
        rfl step refines
  | getNull idle =>
      exact serves.refines_return inCall made refines notWaiting
        (fun _ _ => rfl) .getNull
  | get idle notNull step =>
      exact serves.refines_section inCall (.get notNull) state made rfl rfl
        step refines
  | peekNull idle =>
      exact serves.refines_return inCall made refines notWaiting
        (fun _ _ => rfl) .peekNull
  | peekNodata idle notNull isEmpty =>
      apply serves.refines_return inCall made refines notWaiting
        (fun _ _ => rfl)
      rw [isEmpty]
      exact .peekNodata notNull
  | peek idle notNull isQueue isData =>
      apply serves.refines_return inCall made refines notWaiting
        (fun _ _ => rfl)
      rw [isQueue]
      exact .peek notNull isData
  | cleanRefused idle notVoidp =>
      exact serves.refines_return inCall made refines notWaiting
        (fun _ _ => rfl) (.cleanRefused notVoidp)
  | clean idle mayDelete =>
      apply serves.refines_return inCall made refines notWaiting
        (fun _ _ => rfl)
      exact .clean mayDelete

/-- `ch_getattr` reads what the queue is. -/
theorem chGetattr_acts
    {ch : ChH}
    {queue : List Item}
    (holds : Holds settings ch queue)
    (attr : Int) :
    ChannelStep settings (blocksOf queue) (.getattr attr)
      (.attr (chGetattr ch attr).1 (chGetattr ch attr).2)
      (blocksOf queue) := by
  unfold chGetattr
  rw [if_neg (not_not.mpr holds.magic)]
  split
  next isBlocking =>
    subst isBlocking
    exact .getattrBlocking holds.blocking
  next notBlocking =>
    split
    next isCount =>
      subst isCount
      rw [holds.count, ← List.length_map (f := Prod.snd)]
      exact .getattrCount
    next notCount =>
      split
      next isSize =>
        subst isSize
        rw [holds.maxSize]
        exact .getattrFixedSize
      next notSize =>
        exact .getattrWrong notBlocking notCount notSize

/-- The first section of a call, or `ch_getattr`. -/
theorem Users.Serves.begins
    (serves : users.Serves settings state shared)
    {thread : Fin n}
    {choice : Nat}
    (safe :
      ∀ call,
        users.calls thread = some (.call call) →
        PeekSafe users.system (.call thread call choice)) :
    users.StepServes settings shared (.begins thread choice) := by
  cases isState : users.system.threads thread with
  | waiting pending stage =>
      apply serves.refines_nothing
      simp only [usersStep, isState]
      split
      · rename_i contradiction
        cases contradiction
      · rename_i contradiction
        cases contradiction
      · rfl
  | idle =>
      cases inCall : users.calls thread with
      | none =>
          apply serves.refines_nothing
          simp only [usersStep, inCall, isState]
      | some made =>
          cases made with
          | call call =>
              exact serves.begins_call inCall isState choice
                (safe call inCall)
          | getattr attr =>
              have notWaiting : state.pending thread = none := by
                rw [← serves.refines.pending, isState]
                rfl
              apply serves.refines_return inCall ?_ serves.refines
                notWaiting (fun _ _ => rfl)
                (chGetattr_acts serves.refines.related.holds attr)
              simp only [usersStep, inCall, isState]

/-- A later section of a call. -/
theorem Users.Serves.resume
    (serves : users.Serves settings state shared)
    (thread : Fin n)
    (choice : Nat) :
    users.StepServes settings shared (.resume thread choice) := by
  cases inCall : users.calls thread with
  | none =>
      apply serves.refines_nothing
      simp only [usersStep, inCall]
  | some call =>
      obtain ⟨system, event, next, steps, fifo, refines, -⟩ :=
        systemStep_refines serves.refines
          (rfl : Label.keepsSettings (.resume thread choice) = true) trivial
      have made :
          usersStep users (.resume thread choice) =
            .ok (users.afterSection thread call (system, event)) := by
        simp only [usersStep, inCall, steps, Checked.ok_bind]
      cases fifo with
      | asleep =>
          exact ⟨_, [], shared, made, .nil, _,
            serves.goOn refines rfl serves.parts⟩
      | resume waits step =>
          obtain ⟨other, isCall, isPart⟩ := serves.parts thread _ waits
          rw [inCall] at isCall
          cases isCall
          exact serves.refines_section inCall isPart state made rfl rfl step
            refines

/-- A thread wakes up on its own. -/
theorem Users.Serves.wake
    (serves : users.Serves settings state shared)
    (thread : Fin n) :
    users.StepServes settings shared (.wake thread) := by
  obtain ⟨system, event, next, steps, fifo, refines, -⟩ :=
    systemStep_refines serves.refines
      (rfl : Label.keepsSettings (.wake thread) = true) trivial
  cases fifo with
  | wake =>
      refine ⟨_, [], shared, ?_, .nil, _,
        serves.goOn refines rfl serves.parts⟩
      simp only [usersStep, steps, Checked.ok_bind]
      rfl

/-- Every allowed step shows what the atomic queue can do. -/
theorem Users.Serves.step
    (serves : users.Serves settings state shared)
    {label : UserLabel n}
    (allowed : label.Allowed users) :
    users.StepServes settings shared label := by
  cases label with
  | enters thread call =>
      exact serves.enters allowed
  | begins thread choice =>
      exact serves.begins allowed
  | resume thread choice =>
      exact serves.resume thread choice
  | wake thread =>
      exact serves.wake thread

end System

/-- Before the first calls. -/
theorem firstUsers_serves
    (n : Nat)
    (settings : Settings) :
    (firstUsers n settings).Serves settings (Fifo.initial n)
      (.initial []) where
  refines := start_refines n settings
  queue := rfl
  calls _ := rfl
  parts _ _ waits := by cases waits
  noSetattr _ _ _ isCall := by cases isCall

/--
Whatever the threads that use a channel do, its calls and their results are
linearizable: each call that returns takes effect at one moment between its call
and its return, as the one step that it is for a bounded queue, however often it
waited in between.
-/
theorem channel_linearizable
    {n : Nat}
    (settings : Settings)
    (labels : List (UserLabel n))
    (allowed :
      AlwaysAllowed (StepOf usersStep)
        (fun users label => label.Allowed users)
        (firstUsers n settings) labels) :
    ∃ final histories moments queue,
      runCalls usersStep (firstUsers n settings) labels =
          .ok (final, histories) ∧
        Linearizes (ChannelStep settings) [] histories.flatten moments
          queue ∧
        ∃ items,
          Holds settings final.system.ch items ∧ blocksOf items = queue := by
  have stepServes :
      ∀ {users : Users n} {label : UserLabel n}
        {shared : Shared (Fin n) ChannelCall ChannelResult (List ElemBlock)},
        (∃ state, users.Serves settings state shared) →
        label.Allowed users →
        users.StepServes settings shared label := by
    rintro users label shared ⟨state, serves⟩ mayStep
    exact serves.step mayStep
  obtain ⟨final, histories, moments, shared, runs, linearizes, state, serves⟩ :=
    runCalls_linearizes stepServes
      ⟨Fifo.initial n, firstUsers_serves n settings⟩ allowed
  exact ⟨final, histories, moments, shared.state, runs, linearizes,
    state.queue, serves.refines.related.holds, serves.queue.symm⟩

/-- A getter waits for a block that is put while it sleeps. -/
theorem channel_linearizable_waiting :
    ∃ final histories moments queue,
      runCalls usersStep (firstUsers 2 ⟨.voidp, true, 1⟩)
          [.enters 0 (.call (.get 1)),
            .begins 0 0,
            .enters 1 (.call (.put ⟨100, []⟩ .std)),
            .begins 1 0,
            .resume 0 0] =
        .ok (final, histories) ∧
      histories.flatten =
        [.calls 0 (.call (.get 1)),
          .calls 1 (.call (.put ⟨100, []⟩ .std)),
          .returns 1 (.call (.put ⟨100, []⟩ .std)) (.code 1),
          .returns 0 (.call (.get 1))
            (.block (some (.pointer 100)) chOk)] ∧
      Linearizes (ChannelStep ⟨.voidp, true, 1⟩) [] histories.flatten moments
        queue := by
  have permitted :
      AlwaysAllowed (StepOf usersStep)
        (fun users label => label.Allowed users)
        (firstUsers 2 ⟨.voidp, true, 1⟩)
        [.enters 0 (.call (.get 1)),
          .begins 0 0,
          .enters 1 (.call (.put ⟨100, []⟩ .std)),
          .begins 1 0,
          .resume 0 0] := by
    refine .step rfl ?_ (.step rfl ?_ (.step rfl ?_ (.step rfl ?_
      (.step rfl trivial trivial))))
    · intro attr val isSetattr
      cases isSetattr
    · intro call isCall
      cases isCall
      trivial
    · intro attr val isSetattr
      cases isSetattr
    · intro call isCall
      cases isCall
      trivial
  obtain ⟨final, histories, moments, queue, runs, linearizes, -⟩ :=
    channel_linearizable ⟨.voidp, true, 1⟩ _ permitted
  refine ⟨final, histories, moments, queue, runs, ?_, linearizes⟩
  have values :=
    congrArg
      (fun outcome : Checked (Users 2 × List (ChannelHistory 2)) =>
        outcome.map fun done => done.2.flatten)
      runs
  exact (Except.ok.inj values).symm

end Clibs.Ch
