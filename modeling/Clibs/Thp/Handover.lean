import Clibs.Foundation.History
import Clibs.Thp.Refusal

namespace Clibs.Thp

/-!
# Jobs that are handed over

`thp_add` looks at what `ch_put` returns, and counts a job only if it is queued.
A worker puts the job that it has run into the completion queue and does not
look.  While these puts are granted their memory, a job that is counted and not
collected is queued, run or finished, whatever else is refused, and `thp_wait`
never waits for a job that is nowhere.  A worker's put that is refused drops its
job, and `thp_wait` goes on waiting for it.
-/

/-- The queue holds a pointer to the job. -/
def holdsJob
    {k : Nat}
    (queue : Ch.System k)
    (job : Nat) : Prop :=
  Ch.ElemBlock.pointer (jobPointer job) ∈ queue.ch.blocks

/-- A thread runs the job, or has run it and is about to hand it over. -/
def Activity.works
    (job : Nat)
    (activity : Activity) : Bool :=
  activity.executes job || activity.hands job

/-- The job is queued, some thread works on it, or it is finished. -/
def Pool.keeps
    {k : Nat}
    (pool : Pool k)
    (job : Nat) : Prop :=
  holdsJob pool.inQueue job ∨
    (∃ thread, (pool.activity thread).works job = true) ∨
    holdsJob pool.waitQueue job

/-- The thread is inside `thp_wait`. -/
def Activity.isInWait : Activity → Bool
  | .waiting _ =>
      true
  | .collecting _ _ =>
      true
  | _ =>
      false

/-- A thread waits, and nobody will ever finish what it waits for. -/
structure Pool.Stuck
    {k : Nat}
    (pool : Pool k) : Prop where
  waiter : ∃ thread, (pool.activity thread).isInWait = true
  idle :
    ∀ worker,
      worker.val < pool.numThreads →
      pool.activity worker = .taking ∨ pool.activity worker = .exited
  noneQueued : pool.inQueue.ch.count = 0
  noneFinished : pool.waitQueue.ch.count = 0
  waits : 0 < pool.toBeWaited

/-- `to_be_waited` counts the jobs not collected, and none of them is lost. -/
structure Pool.KeepsJobs
    {k : Nat}
    (pool : Pool k)
    (past : List (PoolEvent k)) : Prop where
  counted :
    pool.toBeWaited = (addedJobs past).length - (collectedJobs past).length
  kept :
    ∀ job ∈ addedJobs past, job ∉ collectedJobs past → pool.keeps job
  notStuck : ¬ pool.Stuck

/-- What the past says about a pool that has dropped no job. -/
structure View.Keeps
    {k : Nat}
    (view : View k)
    (past : List (PoolEvent k)) : Prop where
  roles :
    ∀ thread,
      (view.activity thread).isWorker = true ↔ thread.val < view.numThreads
  balances : ∀ account : Account, account.balance view = account.sum past
  toBeWaited : view.toBeWaited = (outstanding fun _ => true).sum past

section Worth

variable {k : Nat} {view next : View k} {label : PoolLabel k}
  {event : PoolEvent k} {past : List (PoolEvent k)} {job : Nat}

/-- A thread that does not work on a job is worth nothing to its account. -/
theorem outstanding_of_not_works
    {activity : Activity}
    (notWorks : activity.works job = false) :
    (outstanding (· == job)).ofActivity activity ≤ 0 := by
  rw [Activity.works, Bool.or_eq_false_iff] at notWorks
  obtain ⟨notExecutes, notHands⟩ := notWorks
  cases activity with
  | adding caller created point =>
      rw [Account.ofActivity_adding]
      have isPositive := (outstanding_within job).added created
      cases caller with
      | client =>
          simp only [Account.ofCaller]
          split_ifs <;> omega
      | job outer =>
          have isOther : outer ≠ job :=
            of_decide_eq_false notExecutes
          have worthless := (outstanding_within job).running outer
          rw [if_neg isOther] at worthless
          simp only [Account.ofCaller]
          split_ifs <;> omega
  | executing run =>
      have isOther : run ≠ job :=
        of_decide_eq_false notExecutes
      have worthless := (outstanding_within job).running run
      rwa [if_neg isOther] at worthless
  | handing run =>
      have isOther : run ≠ job :=
        of_decide_eq_false notHands
      have worthless := (outstanding_within job).worth run
      rwa [if_neg isOther] at worthless
  | outside | waiting _ | collecting _ _ | sending _ | joining _ | tearing
  | taking | exited =>
      exact Int.le_refl 0

/-- A job with a positive account is somewhere. -/
theorem somewhere_of_outstanding
    (positive : 0 < (outstanding (· == job)).balance view) :
    some job ∈ view.queued ∨
      (∃ thread, (view.activity thread).works job = true) ∨
      job ∈ view.done := by
  by_contra nowhere
  rw [not_or, not_or, not_exists] at nowhere
  obtain ⟨notQueued, nobodyWorks, notDone⟩ := nowhere
  have ofThreads :
      total (outstanding (· == job)).ofActivity view.activity ≤ 0 := by
    apply Finset.sum_nonpos
    exact fun thread _ =>
      outstanding_of_not_works (Bool.eq_false_iff.mpr (nobodyWorks thread))
  have ofQueued := (outstanding_within job).ofQueued view.queued
  have ofDone := (outstanding_within job).ofDone view.done
  rw [List.count_eq_zero_of_not_mem notQueued] at ofQueued
  rw [List.count_eq_zero_of_not_mem notDone] at ofDone
  rw [Account.balance] at positive
  omega

/-- A job that was counted and not collected has a positive account. -/
theorem outstanding_pos
    (isAdded : job ∈ addedJobs past)
    (notCollected : job ∉ collectedJobs past) :
    0 < (outstanding (· == job)).sum past := by
  have added : 0 < (addedJobs past).count job :=
    List.count_pos_iff.mpr isAdded
  have collected : (collectedJobs past).count job = 0 :=
    List.count_eq_zero_of_not_mem notCollected
  rw [outstanding_sum]
  simp only [List.count] at added collected
  omega

/-- A refused put of a worker is a step of a worker that hands a job over. -/
theorem RefusedMove.handing
    (refused : RefusedMove view label event next)
    {worker : Fin k}
    {code : Ch.ChEvent}
    (isHanded : event = .handed worker code) :
    ∃ job choice,
      view.activity worker = .handing job ∧ label = .go worker choice := by
  cases refused with
  | @hand thread job choice isAt =>
      cases isHanded
      exact ⟨job, choice, isAt, rfl⟩
  | _ =>
      cases isHanded

/-- A move keeps the accounts of the jobs. -/
theorem View.Keeps.move
    (keeps : view.Keeps past)
    (move : PoolMove view label event next) :
    next.Keeps (past ++ [event]) where
  roles thread := by
    rw [move.isWorker, move.numThreads]
    exact keeps.roles thread
  balances account := by
    rw [move.balances, keeps.balances, Account.sum_concat]
  toBeWaited := by
    rw [move.toBeWaited, keeps.toBeWaited, Account.sum_concat]

/-- A refused step that drops no job keeps the accounts of the jobs. -/
theorem View.Keeps.refused
    (keeps : view.Keeps past)
    (refused : RefusedMove view label event next)
    (notHanded : ∀ worker code, event ≠ .handed worker code) :
    next.Keeps (past ++ [event]) where
  roles thread := by
    rw [refused.isWorker, refused.numThreads]
    exact keeps.roles thread
  balances account := by
    rw [refused.balances notHanded, keeps.balances, Account.sum_concat]
  toBeWaited := by
    rw [refused.toBeWaited, keeps.toBeWaited, Account.sum_concat]

/-- When something is to be waited for, some job is somewhere. -/
theorem View.Keeps.someWork
    (keeps : view.Keeps past)
    (waits : 0 < view.toBeWaited) :
    view.queued ≠ [] ∨
      (∃ thread, (view.activity thread).isExecuting = true ∨
        (view.activity thread).isHanding = true) ∨
      view.done ≠ [] := by
  by_contra nothing
  rw [not_or, not_or, not_not, not_not] at nothing
  obtain ⟨noneQueued, nobodyWorks, noneDone⟩ := nothing
  have balance := outstanding_balance_counts view
  have noneExecutes : tally Activity.isExecuting view.activity = 0 :=
    tally_eq_zero fun thread =>
      Bool.eq_false_iff.mpr fun executes => nobodyWorks ⟨thread, .inl executes⟩
  have noneHands : tally Activity.isHanding view.activity = 0 :=
    tally_eq_zero fun thread =>
      Bool.eq_false_iff.mpr fun hands => nobodyWorks ⟨thread, .inr hands⟩
  rw [noneExecutes, noneHands, noneQueued, noneDone, keeps.balances,
    ← keeps.toBeWaited] at balance
  simp at balance
  omega

end Worth

section Runs

variable {k : Nat} {pool : Pool k} {past : List (PoolEvent k)}
  {queued : List (Option Nat)} {done : List Nat} {job : Nat}

/-- What the pool's lists hold, its channels hold. -/
theorem holdsJob_queued
    (stands : Stands pool.granting queued done)
    (isQueued : some job ∈ queued) :
    holdsJob pool.inQueue job := by
  have blocks :
      pool.inQueue.ch.blocks =
        (queued.map entryPointer).map Ch.ElemBlock.pointer := by
    rw [← Ch.blocks_granting]
    exact stands.inQueue.blocks
  rw [holdsJob, blocks]
  exact List.mem_map_of_mem
    (List.mem_map_of_mem isQueued : entryPointer (some job) ∈ _)

/-- A finished job is in the completion queue. -/
theorem holdsJob_done
    (stands : Stands pool.granting queued done)
    (isDone : job ∈ done) :
    holdsJob pool.waitQueue job := by
  have blocks :
      pool.waitQueue.ch.blocks =
        (done.map jobPointer).map Ch.ElemBlock.pointer := by
    rw [← Ch.blocks_granting]
    exact stands.waitQueue.blocks
  rw [holdsJob, blocks]
  exact List.mem_map_of_mem (List.mem_map_of_mem isDone)

/-- Nobody waits in vain in a pool that keeps its jobs. -/
theorem not_stuck_of_keeps
    (stands : Stands pool.granting queued done)
    (keeps : (pool.view queued done).Keeps past) :
    ¬ pool.Stuck := by
  intro stuck
  rcases keeps.someWork stuck.waits with
    someQueued | ⟨worker, works⟩ | someDone
  · have count : pool.inQueue.ch.count = (queued.map entryPointer).length :=
      stands.inQueue.count
    rw [stuck.noneQueued, List.length_map] at count
    exact someQueued (List.eq_nil_of_length_eq_zero
      (Int.natCast_eq_zero.mp count.symm))
  · have isWorker : (pool.activity worker).isWorker = true := by
      cases isAt : pool.activity worker with
      | adding caller created point =>
          simp only [Pool.view, isAt] at works
          cases caller with
          | client =>
              simp [Activity.isExecuting, Activity.isHanding] at works
          | job outer =>
              rfl
      | executing _ | handing _ | taking | exited =>
          rfl
      | _ =>
          simp [Pool.view, isAt, Activity.isExecuting, Activity.isHanding]
            at works
    rcases stuck.idle worker ((keeps.roles worker).mp isWorker) with
      isAt | isAt <;>
    simp [Pool.view, isAt, Activity.isExecuting, Activity.isHanding] at works
  · have count : pool.waitQueue.ch.count = (done.map jobPointer).length :=
      stands.waitQueue.count
    rw [stuck.noneFinished, List.length_map] at count
    exact someDone (List.eq_nil_of_length_eq_zero
      (Int.natCast_eq_zero.mp count.symm))

/-- A pool whose accounts balance keeps its jobs. -/
theorem keepsJobs_of_keeps
    (stands : Stands pool.granting queued done)
    (keeps : (pool.view queued done).Keeps past) :
    pool.KeepsJobs past where
  counted := by
    have counted := keeps.toBeWaited
    simp only [outstanding_sum, List.countP_true] at counted
    exact counted
  kept job isAdded notCollected := by
    have positive := outstanding_pos isAdded notCollected
    rw [← keeps.balances] at positive
    rcases somewhere_of_outstanding positive with isQueued | works | isDone
    · exact .inl (holdsJob_queued stands isQueued)
    · exact .inr (.inl works)
    · exact .inr (.inr (holdsJob_done stands isDone))
  notStuck :=
    not_stuck_of_keeps stands keeps

/-- A new pool has no jobs. -/
theorem thpCreate_keeps
    (numThreads clients : Nat)
    (jobGrants inGrants waitGrants : Nat → Bool) :
    ((thpCreate numThreads clients jobGrants inGrants waitGrants).view
      [] []).Keeps [] :=
  ⟨(start_staffed numThreads clients).roles,
    (start_recorded numThreads clients).balances, rfl⟩

/-- A step that drops no job keeps the accounts. -/
theorem poolStep_keeps
    {label : PoolLabel k}
    (stands : Stands pool.granting queued done)
    (keeps : (pool.view queued done).Keeps past)
    (granted : pool.grantsHand label = true) :
    ∃ next event,
      poolStep pool label = .ok (next, event) ∧
        ∃ nextQueued nextDone,
          Stands next.granting nextQueued nextDone ∧
            (next.view nextQueued nextDone).Keeps (past ++ [event]) := by
  obtain ⟨next, event, nextQueued, nextDone, steps, goes, nextStands⟩ :=
    poolStep_goes stands label
  refine ⟨next, event, steps, nextQueued, nextDone, nextStands, ?_⟩
  rcases goes with move | ⟨notGranted, refused⟩
  · exact keeps.move move
  · refine keeps.refused refused ?_
    intro worker code isHanded
    obtain ⟨job, choice, isAt, rfl⟩ := refused.handing isHanded
    have isHanding : pool.activity worker = .handing job :=
      isAt
    simp only [Pool.grantsHand, Pool.grantsStep, isHanding] at granted notGranted
    exact Bool.false_ne_true (notGranted.symm.trans granted)

end Runs

/--
In every run of a pool in which the puts that hand jobs over are granted their
memory, whatever else is refused, `to_be_waited` counts the jobs not collected,
each of them is queued, run or finished, and nobody waits in vain.
-/
theorem jobs_are_kept
    (numThreads clients : Nat)
    (jobGrants inGrants waitGrants : Nat → Bool)
    (labels : List (PoolLabel (numThreads + clients)))
    (granted :
      AlwaysAllowed (StepOf poolStep)
        (fun pool label => pool.grantsHand label = true)
        (thpCreate numThreads clients jobGrants inGrants waitGrants) labels) :
    ∃ pool events,
      runCalls poolStep
          (thpCreate numThreads clients jobGrants inGrants waitGrants) labels =
          .ok (pool, events) ∧
        pool.KeepsJobs events := by
  obtain ⟨pool, events, runs, queued, done, stands, keeps⟩ :=
    @runCalls_records _ _ _ poolStep
      (fun pool label => pool.grantsHand label = true)
      (fun pool past =>
        ∃ queued done,
          Stands pool.granting queued done ∧
            (pool.view queued done).Keeps past)
      (by
        rintro pool past label ⟨queued, done, stands, keeps⟩ isGranted
        exact poolStep_keeps stands keeps isGranted)
      (thpCreate numThreads clients jobGrants inGrants waitGrants) []
      ⟨[], [], thpCreate_stands _ _ _ _ _, thpCreate_keeps _ _ _ _ _⟩
      labels granted
  exact ⟨pool, events, runs, keepsJobs_of_keeps stands keeps⟩

/--
The first `thp_add` is refused its element, the second is not, and its job is
run, handed over and collected.
-/
theorem jobs_are_kept_refused_add :
    ∃ pool events,
      runCalls poolStep
          (thpCreate 1 1 (fun _ => true) (fun request => request ≠ 0)
            fun _ => true)
          [.add 1 3 4, .go 1 0, .go 1 0, .add 1 3 4, .go 1 0, .go 1 0, .go 1 0,
            .go 1 0, .go 0 0, .finish 0, .go 0 0, .wait 1, .go 1 0, .go 1 0,
            .go 1 0] =
          .ok (pool, events) ∧
        pool.KeepsJobs events := by
  apply jobs_are_kept 1 1
  iterate 15 refine AlwaysAllowed.step rfl (by rfl) ?_
  trivial

/--
The worker is refused the element for its finished job: the job is nowhere, and
its waiter waits for a completion queue that nobody fills.
-/
theorem refused_hand_loses_job :
    ∃ pool events,
      runCalls poolStep
          (thpCreate 1 1 (fun _ => true) (fun _ => true) fun _ => false)
          [.add 1 3 4, .go 1 0, .go 1 0, .go 1 0, .go 1 0, .go 0 0, .finish 0,
            .go 0 0, .wait 1, .go 1 0, .go 1 0] =
          .ok (pool, events) ∧
        ¬ pool.keeps 0 ∧
        pool.Stuck ∧
        ¬ pool.KeepsJobs events := by
  refine ⟨_, _, rfl, ?_, ?isStuck, fun keepsJobs => keepsJobs.notStuck ?isStuck⟩
  · rintro (isQueued | ⟨thread, works⟩ | isFinished)
    · cases isQueued
    · revert works
      revert thread
      decide
    · cases isFinished
  · exact ⟨⟨1, rfl⟩, by decide, rfl, rfl, by decide⟩

end Clibs.Thp
