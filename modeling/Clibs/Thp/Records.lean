import Clibs.Thp.Worth
import Clibs.Thp.Refinement

namespace Clibs.Thp

/-!
# What the past says about the pool

In every run the accounts of the jobs balance with what happened, and a wait
ends when nothing is to be waited for.  So what was added before the last wait
was collected by then, and a thread in the loop of `thp_wait` has counted what
was collected since.
-/

/-- What the past of a run says about the pool. -/
structure View.Recorded
    {k : Nat}
    (view : View k)
    (past : List (PoolEvent k)) : Prop where
  locked : view.Locked
  balances : ∀ account : Account, account.balance view = account.sum past
  placed :
    ∀ job,
      view.copies job + (collectedJobs past).count job =
        if job < view.fresh then 1 else 0
  toBeWaited : view.toBeWaited = (outstanding fun _ => true).sum past
  settled :
    ∀ wanted,
      (outstanding wanted).sum past = (outstanding wanted).sum (sinceWait past)
  collectors :
    ∀ thread job,
      PoolEvent.collected thread job ∈ sinceWait past →
      ∃ destroys count, view.activity thread = .collecting destroys count
  collected :
    ∀ thread destroys count,
      view.activity thread = .collecting destroys count →
      count = (collectedJobs (sinceWait past)).length
  runners :
    ∀ thread job,
      (view.activity thread).executes job = true →
      ∃ run, PoolEvent.started thread job run ∈ past

section Past

variable {k : Nat} {view next : View k} {label : PoolLabel k}
  {past : List (PoolEvent k)} {event : PoolEvent k}

/-- An event that completes no wait. -/
theorem sinceWait_goesOn
    (goesOn : completesWait event = false)
    (past : List (PoolEvent k)) :
    sinceWait (past ++ [event]) = sinceWait past ++ [event] :=
  List.rtakeWhile_concat_pos _ _ _ (by rw [goesOn]; rfl)

/-- An event that completes a wait. -/
theorem sinceWait_completed
    (completes : completesWait event = true)
    (past : List (PoolEvent k)) :
    sinceWait (past ++ [event]) = [] :=
  List.rtakeWhile_concat_neg _ _ _ (by rw [completes]; decide)

/-- One more event, and the jobs it collected. -/
theorem collectedJobs_concat
    (past : List (PoolEvent k))
    (event : PoolEvent k) :
    collectedJobs (past ++ [event]) =
      collectedJobs past ++ collectedOf event := by
  simp [collectedJobs]

/-- A thread in a critical section other than `thp_add` counts no job. -/
theorem View.Locked.nobodyCounts
    (locked : view.Locked)
    (thread : Fin k)
    (held : (view.activity thread).locks = true)
    (isElse : (view.activity thread).counts = false)
    (other : Fin k) :
    (view.activity other).counts = false := by
  cases otherCounts : (view.activity other).counts with
  | false =>
      rfl
  | true =>
      have otherLocks : (view.activity other).locks = true := by
        cases isAt : view.activity other with
        | adding caller job point =>
            rw [isAt] at otherCounts
            cases point <;> first | rfl | cases otherCounts
        | _ =>
            rw [isAt] at otherCounts
            cases otherCounts
      cases locked.alone held otherLocks
      exact otherCounts.symm.trans isElse

/-- While the mutex is free no thread counts a job. -/
theorem View.Locked.freeCounts
    (locked : view.Locked)
    (isFree : view.mutex = none)
    (thread : Fin k) :
    (view.activity thread).counts = false := by
  have outside := locked.nobody isFree thread
  cases isAt : view.activity thread with
  | adding caller job point =>
      rw [isAt] at outside
      cases point <;> first | rfl | cases outside
  | _ =>
      rfl

/-- The pool has nothing left, as its counter says. -/
theorem View.Recorded.drained
    (recorded : view.Recorded past)
    (nobodyCounts : ∀ thread, (view.activity thread).counts = false)
    (nothing : view.toBeWaited = 0)
    (account : Account) :
    account.sum past = 0 := by
  rw [← recorded.balances]
  apply drained_of_outstanding nobodyCounts
  rw [recorded.balances, ← recorded.toBeWaited, nothing]

/-- The number that a completed wait returns is not an error. -/
theorem completesWait_of_length
    {thread : Fin k}
    {count : Int}
    {jobs : List Nat}
    (isLength : count = jobs.length) :
    completesWait (PoolEvent.waited thread count) = true := by
  simp only [completesWait, thpTooManyWait, decide_eq_true_eq, isLength]
  omega

/-- A thread inside the loop of `thp_wait` counts no job, and nobody else does. -/
theorem View.Locked.collectsAlone
    (locked : view.Locked)
    {thread : Fin k}
    {destroys : Bool}
    {count : Int}
    (isAt : view.activity thread = .collecting destroys count)
    (other : Fin k) :
    (view.activity other).counts = false :=
  locked.nobodyCounts thread (by rw [isAt]; rfl) (by rw [isAt]; rfl) other

/-- While the mutex is free, nobody is in the loop of `thp_wait`. -/
theorem View.Locked.nobodyCollects
    (locked : view.Locked)
    (isFree : view.mutex = none)
    {thread : Fin k}
    {destroys : Bool}
    {count : Int} :
    view.activity thread ≠ .collecting destroys count := by
  intro isAt
  have outside := locked.nobody isFree thread
  rw [isAt] at outside
  cases outside

/-- When a wait ends, the past has left nothing in the pool. -/
theorem View.Recorded.ends
    (recorded : view.Recorded past)
    (waits : WaitMove view event next)
    (completes : completesWait event = true)
    (account : Account) :
    account.sum past = 0 := by
  cases waits with
  | quiet goesOn _ _ _ =>
      cases completes.symm.trans goesOn
  | opens _ _ isEvent _ _ _ | collects _ _ _ _ isEvent _ _ _ =>
      rw [isEvent] at completes
      cases completes
  | finds _ _ _ wasFree _ nothing =>
      exact recorded.drained (recorded.locked.freeCounts wasFree) nothing account
  | closes _ _ _ _ isAt _ _ nothing =>
      exact recorded.drained (recorded.locked.collectsAlone isAt) nothing account

/-- An event that completes a wait counts no job, and starts and ends none. -/
theorem change_of_completes
    (completes : completesWait event = true)
    (account : Account) :
    account.change event = 0 := by
  cases event with
  | waited _ _ =>
      rfl
  | _ =>
      cases completes

/-- What was added before the last wait was collected before it. -/
theorem View.Recorded.settled_move
    (recorded : view.Recorded past)
    (waits : WaitMove view event next)
    (wanted : Nat → Bool) :
    (outstanding wanted).sum (past ++ [event]) =
      (outstanding wanted).sum (sinceWait (past ++ [event])) := by
  cases isEnd : completesWait event with
  | false =>
      rw [sinceWait_goesOn isEnd, Account.sum_concat, Account.sum_concat,
        recorded.settled]
  | true =>
      rw [sinceWait_completed isEnd, Account.sum_concat,
        recorded.ends waits isEnd, change_of_completes isEnd]
      rfl

/-- Whoever collected since the last wait is still in its loop. -/
theorem View.Recorded.collectors_move
    (recorded : view.Recorded past)
    (waits : WaitMove view event next)
    {thread : Fin k}
    {job : Nat}
    (member : PoolEvent.collected thread job ∈ sinceWait (past ++ [event])) :
    ∃ destroys count, next.activity thread = .collecting destroys count := by
  cases isEnd : completesWait event with
  | true =>
      rw [sinceWait_completed isEnd] at member
      cases member
  | false =>
      rw [sinceWait_goesOn isEnd, List.mem_append, List.mem_singleton] at member
      cases waits with
      | quiet _ nothing _ same =>
          rcases member with earlier | isLast
          · obtain ⟨destroys, count, isAt⟩ :=
              recorded.collectors thread job earlier
            exact ⟨destroys, count, (same _ _ _).mpr isAt⟩
          · rw [← isLast] at nothing
            cases nothing
      | opens _ _ isEvent _ isFree _ =>
          rcases member with earlier | isLast
          · obtain ⟨_, _, isAt⟩ := recorded.collectors thread job earlier
            exact (recorded.locked.nobodyCollects isFree isAt).elim
          · cases isLast.trans isEvent
      | collects collector destroys count taken isEvent isAt _ activity =>
          have isCollector : thread = collector := by
            rcases member with earlier | isLast
            · obtain ⟨_, _, alsoAt⟩ := recorded.collectors thread job earlier
              exact recorded.locked.alone (by rw [alsoAt]; rfl)
                (by rw [isAt]; rfl)
            · cases isLast.trans isEvent
              rfl
          exact ⟨destroys, count + 1, by
            rw [activity, isCollector, Function.update_self]⟩
      | finds _ isEvent _ _ _ _ =>
          rw [isEvent] at isEnd
          cases isEnd
      | closes collector _ count isEvent isAt _ _ _ =>
          have isLength := recorded.collected _ _ _ isAt
          rw [isEvent, completesWait_of_length isLength] at isEnd
          cases isEnd

/-- A wait counts the jobs that were collected since the last. -/
theorem View.Recorded.collected_move
    (recorded : view.Recorded past)
    (waits : WaitMove view event next)
    (nextLocked : next.Locked)
    {thread : Fin k}
    {destroys : Bool}
    {count : Int}
    (isAt : next.activity thread = .collecting destroys count) :
    count = (collectedJobs (sinceWait (past ++ [event]))).length := by
  cases waits with
  | quiet goesOn nothing _ same =>
      rw [sinceWait_goesOn goesOn, collectedJobs_concat, nothing,
        List.append_nil]
      exact recorded.collected _ _ _ ((same _ _ _).mp isAt)
  | opens opener opens isEvent _ isFree activity =>
      have isOpener : thread = opener := by
        by_contra isOther
        rw [activity, Function.update_of_ne isOther] at isAt
        exact recorded.locked.nobodyCollects isFree isAt
      rw [activity, isOpener, Function.update_self] at isAt
      cases isAt
      have noneCollected : collectedJobs (sinceWait past) = [] := by
        apply List.eq_nil_iff_forall_not_mem.mpr
        intro job member
        obtain ⟨earlier, isEarlier, isJob⟩ := List.mem_flatMap.mp member
        cases earlier with
        | collected collector _ =>
            obtain ⟨_, _, collects⟩ :=
              recorded.collectors collector _ isEarlier
            exact recorded.locked.nobodyCollects isFree collects
        | _ =>
            cases isJob
      rw [isEvent, sinceWait_goesOn rfl, collectedJobs_concat, noneCollected]
      rfl
  | collects collector _ before taken isEvent wasAt _ activity =>
      have isCollector : thread = collector := by
        by_contra isOther
        rw [activity, Function.update_of_ne isOther] at isAt
        exact isOther (recorded.locked.alone (by rw [isAt]; rfl)
          (by rw [wasAt]; rfl))
      rw [activity, isCollector, Function.update_self] at isAt
      cases isAt
      rw [recorded.collected _ _ _ wasAt, isEvent, sinceWait_goesOn rfl,
        collectedJobs_concat, List.length_append]
      simp [collectedOf]
  | finds _ _ _ _ isFree _ | closes _ _ _ _ _ _ isFree _ =>
      exact (nextLocked.nobodyCollects isFree isAt).elim

/-- The caller of `thp_add` goes on with the job it runs. -/
theorem executes_resumes
    (caller : Caller)
    (job : Nat) :
    caller.resumes.executes job = caller.runs job := by
  cases caller <;> rfl

/-- A thread that runs a job ran it before, or has just started it. -/
theorem PoolMove.executes
    (move : PoolMove view label event next)
    {other : Fin k}
    {job : Nat}
    (executes : (next.activity other).executes job = true) :
    (view.activity other).executes job = true ∨
      ∃ run, event = .started other job run := by
  cases move with
  | still =>
      exact .inl executes
  | @take thread started _ _ run _ _ =>
      by_cases isThread : other = thread
      · subst isThread
        simp only [View.goOn, Function.update_self, Activity.executes,
          decide_eq_true_eq] at executes
        exact .inr ⟨run, by rw [executes]⟩
      · simp only [View.goOn, Function.update_of_ne isThread] at executes
        exact .inl executes
  | @addStart _ _ _ caller mayAdd =>
      refine .inl (of_kind_goOn ?_ executes)
      rw [mayAdd.resumes, executes_resumes]
      exact id
  | @addRead _ caller _ _ isAt =>
      refine .inl (of_kind_goOn ?_ executes)
      rw [isAt, executes_resumes]
      exact id
  | addLock isAt _ | addPut isAt | addCount isAt =>
      refine .inl (of_kind_goOn ?_ executes)
      rw [isAt]
      exact id
  | @waitRefused _ destroys _ _ _ _ | @waitNothing _ destroys _ _ _ _ _
  | @waitDone _ destroys _ _ _ _ =>
      refine .inl (of_kind_goOn ?_ executes)
      intro impossible
      cases destroys <;> cases impossible
  | waitCall _ | waitLoop _ _ _ _ | collect _ _ | exit _ _ | finish _ | hand _
  | destroyCall _ | send _ _ | sent _ _ | join _ _ _ | joined _ _ =>
      refine .inl (of_kind_goOn ?_ executes)
      intro impossible
      cases impossible

/-- One more move of the pool, and its event. -/
theorem View.Recorded.move
    (recorded : view.Recorded past)
    (move : PoolMove view label event next) :
    next.Recorded (past ++ [event]) where
  locked :=
    move.locked recorded.locked
  balances account := by
    rw [move.balances, recorded.balances, Account.sum_concat]
  placed job := by
    have moved := move.copies job
    have placed := recorded.placed job
    have older := move.fresh_le
    rw [collectedJobs_concat, List.count_append]
    split_ifs at moved placed ⊢ <;> omega
  toBeWaited := by
    rw [move.toBeWaited, recorded.toBeWaited, Account.sum_concat]
  settled :=
    recorded.settled_move move.waits
  collectors _ _ member :=
    recorded.collectors_move move.waits member
  collected _ _ _ isAt :=
    recorded.collected_move move.waits (move.locked recorded.locked) isAt
  runners thread job executes := by
    rcases move.executes executes with ran | ⟨run, isStart⟩
    · obtain ⟨run, isStarted⟩ := recorded.runners thread job ran
      exact ⟨run, List.mem_append_left _ isStarted⟩
    · exact ⟨run, by simp [isStart]⟩

/-- Jobs gained by events that an account counts are distinct. -/
theorem View.Recorded.nodup
    (recorded : view.Recorded past)
    {account : Nat → Account}
    {gained : PoolEvent k → List Nat}
    (inside : ∀ job, (account job).Within job)
    (counts :
      ∀ job,
        (account job).sum past =
          (past.flatMap gained).countP (· == job) -
            (collectedJobs past).countP (· == job)) :
    (past.flatMap gained).Nodup := by
  rw [List.nodup_iff_count_le_one]
  intro job
  have worth := (inside job).balance_le_copies view
  have placed := recorded.placed job
  rw [recorded.balances, counts] at worth
  simp only [List.count] at placed ⊢
  split_ifs at placed <;> omega

end Past

/-- A new pool has no past. -/
theorem start_recorded
    (numThreads clients : Nat) :
    ((start numThreads clients).view [] []).Recorded [] := by
  have stands := start_stands numThreads clients
  have isFree :
      ∀ thread, ((start numThreads clients).activity thread).isFree = true := by
    intro thread
    simp only [start, thpCreate]
    split <;> rfl
  have outside :
      ∀ thread, ((start numThreads clients).activity thread).locks = false := by
    intro thread
    simp only [start, thpCreate]
    split <;> rfl
  refine ⟨?_, ?_, ?_, rfl, fun _ => rfl, ?_, ?_, ?_⟩
  · intro thread
    rw [Pool.view, outside thread]
    simp [start, thpCreate]
  · intro account
    have ofThreads :
        total account.ofActivity (start numThreads clients).activity = 0 :=
      Finset.sum_eq_zero fun thread _ =>
        account.ofActivity_of_free (isFree thread)
    rw [Account.balance, Pool.view, ofThreads]
    rfl
  · intro job
    exact stands.single.created job (Nat.zero_le job)
  · intro thread job member
    cases member
  · intro thread destroys count isAt
    have notInside :
        (((start numThreads clients).view [] []).activity thread).locks =
          false :=
      outside thread
    rw [isAt] at notInside
    cases notInside
  · intro thread job executes
    have noHolder := stands.single.created job (Nat.zero_le job)
    have isRun : 0 < tally (Activity.executes job) _ :=
      tally_pos thread executes
    rw [View.copies] at noHolder
    omega

end Clibs.Thp
