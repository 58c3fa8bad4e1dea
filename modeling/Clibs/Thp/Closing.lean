import Mathlib.Data.List.ReduceOption
import Clibs.Thp.Conservation

namespace Clibs.Thp

/-!
# A pool that is being destroyed

Once `thp_destroy` runs and nobody else is inside the library, the input queue
holds the jobs that are left and behind them the markers, one for each that was
sent and that no worker has consumed.  A worker that has consumed one shows that
no job is left in the queue, so when all workers are joined the queue is empty.
Each move lowers the work that is left to do.
-/

/-- The thread is outside the library, or a worker in its loop. -/
def Activity.isQuiet : Activity → Bool
  | .outside =>
      true
  | .taking =>
      true
  | .executing _ =>
      true
  | .handing _ =>
      true
  | .exited =>
      true
  | _ =>
      false

/-- The label makes a call of a function of the library. -/
def PoolLabel.calls
    {k : Nat} : PoolLabel k → Bool
  | .add _ _ _ =>
      true
  | .wait _ =>
      true
  | .destroy _ =>
      true
  | _ =>
      false

/-- Where a thread is in `thp_destroy`. -/
inductive Activity.Destroys
    (numThreads : Nat) : Activity → Prop where
  | sending
      {sent : Nat} :
      sent ≤ numThreads →
      Destroys numThreads (.sending sent)
  | joining
      {joined : Nat} :
      joined ≤ numThreads →
      Destroys numThreads (.joining joined)
  | waiting :
      Destroys numThreads (.waiting true)
  | collecting
      {count : Int} :
      Destroys numThreads (.collecting true count)
  | tearing :
      Destroys numThreads .tearing

/-- How many markers `thp_destroy` has sent. -/
def Activity.markersSent
    (numThreads : Nat) : Activity → Nat
  | .sending sent =>
      sent
  | _ =>
      numThreads

/-- How many workers `thp_destroy` has joined. -/
def Activity.workersJoined
    (numThreads : Nat) : Activity → Nat
  | .sending _ =>
      0
  | .joining joined =>
      joined
  | _ =>
      numThreads

/-- The pool is being destroyed by the thread. -/
structure View.Closing
    {k : Nat}
    (view : View k)
    (destroyer : Fin k) : Prop where
  quiet :
    ∀ thread,
      thread ≠ destroyer →
      (view.activity thread).isQuiet = true
  destroys : (view.activity destroyer).Destroys view.numThreads
  queue :
    ∃ jobs markers,
      view.queued = jobs.map some ++ List.replicate markers none ∧
        markers + tally Activity.isExited view.activity =
          (view.activity destroyer).markersSent view.numThreads ∧
        (0 < tally Activity.isExited view.activity → jobs = [])
  joined :
    ∀ thread,
      thread.val <
        (view.activity destroyer).workersJoined view.numThreads →
      (view.activity thread).isExited = true
  torn : view.activity destroyer = .tearing → view.toBeWaited = 0

/-- The work that a thread of a pool that is being destroyed has before it. -/
def Activity.work
    (numThreads : Nat) : Activity → Nat
  | .executing _ =>
      3
  | .handing _ =>
      2
  | .sending sent =>
      5 * (numThreads - sent) + numThreads + 4
  | .joining joined =>
      numThreads - joined + 3
  | .waiting _ =>
      2
  | .collecting _ _ =>
      1
  | _ =>
      0

/-- The work that is left in a pool that is being destroyed. -/
def View.work
    {k : Nat}
    (view : View k) : Nat :=
  total (Activity.work view.numThreads) view.activity +
    4 * view.queued.length + view.done.length

section Closing

variable {k : Nat} {view next : View k} {label : PoolLabel k}
  {past : List (PoolEvent k)} {event : PoolEvent k} {destroyer : Fin k}

/-- Who is not quiet destroys the pool. -/
theorem View.Closing.isDestroyer
    (closing : view.Closing destroyer)
    (thread : Fin k)
    (notQuiet : (view.activity thread).isQuiet = false) :
    thread = destroyer := by
  by_contra isOther
  cases notQuiet.symm.trans (closing.quiet thread isOther)

/-- The destroyer is not quiet. -/
theorem Activity.Destroys.notQuiet
    {numThreads : Nat}
    {activity : Activity}
    (destroys : activity.Destroys numThreads) :
    activity.isQuiet = false := by
  cases destroys <;> rfl

/-- Nobody adds a job to a pool that is being destroyed. -/
theorem View.Closing.notAdding
    (closing : view.Closing destroyer)
    {thread : Fin k}
    {caller : Caller}
    {job : Nat}
    {point : AddPoint} :
    view.activity thread ≠ .adding caller job point := by
  intro isAt
  have destroys := closing.destroys
  rw [← closing.isDestroyer thread (by rw [isAt]; rfl), isAt]
    at destroys
  cases destroys

/-- A quiet thread goes on quietly, without leaving its loop. -/
theorem View.Closing.goOn
    {base : View k}
    (closing : view.Closing destroyer)
    {thread : Fin k}
    {own : Activity}
    (wasQuiet : (view.activity thread).isQuiet = true)
    (isQuiet : own.isQuiet = true)
    (wasInside : (view.activity thread).isExited = false)
    (isInside : own.isExited = false)
    (sameActivity : base.activity = view.activity)
    (sameThreads : base.numThreads = view.numThreads)
    (sameCounter : base.toBeWaited = view.toBeWaited)
    (queue :
      ∀ jobs markers,
        view.queued = jobs.map some ++ List.replicate markers none →
        (0 < tally Activity.isExited view.activity → jobs = []) →
        ∃ left,
          base.queued = left.map some ++ List.replicate markers none ∧
            (0 < tally Activity.isExited view.activity → left = [])) :
    (base.goOn thread own).Closing destroyer := by
  have isOther : thread ≠ destroyer := by
    intro isDestroyer
    rw [isDestroyer, closing.destroys.notQuiet] at wasQuiet
    cases wasQuiet
  have sameDestroyer :
      (base.goOn thread own).activity destroyer = view.activity destroyer := by
    simp only [View.goOn, sameActivity, Function.update_of_ne isOther.symm]
  have sameExited :
      tally Activity.isExited (base.goOn thread own).activity =
        tally Activity.isExited view.activity := by
    have moved := tally_update Activity.isExited view.activity thread own
    rw [wasInside, isInside] at moved
    simpa [View.goOn, sameActivity] using moved
  obtain ⟨jobs, markers, isQueued, sum, consumed⟩ := closing.queue
  obtain ⟨left, nowQueued, nowConsumed⟩ := queue jobs markers isQueued consumed
  refine ⟨?_, ?_, ⟨left, markers, nowQueued, ?_, ?_⟩, ?_, ?_⟩
  · intro other otherThan
    by_cases isThread : other = thread
    · subst isThread
      simp only [View.goOn, Function.update_self, isQuiet]
    · simp only [View.goOn, sameActivity, Function.update_of_ne isThread]
      exact closing.quiet other otherThan
  · rw [sameDestroyer]
    simp only [View.goOn, sameThreads]
    exact closing.destroys
  · rw [sameDestroyer, sameExited]
    simp only [View.goOn, sameThreads]
    exact sum
  · rw [sameExited]
    exact nowConsumed
  · intro other isJoined
    rw [sameDestroyer] at isJoined
    simp only [View.goOn, sameThreads] at isJoined
    have hasExited := closing.joined other isJoined
    by_cases isThread : other = thread
    · subst isThread
      cases wasInside.symm.trans hasExited
    · simp only [View.goOn, sameActivity, Function.update_of_ne isThread,
        hasExited]
  · intro isTorn
    rw [sameDestroyer] at isTorn
    simp only [View.goOn, sameCounter]
    exact closing.torn isTorn

/-- A thread that destroys the pool has left no loop. -/
theorem Activity.Destroys.notExited
    {numThreads : Nat}
    {activity : Activity}
    (destroys : activity.Destroys numThreads) :
    activity.isExited = false := by
  cases destroys <;> rfl

/-- The destroyer goes on, and may send a marker or join a worker. -/
theorem View.Closing.destroyerGoesOn
    {base : View k}
    (closing : view.Closing destroyer)
    (sent : Nat)
    {own : Activity}
    (destroys : own.Destroys view.numThreads)
    (sameActivity : base.activity = view.activity)
    (sameThreads : base.numThreads = view.numThreads)
    (queue : base.queued = view.queued ++ List.replicate sent none)
    (markers :
      own.markersSent view.numThreads =
        (view.activity destroyer).markersSent view.numThreads + sent)
    (joined :
      ∀ thread,
        thread.val < own.workersJoined view.numThreads →
        thread.val <
            (view.activity destroyer).workersJoined view.numThreads ∨
          (view.activity thread).isExited = true)
    (torn : own = .tearing → base.toBeWaited = 0) :
    (base.goOn destroyer own).Closing destroyer := by
  have nowAt : (base.goOn destroyer own).activity destroyer = own := by
    simp only [View.goOn, Function.update_self]
  have sameExited :
      tally Activity.isExited (base.goOn destroyer own).activity =
        tally Activity.isExited view.activity := by
    have moved := tally_update Activity.isExited view.activity destroyer own
    rw [closing.destroys.notExited, destroys.notExited] at moved
    simpa [View.goOn, sameActivity] using moved
  have sameOther :
      ∀ other,
        other ≠ destroyer →
        (base.goOn destroyer own).activity other = view.activity other := by
    intro other isOther
    simp only [View.goOn, sameActivity, Function.update_of_ne isOther]
  obtain ⟨jobs, before, isQueued, sum, consumed⟩ := closing.queue
  refine ⟨?_, ?_, ⟨jobs, before + sent, ?_, ?_, ?_⟩, ?_, ?_⟩
  · intro other isOther
    rw [sameOther other isOther]
    exact closing.quiet other isOther
  · rw [nowAt]
    simp only [View.goOn, sameThreads]
    exact destroys
  · simp only [View.goOn, queue, isQueued, List.append_assoc,
      List.replicate_append_replicate]
  · rw [nowAt, sameExited]
    simp only [View.goOn, sameThreads]
    omega
  · rw [sameExited]
    exact consumed
  · intro other isJoined
    rw [nowAt] at isJoined
    simp only [View.goOn, sameThreads] at isJoined
    have hasExited : (view.activity other).isExited = true := by
      rcases joined other isJoined with earlier | isExited
      · exact closing.joined other earlier
      · exact isExited
    have isOther : other ≠ destroyer := by
      rintro rfl
      cases closing.destroys.notExited.symm.trans hasExited
    rw [sameOther other isOther]
    exact hasExited
  · rw [nowAt]
    exact torn

/-- The destroyer goes on in its `thp_wait`. -/
theorem View.Closing.destroyerWaits
    {base : View k}
    (closing : view.Closing destroyer)
    {own : Activity}
    (destroys : own.Destroys view.numThreads)
    (sameActivity : base.activity = view.activity)
    (sameThreads : base.numThreads = view.numThreads)
    (sameQueue : base.queued = view.queued)
    (sameMarkers :
      own.markersSent view.numThreads =
        (view.activity destroyer).markersSent view.numThreads)
    (sameJoined :
      own.workersJoined view.numThreads =
        (view.activity destroyer).workersJoined view.numThreads)
    (torn : own = .tearing → base.toBeWaited = 0) :
    (base.goOn destroyer own).Closing destroyer :=
  closing.destroyerGoesOn 0 destroys sameActivity sameThreads
    (by simp [sameQueue]) sameMarkers
    (fun _ isJoined => .inl (sameJoined ▸ isJoined)) torn

/-- A worker consumes a marker and leaves its loop. -/
theorem View.Closing.exits
    {thread : Fin k}
    {rest : List (Option Nat)}
    (closing : view.Closing destroyer)
    (isAt : view.activity thread = .taking)
    (isQueued : view.queued = none :: rest) :
    ({ view with queued := rest }.goOn thread .exited).Closing destroyer := by
  have isOther : thread ≠ destroyer := by
    rintro rfl
    have destroys := closing.destroys
    rw [isAt] at destroys
    cases destroys
  have sameDestroyer :
      ({ view with queued := rest }.goOn thread .exited).activity destroyer =
        view.activity destroyer := by
    simp only [View.goOn, Function.update_of_ne isOther.symm]
  have moreExited :
      tally Activity.isExited
          ({ view with queued := rest }.goOn thread .exited).activity =
        tally Activity.isExited view.activity + 1 := by
    have moved := tally_update Activity.isExited view.activity thread .exited
    rw [isAt] at moved
    exact moved
  obtain ⟨jobs, markers, split, sum, consumed⟩ := closing.queue
  have noJobs : jobs = [] := by
    cases jobs with
    | nil =>
        rfl
    | cons job jobs =>
        rw [isQueued] at split
        cases split
  subst noJobs
  cases markers with
  | zero =>
      rw [isQueued] at split
      cases split
  | succ markers =>
      rw [isQueued] at split
      have isRest : rest = List.replicate markers none :=
        (List.cons.inj split).2
      refine ⟨?_, ?_, ⟨[], markers, isRest, ?_, fun _ => rfl⟩, ?_, ?_⟩
      · intro other otherThan
        by_cases isThread : other = thread
        · subst isThread
          simp only [View.goOn, Function.update_self, Activity.isQuiet]
        · simp only [View.goOn, Function.update_of_ne isThread]
          exact closing.quiet other otherThan
      · rw [sameDestroyer]
        exact closing.destroys
      · rw [sameDestroyer, moreExited]
        simp only [View.goOn]
        omega
      · intro other isJoined
        rw [sameDestroyer] at isJoined
        have hasExited := closing.joined other isJoined
        by_cases isThread : other = thread
        · subst isThread
          simp only [View.goOn, Function.update_self, Activity.isExited]
        · simp only [View.goOn, Function.update_of_ne isThread, hasExited]
      · rw [sameDestroyer]
        exact closing.torn

/-- Every move without a call keeps the pool closing. -/
theorem View.Closing.move
    (closing : view.Closing destroyer)
    (staffed : view.Staffed past)
    (move : PoolMove view label event next)
    (noCall : label.calls = false) :
    next.Closing destroyer := by
  cases move with
  | still =>
      exact closing
  | addStart _ | waitCall _ | destroyCall _ =>
      cases noCall
  | addLock isAt _ | addPut isAt | addCount isAt | addRead isAt =>
      exact (closing.notAdding isAt).elim
  | @waitRefused thread destroys _ isAt isFree isRunning =>
      obtain ⟨collector, _, _, collects⟩ := staffed.running isRunning
      have isDestroyer :=
        closing.isDestroyer thread (by rw [isAt]; rfl)
      have alsoDestroyer :=
        closing.isDestroyer collector (by rw [collects]; rfl)
      rw [alsoDestroyer, ← isDestroyer, isAt] at collects
      cases collects
  | @waitNothing thread destroys _ isAt isFree _ nothing =>
      cases closing.isDestroyer thread (by rw [isAt]; rfl)
      have isDestroying := closing.destroys
      rw [isAt] at isDestroying
      cases isDestroying
      exact closing.destroyerWaits .tearing rfl rfl rfl (by rw [isAt]; rfl)
        (by rw [isAt]; rfl) fun _ => nothing
  | @waitLoop thread destroys _ isAt _ _ _ =>
      cases closing.isDestroyer thread (by rw [isAt]; rfl)
      have isDestroying := closing.destroys
      rw [isAt] at isDestroying
      cases isDestroying
      exact closing.destroyerWaits .collecting rfl rfl rfl (by rw [isAt]; rfl)
        (by rw [isAt]; rfl) fun impossible => nomatch impossible
  | @waitDone thread destroys count _ isAt nothing =>
      cases closing.isDestroyer thread (by rw [isAt]; rfl)
      have isDestroying := closing.destroys
      rw [isAt] at isDestroying
      cases isDestroying
      exact closing.destroyerWaits .tearing rfl rfl rfl (by rw [isAt]; rfl)
        (by rw [isAt]; rfl) fun _ => nothing
  | @collect thread destroys count _ _ _ isAt _ =>
      cases closing.isDestroyer thread (by rw [isAt]; rfl)
      have isDestroying := closing.destroys
      rw [isAt] at isDestroying
      cases isDestroying
      exact closing.destroyerWaits .collecting rfl rfl rfl (by rw [isAt]; rfl)
        (by rw [isAt]; rfl) fun impossible => nomatch impossible
  | take isAt isQueued =>
      refine closing.goOn (by rw [isAt]; rfl) rfl (by rw [isAt]; rfl) rfl rfl rfl
        rfl ?_
      intro jobs markers split consumed
      rw [isQueued] at split
      cases jobs with
      | nil =>
          cases markers <;> cases split
      | cons first jobs =>
          refine ⟨jobs, (List.cons.inj split).2, ?_⟩
          intro someExited
          cases consumed someExited
  | exit isAt isQueued =>
      exact closing.exits isAt isQueued
  | finish isAt | hand isAt =>
      exact closing.goOn (by rw [isAt]; rfl) rfl (by rw [isAt]; rfl) rfl rfl rfl
        rfl fun jobs markers split consumed => ⟨jobs, split, consumed⟩
  | @send thread sent _ isAt isFewer =>
      cases closing.isDestroyer thread (by rw [isAt]; rfl)
      refine closing.destroyerGoesOn 1 (.sending isFewer) rfl rfl rfl ?_
        ?_ fun impossible => nomatch impossible
      · rw [isAt]
        rfl
      · intro other isJoined
        exact (Nat.not_lt_zero _ isJoined).elim
  | @sent thread sent _ isAt isEnough =>
      cases closing.isDestroyer thread (by rw [isAt]; rfl)
      have isDestroying := closing.destroys
      rw [isAt] at isDestroying
      cases isDestroying with
      | sending isFewer =>
          refine closing.destroyerGoesOn 0
            (.joining (Nat.zero_le _)) rfl rfl (by simp) ?_ ?_
            fun impossible => nomatch impossible
          · rw [isAt]
            exact Nat.le_antisymm isEnough isFewer
          · intro other isJoined
            exact (Nat.not_lt_zero _ isJoined).elim
  | @join thread joined _ isAt isFewer hasExited =>
      cases closing.isDestroyer thread (by rw [isAt]; rfl)
      refine closing.destroyerGoesOn 0 (.joining isFewer) rfl rfl
        (by simp) ?_ ?_ fun impossible => nomatch impossible
      · rw [isAt]
        rfl
      · intro other isJoined
        rw [isAt]
        rcases Nat.lt_succ_iff_lt_or_eq.mp isJoined with earlier | isLast
        · exact .inl earlier
        · obtain ⟨inRange, isExited⟩ := hasExited
          have same : (⟨joined, inRange⟩ : Fin k) = other :=
            Fin.ext isLast.symm
          rw [same] at isExited
          exact .inr (by rw [isExited]; rfl)
  | @joined thread joined _ isAt isEnough =>
      cases closing.isDestroyer thread (by rw [isAt]; rfl)
      refine closing.destroyerGoesOn 0 .waiting rfl rfl (by simp) ?_ ?_
        fun impossible => nomatch impossible
      · rw [isAt]
        rfl
      · intro other isJoined
        rw [isAt]
        exact .inl (Nat.lt_of_lt_of_le isJoined isEnough)

/-- A queue without markers is the jobs in it. -/
theorem map_some_reduceOption
    {queued : List (Option Nat)}
    (noMarker : none ∉ queued) :
    queued.reduceOption.map some = queued := by
  induction queued with
  | nil =>
      rfl
  | cons entry rest inductionHypothesis =>
      rw [List.mem_cons, not_or] at noMarker
      cases entry with
      | none =>
          exact (noMarker.1 rfl).elim
      | some job =>
          rw [List.reduceOption_cons_of_some, List.map_cons,
            inductionHypothesis noMarker.2]

/-- A pool that is open and quiet is closing once `thp_destroy` is called. -/
theorem View.Open.closing
    (isOpen : view.Open)
    (quiet : ∀ thread, (view.activity thread).isQuiet = true)
    (destroyer : Fin k) :
    (view.goOn destroyer (.sending 0)).Closing destroyer := by
  have nobodyExited : ∀ thread, (view.activity thread).isExited = false := by
    intro thread
    have notClosing := isOpen.threads thread
    cases isAt : view.activity thread with
    | exited =>
        rw [isAt] at notClosing
        cases notClosing
    | _ =>
        rfl
  have noneExited :
      tally Activity.isExited (view.goOn destroyer (.sending 0)).activity =
        0 :=
    tally_eq_zero (View.goOn_nobody nobodyExited rfl)
  have nowAt :
      (view.goOn destroyer (.sending 0)).activity destroyer = .sending 0 := by
    simp only [View.goOn, Function.update_self]
  refine ⟨?_, ?_, ?_, ?_, ?_⟩
  · intro other isOther
    simp only [View.goOn, Function.update_of_ne isOther]
    exact quiet other
  · rw [nowAt]
    exact .sending (Nat.zero_le _)
  · refine ⟨view.queued.reduceOption, 0, ?_, ?_, ?_⟩
    · rw [List.replicate_zero, List.append_nil]
      exact (map_some_reduceOption isOpen.markers).symm
    · rw [nowAt, noneExited]
      rfl
    · intro someExited
      rw [noneExited] at someExited
      cases someExited
  · intro other isJoined
    rw [nowAt] at isJoined
    exact (Nat.not_lt_zero _ isJoined).elim
  · intro isTorn
    rw [nowAt] at isTorn
    cases isTorn

/-- As many workers have left their loops as there are workers that have. -/
theorem View.Staffed.exited_le
    (staffed : view.Staffed past) :
    tally Activity.isExited view.activity ≤ view.numThreads := by
  rw [← staffed.crew]
  apply List.countP_mono_left
  intro thread _ isExited
  cases isAt : view.activity thread with
  | exited =>
      rfl
  | _ =>
      rw [isAt] at isExited
      cases isExited

/-- Once all workers are joined, all of them have left their loops. -/
theorem View.Staffed.all_exited
    (staffed : view.Staffed past)
    (exited :
      ∀ thread,
        thread.val < view.numThreads →
        (view.activity thread).isExited = true) :
    tally Activity.isExited view.activity = view.numThreads := by
  apply Nat.le_antisymm staffed.exited_le
  rw [← staffed.crew]
  apply List.countP_mono_left
  intro thread _ isWorker
  exact exited thread ((staffed.roles thread).mp isWorker)

/-- Once all workers are joined, nothing is left in the input queue. -/
theorem View.Closing.queue_empty
    (closing : view.Closing destroyer)
    (staffed : view.Staffed past)
    (someWorker : 0 < view.numThreads)
    (allSent :
      (view.activity destroyer).markersSent view.numThreads = view.numThreads)
    (allJoined :
      (view.activity destroyer).workersJoined view.numThreads =
        view.numThreads) :
    view.queued = [] := by
  have allExited :=
    staffed.all_exited fun thread isWorker =>
      closing.joined thread (by rw [allJoined]; exact isWorker)
  obtain ⟨jobs, markers, isQueued, sum, consumed⟩ := closing.queue
  rw [allExited, allSent] at sum
  rw [allExited] at consumed
  have noMarkers : markers = 0 := by
    omega
  rw [isQueued, consumed someWorker, noMarkers]
  rfl

/-- A move of a thread changes the work by its own. -/
theorem work_goOn
    {base : View k}
    {thread : Fin k}
    {own : Activity}
    (sameActivity : base.activity = view.activity)
    (sameThreads : base.numThreads = view.numThreads)
    (less :
      own.work view.numThreads + 4 * base.queued.length + base.done.length <
        (view.activity thread).work view.numThreads +
          4 * view.queued.length + view.done.length) :
    (base.goOn thread own).work < view.work := by
  have moved :=
    total_update (Activity.work view.numThreads) view.activity thread own
  simp only [View.work, View.goOn, sameActivity, sameThreads]
  omega

/-- Every move without a call lowers the work, or does nothing. -/
theorem View.Closing.work_move
    (closing : view.Closing destroyer)
    (move : PoolMove view label event next)
    (noCall : label.calls = false) :
    event = .nothing ∧ next = view ∨ next.work < view.work := by
  cases move with
  | still =>
      exact .inl ⟨rfl, rfl⟩
  | addStart _ | waitCall _ | destroyCall _ =>
      cases noCall
  | addLock isAt _ | addPut isAt | addCount isAt | addRead isAt =>
      exact (closing.notAdding isAt).elim
  | @waitRefused _ destroys _ isAt _ _ | @waitNothing _ destroys _ isAt _ _ _
  | @waitDone _ destroys _ _ isAt _ =>
      refine .inr (work_goOn rfl rfl ?_)
      rw [isAt]
      cases destroys <;> simp [afterWait, Activity.work]
  | waitLoop isAt _ _ _ | finish isAt =>
      refine .inr (work_goOn rfl rfl ?_)
      simp [isAt, Activity.work]
  | collect isAt isDone =>
      refine .inr (work_goOn rfl rfl ?_)
      simp [isAt, isDone, Activity.work]
  | take isAt isQueued | exit isAt isQueued =>
      refine .inr (work_goOn rfl rfl ?_)
      rw [isAt, isQueued, List.length_cons]
      simp only [Activity.work]
      omega
  | hand isAt =>
      refine .inr (work_goOn rfl rfl ?_)
      rw [isAt, List.length_append, List.length_singleton]
      simp only [Activity.work]
      omega
  | send isAt isFewer =>
      refine .inr (work_goOn rfl rfl ?_)
      rw [isAt, List.length_append, List.length_singleton]
      simp only [Activity.work]
      omega
  | sent isAt isFewer | join isAt isFewer _ | joined isAt isFewer =>
      refine .inr (work_goOn rfl rfl ?_)
      rw [isAt]
      simp only [Activity.work]
      omega

end Closing

end Clibs.Thp
