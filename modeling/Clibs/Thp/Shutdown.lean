import Clibs.Thp.Closing
import Clibs.Thp.Turns

namespace Clibs.Thp

/-!
# `thp_destroy` drains the pool

From the call of `thp_destroy` on some thread always has something to do: the
destroyer itself, or a worker it has not joined yet, or a worker that is on its
way out of `ch_get`.  Such a thread keeps its turn until it takes it, and each
turn lowers the work that is left, so under every fair schedule the pool is torn
down, with every job executed and every worker gone.
-/

open Ch (ThreadState ChEvent)

/-- The pool is being destroyed, its past and its channels known. -/
structure Pool.Shuts
    {k : Nat}
    (pool : Pool k)
    (destroyer : Fin k)
    (past : List (PoolEvent k))
    (queued : List (Option Nat))
    (done : List Nat) : Prop where
  stands : Stands pool queued done
  recorded : (pool.view queued done).Recorded past
  staffed : (pool.view queued done).Staffed past
  closing : (pool.view queued done).Closing destroyer
  someWorker : 0 < pool.numThreads
  outside : pool.waitQueue.threads destroyer = .idle

/-- The work that is left in a pool. -/
def Pool.work
    {k : Nat}
    (pool : Pool k) : Nat :=
  total (Activity.work pool.numThreads) pool.activity +
    4 * pool.inQueue.ch.count.toNat + pool.waitQueue.ch.count.toNat

section Shutdown

variable {k : Nat} {pool next : Pool k} {label : PoolLabel k}
  {event : PoolEvent k} {past : List (PoolEvent k)}
  {queued : List (Option Nat)} {done : List Nat}
  {destroyer thread : Fin k}

/-- The work of a pool is the work that its lists show. -/
theorem Stands.work
    (stands : Stands pool queued done) :
    pool.work = (pool.view queued done).work := by
  have inQueue := stands.inQueue.count
  have waitQueue := stands.waitQueue.count
  rw [List.length_map] at inQueue waitQueue
  rw [Pool.work, inQueue, waitQueue]
  rfl

/-- A thread that destroys the pool has no job. -/
theorem Activity.Destroys.noJob
    {numThreads : Nat}
    {activity : Activity}
    (destroys : activity.Destroys numThreads) :
    activity.counts = false ∧
      activity.isExecuting = false ∧
      activity.isHanding = false := by
  cases destroys <;> exact ⟨rfl, rfl, rfl⟩

/-- Once all workers are joined, every other thread is outside or gone. -/
theorem View.Closing.others
    {view : View k}
    (closing : view.Closing destroyer)
    (staffed : view.Staffed past)
    (allJoined :
      (view.activity destroyer).workersJoined view.numThreads =
        view.numThreads)
    (isOther : thread ≠ destroyer) :
    view.activity thread = .outside ∨ view.activity thread = .exited := by
  have isQuiet := closing.quiet thread isOther
  have exits :
      (view.activity thread).isWorker = true →
      (view.activity thread).isExited = true :=
    fun isWorker =>
      closing.joined thread (by
        rw [allJoined]
        exact (staffed.roles thread).mp isWorker)
  cases isAt : view.activity thread with
  | outside =>
      exact .inl rfl
  | exited =>
      exact .inr rfl
  | taking | executing _ | handing _ =>
      rw [isAt] at exits
      cases exits rfl
  | _ =>
      rw [isAt] at isQuiet
      cases isQuiet

/-- Once all workers are joined, what is to be waited for has run. -/
theorem Pool.Shuts.toBeWaited
    (shuts : pool.Shuts destroyer past queued done)
    (allSent :
      (pool.activity destroyer).markersSent pool.numThreads = pool.numThreads)
    (allJoined :
      (pool.activity destroyer).workersJoined pool.numThreads =
        pool.numThreads) :
    pool.toBeWaited = done.length := by
  have noneQueued : queued = [] :=
    shuts.closing.queue_empty shuts.staffed shuts.someWorker allSent allJoined
  have others :
      ∀ thread,
        thread ≠ destroyer →
        pool.activity thread = .outside ∨ pool.activity thread = .exited :=
    fun thread isOther =>
      shuts.closing.others shuts.staffed allJoined isOther
  have nobody :
      ∀ kind : Activity → Bool,
        kind .outside = false →
        kind .exited = false →
        kind (pool.activity destroyer) = false →
        ∀ thread, kind (pool.activity thread) = false := by
    intro kind notOutside notExited notDestroyer thread
    by_cases isDestroyer : thread = destroyer
    · rw [isDestroyer, notDestroyer]
    · rcases others thread isDestroyer with isAt | isAt <;> rw [isAt]
      · exact notOutside
      · exact notExited
  obtain ⟨countsNone, executesNone, handsNone⟩ := shuts.closing.destroys.noJob
  have notCounting := nobody Activity.counts rfl rfl countsNone
  have noneExecute :=
    tally_eq_zero (nobody Activity.isExecuting rfl rfl executesNone)
  have noneHand :=
    tally_eq_zero (nobody Activity.isHanding rfl rfl handsNone)
  have balance :=
    @outstanding_balance _ (pool.view queued done) notCounting
  rw [shuts.recorded.balances, ← shuts.recorded.toBeWaited] at balance
  simp only [Pool.view, noneQueued, noneExecute, noneHand, List.countP_nil]
    at balance
  omega

/-- Who is in the loop of `thp_wait` was in it, or was about to enter it. -/
theorem PoolMove.collects_from
    {view after : View k}
    (move : PoolMove view label event after)
    (locked : after.Locked)
    {destroys : Bool}
    {count : Int}
    (isAt : after.activity thread = .collecting destroys count) :
    (∃ destroys count, view.activity thread = .collecting destroys count) ∨
      ∃ destroys, view.activity thread = .waiting destroys := by
  have updated :
      ∀ {other own},
        after.activity = Function.update view.activity other own →
        thread = other ∨ view.activity thread = .collecting destroys count := by
    intro other own activity
    by_cases isOther : thread = other
    · exact .inl isOther
    · rw [activity, Function.update_of_ne isOther] at isAt
      exact .inr isAt
  cases move.waits with
  | quiet _ _ _ same =>
      exact .inl ⟨destroys, count, (same _ _ _).mp isAt⟩
  | opens opener opens _ wasAt _ activity =>
      rcases updated activity with rfl | wasCollecting
      · exact .inr ⟨opens, wasAt⟩
      · exact .inl ⟨_, _, wasCollecting⟩
  | collects collector _ _ _ _ wasAt _ activity =>
      rcases updated activity with rfl | wasCollecting
      · exact .inl ⟨_, _, wasAt⟩
      · exact .inl ⟨_, _, wasCollecting⟩
  | finds _ _ _ _ isFree _ | closes _ _ _ _ _ _ isFree _ =>
      exact (locked.nobodyCollects isFree isAt).elim

/-- The loop of `thp_wait` in `thp_destroy` never leaves a thread in its get. -/
theorem Pool.Shuts.collects_outside
    (shuts : pool.Shuts destroyer past queued done)
    {destroys : Bool}
    {count : Int}
    (isAt : pool.activity destroyer = .collecting destroys count)
    {choice : Nat}
    (steps :
      collectStep pool destroyer destroys count choice = .ok (next, event)) :
    next.waitQueue.threads destroyer = .idle ∧ event ≠ .nothing := by
  by_cases nothing : pool.toBeWaited = 0
  · rw [collectStep, if_pos ⟨shuts.outside, nothing⟩] at steps
    cases steps
    exact ⟨shuts.outside, by simp⟩
  · have joinedAll :
        (pool.activity destroyer).markersSent pool.numThreads =
            pool.numThreads ∧
          (pool.activity destroyer).workersJoined pool.numThreads =
            pool.numThreads := by
      rw [isAt]
      exact ⟨rfl, rfl⟩
    have isLength := shuts.toBeWaited joinedAll.1 joinedAll.2
    rw [collectStep, if_neg fun both => nothing both.2] at steps
    cases done with
    | nil =>
        exact (nothing isLength).elim
    | cons job rest =>
        have pipes :
            Ch.Pipes pool.waitQueue (jobPointer job :: rest.map jobPointer) :=
          shuts.stands.waitQueue
        obtain ⟨waitQueue, element, takes, -, threads⟩ :=
          pipes.get_pointer (.inl shuts.outside) choice
        rw [pointerCode_job] at takes
        simp only [takes, Checked.ok_bind, fetched, ↓reduceIte] at steps
        obtain ⟨jobs, -, same⟩ := Checked.bind_eq_ok.mp steps
        cases same
        refine ⟨?_, by simp⟩
        simp only [Pool.goOn, threads, Function.update_self]

/-- The destroyer stays outside the completion queue between its turns. -/
theorem Pool.Shuts.outside_step
    (shuts : pool.Shuts destroyer past queued done)
    (steps : poolStep pool label = .ok (next, event))
    {nextQueued : List (Option Nat)}
    {nextDone : List Nat}
    (move :
      PoolMove (pool.view queued done) label event
        (next.view nextQueued nextDone))
    (stands : Stands next nextQueued nextDone) :
    next.waitQueue.threads destroyer = .idle := by
  by_cases isRunner : label.runner = some destroyer
  · obtain ⟨choice, rfl⟩ : ∃ choice, label = .go destroyer choice := by
      cases label <;> cases isRunner
      exact ⟨_, rfl⟩
    by_cases collects : (next.activity destroyer).collects
    · obtain ⟨destroys, count, isAt⟩ := collects
      rcases move.collects_from (move.locked shuts.recorded.locked) isAt with
        ⟨_, _, wasAt⟩ | ⟨entered, wasAt⟩
      · have wasCollecting : pool.activity destroyer = .collecting _ _ :=
          wasAt
        simp only [poolStep, goStep, wasCollecting] at steps
        exact (shuts.collects_outside wasCollecting steps).1
      · have wasWaiting : pool.activity destroyer = .waiting entered :=
          wasAt
        simp only [poolStep, goStep, wasWaiting] at steps
        rw [(waitStart_queues (Except.ok.inj steps)).2]
        exact shuts.outside
    · exact stands.collectors.idle collects
  · have moved := (poolStep_queues steps).2
    rw [moved.of_other isRunner]
    · exact shuts.outside
    · intro pending
      rw [shuts.outside]
      simp

/-- Every step without a call keeps the pool closing and lowers its work. -/
theorem Pool.Shuts.step
    (shuts : pool.Shuts destroyer past queued done)
    (noCall : label.calls = false) :
    ∃ next event nextQueued nextDone,
      poolStep pool label = .ok (next, event) ∧
        next.Shuts destroyer (past ++ [event]) nextQueued nextDone ∧
        (event = .nothing ∧
            next.view nextQueued nextDone = pool.view queued done ∨
          next.work < pool.work) := by
  obtain ⟨next, event, nextQueued, nextDone, steps, move, stands⟩ :=
    poolStep_moves shuts.stands label
  refine ⟨next, event, nextQueued, nextDone, steps, ⟨stands,
    shuts.recorded.move move, shuts.staffed.move move,
    shuts.closing.move shuts.staffed move noCall, ?_,
    shuts.outside_step steps move stands⟩, ?_⟩
  · have sameThreads : next.numThreads = pool.numThreads :=
      move.numThreads
    rw [sameThreads]
    exact shuts.someWorker
  · rw [stands.work, shuts.stands.work]
    exact shuts.closing.work_move move noCall

/-- Fewer workers than all have left their loops while one has not. -/
theorem View.Staffed.exited_lt
    {view : View k}
    (staffed : view.Staffed past)
    (isWorker : (view.activity thread).isWorker = true)
    (inside : (view.activity thread).isExited = false) :
    tally Activity.isExited view.activity < view.numThreads := by
  have apart :
      tally Activity.isExited view.activity +
          tally (fun activity => activity.isWorker && !activity.isExited)
            view.activity ≤
        tally Activity.isWorker view.activity := by
    refine tally_add_tally_le ?_ ?_ ?_
    · intro other isExited
      rw [isExited, Bool.not_true, Bool.and_false]
    · intro other isExited
      cases isAt : view.activity other with
      | exited =>
          rfl
      | _ =>
          rw [isAt] at isExited
          cases isExited
    · intro other isInside
      exact (Bool.and_eq_true_iff.mp isInside).1
  have someInside :
      0 < tally (fun activity => activity.isWorker && !activity.isExited)
        view.activity :=
    tally_pos thread (by rw [isWorker, inside]; rfl)
  rw [staffed.crew] at apart
  omega

/-- Until the channels are torn down, somebody has something to do. -/
theorem Pool.Shuts.someReady
    (shuts : pool.Shuts destroyer past queued done) :
    pool.activity destroyer = .tearing ∨ ∃ turn, pool.Ready turn := by
  have destroys : (pool.activity destroyer).Destroys pool.numThreads :=
    shuts.closing.destroys
  cases isAt : pool.activity destroyer with
  | tearing =>
      exact .inl rfl
  | sending sent =>
      exact .inr ⟨.go destroyer, by simp only [Pool.Ready, isAt]⟩
  | collecting destroys count =>
      exact .inr ⟨.go destroyer, by simp only [Pool.Ready, isAt]⟩
  | waiting destroys =>
      refine .inr ⟨.go destroyer, ?_⟩
      simp only [Pool.Ready, isAt]
      cases isHeld : pool.mutex with
      | none =>
          rfl
      | some holder =>
          have holds : (pool.activity holder).locks = true :=
            (shuts.recorded.locked holder).mpr isHeld
          have notQuiet : (pool.activity holder).isQuiet = false := by
            cases isHolder : pool.activity holder with
            | adding _ _ _ | collecting _ _ =>
                rfl
            | _ =>
                rw [isHolder] at holds
                cases holds
          rw [shuts.closing.isDestroyer holder notQuiet, isAt] at holds
          cases holds
  | joining joined =>
      right
      by_cases isEnough : pool.numThreads ≤ joined
      · exact ⟨.go destroyer, by
          simp only [Pool.Ready, isAt]
          exact .inl isEnough⟩
      have isFewer : joined < pool.numThreads :=
        Nat.lt_of_not_le isEnough
      have inRange : joined < k := by
        have crew : tally Activity.isWorker pool.activity = pool.numThreads :=
          shuts.staffed.crew
        have most : tally Activity.isWorker pool.activity ≤ k := by
          have bound :=
            @List.countP_le_length _
              (fun thread => (pool.activity thread).isWorker) (List.finRange k)
          rwa [List.length_finRange] at bound
        omega
      have isWorker : (pool.activity ⟨joined, inRange⟩).isWorker = true :=
        (shuts.staffed.roles ⟨joined, inRange⟩).mpr isFewer
      have isOther : (⟨joined, inRange⟩ : Fin k) ≠ destroyer := by
        intro isDestroyer
        rw [isDestroyer, isAt] at isWorker
        cases isWorker
      have isQuiet : (pool.activity ⟨joined, inRange⟩).isQuiet = true :=
        shuts.closing.quiet _ isOther
      cases isWorkerAt : pool.activity ⟨joined, inRange⟩ with
      | exited =>
          refine ⟨.go destroyer, ?_⟩
          simp only [Pool.Ready, isAt]
          exact .inr (by simp [Pool.hasExited, inRange, isWorkerAt])
      | executing job =>
          exact ⟨.finish ⟨joined, inRange⟩, job, isWorkerAt⟩
      | handing job =>
          exact ⟨.go ⟨joined, inRange⟩, by simp only [Pool.Ready, isWorkerAt]⟩
      | taking =>
          refine shuts.stands.someTakes ?_ isWorkerAt
          rintro rfl
          have fewerExited :=
            shuts.staffed.exited_lt isWorker (by
              simp only [Pool.view, isWorkerAt, Activity.isExited])
          obtain ⟨jobs, markers, split, sum, -⟩ := shuts.closing.queue
          have noMarkers : markers = 0 := by
            have isLength := congrArg List.length split
            simp only [Pool.view, List.length_nil, List.length_append,
              List.length_replicate] at isLength
            omega
          have allSent :
              (pool.activity destroyer).markersSent pool.numThreads =
                pool.numThreads := by
            rw [isAt]
            rfl
          simp only [Pool.view] at sum fewerExited
          omega
      | outside | adding _ _ _ | waiting _ | collecting _ _ | sending _
      | joining _ | tearing =>
          first
          | rw [isWorkerAt] at isWorker
            cases isWorker
          | rw [isWorkerAt] at isQuiet
            cases isQuiet
  | outside | adding _ _ _ | taking | executing _ | handing _ | exited =>
      rw [isAt] at destroys
      cases destroys

/-- A closing pool stays so through every run without calls. -/
theorem Pool.Shuts.run
    (shuts : pool.Shuts destroyer past queued done)
    {labels : List (PoolLabel k)}
    (noCalls : ∀ label ∈ labels, label.calls = false) :
    ∃ final later,
      runCalls poolStep pool labels = .ok (final, later) ∧
        ∃ finalQueued finalDone,
          final.Shuts destroyer (past ++ later) finalQueued finalDone :=
  @runCalls_records _ _ _ poolStep (fun _ label => label.calls = false)
    (fun pool past =>
      ∃ queued done, pool.Shuts destroyer past queued done)
    (by
      rintro pool past label ⟨queued, done, shuts⟩ noCall
      obtain ⟨next, event, nextQueued, nextDone, steps, nextShuts, -⟩ :=
        shuts.step noCall
      exact ⟨next, event, steps, nextQueued, nextDone, nextShuts⟩)
    pool past ⟨queued, done, shuts⟩ labels
    (alwaysAllowed_of_forall
      (fun label member _ => noCalls label member) _)

end Shutdown

attribute [local instance] neZero_two

/-- Two threads that take their turns in order. -/
def inOrder (time : Nat) : PoolLabel 2 :=
  match time % 4 with
  | 0 =>
      .go 0 0
  | 1 =>
      .go 1 0
  | 2 =>
      .finish 0
  | _ =>
      .finish 1

end Clibs.Thp
