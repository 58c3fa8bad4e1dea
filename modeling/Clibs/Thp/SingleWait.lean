import Clibs.Foundation.History
import Clibs.Thp.Refusal

namespace Clibs.Thp

/-!
# One wait at a time

`thp_wait` is to return `THP_TOO_MANY_WAIT` while another thread is in its loop.
But that thread keeps the mutex through the whole loop, and the flag is looked
at under the mutex: a second caller waits for the mutex until the loop has ended
and the flag is down again.  So no call ever finds the flag set.
-/

/-- Some thread is in the loop of `thp_wait`. -/
def Pool.collecting
    {k : Nat}
    (pool : Pool k) : Prop :=
  ∃ thread, (pool.activity thread).collects

/--
A call of `thp_wait` that is about to look at the flag is refused at once if
another thread is in the loop, and otherwise it is not refused.
-/
structure Pool.GuardsWait
    {k : Nat}
    (pool : Pool k)
    (thread : Fin k) : Prop where
  refuses :
    pool.collecting →
    ∀ choice,
      ∃ next,
        poolStep pool (.go thread choice) =
            .ok (next, .waited thread thpTooManyWait) ∧
          next.toBeWaited = pool.toBeWaited ∧
          next.waitQueue = pool.waitQueue
  admits :
    ¬ pool.collecting →
    ∀ choice next,
      poolStep pool (.go thread choice) ≠
        .ok (next, .waited thread thpTooManyWait)

/-- The flag, the mutex and the count of `thp_wait` belong together. -/
structure View.Guarded
    {k : Nat}
    (view : View k) : Prop where
  locked : view.Locked
  running :
    view.waitRunning ≠ 0 →
    ∃ thread destroys count,
      view.activity thread = .collecting destroys count
  counted :
    ∀ thread destroys count,
      view.activity thread = .collecting destroys count →
      0 ≤ count

section Guard

variable {k : Nat} {view next : View k} {label : PoolLabel k}
  {event : PoolEvent k}

/-- A wait counts from zero upwards. -/
theorem WaitMove.counted
    (waits : WaitMove view event next)
    (nextLocked : next.Locked)
    (counted :
      ∀ thread destroys count,
        view.activity thread = .collecting destroys count →
        0 ≤ count)
    {thread : Fin k}
    {destroys : Bool}
    {count : Int}
    (isAt : next.activity thread = .collecting destroys count) :
    0 ≤ count := by
  cases waits with
  | quiet _ _ _ same =>
      exact counted _ _ _ ((same _ _ _).mp isAt)
  | opens opener _ _ _ _ activity =>
      by_cases isOpener : thread = opener
      · rw [activity, isOpener, Function.update_self] at isAt
        cases isAt
        exact Int.le_refl 0
      · rw [activity, Function.update_of_ne isOpener] at isAt
        exact counted _ _ _ isAt
  | collects collector _ before _ _ wasAt _ activity =>
      by_cases isCollector : thread = collector
      · rw [activity, isCollector, Function.update_self] at isAt
        cases isAt
        have := counted _ _ _ wasAt
        omega
      · rw [activity, Function.update_of_ne isCollector] at isAt
        exact counted _ _ _ isAt
  | finds _ _ _ _ isFree _ | closes _ _ _ _ _ _ isFree _ =>
      exact (nextLocked.nobodyCollects isFree isAt).elim

/-- A step of the waits keeps them guarded. -/
theorem View.Guarded.move
    (guarded : view.Guarded)
    (waits : WaitMove view event next)
    (locked : next.Locked) :
    next.Guarded where
  locked :=
    locked
  running :=
    waits.running guarded.running
  counted _ _ _ isAt :=
    waits.counted locked guarded.counted isAt

/-- While the mutex is free the flag is down. -/
theorem View.Guarded.flag_of_free
    (guarded : view.Guarded)
    (isFree : view.mutex = none) :
    view.waitRunning = 0 := by
  by_contra isRunning
  obtain ⟨thread, destroys, count, isAt⟩ := guarded.running isRunning
  exact guarded.locked.nobodyCollects isFree isAt

/-- No step is a call of `thp_wait` that is refused. -/
theorem View.Guarded.never_refused
    (guarded : view.Guarded)
    (move : PoolMove view label event next)
    (thread : Fin k) :
    event ≠ .waited thread thpTooManyWait := by
  cases move with
  | waitRefused _ isFree isRunning =>
      exact (isRunning (guarded.flag_of_free isFree)).elim
  | waitDone isAt _ =>
      have counted := guarded.counted _ _ _ isAt
      rintro ⟨⟩
      simp [thpTooManyWait] at counted
  | waitNothing _ _ _ _ =>
      intro impossible
      cases impossible
  | _ =>
      intro impossible
      cases impossible

/-- A step that is refused memory ends no call of `thp_wait`. -/
theorem RefusedMove.ends_no_wait
    (refused : RefusedMove view label event next)
    (thread : Fin k)
    (count : Int) :
    event ≠ .waited thread count := by
  cases refused <;> nofun

end Guard

section Runs

variable {k : Nat} {pool : Pool k} {queued : List (Option Nat)}
  {done : List Nat} {thread : Fin k} {destroys : Bool}

/-- Behind a thread in the loop, a call of `thp_wait` waits for the mutex. -/
theorem waits_behind_collector
    (locked : (pool.view queued done).Locked)
    (isAt : pool.activity thread = .waiting destroys)
    (collecting : pool.collecting)
    (choice : Nat) :
    poolStep pool (.go thread choice) = .ok (pool, .nothing) := by
  obtain ⟨collector, otherDestroys, count, collects⟩ := collecting
  have isHeld : pool.mutex = some collector := by
    refine (locked collector).mp ?_
    simp only [Pool.view, collects, Activity.locks]
  have notFree : pool.mutex ≠ none := by
    simp [isHeld]
  simp only [poolStep, goStep, isAt, waitStart, if_pos notFree]

/-- A step of a guarded pool returns, refuses no call and keeps it guarded. -/
theorem poolStep_guarded
    (stands : Stands pool.granting queued done)
    (guarded : (pool.view queued done).Guarded)
    (label : PoolLabel k) :
    ∃ next event,
      poolStep pool label = .ok (next, event) ∧
        (∀ thread, event ≠ .waited thread thpTooManyWait) ∧
        ∃ nextQueued nextDone,
          Stands next.granting nextQueued nextDone ∧
            (next.view nextQueued nextDone).Guarded := by
  obtain ⟨next, event, nextQueued, nextDone, steps, goes, nextStands⟩ :=
    poolStep_goes stands label
  refine ⟨next, event, steps, ?_, nextQueued, nextDone, nextStands, ?_⟩
  · intro thread
    rcases goes with move | ⟨-, refused⟩
    · exact guarded.never_refused move thread
    · exact refused.ends_no_wait thread _
  · rcases goes with move | ⟨-, refused⟩
    · exact guarded.move move.waits (move.locked guarded.locked)
    · exact guarded.move refused.waits (refused.locked guarded.locked)

/-- The guard of `thp_wait` is right exactly when nobody is in the loop. -/
theorem guardsWait_iff
    (stands : Stands pool.granting queued done)
    (guarded : (pool.view queued done).Guarded)
    (isAt : pool.activity thread = .waiting destroys) :
    pool.GuardsWait thread ↔ ¬ pool.collecting := by
  constructor
  · intro guards collecting
    obtain ⟨next, refuses, -⟩ := guards.refuses collecting 0
    have waits := waits_behind_collector guarded.locked isAt collecting 0
    simp [waits] at refuses
  · intro nobody
    refine ⟨fun collecting => (nobody collecting).elim, ?_⟩
    intro _ choice next isRefused
    obtain ⟨after, event, steps, isElse, -⟩ :=
      poolStep_guarded stands guarded (.go thread choice)
    have same := Except.ok.inj (steps.symm.trans isRefused)
    exact isElse thread (congrArg Prod.snd same)

/-- A new pool is guarded. -/
theorem thpCreate_guarded
    (numThreads clients : Nat)
    (jobGrants inGrants waitGrants : Nat → Bool) :
    ((thpCreate numThreads clients jobGrants inGrants waitGrants).view
      [] []).Guarded := by
  have recorded := start_recorded numThreads clients
  have nobody :
      ∀ thread destroys count,
        (start numThreads clients).activity thread ≠
          .collecting destroys count := by
    intro thread destroys count
    exact recorded.locked.nobodyCollects rfl
  exact ⟨recorded.locked, fun isRunning => (isRunning rfl).elim,
    fun thread destroys count isAt => (nobody thread destroys count isAt).elim⟩

end Runs

/--
In every run of a pool, whatever memory it is granted, no call of `thp_wait`
returns `THP_TOO_MANY_WAIT`; and in every state that a run reaches, a call that
is about to look at the flag is treated as documented exactly when no other
thread is in the loop.
-/
theorem wait_is_guarded_iff
    (numThreads clients : Nat)
    (jobGrants inGrants waitGrants : Nat → Bool)
    (labels : List (PoolLabel (numThreads + clients))) :
    ∃ pool events,
      runCalls poolStep
          (thpCreate numThreads clients jobGrants inGrants waitGrants) labels =
          .ok (pool, events) ∧
        (∀ thread, PoolEvent.waited thread thpTooManyWait ∉ events) ∧
        ∀ thread destroys,
          pool.activity thread = .waiting destroys →
          (pool.GuardsWait thread ↔ ¬ pool.collecting) := by
  obtain ⟨pool, events, runs, ⟨queued, done, stands, guarded⟩, noneRefused⟩ :=
    @runCalls_records _ _ _ poolStep (fun _ _ => True)
      (fun pool past =>
        (∃ queued done,
          Stands pool.granting queued done ∧
            (pool.view queued done).Guarded) ∧
          ∀ thread, PoolEvent.waited thread thpTooManyWait ∉ past)
      (by
        rintro pool past label ⟨⟨queued, done, stands, guarded⟩, noneRefused⟩ -
        obtain ⟨next, event, steps, isElse, nextGuarded⟩ :=
          poolStep_guarded stands guarded label
        refine ⟨next, event, steps, nextGuarded, ?_⟩
        intro thread member
        rcases List.mem_append.mp member with earlier | isLast
        · exact noneRefused thread earlier
        · exact isElse thread (List.mem_singleton.mp isLast).symm)
      (thpCreate numThreads clients jobGrants inGrants waitGrants) []
      ⟨⟨[], [], thpCreate_stands _ _ _ _ _, thpCreate_guarded _ _ _ _ _⟩,
        fun _ => List.not_mem_nil⟩
      labels (alwaysAllowed_of_forall (fun _ _ _ => trivial) _)
  exact ⟨pool, events, runs, noneRefused,
    fun _ _ isAt => guardsWait_iff stands guarded isAt⟩

/--
A client is in the loop of `thp_wait` for its job, and the call of another
client waits for the mutex.
-/
theorem second_wait_blocks :
    ∃ pool events,
      runCalls poolStep (start 1 2)
          [.add 1 3 4, .go 1 0, .go 1 0, .go 1 0, .go 1 0, .wait 1, .go 1 0,
            .wait 2, .go 2 0] =
          .ok (pool, events) ∧
        pool.activity 1 = .collecting false 0 ∧
        pool.activity 2 = .waiting false ∧
        ¬ pool.GuardsWait 2 := by
  refine ⟨_, _, rfl, rfl, rfl, ?_⟩
  intro guards
  obtain ⟨next, refuses, -⟩ := guards.refuses ⟨1, false, 0, rfl⟩ 0
  cases refuses

end Clibs.Thp
