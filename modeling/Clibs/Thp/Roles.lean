import Clibs.Thp.Records

namespace Clibs.Thp

/-!
# Workers, clients and the flag of `thp_wait`

A worker never becomes a client and a client never becomes a worker, so the pool
keeps the number of its workers.  `wait_running` is set only while a thread is
in the loop of `thp_wait`, and a worker has left its loop exactly when it has
consumed a marker.
-/

/-- The thread is one of the pool's own. -/
def Activity.isWorker : Activity → Bool
  | .adding (.job _) _ _ =>
      true
  | .taking =>
      true
  | .executing _ =>
      true
  | .handing _ =>
      true
  | .exited =>
      true
  | _ =>
      false

/-- The worker has left its loop. -/
def Activity.isExited : Activity → Bool
  | .exited =>
      true
  | _ =>
      false

/-- Who works for the pool, and when its flag is set. -/
structure View.Staffed
    {k : Nat}
    (view : View k)
    (past : List (PoolEvent k)) : Prop where
  roles :
    ∀ thread,
      (view.activity thread).isWorker = true ↔ thread.val < view.numThreads
  crew : tally Activity.isWorker view.activity = view.numThreads
  running :
    view.waitRunning ≠ 0 →
    ∃ thread destroys count,
      view.activity thread = .collecting destroys count
  consumed :
    ∀ thread,
      past.count (PoolEvent.consumed thread) =
        if (view.activity thread).isExited then 1 else 0

section Roles

variable {k : Nat} {view next : View k} {label : PoolLabel k}
  {past : List (PoolEvent k)} {event : PoolEvent k}

/-- No move makes a worker of a client, or a client of a worker. -/
theorem PoolMove.isWorker
    (move : PoolMove view label event next)
    (thread : Fin k) :
    (next.activity thread).isWorker = (view.activity thread).isWorker := by
  cases move with
  | still =>
      rfl
  | @addStart _ _ _ caller mayAdd =>
      refine kind_goOn ?_ thread
      rw [mayAdd.resumes]
      cases caller <;> rfl
  | @addLock _ caller _ _ isAt _ | @addPut _ caller _ _ isAt
  | @addCount _ caller _ _ isAt | @addRead _ caller _ _ isAt =>
      refine kind_goOn ?_ thread
      rw [isAt]
      cases caller <;> rfl
  | @waitRefused _ destroys _ isAt _ _ | @waitNothing _ destroys _ isAt _ _ _
  | @waitDone _ destroys _ _ isAt _ =>
      refine kind_goOn ?_ thread
      rw [isAt]
      cases destroys <;> rfl
  | waitCall isAt | waitLoop isAt _ _ _ | collect isAt _ | take isAt _
  | exit isAt _ | finish isAt | hand isAt | destroyCall isAt | send isAt _
  | sent isAt _ | join isAt _ _ | joined isAt _ =>
      refine kind_goOn ?_ thread
      rw [isAt]
      rfl

/-- The pool keeps its number of workers. -/
theorem PoolMove.numThreads
    (move : PoolMove view label event next) :
    next.numThreads = view.numThreads := by
  cases move <;> rfl

/-- The flag of `thp_wait` is set only while a thread is in its loop. -/
theorem WaitMove.running
    (waits : WaitMove view event next)
    (running :
      view.waitRunning ≠ 0 →
      ∃ thread destroys count,
        view.activity thread = .collecting destroys count)
    (isRunning : next.waitRunning ≠ 0) :
    ∃ thread destroys count,
      next.activity thread = .collecting destroys count := by
  cases waits with
  | quiet _ _ flag same =>
      rw [flag] at isRunning
      obtain ⟨thread, destroys, count, isAt⟩ := running isRunning
      exact ⟨thread, destroys, count, (same _ _ _).mpr isAt⟩
  | opens thread destroys _ _ _ activity =>
      exact ⟨thread, destroys, 0, by rw [activity, Function.update_self]⟩
  | collects thread destroys count _ _ _ _ activity =>
      exact ⟨thread, destroys, count + 1, by
        rw [activity, Function.update_self]⟩
  | finds _ _ flag _ _ _ | closes _ _ _ _ _ flag _ _ =>
      exact (isRunning flag).elim

/-- A move consumes a marker and a worker leaves its loop, or neither. -/
theorem PoolMove.exits
    (move : PoolMove view label event next) :
    ((∀ thread, event ≠ .consumed thread) ∧
        ∀ thread,
          (next.activity thread).isExited =
            (view.activity thread).isExited) ∨
      ∃ worker,
        event = .consumed worker ∧
          (view.activity worker).isExited = false ∧
          next.activity = Function.update view.activity worker .exited := by
  cases move with
  | @exit thread _ _ isAt _ =>
      exact .inr ⟨thread, rfl, by rw [isAt]; rfl, rfl⟩
  | still =>
      exact .inl ⟨fun _ impossible => (nomatch impossible), fun _ => rfl⟩
  | @addStart _ _ _ caller mayAdd =>
      refine .inl ⟨fun _ impossible => (nomatch impossible),
        kind_goOn ?_⟩
      rw [mayAdd.resumes]
      cases caller <;> rfl
  | @addRead _ caller _ _ isAt =>
      refine .inl ⟨fun _ impossible => (nomatch impossible),
        kind_goOn ?_⟩
      rw [isAt]
      cases caller <;> rfl
  | @waitRefused _ destroys _ isAt _ _ | @waitNothing _ destroys _ isAt _ _ _
  | @waitDone _ destroys _ _ isAt _ =>
      refine .inl ⟨fun _ impossible => (nomatch impossible),
        kind_goOn ?_⟩
      rw [isAt]
      cases destroys <;> rfl
  | addLock isAt _ | addPut isAt | addCount isAt | waitCall isAt
  | waitLoop isAt _ _ _ | collect isAt _ | take isAt _ | finish isAt
  | hand isAt | destroyCall isAt | send isAt _ | sent isAt _ | join isAt _ _
  | joined isAt _ =>
      refine .inl ⟨fun _ impossible => (nomatch impossible),
        kind_goOn ?_⟩
      rw [isAt]
      rfl

/-- One more move keeps the roles. -/
theorem View.Staffed.move
    (staffed : view.Staffed past)
    (move : PoolMove view label event next) :
    next.Staffed (past ++ [event]) where
  roles thread := by
    rw [move.isWorker, move.numThreads]
    exact staffed.roles thread
  crew := by
    rw [move.numThreads, ← staffed.crew, tally, tally]
    exact List.countP_congr fun thread _ => by rw [move.isWorker]
  running :=
    move.waits.running staffed.running
  consumed thread := by
    rw [List.count_append, staffed.consumed]
    rcases move.exits with ⟨isElse, same⟩ | ⟨worker, isEvent, was, activity⟩
    · have noMarker : [event].count (.consumed thread) = 0 := by
        apply List.count_eq_zero.mpr
        exact fun member =>
          isElse thread (List.mem_singleton.mp member).symm
      rw [same, noMarker, Nat.add_zero]
    · rw [isEvent, activity]
      by_cases isWorker : thread = worker
      · subst isWorker
        rw [was, Function.update_self, List.count_singleton_self]
        rfl
      · have noMarker :
            [PoolEvent.consumed worker].count (.consumed thread) = 0 := by
          apply List.count_eq_zero.mpr
          intro member
          cases List.mem_singleton.mp member
          exact isWorker rfl
        rw [noMarker, Nat.add_zero, Function.update_of_ne isWorker]

/-- A new pool has its workers, and nobody waits. -/
theorem start_staffed
    (numThreads clients : Nat) :
    ((start numThreads clients).view [] []).Staffed [] := by
  have isWorker :
      ∀ thread,
        ((start numThreads clients).activity thread).isWorker =
          decide (thread.val < numThreads) := by
    intro thread
    simp only [start, thpCreate]
    split
    · next isWorker =>
        exact (decide_eq_true isWorker).symm
    · next isClient =>
        exact (decide_eq_false isClient).symm
  refine ⟨?_, ?_, fun isRunning => (isRunning rfl).elim, ?_⟩
  · intro thread
    rw [Pool.view, isWorker]
    exact decide_eq_true_iff
  · simp only [Pool.view, tally_eq_total, total, isWorker, decide_eq_true_eq,
      Fin.sum_univ_add, Fin.val_castAdd, Fin.val_natAdd]
    simp [start, thpCreate]
  · intro thread
    simp only [Pool.view, start, thpCreate]
    split <;> rfl

end Roles

end Clibs.Thp
