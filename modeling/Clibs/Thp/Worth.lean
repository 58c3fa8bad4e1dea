import Clibs.Thp.Locking

namespace Clibs.Thp

/-!
# The worth of single jobs, and of a pool that has nothing left

An account that gives worth to one job only never exceeds the number of places
in which the job is.  The account of the jobs not collected is the number of the
jobs that are queued, run or have run, and when it is zero the pool has no worth
to any account.
-/

/-- The thread runs a job. -/
def Activity.isExecuting : Activity → Bool
  | .executing _ =>
      true
  | .adding (.job _) _ _ =>
      true
  | _ =>
      false

/-- The thread has run a job and not put it into the completion queue. -/
def Activity.isHanding : Activity → Bool
  | .handing _ =>
      true
  | _ =>
      false

/-- The thread has put its job into the input queue and not counted it. -/
def Activity.counts : Activity → Bool
  | .adding _ _ .count =>
      true
  | _ =>
      false

/-- The account gives worth to one job only, and at most one in all. -/
structure Account.Within
    (account : Account)
    (job : Nat) : Prop where
  added : ∀ other, 0 ≤ account.added other
  started : ∀ other, 0 ≤ account.started other
  finished : ∀ other, 0 ≤ account.finished other
  worth : ∀ other, account.worth other ≤ if other = job then 1 else 0

section Worth

variable {k : Nat} {view : View k} {account : Account} {job : Nat}

/-- The worth of a job before it has finished. -/
theorem Account.Within.running
    (inside : account.Within job)
    (other : Nat) :
    account.added other + account.started other ≤
      if other = job then 1 else 0 := by
  have worth := inside.worth other
  have finished := inside.finished other
  rw [Account.worth] at worth
  omega

/-- The worth of a job before it has started. -/
theorem Account.Within.queued
    (inside : account.Within job)
    (other : Nat) :
    account.added other ≤ if other = job then 1 else 0 := by
  have running := inside.running other
  have started := inside.started other
  omega

/-- A thread holds no more worth than jobs. -/
theorem Account.Within.ofActivity
    (inside : account.Within job)
    (activity : Activity) :
    account.ofActivity activity ≤ activity.holds job := by
  cases activity with
  | adding caller created point =>
      have added := inside.added created
      rw [account.ofActivity_adding, holds_adding]
      cases caller with
      | client =>
          simp only [Account.ofCaller, Caller.resumes, holds_outside]
          split_ifs <;> omega
      | job outer =>
          have running := inside.running outer
          simp only [Account.ofCaller, Caller.resumes, holds_executing]
          split_ifs at running ⊢ <;> omega
  | executing run =>
      have running := inside.running run
      rw [account.ofActivity_executing, holds_executing]
      split_ifs at running ⊢ <;> omega
  | handing run =>
      have worth := inside.worth run
      rw [account.ofActivity_handing, holds_handing]
      split_ifs at worth ⊢ <;> omega
  | outside | waiting _ | collecting _ _ | sending _ | joining _ | tearing
  | taking | exited =>
      rw [account.ofActivity_of_free rfl, holds_of_free rfl]
      exact Int.le_refl 0

/-- The input queue holds no more worth than jobs. -/
theorem Account.Within.ofQueued
    (inside : account.Within job)
    (queued : List (Option Nat)) :
    (queued.map account.ofEntry).sum ≤ queued.count (some job) := by
  induction queued with
  | nil =>
      simp
  | cons entry rest inductionHypothesis =>
      rw [List.map_cons, List.sum_cons, List.count_cons]
      cases entry with
      | none =>
          simpa [Account.ofEntry] using inductionHypothesis
      | some other =>
          have queued := inside.queued other
          simp only [Account.ofEntry, beq_iff_eq, Option.some.injEq]
          split_ifs at queued ⊢ <;> push_cast <;> omega

/-- The completion queue holds no more worth than jobs. -/
theorem Account.Within.ofDone
    (inside : account.Within job)
    (done : List Nat) :
    (done.map account.worth).sum ≤ done.count job := by
  induction done with
  | nil =>
      simp
  | cons other rest inductionHypothesis =>
      have worth := inside.worth other
      rw [List.map_cons, List.sum_cons, List.count_cons]
      simp only [beq_iff_eq]
      split_ifs at worth ⊢ <;> push_cast <;> omega

/-- What the threads hold of a job. -/
theorem total_holds
    (job : Nat)
    (activity : Fin k → Activity) :
    total (Activity.holds job) activity =
      tally (Activity.prepares job) activity +
        tally (Activity.executes job) activity +
        tally (Activity.hands job) activity := by
  simp only [tally_eq_total, total, Activity.holds, Finset.sum_add_distrib]

/-- The pool is worth no more than the places in which the job is. -/
theorem Account.Within.balance_le_copies
    (inside : account.Within job)
    (view : View k) :
    account.balance view ≤ view.copies job := by
  have ofThreads :
      total account.ofActivity view.activity ≤
        ((total (Activity.holds job) view.activity : Nat) : Int) := by
    simp only [total, Nat.cast_sum]
    exact Finset.sum_le_sum fun thread _ => inside.ofActivity _
  have ofQueued := inside.ofQueued view.queued
  have ofDone := inside.ofDone view.done
  rw [total_holds] at ofThreads
  rw [Account.balance, View.copies]
  push_cast at ofThreads ⊢
  omega

/-- The accounts of a single job. -/
theorem outstanding_within
    (job : Nat) :
    (outstanding (· == job)).Within job := by
  refine ⟨?_, fun _ => Int.le_refl 0, fun _ => Int.le_refl 0, ?_⟩ <;>
  · intro other
    simp only [Account.worth, outstanding, oneFor, beq_iff_eq]
    split_ifs <;> omega

/-- What a thread is worth to the account of the jobs not collected. -/
theorem outstanding_ofActivity
    (activity : Activity) :
    (outstanding fun _ => true).ofActivity activity =
      (if activity.isExecuting then 1 else 0) +
        (if activity.isHanding then 1 else 0) -
        if activity.counts then 1 else 0 := by
  cases activity with
  | adding caller job point =>
      cases caller <;> cases point <;> rfl
  | _ =>
      rfl

/-- The jobs in the input queue are not collected. -/
theorem outstanding_queued
    (queued : List (Option Nat)) :
    (queued.map (outstanding fun _ => true).ofEntry).sum =
      queued.countP Option.isSome := by
  induction queued with
  | nil =>
      rfl
  | cons entry rest inductionHypothesis =>
      rw [List.map_cons, List.sum_cons, inductionHypothesis, List.countP_cons]
      cases entry with
      | none =>
          simp [Account.ofEntry]
      | some job =>
          simp [Account.ofEntry, outstanding, oneFor, Int.add_comm]

/-- The jobs in the completion queue are not collected. -/
theorem outstanding_done
    (done : List Nat) :
    (done.map (outstanding fun _ => true).worth).sum = done.length := by
  induction done with
  | nil =>
      rfl
  | cons job rest inductionHypothesis =>
      rw [List.map_cons, List.sum_cons, inductionHypothesis, List.length_cons]
      simp [Account.worth, outstanding, oneFor, Int.add_comm]

/--
What is not collected is queued, runs, or has run, and a job that is put and not
counted is in the queue already.
-/
theorem outstanding_balance_counts
    (view : View k) :
    (outstanding fun _ => true).balance view +
        tally Activity.counts view.activity =
      view.queued.countP Option.isSome +
        tally Activity.isExecuting view.activity +
        (tally Activity.isHanding view.activity + view.done.length) := by
  have ofThreads :
      total (outstanding fun _ => true).ofActivity view.activity +
          tally Activity.counts view.activity =
        tally Activity.isExecuting view.activity +
          tally Activity.isHanding view.activity := by
    rw [← total_eq_tally, ← total_eq_tally, ← total_eq_tally, total, total,
      total, total, ← Finset.sum_add_distrib, ← Finset.sum_add_distrib]
    apply Finset.sum_congr rfl
    intro thread _
    rw [outstanding_ofActivity]
    omega
  rw [Account.balance, outstanding_queued, outstanding_done]
  omega

/-- While nobody counts, what is not collected is queued, runs, or has run. -/
theorem outstanding_balance
    (nobodyCounts : ∀ thread, (view.activity thread).counts = false) :
    (outstanding fun _ => true).balance view =
      view.queued.countP Option.isSome +
        tally Activity.isExecuting view.activity +
        (tally Activity.isHanding view.activity + view.done.length) := by
  have balance := outstanding_balance_counts view
  rw [tally_eq_zero nobodyCounts] at balance
  omega

/-- Nothing is left in the pool: it has no worth to any account. -/
theorem drained_of_outstanding
    (nobodyCounts : ∀ thread, (view.activity thread).counts = false)
    (nothing : (outstanding fun _ => true).balance view = 0)
    (account : Account) :
    account.balance view = 0 := by
  rw [outstanding_balance nobodyCounts] at nothing
  have noneExecutes :
      ∀ thread, (view.activity thread).isExecuting = false :=
    not_kind_of_tally (by omega)
  have noneHands :
      ∀ thread, (view.activity thread).isHanding = false :=
    not_kind_of_tally (by omega)
  have noneQueued : view.queued.countP Option.isSome = 0 := by
    omega
  have noneDone : view.done = [] :=
    List.eq_nil_of_length_eq_zero (by omega)
  have ofThreads : total account.ofActivity view.activity = 0 := by
    apply Finset.sum_eq_zero
    intro thread _
    have notExecuting := noneExecutes thread
    have notHanding := noneHands thread
    have notCounting := nobodyCounts thread
    cases isAt : view.activity thread with
    | adding caller job point =>
        rw [isAt] at notExecuting notCounting
        cases caller with
        | client =>
            cases point <;> first | rfl | cases notCounting
        | job outer =>
            cases notExecuting
    | executing job =>
        rw [isAt] at notExecuting
        cases notExecuting
    | handing job =>
        rw [isAt] at notHanding
        cases notHanding
    | _ =>
        rfl
  have ofQueued : (view.queued.map account.ofEntry).sum = 0 := by
    apply List.sum_eq_zero
    intro worth member
    obtain ⟨entry, isQueued, rfl⟩ := List.mem_map.mp member
    cases entry with
    | none =>
        rfl
    | some job =>
        exact (List.countP_eq_zero.mp noneQueued _ isQueued rfl).elim
  rw [Account.balance, ofThreads, ofQueued, noneDone]
  rfl

end Worth

end Clibs.Thp
