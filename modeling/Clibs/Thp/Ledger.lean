import Clibs.Thp.View

namespace Clibs.Thp

/-!
# Accounts of the jobs

A job gains worth when its `thp_add` counts it, when a worker starts it and when
the worker has run it, and it takes its worth along when a waiter collects it.
An account fixes these gains.  Whatever the schedule, the jobs in the queues and
in the hands of the threads are worth the gains of the past events together, so
that each way of giving worth to a job yields a law of conservation.
-/

/-- What a job gains when it is counted, started and finished. -/
structure Account where
  added : Nat → Int
  started : Nat → Int
  finished : Nat → Int

/-- The worth of a job that has finished. -/
def Account.worth
    (account : Account)
    (job : Nat) : Int :=
  account.added job + account.started job + account.finished job

/-- The worth of the job that calls `thp_add`. -/
def Account.ofCaller
    (account : Account) : Caller → Int
  | .client =>
      0
  | .job outer =>
      account.added outer + account.started outer

/--
The worth of what a thread holds; between the put of a job and its counting the
thread owes the worth that the queue has already.
-/
def Account.ofActivity
    (account : Account) : Activity → Int
  | .adding caller job .count =>
      account.ofCaller caller - account.added job
  | .adding caller _ _ =>
      account.ofCaller caller
  | .executing job =>
      account.added job + account.started job
  | .handing job =>
      account.worth job
  | _ =>
      0

/-- The worth of an entry of the input queue. -/
def Account.ofEntry
    (account : Account) : Option Nat → Int
  | none =>
      0
  | some job =>
      account.added job

/-- The worth of all that is in the pool. -/
def Account.balance
    {k : Nat}
    (account : Account)
    (view : View k) : Int :=
  total account.ofActivity view.activity +
    (view.queued.map account.ofEntry).sum +
    (view.done.map account.worth).sum

/-- What an event adds to the worth of the pool. -/
def Account.change
    {k : Nat}
    (account : Account) : PoolEvent k → Int
  | .added _ job =>
      account.added job
  | .started _ job _ =>
      account.started job
  | .finished _ job =>
      account.finished job
  | .collected _ job =>
      -account.worth job
  | _ =>
      0

/-- The worth that some events leave in the pool. -/
def Account.sum
    {k : Nat}
    (account : Account)
    (events : List (PoolEvent k)) : Int :=
  (events.map account.change).sum

/-- The job that a step counted. -/
def addedOf
    {k : Nat} : PoolEvent k → List Nat
  | .added _ job =>
      [job]
  | _ =>
      []

/-- The jobs whose `thp_add` counted them, in order. -/
def addedJobs
    {k : Nat}
    (events : List (PoolEvent k)) : List Nat :=
  events.flatMap addedOf

/-- The jobs that a waiter collected, in order. -/
def collectedJobs
    {k : Nat}
    (events : List (PoolEvent k)) : List Nat :=
  events.flatMap collectedOf

/-- One for the wanted jobs. -/
def oneFor
    (wanted : Nat → Bool)
    (job : Nat) : Int :=
  if wanted job then
    1
  else
    0

/-- The account of the jobs that were counted and not collected. -/
def outstanding (wanted : Nat → Bool) : Account where
  added :=
    oneFor wanted
  started _ :=
    0
  finished _ :=
    0

section Balance

variable {k : Nat} {view next : View k} {label : PoolLabel k}
  {event : PoolEvent k}

/-- The worth of a free thread. -/
theorem Account.ofActivity_of_free
    (account : Account)
    {activity : Activity}
    (isFree : activity.isFree = true) :
    account.ofActivity activity = 0 := by
  cases activity <;> first | rfl | cases isFree

/-- The worth of a thread in `thp_add`. -/
@[simp] theorem Account.ofActivity_adding
    (account : Account)
    (caller : Caller)
    (job : Nat)
    (point : AddPoint) :
    account.ofActivity (.adding caller job point) =
      account.ofCaller caller -
        if point = .count then account.added job else 0 := by
  cases point <;> simp [Account.ofActivity]

/-- The worth of a worker that runs a job. -/
@[simp] theorem Account.ofActivity_executing
    (account : Account)
    (job : Nat) :
    account.ofActivity (.executing job) =
      account.added job + account.started job :=
  rfl

/-- The worth of a worker that has run a job. -/
@[simp] theorem Account.ofActivity_handing
    (account : Account)
    (job : Nat) :
    account.ofActivity (.handing job) = account.worth job :=
  rfl

@[simp] theorem Account.ofActivity_collecting
    (account : Account)
    (destroys : Bool)
    (count : Int) :
    account.ofActivity (.collecting destroys count) = 0 :=
  rfl

@[simp] theorem Account.ofActivity_waiting
    (account : Account)
    (destroys : Bool) :
    account.ofActivity (.waiting destroys) = 0 :=
  rfl

@[simp] theorem Account.ofActivity_sending
    (account : Account)
    (sent : Nat) :
    account.ofActivity (.sending sent) = 0 :=
  rfl

@[simp] theorem Account.ofActivity_taking
    (account : Account) :
    account.ofActivity .taking = 0 :=
  rfl

@[simp] theorem Account.ofActivity_exited
    (account : Account) :
    account.ofActivity .exited = 0 :=
  rfl

/-- A caller of `thp_add` goes on with its worth. -/
@[simp] theorem Account.ofActivity_resumes
    (account : Account)
    (caller : Caller) :
    account.ofActivity caller.resumes = account.ofCaller caller := by
  cases caller <;> rfl

/-- After `thp_wait` a thread holds nothing. -/
@[simp] theorem Account.ofActivity_afterWait
    (account : Account)
    (destroys : Bool) :
    account.ofActivity (afterWait destroys) = 0 := by
  cases destroys <;> rfl

/-- When one thread goes on, the worth changes by its own. -/
theorem Account.balance_goOn
    (account : Account)
    (view : View k)
    (thread : Fin k)
    (own : Activity) :
    account.balance (view.goOn thread own) +
        account.ofActivity (view.activity thread) =
      account.balance view + account.ofActivity own := by
  have moved := total_update account.ofActivity view.activity thread own
  simp only [Account.balance, View.goOn]
  omega

/-- A thread goes on, in a pool whose queues may have changed. -/
theorem Account.balance_of_goOn
    {account : Account}
    {base : View k}
    {thread : Fin k}
    {own : Activity}
    (sameActivity : base.activity = view.activity)
    (kept :
      account.balance base + account.ofActivity own =
        account.balance view + account.ofActivity (view.activity thread) +
          account.change event) :
    account.balance (base.goOn thread own) =
      account.balance view + account.change event := by
  have moved := account.balance_goOn base thread own
  rw [sameActivity] at moved
  omega

/-- After `thp_wait` a thread is free. -/
theorem isFree_afterWait
    (destroys : Bool) :
    (afterWait destroys).isFree = true := by
  cases destroys <;> rfl

/-- A free thread goes on and stays free, and the queues are as they were. -/
theorem Account.balance_of_free
    (account : Account)
    {thread : Fin k}
    {own : Activity}
    (wasFree : (view.activity thread).isFree = true)
    (isFree : own.isFree = true)
    (silent : account.change event = 0) :
    account.balance (view.goOn thread own) =
      account.balance view + account.change event := by
  refine account.balance_of_goOn rfl ?_
  rw [account.ofActivity_of_free wasFree, account.ofActivity_of_free isFree,
    silent]
  simp

/-- A move changes the worth of the pool by its event. -/
theorem PoolMove.balances
    (move : PoolMove view label event next)
    (account : Account) :
    account.balance next = account.balance view + account.change event := by
  cases move with
  | still =>
      exact (Int.add_zero _).symm
  | addStart mayAdd =>
      refine account.balance_of_goOn rfl ?_
      simp [mayAdd.resumes, Account.balance, 
        Account.change]
  | addLock isAt _ =>
      refine account.balance_of_goOn rfl ?_
      simp [isAt, Account.balance, Account.change]
  | addPut isAt =>
      refine account.balance_of_goOn rfl ?_
      simp [isAt, Account.balance, Account.change,
        Account.ofEntry]
      omega
  | addCount isAt =>
      refine account.balance_of_goOn rfl ?_
      simp [isAt, Account.balance, Account.change]
      omega
  | addRead isAt =>
      refine account.balance_of_goOn rfl ?_
      simp [isAt, Account.balance, Account.change]
  | waitLoop isAt _ _ _ =>
      refine account.balance_of_goOn rfl ?_
      simp [isAt, Account.balance, Account.change]
  | waitDone isAt _ =>
      refine account.balance_of_goOn rfl ?_
      simp [isAt, Account.balance, Account.change]
  | collect isAt isDone =>
      refine account.balance_of_goOn rfl ?_
      simp [isAt, isDone, Account.balance, 
        Account.change]
      omega
  | take isAt isQueued =>
      refine account.balance_of_goOn rfl ?_
      simp [isAt, isQueued, Account.balance, 
        Account.change, Account.ofEntry]
      omega
  | exit isAt isQueued =>
      refine account.balance_of_goOn rfl ?_
      simp [isAt, isQueued, Account.balance, 
        Account.change, Account.ofEntry]
  | finish isAt =>
      refine account.balance_of_goOn rfl ?_
      simp [isAt, Account.balance, Account.change,
        Account.worth]
      omega
  | hand isAt =>
      refine account.balance_of_goOn rfl ?_
      simp [isAt, Account.balance, Account.change]
      omega
  | send isAt _ =>
      refine account.balance_of_goOn rfl ?_
      simp [isAt, Account.balance, Account.change,
        Account.ofEntry]
  | waitCall isAt =>
      exact account.balance_of_free (by rw [isAt]; rfl) rfl rfl
  | waitRefused isAt _ _ =>
      exact account.balance_of_free (by rw [isAt]; rfl) (isFree_afterWait _) rfl
  | waitNothing isAt _ _ _ =>
      exact account.balance_of_free (by rw [isAt]; rfl) (isFree_afterWait _) rfl
  | destroyCall isAt =>
      exact account.balance_of_free (by rw [isAt]; rfl) rfl rfl
  | sent isAt _ =>
      exact account.balance_of_free (by rw [isAt]; rfl) rfl rfl
  | join isAt _ _ =>
      exact account.balance_of_free (by rw [isAt]; rfl) rfl rfl
  | joined isAt _ =>
      exact account.balance_of_free (by rw [isAt]; rfl) rfl rfl

/-- A move changes `to_be_waited` as the jobs not collected. -/
theorem PoolMove.toBeWaited
    (move : PoolMove view label event next) :
    next.toBeWaited =
      view.toBeWaited + (outstanding fun _ => true).change event := by
  cases move <;> simp [View.goOn, Account.change, Account.worth, outstanding,
    oneFor]
  rfl

end Balance

section Sums

variable {k : Nat} {past : List (PoolEvent k)} {event : PoolEvent k}

/-- One more event. -/
@[simp] theorem Account.sum_concat
    (account : Account)
    (past : List (PoolEvent k))
    (event : PoolEvent k) :
    account.sum (past ++ [event]) = account.sum past + account.change event := by
  simp [Account.sum]

/-- An account whose events count jobs counts the jobs of the past. -/
theorem Account.sum_of_change
    {account : Account}
    {wanted : Nat → Bool}
    {gained : PoolEvent k → List Nat}
    (counts :
      ∀ event : PoolEvent k,
        account.change event =
          (gained event).countP wanted - (collectedOf event).countP wanted)
    (events : List (PoolEvent k)) :
    account.sum events =
      (events.flatMap gained).countP wanted -
        (collectedJobs events).countP wanted := by
  induction events with
  | nil =>
      rfl
  | cons event rest inductionHypothesis =>
      have split : account.sum (event :: rest) =
          account.change event + account.sum rest := by
        simp [Account.sum]
      rw [split, inductionHypothesis, counts]
      simp only [collectedJobs, List.flatMap_cons, List.countP_append,
        Int.natCast_add]
      omega

/-- The jobs that were counted and not collected. -/
theorem outstanding_sum
    (wanted : Nat → Bool)
    (events : List (PoolEvent k)) :
    (outstanding wanted).sum events =
      (addedJobs events).countP wanted -
        (collectedJobs events).countP wanted := by
  refine Account.sum_of_change ?_ events
  intro event
  cases event <;> simp [outstanding, Account.change, Account.worth, addedOf,
    collectedOf, oneFor, List.countP_singleton]

end Sums

end Clibs.Thp
