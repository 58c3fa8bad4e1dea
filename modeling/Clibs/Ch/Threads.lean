import Clibs.Ch.Queue
import Clibs.Foundation.Run
import Clibs.Foundation.ThreadTable

namespace Clibs.Ch

/-!
# Threads on a channel

Any number of threads call the functions of one channel.  A step is one locked
section, taken by a thread that calls a function or by a thread that comes back
from `pthread_cond_wait`.  A signal wakes one thread that sleeps on the
condition, if there is one; the step's label says which.  A sleeping thread may
also wake without a signal.
-/

/-- A call of a channel function. -/
inductive ChCall where
  | put (block : Block) (place : Place)
  | get (block : Nat)
  | peek (block : Nat)
  | clean (delFunc : Bool)
  | setattr (attr val : Int)
  deriving Repr, DecidableEq

/-- A call that waits inside its function, with the variables it still needs. -/
inductive Pending where
  | put (element : Nat) (block : Block) (place : Place)
  | get
  deriving Repr, DecidableEq

/-- Whether a waiting thread was signalled, or woke up on its own. -/
inductive Stage where
  | asleep
  | notified
  | awake
  deriving Repr, DecidableEq

/-- What a thread is doing. -/
inductive ThreadState where
  | idle
  | waiting (pending : Pending) (stage : Stage)
  deriving Repr, DecidableEq

/-- The condition a call waits for. -/
def Pending.condvar : Pending → Condvar
  | .put .. =>
      .put
  | .get =>
      .get

namespace ThreadState

/-- The call a thread waits in. -/
def pending : ThreadState → Option Pending
  | .idle =>
      none
  | .waiting pending _ =>
      some pending

/-- The thread waits for the condition, in the given stage. -/
def waits
    (condvar : Condvar)
    (stage : Stage) : ThreadState → Bool
  | .idle =>
      false
  | .waiting pending current =>
      pending.condvar = condvar ∧ current = stage

/-- A signalled thread. -/
def notify : ThreadState → ThreadState
  | .idle =>
      .idle
  | .waiting pending _ =>
      .waiting pending .notified

end ThreadState

/-- A channel and the threads that use it. -/
structure System (n : Nat) where
  ch : ChH
  threads : Fin n → ThreadState

/-- A step: who takes it, and which sleeper a signal would wake. -/
inductive Label (n : Nat) where
  | call (thread : Fin n) (call : ChCall) (choice : Nat)
  | resume (thread : Fin n) (choice : Nat)
  | wake (thread : Fin n)
  deriving Repr, DecidableEq

/-- `pthread_cond_signal`, if the section signals a condition. -/
def signal
    {n : Nat}
    (threads : Fin n → ThreadState)
    (choice : Nat) : Option Condvar → Fin n → ThreadState
  | none =>
      threads
  | some condvar =>
      wakeOne (ThreadState.waits condvar .asleep) ThreadState.notify
        choice threads

/-- The thread after its section: asleep in the call, or back from it. -/
def ThreadState.afterSection
    (pending : Pending) : ChEvent → ThreadState
  | .sleeps =>
      .waiting pending .asleep
  | _ =>
      .idle

/-- The system after a section of a call that may wait. -/
def finish
    {n : Nat}
    (threads : Fin n → ThreadState)
    (thread : Fin n)
    (choice : Nat)
    (pending : Pending) : Section → System n × ChEvent
  | (ch, event, condvar) =>
      (⟨ch, signal
          (Function.update threads thread (.afterSection pending event))
          choice condvar⟩, event)

/-- The first section of a call. -/
def callStep
    {n : Nat}
    (system : System n)
    (thread : Fin n)
    (choice : Nat) : ChCall → Checked (System n × ChEvent)
  | .put block place =>
      match chPutPrepare system.ch block with
      | (ch, .inl code) =>
          .ok ({ system with ch }, .returned code)
      | (ch, .inr element) => do
          let done ← chPutEnter ch element block place
          .ok (finish system.threads thread choice
            (.put element block place) done)
  | .get block => do
      let done ← chGetEnter system.ch block
      .ok (finish system.threads thread choice .get done)
  | .peek block => do
      let (ch, event, _) ← chPeek system.ch block
      .ok ({ system with ch }, event)
  | .clean delFunc => do
      let (ch, event, _) ← chClean system.ch delFunc
      .ok ({ system with ch }, event)
  | .setattr attr val =>
      let (ch, code) := chSetattr system.ch attr val
      .ok ({ system with ch }, .returned code)

/-- The section of a call that comes back from `pthread_cond_wait`. -/
def resumeSection
    (ch : ChH) : Pending → Checked Section
  | .put element block place =>
      chPutResume ch element block place
  | .get =>
      chGetResume ch

/-- A later section of a call. -/
def resumeStep
    {n : Nat}
    (system : System n)
    (thread : Fin n)
    (choice : Nat)
    (pending : Pending) : Checked (System n × ChEvent) := do
  let done ← resumeSection system.ch pending
  .ok (finish system.threads thread choice pending done)

/--
One step.  A thread inside a call does not make another one, and only a thread
that is no longer asleep comes back; a label that asks for either does nothing.
-/
def systemStep
    {n : Nat}
    (system : System n) :
    Label n → Checked (System n × ChEvent)
  | .call thread call choice =>
      match system.threads thread with
      | .idle =>
          callStep system thread choice call
      | .waiting _ _ =>
          .ok (system, .nothing)
  | .resume thread choice =>
      match system.threads thread with
      | .waiting pending .notified =>
          resumeStep system thread choice pending
      | .waiting pending .awake =>
          resumeStep system thread choice pending
      | _ =>
          .ok (system, .nothing)
  | .wake thread =>
      match system.threads thread with
      | .waiting pending .asleep =>
          .ok ({ system with
            threads :=
              Function.update system.threads thread
                (.waiting pending .awake) }, .nothing)
      | _ =>
          .ok (system, .nothing)

/-- The channel that `ch_create` and two calls of `ch_setattr` make. -/
def configured (settings : Settings) : ChH :=
  let ch := chCreate settings.datalen fun _ => true
  let ch := (chSetattr ch chFixedSize settings.size).1
  (chSetattr ch chBlockingMode
    (if settings.blocking then 1 else 0)).1

/-- The threads before their first calls. -/
def start
    (n : Nat)
    (settings : Settings) : System n where
  ch :=
    configured settings
  threads _ :=
    .idle

end Clibs.Ch
