import Clibs.Foundation.Run
import Clibs.Foundation.ThreadTable
import Clibs.Lru.Recency

namespace Clibs.Lru

open Fh Ll

/-!
# Threads on a cache

Any number of threads call the functions of one cache.  A step is one call of a
function of the list or of the table, with the code of `lru.c` before it.  The
lock of a chain is held from `fh_searchlock` to `fh_releaselock`; a thread whose
call needs a lock that another thread holds waits, so its step does nothing.
-/

/-- Where a thread is in `lru_add`. -/
inductive AddPoint where
  | take
  | evict
  | delete (slotToFree hashpayload : Nat)
  | free (slotToFree hashpayload : Nat)
  | fill (slot new : Nat)
  | unfilled (slot : Nat)
  | insert (slot new : Nat)
  | undo (slot new : Nat) (code : Int)
  | link (slot : Nat)
  deriving Repr, DecidableEq

/-- Where a thread is in `lru_check`. -/
inductive CheckPoint where
  | search
  | move (pload : Nat) (fhslot : Option Nat)
  | release (payload : Nat) (fhslot : Option Nat)
  deriving Repr, DecidableEq

/-- Where a thread is in `lru_clear`. -/
inductive ClearPoint where
  | remove
  | delete (removed hashpayload : Nat)
  | free (removed hashpayload : Nat)
  deriving Repr, DecidableEq

/-- What a thread is doing. -/
inductive ThreadState where
  | idle
  | adding (key : CString) (payload : Nat) (point : AddPoint)
  | checking (key : CString) (point : CheckPoint)
  | clearing (point : ClearPoint)
  deriving Repr, DecidableEq

/-- What a step lets one see: the result of `fh_del`, or that of the call. -/
inductive LruEvent where
  | nothing
  | deleted (code : Int)
  | returned (call : LruCall) (result : LruResult)
  deriving Repr, DecidableEq

/-- A cache and the threads that use it. -/
structure System (n : Nat) where
  lru : LruT
  threads : Fin n → ThreadState

/-- A thread makes a call, or takes the next step of the one it is in. -/
inductive Label (n : Nat) where
  | call (thread : Fin n) (call : LruCall)
  | step (thread : Fin n) (grants : AddGrants)
  deriving Repr, DecidableEq

/-- A step of a thread: the cache and the thread after it. -/
abbrev Step :=
  LruT × ThreadState × LruEvent

/-- A step of `lru_add`. -/
def addStep
    (lru : LruT)
    (key : CString)
    (payload : Nat)
    (grants : AddGrants) : AddPoint → Checked Step
  | .take =>
      match slotNew lru with
      | (lru, some (slot, new)) =>
          .ok (lru, .adding key payload (.fill slot new), .nothing)
      | (lru, none) =>
          .ok (lru, .adding key payload .evict, .nothing)
  | .evict =>
      match removeLast lru with
      | (lru, some (slotToFree, hashpayload)) =>
          .ok
            (lru, .adding key payload (.delete slotToFree hashpayload),
              .nothing)
      | (lru, none) =>
          .ok (lru, .idle, .returned (.add key payload) ⟨lruNoMemory, none⟩)
  | .delete slotToFree hashpayload => do
      let (lru, code) ← delKey lru hashpayload
      .ok
        (lru, .adding key payload (.free slotToFree hashpayload),
          .deleted code)
  | .free slotToFree hashpayload => do
      let lru ← freeKeyAndSlot lru hashpayload slotToFree
      .ok (lru, .adding key payload .take, .nothing)
  | .fill slot new =>
      .ok
        (fillRecord lru new slot key payload grants.key,
          .adding key payload
            (if grants.key then .insert slot new else .unfilled slot),
          .nothing)
  | .unfilled slot =>
      .ok
        (freeSlotOnly lru slot, .idle,
          .returned (.add key payload) ⟨lruNoMemory, none⟩)
  | .insert slot new => do
      let (lru, lruErr) ← insertKey lru new grants.insert
      match insertError lruErr with
      | some code =>
          .ok (lru, .adding key payload (.undo slot new code), .nothing)
      | none =>
          .ok (lru, .adding key payload (.link slot), .nothing)
  | .undo slot new code => do
      let lru ← freeKeyAndSlot lru new slot
      .ok (lru, .idle, .returned (.add key payload) ⟨code, none⟩)
  | .link slot =>
      .ok
        (addToTop lru slot, .idle,
          .returned (.add key payload) ⟨lruOk, none⟩)

/-- A step of `lru_check`. -/
def checkStep
    (lru : LruT)
    (key : CString) : CheckPoint → Checked Step
  | .search => do
      let (lru, found) ← searchKey lru key
      match recordOf found.opaqueObj with
      | none =>
          .ok
            (lru, .idle,
              .returned (.check key) ⟨lruElementNotFound, none⟩)
      | some pload =>
          .ok (lru, .checking key (.move pload found.lockedSlot), .nothing)
  | .move pload fhslot => do
      let (lru, payload) ← moveToTop lru pload
      .ok (lru, .checking key (.release payload fhslot), .nothing)
  | .release payload fhslot => do
      let lru ← releaseKey lru fhslot
      .ok (lru, .idle, .returned (.check key) ⟨lruOk, some payload⟩)

/-- A step of `lru_clear`. -/
def clearStep (lru : LruT) : ClearPoint → Checked Step
  | .remove =>
      match removeLast lru with
      | (lru, some (removed, hashpayload)) =>
          .ok (lru, .clearing (.delete removed hashpayload), .nothing)
      | (lru, none) =>
          .ok (lru, .idle, .returned .clear ⟨lruOk, none⟩)
  | .delete removed hashpayload => do
      let (lru, code) ← delKey lru hashpayload
      if code < 0 then
        .ok (lru, .idle, .returned .clear ⟨lruElementNotFound, none⟩)
      else
        .ok (lru, .clearing (.free removed hashpayload), .deleted code)
  | .free removed hashpayload => do
      let lru ← freeKeyAndSlot lru hashpayload removed
      .ok (lru, .clearing .remove, .nothing)

/-- A step of the call a thread is in. -/
def threadStep
    (lru : LruT)
    (grants : AddGrants) : ThreadState → Checked Step
  | .idle =>
      .ok (lru, .idle, .nothing)
  | .adding key payload point =>
      addStep lru key payload grants point
  | .checking key point =>
      checkStep lru key point
  | .clearing point =>
      clearStep lru point

/-- Where a call begins. -/
def LruCall.start : LruCall → ThreadState
  | .add key payload =>
      .adding key payload .take
  | .check key =>
      .checking key .search
  | .clear =>
      .clearing .remove

/--
One step of the system.  A thread inside a call does not make another one, and a
thread that would take a lock that is held waits.
-/
def systemStep
    {n : Nat}
    (system : System n) :
    Label n → Checked (System n × LruEvent)
  | .call thread call =>
      match system.threads thread with
      | .idle =>
          if system.lru.magic ≠ lruMagicId then
            .ok (system, .returned call ⟨lruBadHandle, none⟩)
          else
            .ok
              ({ system with
                  threads :=
                    Function.update system.threads thread call.start },
                .nothing)
      | _ =>
          .ok (system, .nothing)
  | .step thread grants =>
      match threadStep system.lru grants (system.threads thread) with
      | .ok (lru, state, event) =>
          .ok
            ({ lru := lru
               threads := Function.update system.threads thread state },
              event)
      | .error .lockAlreadyHeld =>
          .ok (system, .nothing)
      | .error fault =>
          .error fault

/-- A thread that steps waits for a lock, or makes a step of its call. -/
theorem systemStep_step
    {n : Nat}
    {system next : System n}
    {thread : Fin n}
    {grants : AddGrants}
    {event : LruEvent}
    (steps : systemStep system (.step thread grants) = .ok (next, event)) :
    (next = system ∧ event = .nothing) ∨
      ∃ lru state,
        threadStep system.lru grants (system.threads thread) =
            .ok (lru, state, event) ∧
          next =
            { lru := lru
              threads := Function.update system.threads thread state } := by
  rw [systemStep] at steps
  split at steps
  next lru state made makes =>
    cases steps
    exact .inr ⟨lru, state, makes, rfl⟩
  next =>
    cases steps
    exact .inl ⟨rfl, rfl⟩
  next =>
    cases steps

/-- A thread that calls begins the call, or nothing happens. -/
theorem systemStep_call
    {n : Nat}
    {system next : System n}
    {thread : Fin n}
    {call : LruCall}
    {event : LruEvent}
    (steps : systemStep system (.call thread call) = .ok (next, event)) :
    next = system ∨
      system.threads thread = .idle ∧
        next =
          { system with
            threads := Function.update system.threads thread call.start } := by
  rw [systemStep] at steps
  split at steps
  next isIdle =>
    split at steps
    next =>
      cases steps
      exact .inl rfl
    next =>
      cases steps
      exact .inr ⟨isIdle, rfl⟩
  next =>
    cases steps
    exact .inl rfl

/-- The threads before their first calls. -/
def start
    (n : Nat)
    (lru : LruT) : System n where
  lru := lru
  threads _ := .idle

/-- The slot in the hands of a thread. -/
def ThreadState.slot : ThreadState → Option Nat
  | .adding _ _ point =>
      match point with
      | .take =>
          none
      | .evict =>
          none
      | .delete slotToFree _ =>
          some slotToFree
      | .free slotToFree _ =>
          some slotToFree
      | .fill slot _ =>
          some slot
      | .unfilled slot =>
          some slot
      | .insert slot _ =>
          some slot
      | .undo slot _ _ =>
          some slot
      | .link slot =>
          some slot
  | .clearing (.delete removed _) =>
      some removed
  | .clearing (.free removed _) =>
      some removed
  | _ =>
      none

/-- The chain whose lock a thread holds. -/
def ThreadState.lockedSlot : ThreadState → Option Nat
  | .checking _ (.move _ fhslot) =>
      fhslot
  | .checking _ (.release _ fhslot) =>
      fhslot
  | _ =>
      none

end Clibs.Lru
