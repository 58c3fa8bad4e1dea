import Clibs.Fh.Threads
import Clibs.Lru.Threads

namespace Clibs.Lru

open Fh Ll

/-!
# The locks of a cache, one at a time

Here a call of a function of the list or of the table is several steps: taking
its lock, the section that the lock protects, giving the lock back and, for the
table, taking and giving back `e_lock` for the element counter.  A thread that
asks for a lock that is taken waits, also if it took the lock itself.
`fh_searchlock` keeps the lock of the chain when it finds the key, whatever
`lru_check` then makes of the object.
-/

/-- The lock a function takes first: that of the list, or of a chain. -/
inductive Entry where
  | list
  | chain (slot : Nat)
  deriving Repr, DecidableEq

/-- A lock: one of the pool, `ll->lock` or `e_lock`. -/
inductive LockName where
  | chain (number : Nat)
  | list
  | counter
  deriving Repr, DecidableEq

/-- What a call does with the counter once it gave the lock of the chain back. -/
inductive CounterUse where
  | change (change : CountChange)
  | getElem
  deriving Repr, DecidableEq

/-- The section of a call: the cache and the thread after it. -/
structure Section where
  lru : LruT
  keepsLock : Bool
  use : Option CounterUse
  after : ThreadState
  event : LruEvent

/-- The lock that a function of the table takes for a key. -/
def keyEntry
    (lru : LruT)
    (key : KeyPointer) : Checked (Option Entry) := do
  let key ← key.read
  if lru.fh.hMagic ≠ fhMagicId then
    .ok none
  else
    match key with
    | none =>
        .ok none
    | some key =>
        .ok (some (.chain (lru.fh.table.indexOf key)))

/-- The lock that the next call of a thread takes first, if it takes one. -/
def ThreadState.entry
    (lru : LruT) : ThreadState → Checked (Option Entry)
  | .idle =>
      .ok none
  | .adding _ _ point =>
      match point with
      | .take =>
          .ok (some .list)
      | .evict =>
          .ok (some .list)
      | .delete _ hashpayload =>
          keyEntry lru (lru.payloads hashpayload).fhKey
      | .free _ _ =>
          .ok (some .list)
      | .fill _ _ =>
          .ok none
      | .unfilled _ =>
          .ok (some .list)
      | .insert _ new =>
          keyEntry lru (lru.payloads new).fhKey
      | .undo _ _ _ =>
          .ok (some .list)
      | .link _ =>
          .ok (some .list)
  | .checking key .search =>
      keyEntry lru (.allocated key)
  | .checking _ (.move _ _) =>
      .ok (some .list)
  | .checking _ (.release _ _) =>
      .ok none
  | .clearing .remove =>
      .ok (some .list)
  | .clearing (.delete _ hashpayload) =>
      keyEntry lru (lru.payloads hashpayload).fhKey
  | .clearing (.free _ _) =>
      .ok (some .list)

/-- `fh_del` of the key of a record, without the lock and the counter. -/
def delSection
    (lru : LruT)
    (hashpayload : Nat) : Checked (LruT × Int) := do
  let key ← (lru.payloads hashpayload).fhKey.read
  if lru.fh.hMagic ≠ fhMagicId then
    .ok (lru, fhBadHandle)
  else
    match key with
    | none =>
        .ok (lru, fhInvalidKey)
    | some key => do
        let (table, code) ←
          fhDelUnlocked lru.fh.table key (lru.fh.table.indexOf key)
            (makeMinihash (lru.fh.table.hashFunction key))
        .ok
          ({ lru with
              fh :=
                { lru.fh with
                  table := table } },
            code)

/--
The counter after `fh_del`: a deletion is counted, and the message about an
error asks `fh_getattr` for the number of elements.
-/
def delUse
    (lru : LruT)
    (code : Int) : Option CounterUse :=
  if 0 ≤ code then
    some (.change .decElem)
  else if lru.fh.hMagic ≠ fhMagicId then
    none
  else
    some .getElem

/-- `fh_insert` of the key of a record, without the lock and the counter. -/
def insertSection
    (lru : LruT)
    (new : Nat)
    (grants : InsertGrants) : Checked (LruT × Option CounterUse × Int) := do
  let key ← (lru.payloads new).fhKey.read
  if lru.fh.hMagic ≠ fhMagicId then
    .ok (lru, none, fhBadHandle)
  else
    match key with
    | none =>
        .ok (lru, none, fhInvalidKey)
    | some key => do
        let (table, inserted) ←
          insertSlot lru.fh.table key (some (recordBlock new)) grants
        let next :=
          { lru with
            fh :=
              { lru.fh with
                table := table } }
        match inserted with
        | .error code =>
            .ok (next, none, code)
        | .ok _ =>
            .ok (next, some (.change .incElem), lru.fh.table.indexOf key)

/-- `fh_searchlock` without the lock. -/
def searchSection
    (lru : LruT)
    (key : CString) : Checked LockedResult :=
  if lru.fh.hMagic ≠ fhMagicId then
    .ok (.failed fhBadHandle)
  else do
    let found ← findSlot lru.fh.table key
    match found with
    | none =>
        .ok (.failed fhElementNotFound)
    | some slot =>
        .ok
          { opaqueObj := slot.opaqueObj
            error := fhOk
            lockedSlot := some (lru.fh.table.indexOf key)
            opaqueObjAddr := none }

/-- The section of the next call of a thread. -/
def runSection
    (lru : LruT)
    (grants : AddGrants) : ThreadState → Checked Section
  | .adding key payload (.delete slotToFree hashpayload) => do
      let (next, code) ← delSection lru hashpayload
      .ok
        { lru := next
          keepsLock := false
          use := delUse lru code
          after := .adding key payload (.free slotToFree hashpayload)
          event := .deleted code }
  | .adding key payload (.insert slot new) => do
      let (next, use, lruErr) ← insertSection lru new grants.insert
      .ok
        { lru := next
          keepsLock := false
          use := use
          after :=
            match insertError lruErr with
            | some code =>
                .adding key payload (.undo slot new code)
            | none =>
                .adding key payload (.link slot)
          event := .nothing }
  | .checking key .search => do
      let found ← searchSection lru key
      match recordOf found.opaqueObj with
      | none =>
          .ok
            { lru := lru
              keepsLock := found.lockedSlot.isSome
              use := none
              after := .idle
              event := .returned (.check key) ⟨lruElementNotFound, none⟩ }
      | some pload =>
          .ok
            { lru := lru
              keepsLock := found.lockedSlot.isSome
              use := none
              after := .checking key (.move pload found.lockedSlot)
              event := .nothing }
  | .clearing (.delete removed hashpayload) => do
      let (next, code) ← delSection lru hashpayload
      if code < 0 then
        .ok
          { lru := next
            keepsLock := false
            use := delUse lru code
            after := .idle
            event := .returned .clear ⟨lruElementNotFound, none⟩ }
      else
        .ok
          { lru := next
            keepsLock := false
            use := delUse lru code
            after := .clearing (.free removed hashpayload)
            event := .deleted code }
  | state => do
      let (next, after, event) ← threadStep lru grants state
      .ok
        { lru := next
          keepsLock := false
          use := none
          after := after
          event := event }

/-- Where a thread is between taking and giving back the locks of a call. -/
inductive LockState where
  /-- The thread is about to make its next call. -/
  | ready (state : ThreadState)
  /-- The call has its lock, and its section is to be run. -/
  | inside (entry : Entry) (state : ThreadState)
  /-- The section is over, and the lock is to be given back. -/
  | leaving
      (entry : Entry)
      (use : Option CounterUse)
      (after : ThreadState)
      (event : LruEvent)
  /-- The lock was given back, and `e_lock` is to be taken. -/
  | counting (use : CounterUse) (after : ThreadState) (event : LruEvent)
  /-- The call has `e_lock`, and the counter is to be used. -/
  | inCounter (use : CounterUse) (after : ThreadState) (event : LruEvent)
  /-- The counter was used, and `e_lock` is to be given back. -/
  | leavingCounter (after : ThreadState) (event : LruEvent)
  deriving Repr, DecidableEq

/-- A cache with the locks that are not in the pool, and its threads. -/
structure LockSystem (n : Nat) where
  lru : LruT
  eLock : Bool
  llLock : Bool
  threads : Fin n → LockState

namespace LockSystem

variable {n : Nat}

/-- A thread goes on. -/
def move
    (system : LockSystem n)
    (thread : Fin n)
    (state : LockState) : LockSystem n :=
  { system with
    threads := Function.update system.threads thread state }

/-- `_ll_lock`, or the lock function of the table. -/
def enter
    (system : LockSystem n) : Entry → Checked (LockSystem n)
  | .list =>
      if system.llLock then
        .error .lockAlreadyHeld
      else
        .ok
          { system with
            llLock := true }
  | .chain slot => do
      let locks ← system.lru.fh.locks.wlock slot
      .ok
        { system with
          lru :=
            { system.lru with
              fh :=
                { system.lru.fh with
                  locks := locks } } }

/-- `_ll_unlock`, or the unlock function of the table. -/
def leave
    (system : LockSystem n) : Entry → Checked (LockSystem n)
  | .list =>
      if system.llLock then
        .ok
          { system with
            llLock := false }
      else
        .error .unlockNotHeld
  | .chain slot => do
      let locks ← system.lru.fh.locks.unlock slot
      .ok
        { system with
          lru :=
            { system.lru with
              fh :=
                { system.lru.fh with
                  locks := locks } } }

/-- The counter is changed, or read. -/
def useCounter
    (system : LockSystem n) : CounterUse → LockSystem n
  | .change change =>
      { system with
        lru :=
          { system.lru with
            fh := system.lru.fh.changeElem change } }
  | .getElem =>
      system

/-- Where a thread goes when it has given back the lock of a call. -/
def goOn
    (system : LockSystem n)
    (thread : Fin n)
    (use : Option CounterUse)
    (after : ThreadState)
    (event : LruEvent) : LockSystem n × LruEvent :=
  match use with
  | none =>
      (system.move thread (.ready after), event)
  | some use =>
      (system.move thread (.counting use after event), .nothing)

/-- One step of a thread. -/
def threadStep
    (system : LockSystem n)
    (thread : Fin n)
    (grants : AddGrants) : Checked (LockSystem n × LruEvent) :=
  match system.threads thread with
  | .ready state => do
      match ← state.entry system.lru with
      | some entry => do
          let entered ← system.enter entry
          .ok (entered.move thread (.inside entry state), .nothing)
      | none => do
          let done ← runSection system.lru grants state
          .ok
            (goOn
              { system with
                lru := done.lru }
              thread done.use done.after done.event)
  | .inside entry state => do
      let done ← runSection system.lru grants state
      let ran :=
        { system with
          lru := done.lru }
      if done.keepsLock then
        .ok (ran.move thread (.ready done.after), done.event)
      else
        .ok
          (ran.move thread (.leaving entry done.use done.after done.event),
            .nothing)
  | .leaving entry use after event => do
      let left ← system.leave entry
      .ok (left.goOn thread use after event)
  | .counting use after event =>
      if system.eLock then
        .error .lockAlreadyHeld
      else
        .ok
          (move
            { system with
              eLock := true }
            thread (.inCounter use after event),
            .nothing)
  | .inCounter use after event =>
      .ok
        ((system.useCounter use).move thread (.leavingCounter after event),
          .nothing)
  | .leavingCounter after event =>
      if system.eLock then
        .ok
          (move
            { system with
              eLock := false }
            thread (.ready after),
            event)
      else
        .error .unlockNotHeld

end LockSystem

/--
One step of the system.  A thread inside a call does not make another one, and a
thread that asks for a lock that is taken waits.
-/
def lockStep
    {n : Nat}
    (system : LockSystem n) :
    Label n → Checked (LockSystem n × LruEvent)
  | .call thread call =>
      match system.threads thread with
      | .ready .idle =>
          if system.lru.magic ≠ lruMagicId then
            .ok (system, .returned call ⟨lruBadHandle, none⟩)
          else
            .ok (system.move thread (.ready call.start), .nothing)
      | _ =>
          .ok (system, .nothing)
  | .step thread grants =>
      match system.threadStep thread grants with
      | .error .lockAlreadyHeld =>
          .ok (system, .nothing)
      | outcome =>
          outcome

/-- The threads before their first calls; no lock is taken. -/
def lockStart
    (n : Nat)
    (lru : LruT) : LockSystem n where
  lru := lru
  eLock := false
  llLock := false
  threads _ := .ready .idle

/-- The name of the lock that a function takes. -/
def Entry.name
    (nLock : Nat) : Entry → LockName
  | .list =>
      .list
  | .chain slot =>
      .chain (slot % nLock)

/-- The lock that `lru_check` keeps between two calls. -/
def ThreadState.keptLocks
    (nLock : Nat)
    (state : ThreadState) : List LockName :=
  (state.lockedSlot.map fun slot => LockName.chain (slot % nLock)).toList

/-- The locks that a thread holds. -/
def LockState.locks
    (nLock : Nat) : LockState → List LockName
  | .ready state =>
      state.keptLocks nLock
  | .inside entry state =>
      entry.name nLock :: state.keptLocks nLock
  | .leaving entry _ after _ =>
      entry.name nLock :: after.keptLocks nLock
  | .counting _ after _ =>
      after.keptLocks nLock
  | .inCounter _ after _ =>
      .counter :: after.keptLocks nLock
  | .leavingCounter after _ =>
      .counter :: after.keptLocks nLock

/-- The lock that the next step of a thread asks for. -/
def LockSystem.asks
    {n : Nat}
    (system : LockSystem n)
    (thread : Fin n) : Option LockName :=
  match system.threads thread with
  | .ready state =>
      match state.entry system.lru with
      | .ok (some entry) =>
          some (entry.name system.lru.fh.locks.nLock)
      | _ =>
          none
  | .counting _ _ _ =>
      some .counter
  | _ =>
      none

/-- The lock is one that the thread holds. -/
def LockSystem.Holds
    {n : Nat}
    (system : LockSystem n)
    (thread : Fin n)
    (lock : LockName) : Prop :=
  lock ∈ (system.threads thread).locks system.lru.fh.locks.nLock

/-- Whether a lock is taken, for the state of the pool. -/
def LockSystem.taken
    {n : Nat}
    (system : LockSystem n)
    (pool : LockPool) : LockName → Bool
  | .chain number =>
      pool number
  | .list =>
      system.llLock
  | .counter =>
      system.eLock

/-- The thread is inside a function of the cache. -/
def LockSystem.Busy
    {n : Nat}
    (system : LockSystem n)
    (thread : Fin n) : Prop :=
  system.threads thread ≠ .ready .idle

/-- Whatever memory it is given, the thread goes on. -/
def LockSystem.CanStep
    {n : Nat}
    (system : LockSystem n)
    (thread : Fin n) : Prop :=
  ∀ grants,
    ∃ next event,
      lockStep system (.step thread grants) = .ok (next, event) ∧
        next.threads thread ≠ system.threads thread

end Clibs.Lru
