import Clibs.Fh.Map
import Clibs.Fh.Threads
import Clibs.Foundation.Linearization

namespace Clibs.Fh

/-!
# What the users of a shared table see

The threads of `Fh.Threads`, which also call `fh_get` and `fh_search`: the
locked section of one of these is a step, after which the call returns.  The
history of a run has the calls on the map of the table and their results.  An
`fh_clean` is seen as the calls of `fh_del` that it makes.

`MapStep` is one map, each call on which is a single step.
-/

/-- A call that reads a binding and gives the lock of the chain back. -/
inductive ReaderCall where
  | get (key : Option CString)
  | search (key : Option CString) (blockGiven : Bool) (blockSize : Int)
  deriving Repr, DecidableEq

/--
What it returns: the opaque object with `*error`, or a code with the bytes
copied out.
-/
inductive ReaderResult where
  | object (opaqueObj : Option OpaqueObj) (error : Int)
  | copied (code : Int) (written : List UInt8)
  deriving Repr, DecidableEq

/-- A call on the map of a table. -/
inductive MapCall where
  | update (call : UpdateCall)
  | searchlock (key : Option CString)
  | reader (call : ReaderCall)
  deriving Repr, DecidableEq

/-- The result of a call on the map. -/
inductive MapResult where
  | returned (result : CallResult)
  | reader (result : ReaderResult)
  deriving Repr, DecidableEq

/-- The calls and results that users see of a table. -/
abbrev TableHistory (n : Nat) :=
  List (HistoryEvent (Fin n) MapCall MapResult)

/-- The call on the map that a call of a thread is, if it is one. -/
def ThreadCall.mapCall : ThreadCall → Option MapCall
  | .update call =>
      some (.update call)
  | .searchlock key =>
      some (.searchlock key)
  | .releaselock _ =>
      none
  | .read _ =>
      none

/-- `fh_get` or `fh_search`. -/
def readerSection
    (fh : FhT) : ReaderCall → Checked (FhT × ReaderResult)
  | .get key => do
      let (fh, opaqueObj, error) ← fhGet fh key
      .ok (fh, .object opaqueObj error)
  | .search key blockGiven blockSize => do
      let (fh, code, written) ← fhSearch fh key blockGiven blockSize
      .ok (fh, .copied code written)

/-- A table, its threads, and the reads that these are in. -/
structure Users (n : Nat) where
  system : System n
  reads : Fin n → Option ReaderCall

/-- A step of the table's threads, a call that reads, or its section. -/
inductive UserLabel (n : Nat) where
  | table (label : Label n)
  | calls (thread : Fin n) (call : ReaderCall)
  | reads (thread : Fin n)
  deriving Repr, DecidableEq

/-- The thread of a step. -/
def Label.thread
    {n : Nat} : Label n → Fin n
  | .call thread _ =>
      thread
  | .step thread _ =>
      thread

/-- The call of `fh_del` that a step of the loop of `fh_clean` makes. -/
def cleanedBy
    {n : Nat}
    (fh : FhT)
    (thread : Fin n)
    (fhe : FhEnum) : TableHistory n :=
  if fhEnumIsValid fhe ≠ 0 then
    match fhEnumGetValue fhe with
    | (none, _) =>
        []
    | (some element, _) =>
        let key := element.key.map FhKey.string
        match delUpdate fh key with
        | .error _ =>
            []
        | .ok (_, _, code) =>
            [.calls thread (.update (.del key)),
              .returns thread (.update (.del key)) (.returned (.code code))]
  else
    []

/-- What is seen when a thread makes a call. -/
def callSeen
    {n : Nat}
    (thread : Fin n)
    (state : ThreadState)
    (call : ThreadCall) : TableHistory n :=
  match state.work with
  | .idle =>
      if call.keepsLock state.held then
        call.mapCall.toList.map (.calls thread)
      else
        []
  | _ =>
      []

/-- What is seen of a step of a thread that shows the event. -/
def stepSeen
    {n : Nat}
    (fh : FhT)
    (thread : Fin n)
    (state : ThreadState) : FhEvent → TableHistory n
  | .returned call result =>
      call.mapCall.toList.map fun op =>
        .returns thread op (.returned result)
  | _ =>
      match state.work with
      | .cleaning _ fhe =>
          cleanedBy fh thread fhe
      | _ =>
          []

/-- What is seen of a step of the table's threads. -/
def tableSeen
    {n : Nat}
    (system : System n)
    (event : FhEvent) : Label n → TableHistory n
  | .call thread call =>
      callSeen thread (system.threads thread) call
  | .step thread _ =>
      stepSeen system.fh thread (system.threads thread) event

/--
One step.  A thread that reads does not make another call, and waits when the
lock of the chain is taken.
-/
def usersStep
    {n : Nat}
    (users : Users n) : UserLabel n → Checked (Users n × TableHistory n)
  | .table label =>
      match users.reads label.thread with
      | some _ =>
          .ok (users, [])
      | none => do
          let (system, event) ← systemStep users.system label
          .ok
            ({ users with
                system := system },
              tableSeen users.system event label)
  | .calls thread call =>
      match users.reads thread, (users.system.threads thread).work with
      | none, .idle =>
          .ok
            ({ users with
                reads := Function.update users.reads thread (some call) },
              [.calls thread (.reader call)])
      | _, _ =>
          .ok (users, [])
  | .reads thread =>
      match users.reads thread with
      | none =>
          .ok (users, [])
      | some call =>
          match readerSection users.system.fh call with
          | .ok (fh, result) =>
              .ok
                ({ system :=
                    { users.system with
                      fh := fh }
                   reads := Function.update users.reads thread none },
                  [.returns thread (.reader call) (.reader result)])
          | .error .lockAlreadyHeld =>
              .ok (users, [])
          | .error fault =>
              .error fault

/-- The threads before their first calls. -/
def firstUsers
    (n : Nat)
    (fh : FhT) : Users n where
  system := start n fh
  reads _ := none

/--
A map of keys to objects, which numbers its chains.  An object that is inserted
with `fh_insertlock` has some address.
-/
inductive MapStep
    (datalen : Int)
    (indexOf : CString → Nat) :
    ObjectMap → MapCall → MapResult → ObjectMap → Prop where
  | insertNew
      {map : ObjectMap}
      {key : CString}
      {block : Option Block} :
      map key = none →
      MapStep datalen indexOf map (.update (.insert (some key) block))
        (.returned (.code (indexOf key)))
        (Function.update map key (some (boundObject datalen block)))
  | insertBound
      {map : ObjectMap}
      {key : CString}
      {block : Option Block} :
      map key ≠ none →
      MapStep datalen indexOf map (.update (.insert (some key) block))
        (.returned (.code fhDuplicatedElement)) map
  | insertNoKey
      {map : ObjectMap}
      {block : Option Block} :
      MapStep datalen indexOf map (.update (.insert none block))
        (.returned (.code fhInvalidKey)) map
  | insertlockNew
      {map : ObjectMap}
      {key : CString}
      {block : Option Block}
      {addrGiven : Bool}
      {address : Option SlotAddress} :
      map key = none →
      MapStep datalen indexOf map
        (.update (.insertlock (some key) block true addrGiven))
        (.returned
          (.locked
            { opaqueObj := boundObject datalen block
              error := fhOk
              lockedSlot := some (indexOf key)
              opaqueObjAddr := address }))
        (Function.update map key (some (boundObject datalen block)))
  | insertlockBound
      {map : ObjectMap}
      {key : CString}
      {block : Option Block}
      {addrGiven : Bool} :
      map key ≠ none →
      MapStep datalen indexOf map
        (.update (.insertlock (some key) block true addrGiven))
        (.returned (.locked (.failed fhDuplicatedElement))) map
  | insertlockNoKey
      {map : ObjectMap}
      {block : Option Block}
      {slotGiven addrGiven : Bool} :
      MapStep datalen indexOf map
        (.update (.insertlock none block slotGiven addrGiven))
        (.returned (.locked (.failed fhInvalidKey))) map
  | insertlockNoSlot
      {map : ObjectMap}
      {key : CString}
      {block : Option Block}
      {addrGiven : Bool} :
      MapStep datalen indexOf map
        (.update (.insertlock (some key) block false addrGiven))
        (.returned (.locked (.failed fhInvalidArgument))) map
  | delBound
      {map : ObjectMap}
      {key : CString} :
      map key ≠ none →
      MapStep datalen indexOf map (.update (.del (some key)))
        (.returned (.code (indexOf key)))
        (Function.update map key none)
  | delUnbound
      {map : ObjectMap}
      {key : CString} :
      map key = none →
      MapStep datalen indexOf map (.update (.del (some key)))
        (.returned (.code fhElementNotFound)) map
  | delNoKey
      {map : ObjectMap} :
      MapStep datalen indexOf map (.update (.del none))
        (.returned (.code fhInvalidKey)) map
  | dellockedBound
      {map : ObjectMap}
      {key : CString} :
      map key ≠ none →
      MapStep datalen indexOf map
        (.update (.dellocked (some key) (indexOf key)))
        (.returned (.code (indexOf key)))
        (Function.update map key none)
  | dellockedUnbound
      {map : ObjectMap}
      {key : CString}
      {lockedBucket : Nat} :
      (lockedBucket = indexOf key → map key = none) →
      MapStep datalen indexOf map
        (.update (.dellocked (some key) lockedBucket))
        (.returned (.code fhElementNotFound)) map
  | dellockedNoKey
      {map : ObjectMap}
      {lockedBucket : Nat} :
      MapStep datalen indexOf map (.update (.dellocked none lockedBucket))
        (.returned (.code fhInvalidKey)) map
  | searchlockBound
      {map : ObjectMap}
      {key : CString}
      {object : Option OpaqueObj} :
      map key = some object →
      MapStep datalen indexOf map (.searchlock (some key))
        (.returned
          (.locked
            { opaqueObj := object
              error := fhOk
              lockedSlot := some (indexOf key)
              opaqueObjAddr := none }))
        map
  | searchlockUnbound
      {map : ObjectMap}
      {key : CString} :
      map key = none →
      MapStep datalen indexOf map (.searchlock (some key))
        (.returned (.locked (.failed fhElementNotFound))) map
  | searchlockNoKey
      {map : ObjectMap} :
      MapStep datalen indexOf map (.searchlock none)
        (.returned (.locked (.failed fhInvalidKey))) map
  | getBound
      {map : ObjectMap}
      {key : CString}
      {object : Option OpaqueObj} :
      map key = some object →
      MapStep datalen indexOf map (.reader (.get (some key)))
        (.reader (.object object fhOk)) map
  | getUnbound
      {map : ObjectMap}
      {key : CString} :
      map key = none →
      MapStep datalen indexOf map (.reader (.get (some key)))
        (.reader (.object none fhElementNotFound)) map
  | getNoKey
      {map : ObjectMap} :
      MapStep datalen indexOf map (.reader (.get none))
        (.reader (.object none fhInvalidKey)) map
  | searchNoKey
      {map : ObjectMap}
      {blockGiven : Bool}
      {blockSize : Int} :
      MapStep datalen indexOf map
        (.reader (.search none blockGiven blockSize))
        (.reader (.copied fhInvalidKey [])) map
  | searchNoBlock
      {map : ObjectMap}
      {key : CString}
      {blockSize : Int} :
      MapStep datalen indexOf map
        (.reader (.search (some key) false blockSize))
        (.reader (.copied fhInvalidArgument [])) map
  | searchVoidp
      {map : ObjectMap}
      {key : CString}
      {blockSize : Int} :
      datalen = fhDatalenVoidp →
      MapStep datalen indexOf map
        (.reader (.search (some key) true blockSize))
        (.reader (.copied fhWrongDatalen [])) map
  | searchUnbound
      {map : ObjectMap}
      {key : CString}
      {blockSize : Int} :
      datalen ≠ fhDatalenVoidp →
      map key = none →
      MapStep datalen indexOf map
        (.reader (.search (some key) true blockSize))
        (.reader (.copied fhElementNotFound [])) map
  | searchRefused
      {map : ObjectMap}
      {key : CString}
      {object : Option OpaqueObj}
      {blockSize code : Int} :
      datalen ≠ fhDatalenVoidp →
      map key = some object →
      copyOut datalen object blockSize = .error code →
      MapStep datalen indexOf map
        (.reader (.search (some key) true blockSize))
        (.reader (.copied code [])) map
  | searchBound
      {map : ObjectMap}
      {key : CString}
      {object : Option OpaqueObj}
      {blockSize : Int}
      {written : List UInt8} :
      datalen ≠ fhDatalenVoidp →
      map key = some object →
      copyOut datalen object blockSize = .ok written →
      MapStep datalen indexOf map
        (.reader (.search (some key) true blockSize))
        (.reader (.copied (indexOf key) written)) map

end Clibs.Fh
