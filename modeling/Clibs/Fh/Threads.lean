import Clibs.Fh.Clean
import Clibs.Foundation.ThreadTable

namespace Clibs.Fh

/-!
# Threads on a hash table

Any number of threads call the functions of one table.  The locked section that
updates a chain and the update of the element counter under `e_lock` are two
steps, and so are reading the counter and what is decided on the value.  An
enumeration visits each chain in a step of its own.  A thread whose step needs
the lock of a chain that is taken waits, so its step does nothing.  The
allocations of insertions succeed, and what the user's delete function does is
left out.
-/

/-- A call that updates a chain and then the element counter. -/
inductive UpdateCall where
  | insert (key : Option CString) (block : Option Block)
  | insertlock
      (key : Option CString)
      (block : Option Block)
      (slotGiven addrGiven : Bool)
  | del (key : Option CString)
  | dellocked (key : Option CString) (lockedBucket : Nat)
  deriving Repr, DecidableEq

/-- What an enumerator is created for. -/
inductive EnumCall where
  | create (sortOrder : Int)
  | clean (withDelFunc : Bool)
  deriving Repr, DecidableEq

/-- A call that reads the element counter and decides on its value. -/
inductive ReadCall where
  | getattrElement
  | setattrDontcopykey
  | enumerate (call : EnumCall)
  deriving Repr, DecidableEq

/-- A call on a table that other threads use, too. -/
inductive ThreadCall where
  | update (call : UpdateCall)
  | searchlock (key : Option CString)
  | releaselock (slot : Nat)
  | read (call : ReadCall)
  deriving Repr, DecidableEq

/-- What a call returns and stores for its caller. -/
inductive CallResult where
  | code (code : Int)
  | locked (result : LockedResult)
  | attr (code : Int) (value : Option Int)
  | enum (created : Except Int FhEnum)
  deriving Repr, DecidableEq

/-- A change of `h_elements` that a locked section calls for. -/
inductive CountChange where
  | incElem
  | decElem
  deriving Repr, DecidableEq

/-- `_fh_inc_elem` or `_fh_dec_elem`. -/
def FhT.changeElem
    (fh : FhT) : CountChange → FhT
  | .incElem =>
      { fh with
        hElements := fh.hElements + 1 }
  | .decElem =>
      { fh with
        hElements := fh.hElements - 1 }

/--
The end of a locked section: the handle, the change of the counter that is
still to be made, and what the call will return.
-/
abbrev Update (Result : Type) :=
  FhT × Option CountChange × Result

/-- The change of the counter is made, if there is one. -/
def Update.counted
    {Result : Type} : Update Result → FhT × Result
  | (fh, none, result) =>
      (fh, result)
  | (fh, some change, result) =>
      (fh.changeElem change, result)

/-- `fh_insert` up to the release of the lock. -/
def insertUpdate
    (fh : FhT)
    (key : Option CString)
    (block : Option Block)
    (grants : InsertGrants) : Checked (Update Int) :=
  if fh.hMagic ≠ fhMagicId then
    .ok (fh, none, fhBadHandle)
  else
    match key with
    | none =>
        .ok (fh, none, fhInvalidKey)
    | some key => do
        let hashindex := fh.table.hashindex (fh.table.hashFunction key)
        let locks ← fh.locks.wlock hashindex
        let (table, inserted) ← insertSlot fh.table key block grants
        let locks ← locks.unlock hashindex
        let fh :=
          { fh with
            table := table
            locks := locks }
        match inserted with
        | .error code =>
            .ok (fh, none, code)
        | .ok _ =>
            .ok (fh, some .incElem, hashindex)

/-- `fh_insertlock` up to the update of the counter. -/
def insertlockUpdate
    (fh : FhT)
    (key : Option CString)
    (block : Option Block)
    (slotGiven addrGiven : Bool)
    (grants : InsertGrants) : Checked (Update LockedResult) :=
  if fh.hMagic ≠ fhMagicId then
    .ok (fh, none, .failed fhBadHandle)
  else
    match key with
    | none =>
        .ok (fh, none, .failed fhInvalidKey)
    | some key =>
        if slotGiven = false then
          .ok (fh, none, .failed fhInvalidArgument)
        else do
          let hashindex := fh.table.hashindex (fh.table.hashFunction key)
          let locks ← fh.locks.wlock hashindex
          let (table, inserted) ← insertSlot fh.table key block grants
          match inserted with
          | .error code =>
              let locks ← locks.unlock hashindex
              .ok
                ({ fh with
                    table := table
                    locks := locks },
                  none, .failed code)
          | .ok address =>
              .ok
                ({ fh with
                    table := table
                    locks := locks },
                  some .incElem,
                  { opaqueObj := (table.slotAt hashindex address).opaqueObj
                    error := fhOk
                    lockedSlot := some hashindex
                    opaqueObjAddr :=
                      if addrGiven ∧ table.hDatalen = fhDatalenVoidp then
                        some address
                      else
                        none })

/-- What `rc >= 0` after `_fh_del` says about the counter. -/
def deletionChange (code : Int) : Option CountChange :=
  if 0 ≤ code then
    some .decElem
  else
    none

/-- `fh_del` up to the release of the lock. -/
def delUpdate
    (fh : FhT)
    (key : Option CString) : Checked (Update Int) :=
  if fh.hMagic ≠ fhMagicId then
    .ok (fh, none, fhBadHandle)
  else
    match key with
    | none =>
        .ok (fh, none, fhInvalidKey)
    | some key => do
        let hash := fh.table.hashFunction key
        let hashIndex := fh.table.hashindex hash
        let locks ← fh.locks.wlock hashIndex
        let (table, code) ←
          fhDelUnlocked fh.table key hashIndex (makeMinihash hash)
        let locks ← locks.unlock hashIndex
        .ok
          ({ fh with
              table := table
              locks := locks },
            deletionChange code, code)

/-- `fh_dellocked` up to the update of the counter. -/
def dellockedUpdate
    (fh : FhT)
    (key : Option CString)
    (lockedBucket : Nat) : Checked (Update Int) :=
  if fh.hMagic ≠ fhMagicId then
    .ok (fh, none, fhBadHandle)
  else
    match key with
    | none =>
        .ok (fh, none, fhInvalidKey)
    | some key => do
        let hash := fh.table.hashFunction key
        let (table, code) ←
          fhDelUnlocked fh.table key lockedBucket (makeMinihash hash)
        .ok
          ({ fh with
              table := table },
            deletionChange code, code)

section Sequential

variable (fh : FhT)
  (block : Option Block)
  (grants : InsertGrants)

/-- `fh_insert` is its locked section and then the update of the counter. -/
theorem fhInsert_update
    (key : Option CString) :
    fhInsert fh key block grants =
      (do
        let update ← insertUpdate fh key block grants
        .ok update.counted) := by
  unfold fhInsert insertUpdate
  split
  · rfl
  · cases key with
    | none =>
        rfl
    | some key =>
        simp only [bind_assoc]
        apply bind_congr
        intro held
        apply bind_congr
        rintro ⟨table, inserted⟩
        apply bind_congr
        intro locks
        cases inserted with
        | error code =>
            rfl
        | ok address =>
            rfl

/-- `fh_insertlock` is its table update and then that of the counter. -/
theorem fhInsertlock_update
    (key : Option CString)
    (slotGiven addrGiven : Bool) :
    fhInsertlock fh key block slotGiven addrGiven grants =
      (do
        let update ← insertlockUpdate fh key block slotGiven addrGiven grants
        .ok update.counted) := by
  unfold fhInsertlock insertlockUpdate
  split
  · rfl
  · cases key with
    | none =>
        rfl
    | some key =>
        cases slotGiven with
        | false =>
            rfl
        | true =>
            simp only [Bool.true_eq_false, if_false, bind_assoc]
            apply bind_congr
            intro held
            apply bind_congr
            rintro ⟨table, inserted⟩
            cases inserted with
            | error code =>
                simp only [bind_assoc]
                rfl
            | ok address =>
                rfl

/-- Counting a deletion is making the change it calls for. -/
theorem countDeletion_update
    (code : Int) :
    countDeletion fh code =
      Update.counted (fh, deletionChange code, code) := by
  unfold countDeletion deletionChange
  split
  · rfl
  · rfl

/-- `fh_del` is its locked section and then the update of the counter. -/
theorem fhDel_update
    (key : Option CString) :
    fhDel fh key =
      (do
        let update ← delUpdate fh key
        .ok update.counted) := by
  unfold fhDel delUpdate
  split
  · rfl
  · cases key with
    | none =>
        rfl
    | some key =>
        simp only [bind_assoc, countDeletion_update]
        rfl

/-- `fh_dellocked` is its table update and then that of the counter. -/
theorem fhDellocked_update
    (key : Option CString)
    (lockedBucket : Nat) :
    fhDellocked fh key lockedBucket =
      (do
        let update ← dellockedUpdate fh key lockedBucket
        .ok update.counted) := by
  unfold fhDellocked dellockedUpdate
  split
  · rfl
  · cases key with
    | none =>
        rfl
    | some key =>
        simp only [bind_assoc, countDeletion_update]
        rfl

end Sequential

/-- What a thread does once the counter is as it should be. -/
inductive Resume where
  | returns (call : UpdateCall) (result : CallResult)
  | cleans (withDelFunc : Bool) (fhe : FhEnum)
  deriving Repr, DecidableEq

/-- Where a thread is in its call, with the variables it still needs. -/
inductive Work where
  | idle
  | entered (call : ThreadCall)
  | counting (change : CountChange) (resume : Resume)
  | hasRead (call : ReadCall) (elements : Int)
  | visiting
      (call : EnumCall)
      (elements index : Nat)
      (recorded : List FhElem)
  | cleaning (withDelFunc : Bool) (fhe : FhEnum)
  deriving Repr, DecidableEq

/-- What a thread is doing, and the chains whose locks it keeps. -/
structure ThreadState where
  work : Work
  held : List Nat
  deriving Repr, DecidableEq

/--
What a step lets one see: the value read from `h_elements`, what a chain held
when it was visited, or the result of the call.
-/
inductive FhEvent where
  | nothing
  | read (elements : Int)
  | visited (held : List FhElem)
  | returned (call : ThreadCall) (result : CallResult)
  deriving Repr, DecidableEq

/-- A step of a thread: the table and the thread after it. -/
abbrev ThreadStep :=
  FhT × ThreadState × FhEvent

/-- The thread returns from its call. -/
def returnFrom
    (fh : FhT)
    (held : List Nat)
    (call : ThreadCall)
    (result : CallResult) : ThreadStep :=
  (fh, ⟨.idle, held⟩, .returned call result)

/-- The thread goes on after its locked section. -/
def Resume.go
    (fh : FhT)
    (held : List Nat) : Resume → ThreadStep
  | .returns call result =>
      returnFrom fh held (.update call) result
  | .cleans withDelFunc fhe =>
      (fh, ⟨.cleaning withDelFunc fhe, held⟩, .nothing)

/-- The end of a locked section: the counter is to be changed next, or not. -/
def Resume.after
    (fh : FhT)
    (held : List Nat)
    (resume : Resume) : Option CountChange → ThreadStep
  | none =>
      resume.go fh held
  | some change =>
      (fh, ⟨.counting change resume, held⟩, .nothing)

/-- The table update of a call. -/
def updateStep
    (fh : FhT)
    (held : List Nat) : UpdateCall → Checked ThreadStep
  | .insert key block => do
      let (fh, change, code) ← insertUpdate fh key block .all
      .ok
        (Resume.after fh held (.returns (.insert key block) (.code code))
          change)
  | .insertlock key block slotGiven addrGiven => do
      let (fh, change, result) ←
        insertlockUpdate fh key block slotGiven addrGiven .all
      .ok
        (Resume.after fh (result.lockedSlot.toList ++ held)
          (.returns (.insertlock key block slotGiven addrGiven)
            (.locked result))
          change)
  | .del key => do
      let (fh, change, code) ← delUpdate fh key
      .ok (Resume.after fh held (.returns (.del key) (.code code)) change)
  | .dellocked key lockedBucket => do
      let (fh, change, code) ← dellockedUpdate fh key lockedBucket
      .ok
        (Resume.after fh held
          (.returns (.dellocked key lockedBucket) (.code code)) change)

/-- The result of a call that fails with the given code. -/
def ReadCall.failed
    (code : Int) : ReadCall → CallResult
  | .getattrElement =>
      .attr code none
  | .setattrDontcopykey =>
      .code code
  | .enumerate (.create _) =>
      .enum (.error code)
  | .enumerate (.clean _) =>
      .code code

/-- `fh_clean` is given a delete function for objects the table copied. -/
def ReadCall.wrongDelFunc
    (datalen : Int) : ReadCall → Bool
  | .enumerate (.clean withDelFunc) =>
      withDelFunc ∧ datalen ≠ fhDatalenVoidp
  | _ =>
      false

/-- The call reads the element counter, after its checks. -/
def readStep
    (fh : FhT)
    (held : List Nat)
    (call : ReadCall) : ThreadStep :=
  if fh.hMagic ≠ fhMagicId then
    returnFrom fh held (.read call) (call.failed fhBadHandle)
  else if call.wrongDelFunc fh.table.hDatalen then
    returnFrom fh held (.read call) (call.failed fhFreeNotRequested)
  else
    (fh, ⟨.hasRead call fh.hElements, held⟩, .read fh.hElements)

/-- The first step of a call. -/
def enterStep
    (fh : FhT)
    (held : List Nat) : ThreadCall → Checked ThreadStep
  | .update call =>
      updateStep fh held call
  | .searchlock key => do
      let (fh, result) ← fhSearchlock fh key
      .ok
        (returnFrom fh (result.lockedSlot.toList ++ held) (.searchlock key)
          (.locked result))
  | .releaselock slot => do
      let (fh, code) ← fhReleaselock fh slot
      .ok
        (returnFrom fh (if code = fhOk then held.erase slot else held)
          (.releaselock slot) (.code code))
  | .read call =>
      .ok (readStep fh held call)

/-- What a call does with the value it read from the counter. -/
def decideStep
    (fh : FhT)
    (held : List Nat)
    (elements : Int)
    (grants : EnumGrants) : ReadCall → ThreadStep
  | .getattrElement =>
      returnFrom fh held (.read .getattrElement)
        (.attr fhOk (some elements))
  | .setattrDontcopykey =>
      if 0 < elements then
        returnFrom fh held (.read .setattrDontcopykey)
          (.code fhErrorOperationNotPermitted)
      else
        returnFrom
          { fh with
            table :=
              { fh.table with
                hAttr := fh.table.hAttr ||| fhSetattrDontcopykey } }
          held (.read .setattrDontcopykey) (.code fhOk)
  | .enumerate call =>
      if elements < 1 then
        returnFrom fh held (.read (.enumerate call))
          (ReadCall.failed fhEmptyHashtable (.enumerate call))
      else if grants.handle = false then
        returnFrom fh held (.read (.enumerate call))
          (ReadCall.failed fhNoMemory (.enumerate call))
      else if grants.elemList = false then
        returnFrom fh held (.read (.enumerate call))
          (ReadCall.failed fhNoMemory (.enumerate call))
      else
        (fh, ⟨.visiting call elements.toNat 0 [], held⟩, .nothing)

/-- One turn of the loop of `fh_enum_create` over the chains. -/
def visitChain
    (table : FhTable)
    (elements index : Nat)
    (locks : FhLocks)
    (recorded : List FhElem) : Checked (FhLocks × List FhElem) := do
  let locks ← locks.wlock index
  let recorded := recordChain elements (table.hashTable index) recorded
  let locks ← locks.unlock index
  .ok (locks, recorded)

/-- The enumerator that `fh_enum_create` returns. -/
def createdEnum
    (elements : Nat)
    (recorded sorted : List FhElem) : FhEnum where
  magic := fheMagicId
  idx := 0
  elemList :=
    sorted ++ List.replicate (elements - recorded.length) FhElem.zero
  size := recorded.length
  isValid := 1

/-- The end of `fh_enum_create`, called by the user or by `fh_clean`. -/
def finishEnum
    (fh : FhT)
    (held : List Nat)
    (elements : Nat)
    (recorded : List FhElem) : EnumCall → Checked ThreadStep
  | .create sortOrder => do
      let sorted ← sortElems sortOrder recorded
      .ok
        (returnFrom fh held (.read (.enumerate (.create sortOrder)))
          (.enum (.ok (createdEnum elements recorded sorted))))
  | .clean withDelFunc => do
      let sorted ← sortElems 0 recorded
      .ok
        (fh,
          ⟨.cleaning withDelFunc (createdEnum elements recorded sorted),
            held⟩,
          .nothing)

/-- A step of the loop of `fh_enum_create`. -/
def visitStep
    (fh : FhT)
    (held : List Nat)
    (call : EnumCall)
    (elements index : Nat)
    (recorded : List FhElem) : Checked ThreadStep :=
  if index < fh.table.hDim ∧ recorded.length < elements then do
    let (locks, next) ←
      visitChain fh.table elements index fh.locks recorded
    .ok
      ({ fh with
          locks := locks },
        ⟨.visiting call elements (index + 1) next, held⟩,
        .visited (chainElems (fh.table.hashTable index)))
  else
    finishEnum fh held elements recorded call

/-- A step of the loop of `fh_clean`. -/
def cleanStep
    (fh : FhT)
    (held : List Nat)
    (withDelFunc : Bool)
    (fhe : FhEnum) : Checked ThreadStep :=
  if fhEnumIsValid fhe ≠ 0 then
    match fhEnumGetValue fhe with
    | (none, error) =>
        .ok
          (returnFrom fh held (.read (.enumerate (.clean withDelFunc)))
            (.code (error.getD fhOk)))
    | (some element, _) => do
        let (fh, change, _) ← delUpdate fh (element.key.map FhKey.string)
        .ok
          (Resume.after fh held
            (.cleans withDelFunc (fhEnumMoveNext fhe).1) change)
  else
    .ok
      (returnFrom fh held (.read (.enumerate (.clean withDelFunc)))
        (.code fhOk))

/-- The next step of the call a thread is in. -/
def threadStep
    (fh : FhT)
    (grants : EnumGrants)
    (state : ThreadState) : Checked ThreadStep :=
  match state.work with
  | .idle =>
      .ok (fh, state, .nothing)
  | .entered call =>
      enterStep fh state.held call
  | .counting change resume =>
      .ok (resume.go (fh.changeElem change) state.held)
  | .hasRead call elements =>
      .ok (decideStep fh state.held elements grants call)
  | .visiting call elements index recorded =>
      visitStep fh state.held call elements index recorded
  | .cleaning withDelFunc fhe =>
      cleanStep fh state.held withDelFunc fhe

/-- A table and the threads that use it. -/
structure System (n : Nat) where
  fh : FhT
  threads : Fin n → ThreadState

/-- A thread makes a call, or takes the next step of the one it is in. -/
inductive Label (n : Nat) where
  | call (thread : Fin n) (call : ThreadCall)
  | step (thread : Fin n) (grants : EnumGrants)
  deriving Repr, DecidableEq

/--
The chain that a caller passes to `fh_releaselock` or `fh_dellocked` is one
whose lock it keeps.
-/
def ThreadCall.keepsLock
    (held : List Nat) : ThreadCall → Bool
  | .releaselock slot =>
      slot ∈ held
  | .update (.dellocked _ lockedBucket) =>
      lockedBucket ∈ held
  | _ =>
      true

/--
One step of the system.  A thread inside a call does not make another one, and a
thread that would take a lock that is held waits.
-/
def systemStep
    {n : Nat}
    (system : System n) :
    Label n → Checked (System n × FhEvent)
  | .call thread call =>
      match system.threads thread with
      | ⟨.idle, held⟩ =>
          if call.keepsLock held then
            .ok
              ({ system with
                  threads :=
                    Function.update system.threads thread
                      ⟨.entered call, held⟩ },
                .nothing)
          else
            .ok (system, .nothing)
      | _ =>
          .ok (system, .nothing)
  | .step thread grants =>
      match threadStep system.fh grants (system.threads thread) with
      | .ok (fh, state, event) =>
          .ok
            ({ fh := fh
               threads := Function.update system.threads thread state },
              event)
      | .error .lockAlreadyHeld =>
          .ok (system, .nothing)
      | .error fault =>
          .error fault

/-- The threads before their first calls. -/
def start
    (n : Nat)
    (fh : FhT) : System n where
  fh := fh
  threads _ := ⟨.idle, []⟩

/-- The table update of a call ends as the locked section of that call. -/
theorem updateStep_after
    {fh : FhT}
    {held : List Nat}
    {call : UpdateCall}
    {done : ThreadStep}
    (steps : updateStep fh held call = .ok done) :
    ∃ next kept result change,
      done = Resume.after next kept (.returns call result) change := by
  cases call with
  | insert key block =>
      obtain ⟨⟨next, change, code⟩, -, same⟩ := Checked.bind_eq_ok.mp steps
      cases same
      exact ⟨_, _, _, _, rfl⟩
  | insertlock key block slotGiven addrGiven =>
      obtain ⟨⟨next, change, code⟩, -, same⟩ := Checked.bind_eq_ok.mp steps
      cases same
      exact ⟨_, _, _, _, rfl⟩
  | del key =>
      obtain ⟨⟨next, change, code⟩, -, same⟩ := Checked.bind_eq_ok.mp steps
      cases same
      exact ⟨_, _, _, _, rfl⟩
  | dellocked key lockedBucket =>
      obtain ⟨⟨next, change, code⟩, -, same⟩ := Checked.bind_eq_ok.mp steps
      cases same
      exact ⟨_, _, _, _, rfl⟩

/-- What a step of a system does. -/
inductive SystemMove
    {n : Nat}
    (system : System n) : Label n → System n → FhEvent → Prop where
  | waits
      {label : Label n} :
      SystemMove system label system .nothing
  | enters
      {thread : Fin n}
      {call : ThreadCall}
      {held : List Nat} :
      system.threads thread = ⟨.idle, held⟩ →
      SystemMove system (.call thread call)
        { system with
          threads :=
            Function.update system.threads thread ⟨.entered call, held⟩ }
        .nothing
  | moves
      {thread : Fin n}
      {grants : EnumGrants}
      {fh : FhT}
      {state : ThreadState}
      {event : FhEvent} :
      threadStep system.fh grants (system.threads thread) =
        .ok (fh, state, event) →
      SystemMove system (.step thread grants)
        { fh := fh
          threads := Function.update system.threads thread state }
        event

/-- Every step of a system is one of these. -/
theorem systemStep_moves
    {n : Nat}
    {system next : System n}
    {label : Label n}
    {event : FhEvent}
    (steps : systemStep system label = .ok (next, event)) :
    SystemMove system label next event := by
  cases label with
  | call thread call =>
      rw [systemStep] at steps
      split at steps
      next held isState =>
        split at steps
        next =>
          cases steps
          exact .enters isState
        next =>
          cases steps
          exact .waits
      next =>
        cases steps
        exact .waits
  | step thread grants =>
      rw [systemStep] at steps
      split at steps
      next fh state made isStep =>
        cases steps
        exact .moves isStep
      next =>
        cases steps
        exact .waits
      next =>
        cases steps

section Steps

variable {fh : FhT}
  (held : List Nat)
  (grants : EnumGrants)

/-- `fh_setattr` reads the counter and decides on the value. -/
theorem fhSetattr_decideStep
    (magic : fh.hMagic = fhMagicId)
    (value : Int)
    (granted : Bool) :
    decideStep fh held fh.hElements grants .setattrDontcopykey =
      returnFrom (fhSetattr fh .dontcopykey value granted).1 held
        (.read .setattrDontcopykey)
        (.code (fhSetattr fh .dontcopykey value granted).2) := by
  simp only [decideStep, fhSetattr, magic, ne_eq, not_true_eq_false, if_false]
  split
  · rfl
  · rfl

/-- `fh_getattr` reads the counter and returns the value. -/
theorem fhGetattr_decideStep
    (magic : fh.hMagic = fhMagicId) :
    decideStep fh held fh.hElements grants .getattrElement =
      returnFrom fh held (.read .getattrElement)
        (.attr (fhGetattr fh fhAttrElement).1
          (fhGetattr fh fhAttrElement).2) := by
  simp [decideStep, fhGetattr, magic]

/-- The loop of `fh_enum_create` visits one chain after the other. -/
theorem recordChains_visitChain
    (table : FhTable)
    (elements index : Nat)
    (rest : List Nat)
    (locks : FhLocks)
    (recorded : List FhElem) :
    recordChains table elements (index :: rest) locks recorded =
      if recorded.length < elements then
        (do
          let (locks, next) ← visitChain table elements index locks recorded
          recordChains table elements rest locks next)
      else
        .ok (locks, recorded) := by
  rw [recordChains]
  simp only [visitChain, bind_assoc]
  rfl

/-- `fh_enum_create` reads the counter, visits the chains and ends. -/
theorem fhEnumCreate_visits
    (magic : fh.hMagic = fhMagicId)
    (nonempty : 1 ≤ fh.hElements)
    (sortOrder : Int) :
    fhEnumCreate fh sortOrder .all =
      (do
        let (locks, recorded) ←
          recordChains fh.table fh.hElements.toNat
            (List.range fh.table.hDim) fh.locks []
        let sorted ← sortElems sortOrder recorded
        .ok
          ({ fh with
              locks := locks },
            .ok (createdEnum fh.hElements.toNat recorded sorted))) := by
  have notEmpty : ¬ fh.hElements < 1 := by omega
  simp [fhEnumCreate, magic, notEmpty, EnumGrants.all, createdEnum]

end Steps

end Clibs.Fh
