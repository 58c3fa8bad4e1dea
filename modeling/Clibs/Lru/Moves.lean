import Clibs.Lru.Threads

namespace Clibs.Lru

open Fh Ll

/-!
# What a step of a thread does

`LruMove` has one constructor for each way in which a step of a thread ends,
with what the function it called has returned.  `threadStep_move` says that a
step is one of them; what a step keeps is then shown by cases on the move.
-/

/-- One step of a thread. -/
inductive LruMove
    (lru : LruT)
    (grants : AddGrants) :
    ThreadState → LruT → ThreadState → LruEvent → Prop where
  | idle :
      LruMove lru grants .idle lru .idle .nothing
  | takes
      {key : CString} {payload slot new : Nat} {next : LruT}
      (takes : slotNew lru = (next, some (slot, new))) :
      LruMove lru grants (.adding key payload .take) next
        (.adding key payload (.fill slot new)) .nothing
  | takesNone
      {key : CString} {payload : Nat} {next : LruT}
      (takes : slotNew lru = (next, none)) :
      LruMove lru grants (.adding key payload .take) next
        (.adding key payload .evict) .nothing
  | evicts
      {key : CString} {payload slot hashpayload : Nat} {next : LruT}
      (removes : removeLast lru = (next, some (slot, hashpayload))) :
      LruMove lru grants (.adding key payload .evict) next
        (.adding key payload (.delete slot hashpayload)) .nothing
  | evictsNone
      {key : CString} {payload : Nat} {next : LruT}
      (removes : removeLast lru = (next, none)) :
      LruMove lru grants (.adding key payload .evict) next .idle
        (.returned (.add key payload) ⟨lruNoMemory, none⟩)
  | deletes
      {key : CString} {payload slot hashpayload : Nat} {next : LruT}
      {code : Int}
      (deletes : delKey lru hashpayload = .ok (next, code)) :
      LruMove lru grants (.adding key payload (.delete slot hashpayload)) next
        (.adding key payload (.free slot hashpayload)) (.deleted code)
  | frees
      {key : CString} {payload slot hashpayload : Nat} {next : LruT}
      (frees : freeKeyAndSlot lru hashpayload slot = .ok next) :
      LruMove lru grants (.adding key payload (.free slot hashpayload)) next
        (.adding key payload .take) .nothing
  | fills
      {key : CString} {payload slot new : Nat}
      (granted : grants.key = true) :
      LruMove lru grants (.adding key payload (.fill slot new))
        (fillRecord lru new slot key payload true)
        (.adding key payload (.insert slot new)) .nothing
  | fillsNot
      {key : CString} {payload slot new : Nat}
      (refused : grants.key = false) :
      LruMove lru grants (.adding key payload (.fill slot new))
        (fillRecord lru new slot key payload false)
        (.adding key payload (.unfilled slot)) .nothing
  | gives
      {key : CString} {payload slot : Nat} :
      LruMove lru grants (.adding key payload (.unfilled slot))
        (freeSlotOnly lru slot) .idle
        (.returned (.add key payload) ⟨lruNoMemory, none⟩)
  | inserts
      {key : CString} {payload slot new : Nat} {next : LruT} {lruErr : Int}
      (inserts : insertKey lru new grants.insert = .ok (next, lruErr))
      (noError : insertError lruErr = none) :
      LruMove lru grants (.adding key payload (.insert slot new)) next
        (.adding key payload (.link slot)) .nothing
  | insertsNot
      {key : CString} {payload slot new : Nat} {next : LruT}
      {lruErr code : Int}
      (inserts : insertKey lru new grants.insert = .ok (next, lruErr))
      (isError : insertError lruErr = some code) :
      LruMove lru grants (.adding key payload (.insert slot new)) next
        (.adding key payload (.undo slot new code)) .nothing
  | undoes
      {key : CString} {payload slot new : Nat} {code : Int} {next : LruT}
      (frees : freeKeyAndSlot lru new slot = .ok next) :
      LruMove lru grants (.adding key payload (.undo slot new code)) next
        .idle (.returned (.add key payload) ⟨code, none⟩)
  | links
      {key : CString} {payload slot : Nat} :
      LruMove lru grants (.adding key payload (.link slot))
        (addToTop lru slot) .idle
        (.returned (.add key payload) ⟨lruOk, none⟩)
  | finds
      {key : CString} {next : LruT} {found : LockedResult} {pload : Nat}
      (searches : searchKey lru key = .ok (next, found))
      (isRecord : recordOf found.opaqueObj = some pload) :
      LruMove lru grants (.checking key .search) next
        (.checking key (.move pload found.lockedSlot)) .nothing
  | findsNone
      {key : CString} {next : LruT} {found : LockedResult}
      (searches : searchKey lru key = .ok (next, found))
      (noRecord : recordOf found.opaqueObj = none) :
      LruMove lru grants (.checking key .search) next .idle
        (.returned (.check key) ⟨lruElementNotFound, none⟩)
  | moves
      {key : CString} {pload payload : Nat} {fhslot : Option Nat}
      {next : LruT}
      (moves : moveToTop lru pload = .ok (next, payload)) :
      LruMove lru grants (.checking key (.move pload fhslot)) next
        (.checking key (.release payload fhslot)) .nothing
  | releases
      {key : CString} {payload : Nat} {fhslot : Option Nat} {next : LruT}
      (releases : releaseKey lru fhslot = .ok next) :
      LruMove lru grants (.checking key (.release payload fhslot)) next .idle
        (.returned (.check key) ⟨lruOk, some payload⟩)
  | removes
      {removed hashpayload : Nat} {next : LruT}
      (removes : removeLast lru = (next, some (removed, hashpayload))) :
      LruMove lru grants (.clearing .remove) next
        (.clearing (.delete removed hashpayload)) .nothing
  | removesNone
      {next : LruT}
      (removes : removeLast lru = (next, none)) :
      LruMove lru grants (.clearing .remove) next .idle
        (.returned .clear ⟨lruOk, none⟩)
  | clears
      {removed hashpayload : Nat} {next : LruT} {code : Int}
      (deletes : delKey lru hashpayload = .ok (next, code)) :
      LruMove lru grants (.clearing (.delete removed hashpayload)) next
        (.clearing (.free removed hashpayload)) (.deleted code)
  | clearsNot
      {removed hashpayload : Nat} {next : LruT} {code : Int}
      (deletes : delKey lru hashpayload = .ok (next, code)) :
      LruMove lru grants (.clearing (.delete removed hashpayload)) next .idle
        (.returned .clear ⟨lruElementNotFound, none⟩)
  | clearFrees
      {removed hashpayload : Nat} {next : LruT}
      (frees : freeKeyAndSlot lru hashpayload removed = .ok next) :
      LruMove lru grants (.clearing (.free removed hashpayload)) next
        (.clearing .remove) .nothing

section Steps

variable {lru next : LruT}
  {grants : AddGrants}
  {state after : ThreadState}
  {event : LruEvent}

/-- A step of `lru_add`. -/
theorem addStep_move
    {key : CString}
    {payload : Nat}
    {point : AddPoint}
    (steps :
      addStep lru key payload grants point = .ok (next, after, event)) :
    LruMove lru grants (.adding key payload point) next after event := by
  cases point with
  | take =>
      rw [addStep] at steps
      split at steps
      next takes =>
        cases steps
        exact .takes takes
      next takes =>
        cases steps
        exact .takesNone takes
  | evict =>
      rw [addStep] at steps
      split at steps
      next removes =>
        cases steps
        exact .evicts removes
      next removes =>
        cases steps
        exact .evictsNone removes
  | delete slotToFree hashpayload =>
      obtain ⟨⟨made, code⟩, deletes, same⟩ := Checked.bind_eq_ok.mp steps
      cases same
      exact .deletes deletes
  | free slotToFree hashpayload =>
      obtain ⟨made, frees, same⟩ := Checked.bind_eq_ok.mp steps
      cases same
      exact .frees frees
  | fill slot new =>
      cases granted : grants.key with
      | false =>
          rw [addStep, granted] at steps
          cases steps
          exact .fillsNot granted
      | true =>
          rw [addStep, granted] at steps
          cases steps
          exact .fills granted
  | unfilled slot =>
      cases steps
      exact .gives
  | insert slot new =>
      obtain ⟨⟨made, lruErr⟩, inserts, rest⟩ := Checked.bind_eq_ok.mp steps
      cases isError : insertError lruErr with
      | some code =>
          simp only [isError] at rest
          cases rest
          exact .insertsNot inserts isError
      | none =>
          simp only [isError] at rest
          cases rest
          exact .inserts inserts isError
  | undo slot new code =>
      obtain ⟨made, frees, same⟩ := Checked.bind_eq_ok.mp steps
      cases same
      exact .undoes frees
  | link slot =>
      cases steps
      exact .links

/-- A step of `lru_check`. -/
theorem checkStep_move
    {key : CString}
    {point : CheckPoint}
    (steps : checkStep lru key point = .ok (next, after, event)) :
    LruMove lru grants (.checking key point) next after event := by
  cases point with
  | search =>
      obtain ⟨⟨made, found⟩, searches, rest⟩ := Checked.bind_eq_ok.mp steps
      cases isRecord : recordOf found.opaqueObj with
      | none =>
          simp only [isRecord] at rest
          cases rest
          exact .findsNone searches isRecord
      | some pload =>
          simp only [isRecord] at rest
          cases rest
          exact .finds searches isRecord
  | move pload fhslot =>
      obtain ⟨⟨made, payload⟩, moves, same⟩ := Checked.bind_eq_ok.mp steps
      cases same
      exact .moves moves
  | release payload fhslot =>
      obtain ⟨made, releases, same⟩ := Checked.bind_eq_ok.mp steps
      cases same
      exact .releases releases

/-- A step of `lru_clear`. -/
theorem clearStep_move
    {point : ClearPoint}
    (steps : clearStep lru point = .ok (next, after, event)) :
    LruMove lru grants (.clearing point) next after event := by
  cases point with
  | remove =>
      rw [clearStep] at steps
      split at steps
      next removes =>
        cases steps
        exact .removes removes
      next removes =>
        cases steps
        exact .removesNone removes
  | delete removed hashpayload =>
      obtain ⟨⟨made, code⟩, deletes, rest⟩ := Checked.bind_eq_ok.mp steps
      by_cases failed : code < 0
      · simp only [failed, if_true] at rest
        cases rest
        exact .clearsNot deletes
      · simp only [failed, if_false] at rest
        cases rest
        exact .clears deletes
  | free removed hashpayload =>
      obtain ⟨made, frees, same⟩ := Checked.bind_eq_ok.mp steps
      cases same
      exact .clearFrees frees

/-- Every step of a thread is a move. -/
theorem threadStep_move
    (steps : threadStep lru grants state = .ok (next, after, event)) :
    LruMove lru grants state next after event := by
  cases state with
  | idle =>
      cases steps
      exact .idle
  | adding key payload point =>
      exact addStep_move steps
  | checking key point =>
      exact checkStep_move steps
  | clearing point =>
      exact clearStep_move steps

/-- A thread inside a call goes on to another point. -/
theorem LruMove.goes_on
    (move : LruMove lru grants state next after event)
    (notIdle : state ≠ .idle) :
    after ≠ state := by
  cases move with
  | idle =>
      exact (notIdle rfl).elim
  | _ =>
      nofun

end Steps

end Clibs.Lru
