import Clibs.Foundation.Checked
import Mathlib.Logic.Function.Basic

namespace Clibs.Ll

/-!
# The recency list

`ll.c`.  The slots are allocated once, in one array, so a slot is its index; the
fields of the slots are kept as functions of the slot.  The list is linked from
`last` upwards by `next` and from `top` downwards by `prev`; free slots are
linked by `next`.  Each operation runs under the lock of the list from its start
to its end.
-/

/-- `LL_SLOT_IN_FREELIST`. -/
def llSlotInFreelist : Nat :=
  0xFE

/-- `LL_SLOT_DANGLING`: neither in the list nor in the free list. -/
def llSlotDangling : Nat :=
  0xFD

/-- `LL_OK`. -/
def llOk : Int :=
  1

/-- `LL_ERROR_LAST_SLOT_INCONSISTENCY`. -/
def llErrorLastSlotInconsistency : Int :=
  -10

/-- `LL_ERROR_TOP_SLOT_INCONSISTENCY`. -/
def llErrorTopSlotInconsistency : Int :=
  -20

/-- `LL_ERROR_INDEX_OUT_OF_RANGE`. -/
def llErrorIndexOutOfRange : Int :=
  -30

/-- `ll_t` with the array of its slots; a payload is the index of its record. -/
structure LlT where
  size : Nat
  top : Option Nat
  last : Option Nat
  freelist : Option Nat
  next : Nat → Option Nat
  prev : Nat → Option Nat
  payload : Nat → Nat
  status : Nat → Nat

/-- `ll_create`; `granted` tells whether all its allocations succeed. -/
def llCreate
    (dim : Nat)
    (granted : Bool) : Option LlT :=
  if granted then
    some
      { size := dim
        top := none
        last := none
        freelist := if 0 < dim then some 0 else none
        next := fun slot => if slot + 1 < dim then some (slot + 1) else none
        prev := fun _ => none
        payload := fun slot => slot
        status := fun _ => llSlotInFreelist }
  else
    none

/-- `ll_slot_new`: the slot and its payload. -/
def llSlotNew (ll : LlT) : LlT × Option (Nat × Nat) :=
  match ll.freelist with
  | none =>
      (ll, none)
  | some slot =>
      ({ ll with
          freelist := ll.next slot
          prev := Function.update ll.prev slot none
          next := Function.update ll.next slot none
          status := Function.update ll.status slot llSlotDangling },
        some (slot, ll.payload slot))

/-- `ll_slot_free`. -/
def llSlotFree
    (ll : LlT)
    (slot : Nat) : LlT :=
  { ll with
    freelist := some slot
    next := Function.update ll.next slot ll.freelist
    status := Function.update ll.status slot llSlotInFreelist }

/-- `ll_remove_last`: the slot and its payload. -/
def llRemoveLast (ll : LlT) : LlT × Option (Nat × Nat) :=
  match ll.last with
  | none =>
      (ll, none)
  | some oldlast =>
      let ll :=
        { ll with
          last := ll.next oldlast }
      let ll :=
        match ll.last with
        | some newlast =>
            { ll with
              prev := Function.update ll.prev newlast none }
        | none =>
            { ll with
              top := none }
      ({ ll with
          status := Function.update ll.status oldlast llSlotDangling },
        some (oldlast, ll.payload oldlast))

/-- The slot becomes the top: it is linked above the top there was. -/
def linkAbove
    (ll : LlT)
    (oldtop : Option Nat)
    (slot : Nat) : LlT :=
  match oldtop with
  | some oldtop =>
      { ll with
        top := some slot
        next := Function.update ll.next oldtop (some slot)
        prev := Function.update ll.prev slot (some oldtop) }
  | none =>
      { ll with
        top := some slot }

/-- A list without a last slot gets the slot as its last. -/
def linkLast
    (ll : LlT)
    (slot : Nat) : LlT :=
  match ll.last with
  | some _ =>
      ll
  | none =>
      { ll with
        last := some slot }

/-- `ll_slot_add_to_top`. -/
def llSlotAddToTop
    (ll : LlT)
    (slot : Nat) : LlT :=
  if ll.status slot ≠ llSlotDangling then
    ll
  else
    let ll :=
      { ll with
        status := Function.update ll.status slot 0 }
    linkLast (linkAbove ll ll.top slot) slot

/-- `ll_slot_move_to_top`. -/
def llSlotMoveToTop
    (ll : LlT)
    (slot : Nat) : LlT :=
  if
      ll.status slot = llSlotInFreelist ∨
        ll.status slot = llSlotDangling then
    ll
  else if ll.top = some slot then
    ll
  else
    match ll.prev slot, ll.next slot with
    | none, none =>
        linkLast (linkAbove ll ll.top slot) slot
    | some below, some above =>
        let ll :=
          { ll with
            next := Function.update ll.next below (some above)
            prev := Function.update ll.prev above (some below) }
        linkAbove
          { ll with
            next := Function.update ll.next slot none }
          ll.top slot
    | none, some above =>
        let ll :=
          { ll with
            prev := Function.update ll.prev above none
            last := some above }
        linkAbove
          { ll with
            next := Function.update ll.next slot none }
          ll.top slot
    | some _, none =>
        ll

/-- The loop of `ll_get_payload`: follow `prev` some times, or to the end. -/
def followPrev
    (ll : LlT) :
    Nat → Option Nat → Option Nat
  | _, none =>
      none
  | 0, some slot =>
      some slot
  | left + 1, some slot =>
      followPrev ll left (ll.prev slot)

/-- `ll_get_payload`: the status, and the payload when there is one. -/
def llGetPayload
    (ll : LlT)
    (idx : Int) : Checked (Int × Option Nat) :=
  match ll.last with
  | none =>
      .error .nullDereference
  | some last =>
      if ll.prev last ≠ none then
        .ok (llErrorLastSlotInconsistency, none)
      else
        match ll.top with
        | none =>
            .error .nullDereference
        | some top =>
            if ll.next top ≠ none then
              .ok (llErrorTopSlotInconsistency, none)
            else
              match followPrev ll idx.toNat (some top) with
              | none =>
                  .ok (llErrorIndexOutOfRange, none)
              | some slot =>
                  .ok (llOk, some (ll.payload slot))

end Clibs.Ll
