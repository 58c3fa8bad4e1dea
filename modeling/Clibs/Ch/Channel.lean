import Clibs.Foundation.CellHeap
import Mathlib.Data.PNat.Basic

namespace Clibs.Ch

/-!
# The channel operations

`ch.c`, one function for each locked section.  A call that waits on a condition
variable ends its section there: the remainder of the call, from the return of
`pthread_cond_wait` on, is a section of its own.  Elements live in a heap of
cells under their addresses; the copy of the caller's data that an element owns
is kept in the element.

A section reports what it did to the queue, including the address of the element
it moved, and the code the call returns.
-/

/-- `CH_MAGIC_ID`. -/
def chMagicId : Nat :=
  0x0CCA

/-- `CH_OK`. -/
def chOk : Int :=
  1

/-- `CH_NO_MEMORY`. -/
def chNoMemory : Int :=
  -2

/-- `CH_WRONG_ATTR`. -/
def chWrongAttr : Int :=
  -3

/-- `CH_WRONG_VALUE`. -/
def chWrongValue : Int :=
  -4

/-- `CH_BAD_HANDLE`. -/
def chBadHandle : Int :=
  -1

/-- `CH_WRONG_PARAM`. -/
def chWrongParam : Int :=
  -5

/-- `CH_GET_NODATA`. -/
def chGetNodata : Int :=
  -6

/-- `CH_GET_ENDOFTRANSMISSION`. -/
def chGetEndoftransmission : Int :=
  -7

/-- `CH_FREE_NOT_REQUESTED`. -/
def chFreeNotRequested : Int :=
  -8

/-- `CH_PUT_CHANNEL_FULL`. -/
def chPutChannelFull : Int :=
  -9

/-- `CH_BLOCKING_MODE`. -/
def chBlockingMode : Int :=
  100

/-- `CH_FIXED_SIZE`. -/
def chFixedSize : Int :=
  300

/-- `CH_ATTR_NON_BLOCKING_GETPUT`. -/
def chAttrNonBlockingGetput : UInt32 :=
  0

/-- `CH_ATTR_BLOCKING_GETPUT`. -/
def chAttrBlockingGetput : UInt32 :=
  1

/-- `CH_ENDOFTRANSMISSION`, a pointer value that marks the end. -/
def chEndoftransmission : Nat :=
  0xE

/--
The `datalen` of a channel: `CH_DATALEN_STRING`, `CH_DATALEN_VOIDP`, or a
number of bytes.  Other negative lengths have no meaning in the source.
-/
inductive Datalen where
  | string
  | voidp
  | bytes (length : ℕ+)
  deriving DecidableEq

/-- A `void *` argument: its value and the bytes found there. -/
structure Block where
  address : Nat
  bytes : List UInt8
  deriving Repr, DecidableEq

/-- The `block` field of an element: a pointer, or the element's own copy. -/
inductive ElemBlock where
  | pointer (address : Nat)
  | copy (bytes : List UInt8)
  deriving Repr, DecidableEq

/-- `element->block == CH_ENDOFTRANSMISSION`; a copy has an address of its own. -/
def ElemBlock.isEndoftransmission : ElemBlock → Bool
  | .pointer address =>
      address = chEndoftransmission
  | .copy _ =>
      false

/-- `ch_elem_t`. -/
structure ChElem where
  block : ElemBlock
  prev : Option Nat
  deriving Repr, DecidableEq

/-- `ch_h`, with the heap its elements live in. -/
structure ChH where
  magic : Nat
  datalen : Datalen
  count : Int
  maxSize : Int
  attr : UInt32
  head : Option Nat
  tail : Option Nat
  getWaitingThreads : Int
  putWaitingThreads : Int
  heap : CellHeap ChElem

/-- The condition variables of a channel. -/
inductive Condvar where
  | get
  | put
  deriving Repr, DecidableEq

/-- `get_waiting_threads` and `put_waiting_threads`. -/
def ChH.waitingThreads
    (ch : ChH) : Condvar → Int
  | .get =>
      ch.getWaitingThreads
  | .put =>
      ch.putWaitingThreads

/-- `ch_create` on an empty heap. -/
def chCreate
    (datalen : Datalen)
    (grants : Nat → Bool) : ChH where
  magic :=
    chMagicId
  datalen :=
    datalen
  count :=
    0
  maxSize :=
    0
  attr :=
    0 ||| chAttrBlockingGetput
  head :=
    none
  tail :=
    none
  getWaitingThreads :=
    0
  putWaitingThreads :=
    0
  heap :=
    .empty grants

/-- The channel is in blocking mode. -/
def ChH.blocking (ch : ChH) : Bool :=
  ch.attr &&& chAttrBlockingGetput = chAttrBlockingGetput

/-- `ch_setattr`. -/
def chSetattr
    (ch : ChH)
    (attr : Int)
    (val : Int) : ChH × Int :=
  if ch.magic ≠ chMagicId then
    (ch, chBadHandle)
  else if attr = chBlockingMode then
    if val ≠ chAttrNonBlockingGetput.toNat ∧
        val ≠ chAttrBlockingGetput.toNat then
      (ch, chWrongValue)
    else if val = chAttrBlockingGetput.toNat then
      ({ ch with attr := ch.attr ||| chAttrBlockingGetput }, chOk)
    else
      ({ ch with attr := ch.attr &&& chAttrNonBlockingGetput }, chOk)
  else if attr = chFixedSize then
    if val ≥ 0 then
      ({ ch with maxSize := val }, chOk)
    else
      (ch, chOk)
  else
    (ch, chWrongAttr)

/-- `CH_PUT_STD` and `CH_PUT_TOP`. -/
inductive Place where
  | std
  | top
  deriving Repr, DecidableEq

/-- An element of the queue: its address and its block. -/
abbrev Item :=
  Nat × ElemBlock

/-- What a locked section did. -/
inductive ChEvent where
  | nothing
  | sleeps
  | returned (code : Int)
  | linked (item : Item) (code : Int)
  | taken (item : Item) (code : Int)
  | peeked (block : Option ElemBlock) (code : Int)
  | cleaned (items : List Item) (deleted : List Nat) (code : Int)
  deriving Repr, DecidableEq

/-- A section's new state, its event, and the condition it signals, if any. -/
abbrev Section :=
  ChH × ChEvent × Option Condvar

/-- What `_ch_put` stores for a block that is not `NULL`. -/
def storedBlock
    (datalen : Datalen)
    (block : Block) : ElemBlock :=
  if block.address = chEndoftransmission then
    .pointer chEndoftransmission
  else
    match datalen with
    | .bytes length =>
        .copy (block.bytes.take length)
    | .voidp =>
        .pointer block.address
    | .string =>
        .copy (block.bytes.takeWhile (· ≠ 0))

/-- `_ch_put` allocates a copy of the block as well as an element. -/
def copiesBlock
    (datalen : Datalen)
    (block : Block) : Bool :=
  block.address ≠ chEndoftransmission ∧ datalen ≠ .voidp

/--
The part of `_ch_put` before the lock: check the parameters and build the
element.  When the copy of the block is refused, the element is not released.
-/
def chPutPrepare
    (ch : ChH)
    (block : Block) : ChH × (Int ⊕ Nat) :=
  if block.address = 0 ∨ ch.magic ≠ chMagicId then
    (ch, .inl chWrongParam)
  else
    match ch.heap.allocate ⟨storedBlock ch.datalen block, none⟩ with
    | (none, heap) =>
        ({ ch with heap }, .inl chNoMemory)
    | (some element, heap) =>
        if copiesBlock ch.datalen block then
          match heap.request with
          | (false, heap) =>
              ({ ch with heap }, .inl chNoMemory)
          | (true, heap) =>
              ({ ch with heap }, .inr element)
        else
          ({ ch with heap }, .inr element)

/-- The part of `_ch_put` that links the element at its place. -/
def chLinkElement
    (ch : ChH)
    (element : Nat) : Place → Checked ChH
  | .std =>
      if ch.count = 0 then
        .ok { ch with head := some element, tail := some element }
      else
        match ch.tail with
        | none =>
            .error .nullDereference
        | some tail => do
            let last ← ch.heap.read tail
            let heap ← ch.heap.write tail { last with prev := some element }
            .ok { ch with heap, tail := some element }
  | .top =>
      if ch.count = 0 then
        .ok { ch with tail := some element, head := some element }
      else do
        let first ← ch.heap.read element
        let heap ← ch.heap.write element { first with prev := ch.head }
        .ok { ch with heap, head := some element }

/-- The end of `_ch_put`: link the element, count it, and signal a getter. -/
def chPutLink
    (ch : ChH)
    (element : Nat)
    (block : Block)
    (place : Place) : Checked Section := do
  let ch ← chLinkElement ch element place
  let ch := { ch with count := ch.count + 1 }
  .ok (ch, .linked (element, storedBlock ch.datalen block) ch.count,
    if ch.blocking then some .get else none)

/-- The wait loop of `_ch_put`, up to its next wait, and what follows it. -/
def chPutLoop
    (ch : ChH)
    (element : Nat)
    (block : Block)
    (place : Place) : Checked Section :=
  if ch.count ≥ ch.maxSize then
    .ok ({ ch with putWaitingThreads := ch.putWaitingThreads + 1 },
      .sleeps, none)
  else
    chPutLink ch element block place

/-- `_ch_put` from the lock on. -/
def chPutEnter
    (ch : ChH)
    (element : Nat)
    (block : Block)
    (place : Place) : Checked Section :=
  if ch.maxSize > 0 then
    if ¬ ch.blocking then
      if ch.count ≥ ch.maxSize then do
        let heap ← ch.heap.release element
        .ok ({ ch with heap }, .returned chPutChannelFull, none)
      else
        chPutLink ch element block place
    else
      chPutLoop ch element block place
  else
    chPutLink ch element block place

/-- `_ch_put` from the return of `pthread_cond_wait` on. -/
def chPutResume
    (ch : ChH)
    (element : Nat)
    (block : Block)
    (place : Place) : Checked Section :=
  chPutLoop { ch with putWaitingThreads := ch.putWaitingThreads - 1 }
    element block place

/--
Detach the top element, release it, count it, and signal a putter.  Both ways
through `ch_get` end like this.
-/
def chDetach
    (ch : ChH)
    (element : Nat)
    (elem : ChElem)
    (code : Int) : Checked Section := do
  let head := elem.prev
  let tail := if head = none then none else ch.tail
  let heap ← ch.heap.release element
  let ch := { ch with head, tail, heap, count := ch.count - 1 }
  .ok (ch, .taken (element, elem.block) code,
    if ch.maxSize ≠ 0 ∧ ch.putWaitingThreads > 0 then some .put else none)

/-- `ch_get` once the queue is not empty. -/
def chGetTake (ch : ChH) : Checked Section :=
  match ch.head with
  | none =>
      .error .nullDereference
  | some element => do
      let elem ← ch.heap.read element
      if elem.block.isEndoftransmission then
        chDetach ch element elem chGetEndoftransmission
      else
        chDetach ch element elem chOk

/-- The wait loop of `ch_get`, up to its next wait, and what follows it. -/
def chGetLoop (ch : ChH) : Checked Section :=
  if ch.count = 0 then
    .ok ({ ch with getWaitingThreads := ch.getWaitingThreads + 1 },
      .sleeps, none)
  else
    chGetTake ch

/-- `ch_get`; the argument is the address of the caller's block. -/
def chGetEnter
    (ch : ChH)
    (block : Nat) : Checked Section :=
  if block = 0 ∨ ch.magic ≠ chMagicId then
    .ok (ch, .returned chWrongParam, none)
  else if ch.count = 0 ∧ ¬ ch.blocking then
    .ok (ch, .returned chGetNodata, none)
  else
    chGetLoop ch

/-- `ch_get` from the return of `pthread_cond_wait` on. -/
def chGetResume (ch : ChH) : Checked Section :=
  chGetLoop { ch with getWaitingThreads := ch.getWaitingThreads - 1 }

/-- `ch_peek`. -/
def chPeek
    (ch : ChH)
    (block : Nat) : Checked Section :=
  if block = 0 ∨ ch.magic ≠ chMagicId then
    .ok (ch, .returned chWrongParam, none)
  else if ch.count = 0 then
    .ok (ch, .returned chGetNodata, none)
  else
    match ch.head with
    | none =>
        .error .nullDereference
    | some element => do
        let elem ← ch.heap.read element
        if elem.block.isEndoftransmission then
          .ok ({ ch with count := ch.count - 1 },
            .peeked none chGetEndoftransmission, none)
        else
          .ok (ch, .peeked (some elem.block) chOk, none)

/-- What `ch_clean` passes to `del_func` for an element. -/
def deletedBy
    (datalen : Datalen)
    (delFunc : Bool)
    (block : ElemBlock) : List Nat :=
  match block with
  | .pointer address =>
      if ¬ block.isEndoftransmission ∧ datalen = .voidp ∧ delFunc then
        [address]
      else
        []
  | .copy _ =>
      []

/--
The loop of `ch_clean`.  Every turn releases another element, so the number of
addresses ever handed out bounds the turns.
-/
def chCleanLoop
    (delFunc : Bool) :
    Nat → ChH → Nat → Option Nat → Checked (ChH × List Item × List Nat)
  | 0, _, _, _ =>
      .error .divergence
  | turns + 1, ch, element, curElement => do
      let elem ← ch.heap.read element
      let heap ← ch.heap.release element
      let deleted := deletedBy ch.datalen delFunc elem.block
      let ch := { ch with heap, count := ch.count - 1 }
      match curElement with
      | some next => do
          let cur ← ch.heap.read next
          let (ch, items, later) ←
            chCleanLoop delFunc turns ch next cur.prev
          .ok (ch, (element, elem.block) :: items, deleted ++ later)
      | none =>
          .ok ({ ch with head := none, tail := none },
            [(element, elem.block)], deleted)

/-- `ch_clean`; the argument says whether there is a delete function. -/
def chClean
    (ch : ChH)
    (delFunc : Bool) : Checked Section :=
  if ch.magic ≠ chMagicId then
    .ok (ch, .returned chBadHandle, none)
  else if delFunc ∧ ch.datalen ≠ .voidp then
    .ok (ch, .returned chFreeNotRequested, none)
  else if ch.count ≠ 0 then
    match ch.head with
    | none =>
        .error .nullDereference
    | some element => do
        let elem ← ch.heap.read element
        let (ch, items, deleted) ←
          chCleanLoop delFunc (ch.heap.next + 1) ch element elem.prev
        .ok (ch, .cleaned items deleted chOk, none)
  else
    .ok (ch, .cleaned [] [] chOk, none)

end Clibs.Ch
