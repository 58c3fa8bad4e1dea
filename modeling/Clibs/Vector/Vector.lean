import Clibs.Foundation.CellArray
import Mathlib.Algebra.Group.Int.Defs
import Mathlib.Algebra.Group.Nat.Defs

namespace Clibs.Vector

/-!
# The vector

`vector.c`.  The items are pointers, `none` for `NULL`, in a block that `malloc`
or `realloc` returned; `items` is `none` when it is `NULL`.  Every operation runs
under the lock of the vector from its start to its end.  A request for more
memory than a C object can have is refused, and so are the requests that
`grants` refuses.
-/

/-- `VECTOR_INIT_CAPACITY`. -/
def vectorInitCapacity : Int :=
  20

/-- A value that is stored in an `int`. -/
def toInt (value : Int) : Int :=
  value.bmod (2 ^ 32)

/-- `sizeof(void *) * capacity`, a `size_t`. -/
def itemsSize (capacity : Int) : Int :=
  8 * capacity % 2 ^ 64

/-- The size of the largest object, `PTRDIFF_MAX`. -/
def maxObjectSize : Int :=
  2 ^ 63 - 1

/-- `v_h`, with the outcomes of its requests for memory. -/
structure VH (α : Type) where
  items : Option (CellArray (Option α))
  capacity : Int
  total : Int
  allocated : Int
  grants : Nat → Bool
  requests : Nat

section Operations

variable {α : Type}

/-- Whether the next request, for the items of a capacity, is granted. -/
def VH.granted
    (v : VH α)
    (capacity : Int) : Bool :=
  v.grants v.requests && decide (itemsSize capacity ≤ maxObjectSize)

/--
`v_create`; the caller passes a handle, or asks for one to be allocated.  The
result of the second `malloc` is not tested.
-/
def vCreate
    (passed : Bool)
    (dim : Int)
    (grants : Nat → Bool) : Option (VH α) :=
  if passed = false ∧ grants 0 = false then
    none
  else
    let v : VH α :=
      { items := none
        capacity := if dim > vectorInitCapacity then dim else vectorInitCapacity
        total := 0
        allocated := if passed then 0 else 1
        grants := grants
        requests := if passed then 0 else 1 }
    some
      { v with
        items :=
          if v.granted v.capacity then
            some (.fresh v.capacity.toNat)
          else
            none
        requests := v.requests + 1 }

/-- `v_len`. -/
def vLen (v : VH α) : Int :=
  v.total

/-- `_v_resize`. -/
def vResize
    (v : VH α)
    (capacity : Int) : VH α :=
  if v.granted capacity then
    { v with
      items := some ((v.items.getD []).resize capacity.toNat)
      capacity := capacity
      requests := v.requests + 1 }
  else
    { v with
      requests := v.requests + 1 }

/-- `v_add`. -/
def vAdd
    (v : VH α)
    (item : Option α) : Checked (VH α) :=
  let v :=
    if v.capacity = v.total then
      vResize v (toInt (v.capacity * 2))
    else
      v
  match v.items with
  | none =>
      .error .nullDereference
  | some items => do
      let items ← items.write v.total.toNat item
      .ok { v with items := some items, total := v.total + 1 }

/-- `v_set`. -/
def vSet
    (v : VH α)
    (index : Int)
    (item : Option α) : Checked (VH α) :=
  if index ≥ 0 ∧ index < v.total then
    match v.items with
    | none =>
        .error .nullDereference
    | some items => do
        let items ← items.write index.toNat item
        .ok { v with items := some items }
  else
    .ok v

/-- `v_get`. -/
def vGet
    (v : VH α)
    (index : Int) : Checked (Option α) :=
  if index ≥ 0 ∧ index < v.total then
    match v.items with
    | none =>
        .error .nullDereference
    | some items =>
        items.read index.toNat
  else
    .ok none

/-- The loop of `v_delete`, which has some steps left. -/
def shiftDown
    (items : CellArray (Option α))
    (i : Nat) : Nat → Checked (CellArray (Option α))
  | 0 =>
      .ok items
  | left + 1 => do
      let item ← items.read (i + 1)
      let items ← items.write i item
      let items ← items.write (i + 1) none
      shiftDown items (i + 1) left

/-- `v_delete`. -/
def vDelete
    (v : VH α)
    (index : Int) : Checked (VH α) :=
  if index < 0 ∨ index ≥ v.total then
    .ok v
  else
    match v.items with
    | none =>
        .error .nullDereference
    | some items => do
        let items ← items.write index.toNat none
        let items ←
          shiftDown items index.toNat (v.total - 1 - index).toNat
        let v := { v with items := some items, total := v.total - 1 }
        if v.total > 0 ∧ v.total = v.capacity.tdiv 4 then
          .ok (vResize v (v.capacity.tdiv 2))
        else
          .ok v

end Operations

end Clibs.Vector
