import Clibs.Foundation.Checked
import Mathlib.Data.List.Perm.Basic
import Mathlib.Logic.Function.Basic

namespace Clibs

/-!
# A heap of separately allocated cells

Cells are handed out under fresh addresses, read and released through their
address, and a request may be refused.  The heap remembers the released
addresses, so that "released exactly once" can be said about a whole run.

`Owns heap cells` says that the listed cells are exactly the allocated ones.
Its rules for reading, allocating and releasing are all a program proof needs;
a program that owns several structures lists the cells of all of them.
-/

/-- Cells by address, with the history of releases and the outcome of requests. -/
structure CellHeap (Value : Type) where
  cell : Nat → Option Value
  next : Nat
  freed : List Nat
  grants : Nat → Bool
  requests : Nat

namespace CellHeap

variable {Value : Type}

/-- A heap without cells whose `i`-th request is granted when `grants i`. -/
def empty (grants : Nat → Bool) : CellHeap Value where
  cell _ :=
    none
  next :=
    0
  freed :=
    []
  grants :=
    grants
  requests :=
    0

/-- Read an allocated cell. -/
def read
    (heap : CellHeap Value)
    (address : Nat) : Checked Value :=
  match heap.cell address with
  | none =>
      .error .useAfterFree
  | some value =>
      .ok value

/-- Ask for memory whose contents are not modelled. -/
def request (heap : CellHeap Value) : Bool × CellHeap Value :=
  (heap.grants heap.requests, { heap with requests := heap.requests + 1 })

/-- The heap after a granted allocation: the contents are at `heap.next`. -/
def store (heap : CellHeap Value) (value : Value) : CellHeap Value where
  cell :=
    Function.update heap.cell heap.next (some value)
  next :=
    heap.next + 1
  freed :=
    heap.freed
  grants :=
    heap.grants
  requests :=
    heap.requests + 1

/-- The heap after the release of an address. -/
def retire (heap : CellHeap Value) (address : Nat) : CellHeap Value where
  cell :=
    Function.update heap.cell address none
  next :=
    heap.next
  freed :=
    address :: heap.freed
  grants :=
    heap.grants
  requests :=
    heap.requests

/-- The heap with other contents in an allocated cell. -/
def replace
    (heap : CellHeap Value)
    (address : Nat)
    (value : Value) : CellHeap Value where
  cell :=
    Function.update heap.cell address (some value)
  next :=
    heap.next
  freed :=
    heap.freed
  grants :=
    heap.grants
  requests :=
    heap.requests

/-- Write to an allocated cell. -/
def write
    (heap : CellHeap Value)
    (address : Nat)
    (value : Value) : Checked (CellHeap Value) :=
  match heap.cell address with
  | none =>
      .error .useAfterFree
  | some _ =>
      .ok (heap.replace address value)

/-- Allocate a cell with contents; `none` when the request is refused. -/
def allocate
    (heap : CellHeap Value)
    (value : Value) : Option Nat × CellHeap Value :=
  if heap.grants heap.requests then
    (some heap.next, heap.store value)
  else
    (none, heap.request.2)

/-- Release an allocated cell. -/
def release
    (heap : CellHeap Value)
    (address : Nat) : Checked (CellHeap Value) :=
  match heap.cell address with
  | none =>
      .error .doubleFree
  | some _ =>
      .ok (heap.retire address)

/-- The listed cells are the allocated ones, and every other one is released. -/
structure Owns (heap : CellHeap Value) (cells : List Nat) : Prop where
  nodup : cells.Nodup
  allocated : ∀ address, heap.cell address ≠ none ↔ address ∈ cells
  bounded : ∀ address ∈ cells, address < heap.next
  freedNodup : heap.freed.Nodup
  freedMem :
    ∀ address,
      address ∈ heap.freed ↔ address < heap.next ∧ address ∉ cells

/-- Every request is granted. -/
def AlwaysGrants (heap : CellHeap Value) : Prop :=
  ∀ request, heap.grants request = true

/-- The heap with the same cells, of which every further request is granted. -/
def granting (heap : CellHeap Value) : CellHeap Value where
  cell :=
    heap.cell
  next :=
    heap.next
  freed :=
    heap.freed
  grants _ :=
    true
  requests :=
    heap.requests

/-- Two heaps hold the same contents in the listed cells. -/
def AgreeOn (cells : List Nat) (first second : CellHeap Value) : Prop :=
  ∀ address ∈ cells, second.cell address = first.cell address

/-- Nothing was allocated between two heaps. -/
structure NoAllocation (first second : CellHeap Value) : Prop where
  next : second.next = first.next
  grants : second.grants = first.grants

section Granting

variable {heap : CellHeap Value} {address : Nat} {value : Value}

@[simp] theorem read_granting :
    heap.granting.read address = heap.read address :=
  rfl

@[simp] theorem write_granting :
    heap.granting.write address value =
      granting <$> heap.write address value := by
  simp only [write, granting]
  cases heap.cell address <;> rfl

@[simp] theorem release_granting :
    heap.granting.release address = granting <$> heap.release address := by
  simp only [release, granting]
  cases heap.cell address <;> rfl

/-- A granted allocation is that of the heap that grants all. -/
theorem allocate_granting
    (granted : heap.grants heap.requests = true) :
    heap.granting.allocate value =
      ((heap.allocate value).1, (heap.allocate value).2.granting) := by
  rw [allocate, allocate, if_pos granted]
  rfl

/-- A granted request is that of the heap that grants all. -/
theorem request_granting
    (granted : heap.grants heap.requests = true) :
    heap.granting.request =
      (heap.request.1, heap.request.2.granting) := by
  simp only [request, granted]
  rfl

end Granting

namespace AgreeOn

theorem refl
    (cells : List Nat)
    (heap : CellHeap Value) :
    AgreeOn cells heap heap :=
  fun _ _ => rfl

theorem trans
    {cells : List Nat}
    {first second third : CellHeap Value}
    (firstSecond : AgreeOn cells first second)
    (secondThird : AgreeOn cells second third) :
    AgreeOn cells first third :=
  fun address member =>
    (secondThird address member).trans (firstSecond address member)

theorem mono
    {smaller larger : List Nat}
    {first second : CellHeap Value}
    (agree : AgreeOn larger first second)
    (subset : smaller ⊆ larger) :
    AgreeOn smaller first second :=
  fun address member => agree address (subset member)

end AgreeOn

/-- Writing to a cell does not disturb the others. -/
theorem replace_agreeOn
    {heap : CellHeap Value}
    {cells : List Nat}
    {address : Nat}
    (outside : address ∉ cells)
    (value : Value) :
    AgreeOn cells heap (heap.replace address value) := by
  intro other member
  have notWritten : other ≠ address := by
    rintro rfl
    exact outside member
  simp [CellHeap.replace, notWritten]

namespace Owns

/-- The empty heap owns nothing. -/
theorem empty
    (grants : Nat → Bool) :
    Owns (CellHeap.empty grants : CellHeap Value) [] where
  nodup :=
    List.nodup_nil
  allocated address := by
    simp [CellHeap.empty]
  bounded address member := by
    simp at member
  freedNodup :=
    List.nodup_nil
  freedMem address := by
    simp [CellHeap.empty]

/-- The order in which owned cells are listed does not matter. -/
theorem perm
    {heap : CellHeap Value}
    {cells others : List Nat}
    (owns : Owns heap cells)
    (permutation : cells.Perm others) :
    Owns heap others where
  nodup :=
    permutation.nodup owns.nodup
  allocated address := by
    rw [owns.allocated, permutation.mem_iff]
  bounded address member :=
    owns.bounded address (permutation.mem_iff.mpr member)
  freedNodup :=
    owns.freedNodup
  freedMem address := by
    rw [owns.freedMem, permutation.mem_iff]

/-- The cells of a heap do not depend on what it will grant. -/
theorem of_granting
    {heap : CellHeap Value}
    {cells : List Nat}
    (owns : Owns heap.granting cells) :
    Owns heap cells :=
  ⟨owns.nodup, owns.allocated, owns.bounded,
    owns.freedNodup, owns.freedMem⟩

/-- An owned cell can be read. -/
theorem exists_cell
    {heap : CellHeap Value}
    {cells : List Nat}
    (owns : Owns heap cells)
    {address : Nat}
    (member : address ∈ cells) :
    ∃ value, heap.cell address = some value :=
  Option.ne_none_iff_exists'.mp ((owns.allocated address).mpr member)

/-- Requests for other memory do not change ownership. -/
theorem request
    {heap : CellHeap Value}
    {cells : List Nat}
    (owns : Owns heap cells) :
    Owns heap.request.2 cells :=
  ⟨owns.nodup, owns.allocated, owns.bounded,
    owns.freedNodup, owns.freedMem⟩

/-- A granted allocation owns one more cell, the fresh one. -/
theorem store
    {heap : CellHeap Value}
    {cells : List Nat}
    (owns : Owns heap cells)
    (value : Value) :
    Owns (heap.store value) (heap.next :: cells) where
  nodup :=
    List.nodup_cons.mpr
      ⟨fun member => Nat.lt_irrefl _ (owns.bounded _ member), owns.nodup⟩
  allocated address := by
    by_cases isFresh : address = heap.next
    · simp [CellHeap.store, isFresh]
    · simpa [CellHeap.store, isFresh] using owns.allocated address
  bounded address member := by
    rcases List.mem_cons.mp member with isFresh | isOld
    · subst isFresh
      exact Nat.lt_succ_self _
    · exact Nat.lt_succ_of_lt (owns.bounded address isOld)
  freedNodup :=
    owns.freedNodup
  freedMem address := by
    simp only [CellHeap.store, owns.freedMem, List.mem_cons, not_or]
    constructor
    · rintro ⟨below, notOwned⟩
      exact ⟨Nat.lt_succ_of_lt below, Nat.ne_of_lt below, notOwned⟩
    · rintro ⟨below, notFresh, notOwned⟩
      exact ⟨Nat.lt_of_le_of_ne (Nat.le_of_lt_succ below) notFresh, notOwned⟩

/-- A fresh cell does not disturb the owned ones. -/
theorem store_agreeOn
    {heap : CellHeap Value}
    {cells : List Nat}
    (owns : Owns heap cells)
    (value : Value) :
    AgreeOn cells heap (heap.store value) := by
  intro address member
  have notFresh : address ≠ heap.next :=
    Nat.ne_of_lt (owns.bounded address member)
  simp [CellHeap.store, notFresh]

/-- An owned cell can be released. -/
theorem release_eq
    {heap : CellHeap Value}
    {cells : List Nat}
    {address : Nat}
    (owns : Owns heap cells)
    (member : address ∈ cells) :
    heap.release address = .ok (heap.retire address) := by
  obtain ⟨value, holds⟩ := owns.exists_cell member
  rw [CellHeap.release, holds]

/-- An owned cell can be written, and stays owned. -/
theorem write_eq
    {heap : CellHeap Value}
    {cells : List Nat}
    {address : Nat}
    (owns : Owns heap cells)
    (member : address ∈ cells)
    (value : Value) :
    heap.write address value = .ok (heap.replace address value) := by
  obtain ⟨old, holds⟩ := owns.exists_cell member
  rw [CellHeap.write, holds]

/-- Writing changes no ownership. -/
theorem replace
    {heap : CellHeap Value}
    {cells : List Nat}
    {address : Nat}
    (owns : Owns heap cells)
    (member : address ∈ cells)
    (value : Value) :
    Owns (heap.replace address value) cells where
  nodup :=
    owns.nodup
  allocated other := by
    by_cases isWritten : other = address
    · simp [CellHeap.replace, isWritten, member]
    · simpa [CellHeap.replace, isWritten] using owns.allocated other
  bounded :=
    owns.bounded
  freedNodup :=
    owns.freedNodup
  freedMem :=
    owns.freedMem

/-- A released cell is no longer owned. -/
theorem retire
    {heap : CellHeap Value}
    {cells : List Nat}
    {address : Nat}
    (owns : Owns heap (address :: cells)) :
    Owns (heap.retire address) cells := by
  obtain ⟨addressFresh, cellsNodup⟩ :=
    List.nodup_cons.mp owns.nodup
  refine ⟨cellsNodup, ?_, ?_, ?_, ?_⟩
  · intro other
    by_cases isReleased : other = address
    · simp [CellHeap.retire, isReleased, addressFresh]
    · simpa [CellHeap.retire, isReleased] using owns.allocated other
  · intro other member
    exact owns.bounded other (List.mem_cons_of_mem _ member)
  · refine List.nodup_cons.mpr ⟨?_, owns.freedNodup⟩
    intro member
    exact ((owns.freedMem address).mp member).2 (by simp)
  · intro other
    have addressBelow : address < heap.next :=
      owns.bounded address (by simp)
    simp only [CellHeap.retire, List.mem_cons, owns.freedMem, not_or]
    by_cases isReleased : other = address
    · subst isReleased
      simp [addressBelow, addressFresh]
    · simp [isReleased]

/-- A release does not disturb the cells that stay owned. -/
theorem retire_agreeOn
    {heap : CellHeap Value}
    {cells : List Nat}
    {address : Nat}
    (owns : Owns heap (address :: cells)) :
    AgreeOn cells heap (heap.retire address) := by
  intro other member
  have notReleased : other ≠ address := by
    rintro rfl
    exact (List.nodup_cons.mp owns.nodup).1 member
  simp [CellHeap.retire, notReleased]

/-- There are no more owned cells than addresses handed out. -/
theorem length_le
    {heap : CellHeap Value}
    {cells : List Nat}
    (owns : Owns heap cells) :
    cells.length ≤ heap.next := by
  have inRange : cells ⊆ List.range heap.next :=
    fun address member => List.mem_range.mpr (owns.bounded address member)
  simpa using (List.subperm_of_subset owns.nodup inRange).length_le

/-- When no cell is owned, every cell ever handed out was released once. -/
theorem freed_perm_range
    {heap : CellHeap Value}
    (owns : Owns heap []) :
    heap.freed.Perm (List.range heap.next) := by
  apply (List.perm_ext_iff_of_nodup owns.freedNodup List.nodup_range).mpr
  intro address
  simp [owns.freedMem]

end Owns

end CellHeap

end Clibs
