import Clibs.Foundation.Checked
import Mathlib.Data.List.Basic

namespace Clibs

/-!
# Arrays in allocated storage

An array is a block of cells, each of which is `none` until it is assigned.
Reading and writing are checked against the bounds of the block and reading also
against cells that were never assigned.  `Holds cells values` says that the
block begins with the values; the rules below say what the accesses of a program
do to them, and none of them looks at the cells behind.
-/

/-- The cells of an allocated block. -/
abbrev CellArray (Value : Type) :=
  List (Option Value)

namespace CellArray

variable {Value : Type}

/-- A block as `malloc` returns it. -/
def fresh
    (length : Nat) : CellArray Value :=
  List.replicate length none

/-- Read a cell. -/
def read
    (cells : CellArray Value)
    (index : Nat) : Checked Value :=
  match cells[index]? with
  | none =>
      .error .outOfBounds
  | some none =>
      .error .indeterminateRead
  | some (some value) =>
      .ok value

/-- Assign to a cell. -/
def write
    (cells : CellArray Value)
    (index : Nat)
    (value : Value) : Checked (CellArray Value) :=
  if index < cells.length then
    .ok (cells.set index (some value))
  else
    .error .outOfBounds

/-- A block as a granted `realloc` returns it. -/
def resize
    (cells : CellArray Value)
    (length : Nat) : CellArray Value :=
  cells.take length ++ fresh (length - cells.length)

/-- The block begins with the values. -/
def Holds
    (cells : CellArray Value)
    (values : List Value) : Prop :=
  ∃ behind, cells = values.map some ++ behind

variable {cells : CellArray Value} {values front back : List Value}
  {value : Value} {index : Nat}

@[simp] theorem length_fresh
    (length : Nat) :
    (fresh length : CellArray Value).length = length :=
  List.length_replicate

@[simp] theorem length_resize
    (cells : CellArray Value)
    (length : Nat) :
    (cells.resize length).length = length := by
  rw [resize, List.length_append, List.length_take, length_fresh]
  omega

/-- Writing keeps the length of the block. -/
theorem length_write
    {next : CellArray Value}
    (writes : cells.write index value = .ok next) :
    next.length = cells.length := by
  unfold write at writes
  split at writes
  · cases writes
    exact List.length_set
  · cases writes

/-- Any block begins with no values. -/
theorem Holds.nil
    (cells : CellArray Value) :
    cells.Holds [] :=
  ⟨cells, rfl⟩

/-- A block that begins with more values begins with the first ones. -/
theorem Holds.of_append
    (holds : cells.Holds (front ++ back)) :
    cells.Holds front := by
  obtain ⟨behind, rfl⟩ := holds
  exact ⟨back.map some ++ behind, by rw [List.map_append, List.append_assoc]⟩

/-- Reading one of the values. -/
theorem Holds.read
    (holds : cells.Holds (front ++ value :: back)) :
    cells.read front.length = .ok value := by
  obtain ⟨behind, rfl⟩ := holds
  simp [CellArray.read]

/-- Overwriting one of the values. -/
theorem Holds.write
    (holds : cells.Holds (front ++ value :: back))
    (written : Value) :
    ∃ next,
      cells.write front.length written = .ok next ∧
        next.Holds (front ++ written :: back) := by
  obtain ⟨behind, rfl⟩ := holds
  refine ⟨_, if_pos (by simp), behind, ?_⟩
  simp

/-- Writing to the first cell behind the values. -/
theorem Holds.write_behind
    (holds : cells.Holds values)
    (room : values.length < cells.length)
    (written : Value) :
    ∃ next,
      cells.write values.length written = .ok next ∧
        next.Holds (values ++ [written]) := by
  obtain ⟨behind, rfl⟩ := holds
  refine ⟨_, if_pos room, ?_⟩
  cases behind with
  | nil =>
      simp at room
  | cons first behind =>
      exact ⟨behind, by simp⟩

/-- A block that is not cut into the values keeps them. -/
theorem Holds.resize
    (holds : cells.Holds values)
    {length : Nat}
    (longEnough : values.length ≤ length) :
    (cells.resize length).Holds values := by
  obtain ⟨behind, rfl⟩ := holds
  refine ⟨behind.take (length - values.length) ++
    fresh (length - (values.map some ++ behind).length), ?_⟩
  rw [CellArray.resize, List.take_append, List.length_map,
    List.take_of_length_le (by rwa [List.length_map]), List.append_assoc]

end CellArray

end Clibs
