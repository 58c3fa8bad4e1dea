import Mathlib.Data.List.Nodup
import Mathlib.Data.List.Pairwise
import Mathlib.Data.List.Flatten
import Mathlib.Logic.Function.Basic
import Mathlib.Tactic.Common

namespace Clibs

/-!
# What the cells of a table hold

A table has a cell for each of a list of indices, and a cell holds a list of
items.  `gather` lists the items of all cells in the order of the indices.
When one cell is rewritten, its items are exchanged and the others stay.
-/

/-- The items of the cells at the given indices, cell after cell. -/
def gather
    {Index Cell Item : Type}
    (items : Cell → List Item)
    (indices : List Index)
    (table : Index → Cell) : List Item :=
  indices.flatMap fun index => items (table index)

section Gather

variable {Index Cell Item : Type}
  {items : Cell → List Item}
  {indices : List Index}

/-- An item is gathered from a cell that holds it. -/
theorem mem_gather
    {table : Index → Cell}
    {item : Item} :
    item ∈ gather items indices table ↔
      ∃ index ∈ indices, item ∈ items (table index) :=
  List.mem_flatMap

/-- Cells that hold nothing contribute nothing. -/
theorem gather_eq_nil
    {table : Index → Cell}
    (noItems : ∀ index ∈ indices, items (table index) = []) :
    gather items indices table = [] :=
  List.flatMap_eq_nil_iff.mpr noItems

/--
The items of a table are those of one cell and of the others, and rewriting the
cell leaves the others.
-/
theorem gather_update
    [DecidableEq Index]
    (items : Cell → List Item)
    (distinct : indices.Nodup)
    {index : Index}
    (member : index ∈ indices)
    (table : Index → Cell) :
    ∃ others,
      (gather items indices table).Perm (items (table index) ++ others) ∧
        ∀ cell,
          (gather items indices (Function.update table index cell)).Perm
            (items cell ++ others) := by
  obtain ⟨before, after, rfl⟩ := List.mem_iff_append.mp member
  rw [List.nodup_middle, List.nodup_cons] at distinct
  have isOther :
      ∀ other ∈ before ++ after, other ≠ index := by
    rintro other isIn rfl
    exact distinct.1 isIn
  have same :
      ∀ cell,
        ∀ side : List Index,
          (∀ other ∈ side, other ∈ before ++ after) →
          side.flatMap (fun other =>
              items (Function.update table index cell other)) =
            side.flatMap fun other => items (table other) := by
    intro cell side inside
    apply List.flatMap_congr
    intro other isIn
    rw [Function.update_of_ne (isOther other (inside other isIn))]
  have rearranged :
      ∀ first middle last : List Item,
        (first ++ (middle ++ last)).Perm (middle ++ (first ++ last)) := by
    intro first middle last
    rw [← List.append_assoc, ← List.append_assoc]
    exact List.perm_append_comm.append_right last
  refine ⟨before.flatMap (fun other => items (table other)) ++
    after.flatMap (fun other => items (table other)), ?_, ?_⟩
  · simp only [gather, List.flatMap_append, List.flatMap_cons]
    exact rearranged _ _ _
  · intro cell
    simp only [gather, List.flatMap_append, List.flatMap_cons,
      Function.update_self]
    rw [same cell before fun _ isIn => List.mem_append_left _ isIn,
      same cell after fun _ isIn => List.mem_append_right _ isIn]
    exact rearranged _ _ _

/-- When all items are different, an item is that of one cell. -/
theorem eq_of_gather_nodup
    {table : Index → Cell}
    (distinct : (gather items indices table).Nodup)
    {first second : Index}
    (isFirst : first ∈ indices)
    (isSecond : second ∈ indices)
    {item : Item}
    (inFirst : item ∈ items (table first))
    (inSecond : item ∈ items (table second)) :
    first = second := by
  by_contra differs
  have apart := (List.nodup_flatMap.mp distinct).2
  have symmetric :
      Std.Symm
        (Function.onFun List.Disjoint fun index => items (table index)) :=
    ⟨fun _ _ disjoint _ isIn isAlso => disjoint isAlso isIn⟩
  exact apart.forall isFirst isSecond differs inFirst inSecond

end Gather

end Clibs
