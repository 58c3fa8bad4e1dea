import Clibs.Foundation.Checked
import Mathlib.Data.Set.Insert

namespace Clibs

/-!
# What a piece of code reads

Memory is a partial map: an address that is not mapped faults when it is read.
Code that only reads has an exact footprint when it returns precisely on the
memories in which every address of the footprint is mapped, and does the same
on two memories that hold the same cells there.
-/

/-- Code that reads memory and changes none of it. -/
abbrev Reader
    (Address Cell α : Type) :=
  (Address → Option Cell) → Checked α

/--
The code returns exactly when its footprint is mapped, depends on no other cell,
and what it returns is as described.
-/
structure Reads
    {Address Cell α : Type}
    (code : Reader Address Cell α)
    (footprint : Set Address)
    (Describes : α → Prop) : Prop where
  returns :
    ∀ memory,
      (∃ value, code memory = .ok value) ↔
        ∀ address ∈ footprint, memory address ≠ none
  dependsOnly :
    ∀ memory other,
      (∀ address ∈ footprint, memory address = other address) →
      code memory = code other
  describes :
    ∀ memory value, code memory = .ok value → Describes value

namespace Reads

variable {Address Cell α β : Type}
  {code : Reader Address Cell α}
  {next : α → Reader Address Cell β}
  {footprint rest : Set Address}
  {Describes : α → Prop}
  {Describes' : β → Prop}

/-- The read of one cell. -/
def cell
    (address : Address) : Reader Address Cell Cell :=
  fun memory =>
    match memory address with
    | some value => .ok value
    | none => .error .outOfBounds

/-- Reading a cell reads that cell. -/
theorem ofCell
    (address : Address) :
    Reads (cell address : Reader Address Cell Cell) {address}
      (fun _ => True) where
  returns memory := by
    rw [cell]
    cases stored : memory address with
    | none =>
        simp [stored]
    | some value =>
        simp [stored]
  dependsOnly memory other same := by
    rw [cell, cell, same address rfl]
  describes _ _ _ :=
    trivial

/-- Code that reads nothing. -/
theorem ofValue
    {value : α}
    (described : Describes value) :
    Reads ((fun _ => .ok value) : Reader Address Cell α) ∅ Describes where
  returns _ :=
    ⟨fun _ _ member => (Set.notMem_empty _ member).elim,
      fun _ => ⟨value, rfl⟩⟩
  dependsOnly _ _ _ :=
    rfl
  describes _ _ returned := by
    cases returned
    exact described

/-- A sequence reads what its parts read. -/
theorem bind
    (first : Reads code footprint Describes)
    (second :
      ∀ value, Describes value → Reads (next value) rest Describes') :
    Reads (fun memory => code memory >>= fun value => next value memory)
      (footprint ∪ rest) Describes' where
  returns memory := by
    constructor
    · rintro ⟨result, returned⟩ address member
      obtain ⟨value, valueReturned, resultReturned⟩ :=
        Checked.bind_eq_ok.mp returned
      rcases member with inFirst | inRest
      · exact (first.returns memory).mp ⟨value, valueReturned⟩ address inFirst
      · have described := first.describes memory value valueReturned
        exact ((second value described).returns memory).mp
          ⟨result, resultReturned⟩ address inRest
    · intro mapped
      obtain ⟨value, valueReturned⟩ :=
        (first.returns memory).mpr
          (fun address member => mapped address (Or.inl member))
      have described := first.describes memory value valueReturned
      obtain ⟨result, resultReturned⟩ :=
        ((second value described).returns memory).mpr
          (fun address member => mapped address (Or.inr member))
      exact ⟨result, Checked.bind_eq_ok.mpr ⟨value, valueReturned, resultReturned⟩⟩
  dependsOnly memory other same := by
    have firstSame :=
      first.dependsOnly memory other
        (fun address member => same address (Or.inl member))
    rw [← firstSame]
    cases returned : code memory with
    | error fault =>
        rfl
    | ok value =>
        exact (second value (first.describes memory value returned)).dependsOnly
          memory other (fun address member => same address (Or.inr member))
  describes memory result returned := by
    obtain ⟨value, valueReturned, resultReturned⟩ :=
      Checked.bind_eq_ok.mp returned
    exact (second value (first.describes memory value valueReturned)).describes
      memory result resultReturned

/-- What a computation does with a value that was read reads nothing more. -/
theorem map
    {project : α → β}
    (first : Reads code footprint Describes)
    (second : ∀ value, Describes value → Describes' (project value)) :
    Reads (fun memory => code memory >>= fun value => .ok (project value))
      footprint Describes' := by
  have nothing :
      ∀ value,
        Describes value →
        Reads ((fun _ => .ok (project value)) : Reader Address Cell β)
          ∅ Describes' :=
    fun value described => ofValue (second value described)
  have both := first.bind nothing
  rwa [Set.union_empty] at both

/-- The footprint, described in another way. -/
theorem congr
    {other : Set Address}
    (reads : Reads code footprint Describes)
    (same : ∀ address, address ∈ other ↔ address ∈ footprint) :
    Reads code other Describes := by
  rwa [show other = footprint from Set.ext same]

/-- Less is said about the result. -/
theorem weaken
    {Weaker : α → Prop}
    (reads : Reads code footprint Describes)
    (weaker : ∀ value, Describes value → Weaker value) :
    Reads code footprint Weaker where
  returns :=
    reads.returns
  dependsOnly :=
    reads.dependsOnly
  describes memory value returned :=
    weaker value (reads.describes memory value returned)

end Reads

end Clibs
