import Clibs.Foundation.CellHeap

namespace Clibs

/-!
# Memory held by places

A program keeps the address of each block that it allocates in one place: a
field, a slot of an array, a variable.  `Holdings` is a heap together with the
pointer that is in each place.  Freeing through a place that holds nothing is a
fault, like freeing a block twice.

`Keeps holdings contents` says what the places hold, that no two of them hold
the same block and that every block in memory is held by one.  A program that
keeps it step by step frees only what it holds and leaks nothing.
-/

/-- A heap, and the address that is in each place. -/
structure Holdings (Place Value : Type) where
  heap : CellHeap Value
  held : Place → Option Nat

namespace Holdings

variable {Place Value : Type}

/-- No place holds anything. -/
def empty : Holdings Place Value where
  heap :=
    .empty fun _ => true
  held _ :=
    none

/-- The place holds a block with the contents, or nothing. -/
def Holds
    (holdings : Holdings Place Value)
    (place : Place) : Option Value → Prop
  | none =>
      holdings.held place = none
  | some value =>
      ∃ address,
        holdings.held place = some address ∧
          holdings.heap.cell address = some value

/--
The places hold blocks with these contents, each its own, and nothing else is
in memory.
-/
structure Keeps
    (holdings : Holdings Place Value)
    (contents : Place → Option Value) : Prop where
  holds : ∀ place, holdings.Holds place (contents place)
  apart :
    ∀ first second address,
      holdings.held first = some address →
      holdings.held second = some address →
      first = second
  owns :
    ∃ blocks,
      holdings.heap.Owns blocks ∧
        ∀ address ∈ blocks, ∃ place, holdings.held place = some address

section Operations

variable [DecidableEq Place]

/-- A granted allocation, whose address is stored in the place. -/
def acquire
    (holdings : Holdings Place Value)
    (place : Place)
    (value : Value) : Holdings Place Value where
  heap :=
    holdings.heap.store value
  held :=
    Function.update holdings.held place (some holdings.heap.next)

/-- Free the block that the place holds. -/
def release
    (holdings : Holdings Place Value)
    (place : Place) : Checked (Holdings Place Value) :=
  match holdings.held place with
  | none =>
      .error .doubleFree
  | some address => do
      let heap ← holdings.heap.release address
      .ok
        { heap
          held := Function.update holdings.held place none }

end Operations

section Rules

variable {holdings : Holdings Place Value} {contents : Place → Option Value}
  {place : Place} {value : Value}

/-- What a place holds is not changed by an allocation. -/
theorem Holds.store
    {wanted : Option Value}
    (holds : holdings.Holds place wanted)
    {blocks : List Nat}
    (owns : holdings.heap.Owns blocks)
    (other : Value) :
    Holds ⟨holdings.heap.store other, holdings.held⟩ place wanted := by
  cases wanted with
  | none =>
      exact holds
  | some wanted =>
      obtain ⟨address, isHeld, isCell⟩ := holds
      have member : address ∈ blocks := by
        rw [← owns.allocated, isCell]
        exact Option.some_ne_none wanted
      have same := owns.store_agreeOn other address member
      exact ⟨address, isHeld, same.trans isCell⟩

/-- No place of the empty holdings holds anything. -/
theorem keeps_empty :
    (empty : Holdings Place Value).Keeps fun _ => none where
  holds _ :=
    rfl
  apart _ _ _ isHeld :=
    (Option.some_ne_none _ isHeld.symm).elim
  owns :=
    ⟨[], CellHeap.Owns.empty _, fun _ member => (List.not_mem_nil member).elim⟩

/-- The blocks in memory are below the next address. -/
theorem Keeps.held_lt
    (keeps : holdings.Keeps contents)
    {address : Nat}
    (isHeld : holdings.held place = some address) :
    address < holdings.heap.next := by
  obtain ⟨blocks, owns, -⟩ := keeps.owns
  have holds := keeps.holds place
  cases isContents : contents place with
  | none =>
      rw [isContents] at holds
      rw [Holds, isHeld] at holds
      cases holds
  | some value =>
      rw [isContents] at holds
      obtain ⟨other, isOther, isCell⟩ := holds
      rw [isHeld] at isOther
      cases isOther
      apply owns.bounded
      rw [← owns.allocated, isCell]
      exact Option.some_ne_none value

/-- Once every place is empty, every block was freed, and once. -/
theorem Keeps.freed_perm
    (keeps : holdings.Keeps contents)
    (noneHeld : ∀ place, contents place = none) :
    holdings.heap.freed.Perm (List.range holdings.heap.next) := by
  obtain ⟨blocks, owns, areHeld⟩ := keeps.owns
  have noBlocks : blocks = [] := by
    apply List.eq_nil_iff_forall_not_mem.mpr
    intro address member
    obtain ⟨place, isHeld⟩ := areHeld address member
    have holds := keeps.holds place
    rw [noneHeld, Holds, isHeld] at holds
    cases holds
  rw [noBlocks] at owns
  exact owns.freed_perm_range

/-- While a place holds a block, not every block was freed. -/
theorem Keeps.not_freed_perm
    (keeps : holdings.Keeps contents)
    (holdsOne : contents place = some value) :
    ¬ holdings.heap.freed.Perm (List.range holdings.heap.next) := by
  intro allFreed
  have holds := keeps.holds place
  rw [holdsOne] at holds
  obtain ⟨address, isHeld, isCell⟩ := holds
  obtain ⟨blocks, owns, -⟩ := keeps.owns
  have isFreed : address ∈ holdings.heap.freed :=
    allFreed.mem_iff.mpr (List.mem_range.mpr (keeps.held_lt isHeld))
  apply ((owns.freedMem address).mp isFreed).2
  rw [← owns.allocated, isCell]
  exact Option.some_ne_none value

variable [DecidableEq Place]

/-- A place that holds nothing may be given a new block. -/
theorem Keeps.acquire
    (keeps : holdings.Keeps contents)
    (isEmpty : contents place = none)
    (value : Value) :
    (holdings.acquire place value).Keeps
      (Function.update contents place (some value)) := by
  obtain ⟨blocks, owns, areHeld⟩ := keeps.owns
  have notHeld : holdings.held place = none := by
    have holds := keeps.holds place
    rwa [isEmpty] at holds
  refine ⟨?_, ?_, holdings.heap.next :: blocks, owns.store value, ?_⟩
  · intro other
    by_cases same : other = place
    · subst same
      rw [Function.update_self]
      exact ⟨holdings.heap.next, Function.update_self ..,
        Function.update_self ..⟩
    · have holds := (keeps.holds other).store owns value
      rw [Function.update_of_ne same]
      cases isContents : contents other with
      | none =>
          rw [isContents] at holds
          exact (Function.update_of_ne same ..).trans holds
      | some wanted =>
          rw [isContents] at holds
          obtain ⟨address, isHeld, isCell⟩ := holds
          exact ⟨address, (Function.update_of_ne same ..).trans isHeld, isCell⟩
  · intro first second address holdsFirst holdsSecond
    simp only [Holdings.acquire] at holdsFirst holdsSecond
    by_cases isFirst : first = place <;> by_cases isSecond : second = place
    · rw [isFirst, isSecond]
    · rw [isFirst, Function.update_self] at holdsFirst
      rw [Function.update_of_ne isSecond] at holdsSecond
      cases holdsFirst
      exact (Nat.lt_irrefl _ (keeps.held_lt holdsSecond)).elim
    · rw [isSecond, Function.update_self] at holdsSecond
      rw [Function.update_of_ne isFirst] at holdsFirst
      cases holdsSecond
      exact (Nat.lt_irrefl _ (keeps.held_lt holdsFirst)).elim
    · rw [Function.update_of_ne isFirst] at holdsFirst
      rw [Function.update_of_ne isSecond] at holdsSecond
      exact keeps.apart first second address holdsFirst holdsSecond
  · intro address member
    rcases List.mem_cons.mp member with isNew | isOld
    · exact ⟨place, isNew ▸ Function.update_self ..⟩
    · obtain ⟨other, isHeld⟩ := areHeld address isOld
      refine ⟨other, (Function.update_of_ne ?_ ..).trans isHeld⟩
      rintro rfl
      rw [notHeld] at isHeld
      cases isHeld

/-- What a place holds can be freed through it. -/
theorem Keeps.release
    (keeps : holdings.Keeps contents)
    (holdsOne : contents place = some value) :
    ∃ next,
      holdings.release place = .ok next ∧
        next.Keeps (Function.update contents place none) := by
  obtain ⟨blocks, owns, areHeld⟩ := keeps.owns
  have holds := keeps.holds place
  rw [holdsOne] at holds
  obtain ⟨address, isHeld, isCell⟩ := holds
  have member : address ∈ blocks := by
    rw [← owns.allocated, isCell]
    exact Option.some_ne_none value
  have moved := owns.perm (List.perm_cons_erase member)
  have elsewhere :
      ∀ other, other ≠ place → holdings.held other ≠ some address :=
    fun other differs alsoHeld =>
      differs (keeps.apart other place address alsoHeld isHeld)
  refine ⟨⟨holdings.heap.retire address,
      Function.update holdings.held place none⟩, ?_, ?_, ?_,
    blocks.erase address, moved.retire, ?_⟩
  · simp only [Holdings.release, isHeld, owns.release_eq member,
      Checked.ok_bind]
  · intro other
    by_cases same : other = place
    · subst same
      rw [Function.update_self]
      exact Function.update_self ..
    · rw [Function.update_of_ne same]
      have otherHolds := keeps.holds other
      cases isContents : contents other with
      | none =>
          rw [isContents] at otherHolds
          exact (Function.update_of_ne same ..).trans otherHolds
      | some wanted =>
          rw [isContents] at otherHolds
          obtain ⟨found, otherHeld, otherCell⟩ := otherHolds
          have differs : found ≠ address := by
            rintro rfl
            exact elsewhere other same otherHeld
          exact ⟨found, (Function.update_of_ne same ..).trans otherHeld,
            (Function.update_of_ne differs ..).trans otherCell⟩
  · intro first second found holdsFirst holdsSecond
    simp only at holdsFirst holdsSecond
    by_cases isFirst : first = place
    · rw [isFirst, Function.update_self] at holdsFirst
      cases holdsFirst
    · by_cases isSecond : second = place
      · rw [isSecond, Function.update_self] at holdsSecond
        cases holdsSecond
      · rw [Function.update_of_ne isFirst] at holdsFirst
        rw [Function.update_of_ne isSecond] at holdsSecond
        exact keeps.apart first second found holdsFirst holdsSecond
  · intro found stays
    have differs : found ≠ address := by
      rintro rfl
      exact (List.nodup_cons.mp moved.nodup).1 stays
    obtain ⟨other, otherHeld⟩ := areHeld found (List.mem_of_mem_erase stays)
    refine ⟨other, (Function.update_of_ne ?_ ..).trans otherHeld⟩
    rintro rfl
    rw [isHeld] at otherHeld
    exact differs (Option.some.inj otherHeld).symm

end Rules

end Holdings

end Clibs
