import Clibs.Foundation.Run
import Clibs.Vector.Vector

namespace Clibs.Vector

/-!
# The vector is a list

`VH.Holds v list` says that the block of the vector has as many cells as its
capacity and begins with the items of the list.  Every operation does to the
vector what `listStep` does to the list, and keeps the capacity positive and at
least the number of items.
-/

/-- A call on a vector. -/
inductive VCall (α : Type) where
  | add (item : Option α)
  | set (index : Int) (item : Option α)
  | get (index : Int)
  | delete (index : Int)
  | len
  deriving Repr, DecidableEq

/-- What a call returns: nothing, an item or a number. -/
inductive VResult (α : Type) where
  | done
  | item (pointer : Option α)
  | number (value : Int)
  deriving Repr, DecidableEq

/-- Make one call. -/
def vStep
    {α : Type}
    (v : VH α) :
    VCall α → Checked (VH α × VResult α)
  | .add item => do
      let v ← vAdd v item
      .ok (v, .done)
  | .set index item => do
      let v ← vSet v index item
      .ok (v, .done)
  | .get index => do
      let item ← vGet v index
      .ok (v, .item item)
  | .delete index => do
      let v ← vDelete v index
      .ok (v, .done)
  | .len =>
      .ok (v, .number (vLen v))

/-- The index is the place of an element. -/
def InRange
    {α : Type}
    (list : List (Option α))
    (index : Int) : Prop :=
  0 ≤ index ∧ index < list.length

instance
    {α : Type}
    (list : List (Option α))
    (index : Int) : Decidable (InRange list index) :=
  inferInstanceAs (Decidable (0 ≤ index ∧ index < list.length))

/-- What a call does to a list. -/
def listStep
    {α : Type}
    (list : List (Option α)) :
    VCall α → Checked (List (Option α) × VResult α)
  | .add item =>
      .ok (list ++ [item], .done)
  | .set index item =>
      if InRange list index then
        .ok (list.set index.toNat item, .done)
      else
        .ok (list, .done)
  | .get index =>
      if InRange list index then
        .ok (list, .item (list.getD index.toNat none))
      else
        .ok (list, .item none)
  | .delete index =>
      if InRange list index then
        .ok (list.eraseIdx index.toNat, .done)
      else
        .ok (list, .done)
  | .len =>
      .ok (list, .number list.length)

/-- The first items of the vector are the list, and the capacity is true. -/
structure VH.Holds
    {α : Type}
    (v : VH α)
    (list : List (Option α)) : Prop where
  total : v.total = list.length
  positive : 1 ≤ v.capacity
  fits : v.total ≤ v.capacity
  stored :
    ∃ cells,
      v.items = some cells ∧
        (cells.length : Int) = v.capacity ∧
        cells.Holds list
  grants : ∀ request, v.grants request = true

/-- The first items of the vector are the list, whatever requests are granted. -/
structure VH.Stored
    {α : Type}
    (v : VH α)
    (list : List (Option α)) : Prop where
  total : v.total = list.length
  positive : 1 ≤ v.capacity
  fits : v.total ≤ v.capacity
  stored :
    ∃ cells,
      v.items = some cells ∧
        (cells.length : Int) = v.capacity ∧
        cells.Holds list

/-- The capacity is below `2^30`. -/
def SmallCapacity
    {α : Type}
    (v : VH α)
    (_ : VCall α) : Prop :=
  v.capacity < 2 ^ 30

instance
    {α : Type}
    (v : VH α)
    (call : VCall α) : Decidable (SmallCapacity v call) :=
  inferInstanceAs (Decidable (v.capacity < 2 ^ 30))

section Stored

variable {α : Type} {v : VH α} {list : List (Option α)}

/-- A vector whose requests are granted. -/
theorem VH.Stored.holds
    (stored : v.Stored list)
    (grants : ∀ request, v.grants request = true) :
    v.Holds list :=
  ⟨stored.total, stored.positive, stored.fits, stored.stored, grants⟩

/-- Changing the capacity, if the request is granted. -/
theorem VH.Stored.resize
    (stored : v.Stored list)
    {capacity : Int}
    (positive : 1 ≤ capacity)
    (fits : v.total ≤ capacity) :
    (vResize v capacity).Stored list ∧
      (vResize v capacity).grants = v.grants ∧
      (vResize v capacity).total = v.total ∧
      (vResize v capacity).capacity =
        if v.granted capacity then capacity else v.capacity := by
  obtain ⟨cells, isItems, -, begins⟩ := stored.stored
  unfold vResize
  split
  next granted =>
    refine ⟨⟨stored.total, positive, fits,
      ⟨cells.resize capacity.toNat, ?_, ?_, ?_⟩⟩, rfl, rfl, rfl⟩
    · rw [isItems, Option.getD_some]
    · rw [CellArray.length_resize]
      exact Int.toNat_of_nonneg (by omega)
    · have total := stored.total
      exact begins.resize (by omega)
  next refused =>
    exact ⟨⟨stored.total, stored.positive, stored.fits, stored.stored⟩, rfl,
      rfl, rfl⟩

/-- A request for twice the items of a large vector is refused. -/
theorem VH.granted_double
    (positive : 1 ≤ v.capacity)
    (isInt : v.capacity < 2 ^ 31)
    (granted : v.granted (toInt (v.capacity * 2)) = true) :
    toInt (v.capacity * 2) = v.capacity * 2 ∧ v.capacity < 2 ^ 30 := by
  rw [VH.granted, Bool.and_eq_true, decide_eq_true_eq] at granted
  obtain ⟨-, fits⟩ := granted
  have small : v.capacity < 2 ^ 30 := by
    by_contra large
    have wraps : toInt (v.capacity * 2) = v.capacity * 2 - 2 ^ 32 := by
      unfold toInt
      rw [Int.bmod_def]
      omega
    rw [wraps] at fits
    unfold itemsSize maxObjectSize at fits
    omega
  refine ⟨?_, small⟩
  apply Int.bmod_eq_of_le <;> omega

/-- A full vector that is granted its request has room for an item. -/
theorem VH.Stored.grow
    (stored : v.Stored list)
    (isInt : v.capacity < 2 ^ 31)
    (granted :
      v.capacity = v.total →
      v.granted (toInt (v.capacity * 2)) = true) :
    ∃ grown,
      (if v.capacity = v.total then vResize v (toInt (v.capacity * 2)) else v) =
          grown ∧
        grown.Stored list ∧
        grown.total < grown.capacity ∧
        grown.grants = v.grants ∧
        grown.capacity < 2 ^ 31 := by
  have positive := stored.positive
  have fits := stored.fits
  refine ⟨_, rfl, ?_⟩
  by_cases isFull : v.capacity = v.total
  · obtain ⟨noOverflow, small⟩ :=
      VH.granted_double positive isInt (granted isFull)
    obtain ⟨resized, sameGrants, sameTotal, newCapacity⟩ :=
      stored.resize (by omega : 1 ≤ v.capacity * 2) (by omega)
    rw [← noOverflow, if_pos (granted isFull), noOverflow] at newCapacity
    rw [if_pos isFull, noOverflow]
    refine ⟨resized, ?_, sameGrants, ?_⟩
    · rw [sameTotal, newCapacity]
      omega
    · rw [newCapacity]
      omega
  · rw [if_neg isFull]
    exact ⟨stored, by omega, rfl, isInt⟩

/-- `v_add` appends the item when the vector has room after its request. -/
theorem vAdd_stored
    {grown : VH α}
    (grows :
      (if v.capacity = v.total then
        vResize v (toInt (v.capacity * 2))
      else
        v) =
        grown)
    (stored : grown.Stored list)
    (room : grown.total < grown.capacity)
    (item : Option α) :
    ∃ next,
      vAdd v item = .ok next ∧
        next.Stored (list ++ [item]) ∧
        next.grants = grown.grants ∧
        next.capacity = grown.capacity := by
  obtain ⟨cells, isItems, length, begins⟩ := stored.stored
  have total := stored.total
  have sameIndex : grown.total.toNat = list.length := by
    omega
  obtain ⟨written, writes, writtenHolds⟩ :=
    begins.write_behind (by omega) item
  refine ⟨{ grown with items := some written, total := grown.total + 1 }, ?_, ?_,
    rfl, rfl⟩
  · simp only [vAdd, grows, isItems, sameIndex, writes, Checked.ok_bind]
  · refine ⟨?_, stored.positive, ?_, ⟨written, rfl, ?_, writtenHolds⟩⟩
    · rw [List.length_append, List.length_singleton]
      change grown.total + 1 = _
      omega
    · change grown.total + 1 ≤ grown.capacity
      omega
    · rw [CellArray.length_write writes]
      exact length

/-- An index in range splits the list at the element. -/
theorem split_of_inRange
    {index : Int}
    (inRange : InRange list index) :
    ∃ front item back,
      list = front ++ item :: back ∧ index = (front.length : Int) := by
  obtain ⟨notNegative, small⟩ := inRange
  have inside : index.toNat < list.length := by
    omega
  refine ⟨list.take index.toNat, list[index.toNat],
    list.drop (index.toNat + 1), ?_, ?_⟩
  · rw [← List.drop_eq_getElem_cons inside, List.take_append_drop]
  · rw [List.length_take]
    omega

/-- The test of an index against `total`. -/
theorem inRange_iff
    (total : v.total = list.length)
    (index : Int) :
    (index ≥ 0 ∧ index < v.total) ↔ InRange list index := by
  rw [total]
  rfl

/-- `v_set` replaces the element at an index in range. -/
theorem vSet_stored
    (stored : v.Stored list)
    {index : Int}
    (inRange : InRange list index)
    (item : Option α) :
    ∃ next,
      vSet v index item = .ok next ∧
        next.Stored (list.set index.toNat item) ∧
        next.grants = v.grants ∧
        next.capacity = v.capacity := by
  obtain ⟨cells, isItems, length, begins⟩ := stored.stored
  have total := stored.total
  have inTotal := (inRange_iff total index).mpr inRange
  obtain ⟨front, old, back, rfl, rfl⟩ := split_of_inRange inRange
  obtain ⟨written, writes, writtenHolds⟩ := begins.write item
  refine ⟨{ v with items := some written }, ?_, ?_, rfl, rfl⟩
  · rw [vSet, if_pos inTotal, isItems]
    simp only [Int.toNat_natCast, writes, Checked.ok_bind]
  · rw [Int.toNat_natCast, List.set_append_right _ _ (Nat.le_refl _),
      Nat.sub_self, List.set_cons_zero]
    refine ⟨?_, stored.positive, stored.fits, ⟨written, rfl, ?_, writtenHolds⟩⟩
    · rw [List.length_append, List.length_cons] at total ⊢
      exact total
    · rw [CellArray.length_write writes]
      exact length

/-- `v_get` returns the element at an index in range. -/
theorem vGet_stored
    (stored : v.Stored list)
    {index : Int}
    (inRange : InRange list index) :
    vGet v index = .ok (list.getD index.toNat none) := by
  obtain ⟨cells, isItems, -, begins⟩ := stored.stored
  have inTotal := (inRange_iff stored.total index).mpr inRange
  obtain ⟨front, item, back, rfl, rfl⟩ := split_of_inRange inRange
  rw [vGet, if_pos inTotal, isItems]
  simp only [Int.toNat_natCast, begins.read]
  simp

/-- The loop of `v_delete` moves a `NULL` behind the items after it. -/
theorem shiftDown_holds
    {cells : CellArray (Option α)}
    {front back : List (Option α)}
    (stored : cells.Holds (front ++ none :: back)) :
    ∃ next,
      shiftDown cells front.length back.length = .ok next ∧
        next.length = cells.length ∧
        next.Holds (front ++ back ++ [none]) := by
  induction back generalizing cells front with
  | nil =>
      refine ⟨cells, rfl, rfl, ?_⟩
      rw [List.append_nil]
      exact stored
  | cons item back inductionHypothesis =>
      have isFront : (front ++ [none]).length = front.length + 1 :=
        List.length_append
      have atItem : cells.Holds ((front ++ [none]) ++ item :: back) := by
        rw [List.append_assoc]
        exact stored
      have reads := atItem.read
      obtain ⟨lowered, writesItem, loweredHolds⟩ := stored.write item
      have atHole : lowered.Holds ((front ++ [item]) ++ item :: back) := by
        rw [List.append_assoc]
        exact loweredHolds
      obtain ⟨holed, writesNull, holedHolds⟩ := atHole.write none
      obtain ⟨next, shifts, length, nextHolds⟩ :=
        inductionHypothesis holedHolds
      have isNext : (front ++ [item]).length = front.length + 1 :=
        List.length_append
      rw [isFront] at reads
      rw [isNext] at writesNull shifts
      refine ⟨next, ?_, ?_, ?_⟩
      · simp only [List.length_cons, shiftDown, reads, writesItem, writesNull,
          Checked.ok_bind, shifts]
      · rw [length, CellArray.length_write writesNull,
          CellArray.length_write writesItem]
      · rw [List.append_assoc front [item] back] at nextHolds
        exact nextHolds

/-- A vector that is a quarter full asks for half its capacity. -/
theorem VH.Stored.shrink
    (stored : v.Stored list) :
    ∃ next,
      (if v.total > 0 ∧ v.total = v.capacity.tdiv 4 then
          (.ok (vResize v (v.capacity.tdiv 2)) : Checked (VH α))
        else
          .ok v) =
          .ok next ∧
        next.Stored list ∧
        next.grants = v.grants ∧
        next.capacity ≤ v.capacity := by
  have positive := stored.positive
  split
  next isQuarter =>
    obtain ⟨notEmpty, isQuarter⟩ := isQuarter
    rw [Int.tdiv_eq_ediv_of_nonneg (by omega)] at isQuarter
    refine ⟨_, rfl, ?_⟩
    rw [Int.tdiv_eq_ediv_of_nonneg (by omega)]
    obtain ⟨resized, sameGrants, -, capacity⟩ :=
      stored.resize (by omega : 1 ≤ v.capacity / 2) (by omega)
    refine ⟨resized, sameGrants, ?_⟩
    rw [capacity]
    split <;> omega
  next =>
    exact ⟨v, rfl, stored, rfl, Int.le_refl _⟩

/-- `v_delete` removes the element at an index in range. -/
theorem vDelete_stored
    (stored : v.Stored list)
    {index : Int}
    (inRange : InRange list index) :
    ∃ next,
      vDelete v index = .ok next ∧
        next.Stored (list.eraseIdx index.toNat) ∧
        next.grants = v.grants ∧
        next.capacity ≤ v.capacity := by
  obtain ⟨cells, isItems, length, begins⟩ := stored.stored
  have total := stored.total
  have inTotal := (inRange_iff total index).mpr inRange
  obtain ⟨front, item, back, rfl, rfl⟩ := split_of_inRange inRange
  have notOutside :
      ¬ ((front.length : Int) < 0 ∨ (front.length : Int) ≥ v.total) := by
    omega
  obtain ⟨cleared, clears, clearedHolds⟩ := begins.write none
  obtain ⟨shifted, shifts, shiftedLength, shiftedHolds⟩ :=
    shiftDown_holds clearedHolds
  rw [List.length_append, List.length_cons] at total
  have steps : (v.total - 1 - (front.length : Int)).toNat = back.length := by
    omega
  have afterLoop :
      ({ v with items := some shifted, total := v.total - 1 } : VH α).Stored
        (front ++ back) := by
    refine ⟨?_, stored.positive, ?_, ⟨shifted, rfl, ?_, ?_⟩⟩
    · rw [List.length_append]
      change v.total - 1 = _
      omega
    · have fits := stored.fits
      change v.total - 1 ≤ v.capacity
      omega
    · rw [shiftedLength, CellArray.length_write clears]
      exact length
    · exact shiftedHolds.of_append
  obtain ⟨next, shrinks, nextStored⟩ := afterLoop.shrink
  refine ⟨next, ?_, ?_⟩
  · rw [vDelete, if_neg notOutside, isItems]
    simp only [Int.toNat_natCast, clears, Checked.ok_bind, steps, shifts]
    exact shrinks
  · rw [Int.toNat_natCast, List.eraseIdx_append_of_length_le (Nat.le_refl _),
      Nat.sub_self, List.eraseIdx_cons_zero]
    exact nextStored

/--
A call that finds room does to the vector what it does to the list, and leaves
the capacity an `int`.
-/
theorem vStep_stored
    (stored : v.Stored list)
    (isInt : v.capacity < 2 ^ 31)
    (call : VCall α)
    (granted :
      (∃ item, call = .add item) →
      v.capacity = v.total →
      v.granted (toInt (v.capacity * 2)) = true) :
    ∃ next result nextList,
      vStep v call = .ok (next, result) ∧
        listStep list call = .ok (nextList, result) ∧
        next.Stored nextList ∧
        next.grants = v.grants ∧
        next.capacity < 2 ^ 31 := by
  cases call with
  | add item =>
      obtain ⟨grown, grows, grownStored, room, sameGrants, stillInt⟩ :=
        stored.grow isInt (granted ⟨item, rfl⟩)
      obtain ⟨next, adds, nextStored, nextGrants, sameCapacity⟩ :=
        vAdd_stored grows grownStored room item
      refine ⟨next, .done, _, ?_, rfl, nextStored,
        nextGrants.trans sameGrants, by omega⟩
      simp only [vStep, adds, Checked.ok_bind]
  | set index item =>
      by_cases inRange : InRange list index
      · obtain ⟨next, sets, nextStored, sameGrants, sameCapacity⟩ :=
          vSet_stored stored inRange item
        refine ⟨next, .done, _, ?_, if_pos inRange, nextStored, sameGrants,
          by omega⟩
        simp only [vStep, sets, Checked.ok_bind]
      · refine ⟨v, .done, list, ?_, if_neg inRange, stored, rfl, isInt⟩
        rw [vStep, vSet,
          if_neg ((inRange_iff stored.total _).not.mpr inRange)]
        rfl
  | get index =>
      by_cases inRange : InRange list index
      · refine ⟨v, .item (list.getD index.toNat none), list, ?_,
          if_pos inRange, stored, rfl, isInt⟩
        rw [vStep, vGet_stored stored inRange]
        rfl
      · refine ⟨v, .item none, list, ?_, if_neg inRange, stored, rfl, isInt⟩
        rw [vStep, vGet,
          if_neg ((inRange_iff stored.total _).not.mpr inRange)]
        rfl
  | delete index =>
      by_cases inRange : InRange list index
      · obtain ⟨next, deletes, nextStored, sameGrants, noMore⟩ :=
          vDelete_stored stored inRange
        refine ⟨next, .done, _, ?_, if_pos inRange, nextStored, sameGrants,
          by omega⟩
        simp only [vStep, deletes, Checked.ok_bind]
      · have isOutside : index < 0 ∨ index ≥ v.total := by
          have notInTotal := (inRange_iff stored.total index).not.mpr inRange
          omega
        refine ⟨v, .done, list, ?_, if_neg inRange, stored, rfl, isInt⟩
        rw [vStep, vDelete, if_pos isOutside]
        rfl
  | len =>
      refine ⟨v, .number list.length, list, ?_, rfl, stored, rfl, isInt⟩
      rw [vStep, vLen, stored.total]

end Stored

section Holds

variable {α : Type} {v : VH α} {list : List (Option α)}

/-- The items of a vector whose requests are granted. -/
theorem VH.Holds.toStored
    (holds : v.Holds list) :
    v.Stored list :=
  ⟨holds.total, holds.positive, holds.fits, holds.stored⟩

/-- A request for few items is granted. -/
theorem VH.Holds.granted
    (holds : v.Holds list)
    {capacity : Int}
    (notNegative : 0 ≤ capacity)
    (small : capacity < 2 ^ 31) :
    v.granted capacity = true := by
  have fits : itemsSize capacity ≤ maxObjectSize := by
    unfold itemsSize maxObjectSize
    omega
  rw [VH.granted, holds.grants, decide_eq_true fits]
  rfl

/-- Every call does to the vector what it does to the list. -/
theorem vStep_refines
    (holds : v.Holds list)
    (call : VCall α)
    (small : SmallCapacity v call) :
    ∃ next result nextList,
      vStep v call = .ok (next, result) ∧
        listStep list call = .ok (nextList, result) ∧
        next.Holds nextList := by
  unfold SmallCapacity at small
  have positive := holds.positive
  have noOverflow : toInt (v.capacity * 2) = v.capacity * 2 := by
    apply Int.bmod_eq_of_le <;> omega
  obtain ⟨next, result, nextList, steps, listSteps, nextStored, sameGrants, -⟩ :=
    vStep_stored holds.toStored (by omega) call fun _ _ => by
      rw [noOverflow]
      exact holds.granted (by omega) (by omega)
  refine ⟨next, result, nextList, steps, listSteps, nextStored.holds ?_⟩
  rw [sameGrants]
  exact holds.grants

end Holds

/-- The capacity is below `2^30` before each of the calls on a new vector. -/
def CapacityStaysSmall
    {α : Type}
    (passed : Bool)
    (dim : Int)
    (calls : List (VCall α)) : Prop :=
  ∀ created,
    vCreate passed dim (fun _ => true) = some created →
    AlwaysAllowed (StepOf vStep) SmallCapacity created calls

/-- A new vector is empty. -/
theorem vCreate_holds
    {α : Type}
    (passed : Bool)
    {dim : Int}
    (small : dim < 2 ^ 30) :
    ∃ v : VH α, vCreate passed dim (fun _ => true) = some v ∧ v.Holds [] := by
  obtain ⟨capacity, isCapacity, positive, isSmall⟩ :
      ∃ capacity,
        (if dim > vectorInitCapacity then dim else vectorInitCapacity) =
            capacity ∧
          1 ≤ capacity ∧ capacity < 2 ^ 30 := by
    refine ⟨_, rfl, ?_, ?_⟩ <;>
      · unfold vectorInitCapacity
        split <;> omega
  have fits : itemsSize capacity ≤ maxObjectSize := by
    unfold itemsSize maxObjectSize
    omega
  refine ⟨_, if_neg (by simp), ?_⟩
  simp only [isCapacity, VH.granted, Bool.true_and, decide_eq_true fits,
    ↓reduceIte]
  refine ⟨rfl, positive, ?_, ⟨_, rfl, ?_, .nil _⟩, fun _ => rfl⟩
  · change 0 ≤ capacity
    omega
  · rw [CellArray.length_fresh]
    exact Int.toNat_of_nonneg (by omega)

/--
Every run of calls on a new vector returns what the calls return for a list that
starts empty, and the vector holds the list: its first items are the elements,
its capacity is at least one and at least their number.
-/
theorem vector_refines_list
    {α : Type}
    (passed : Bool)
    (dim : Int)
    (small : dim < 2 ^ 30)
    (calls : List (VCall α))
    (staysSmall : CapacityStaysSmall passed dim calls) :
    ∃ created v list results,
      vCreate passed dim (fun _ => true) = some created ∧
        runCalls vStep created calls = .ok (v, results) ∧
        runCalls listStep [] calls = .ok (list, results) ∧
        v.Holds list := by
  obtain ⟨created, creates, holds⟩ :
      ∃ v : VH α, vCreate passed dim (fun _ => true) = some v ∧ v.Holds [] :=
    vCreate_holds passed small
  obtain ⟨v, results, list, runs, listRuns, finalHolds⟩ :=
    runCalls_simulates
      (fun holds isSmall => vStep_refines holds _ isSmall) holds
      (staysSmall created creates)
  exact ⟨created, v, list, results, creates, runs, listRuns, finalHolds⟩

/-- A vector of three items, one replaced and one deleted. -/
theorem vector_refines_list_three :
    ∃ created v list results,
      vCreate true 0 (fun _ => true) = some created ∧
        runCalls vStep created
            [.add (some 1), .add none, .add (some 3), .set 1 (some 2),
              .delete 0, .get 1, .delete 5, .len] =
          .ok (v, results) ∧
        runCalls listStep []
            [.add (some 1), .add none, .add (some 3), .set 1 (some 2),
              .delete 0, .get 1, .delete 5, .len] =
          .ok (list, results) ∧
        v.Holds list := by
  apply vector_refines_list true 0 (by decide)
  intro created creates
  cases creates
  apply AlwaysAllowed.step rfl (by decide)
  apply AlwaysAllowed.step rfl (by decide)
  apply AlwaysAllowed.step rfl (by decide)
  apply AlwaysAllowed.step rfl (by decide)
  apply AlwaysAllowed.step rfl (by decide)
  apply AlwaysAllowed.step rfl (by decide)
  apply AlwaysAllowed.step rfl (by decide)
  apply AlwaysAllowed.step rfl (by decide)
  trivial

end Clibs.Vector
