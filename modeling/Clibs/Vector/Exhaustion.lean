import Clibs.Vector.Refinement

namespace Clibs.Vector

/-!
# The vector when memory runs out

A refused request for fewer items leaves the vector as it is.  A refused request
for more items leaves a full vector, and a refused request for the first items
leaves none: `v_add` looks at neither, so it stays within the storage exactly
when it is called on a vector that has room or is granted it.
-/

/-- The number of item cells that are allocated. -/
def VH.allocatedCells
    {α : Type}
    (v : VH α) : Nat :=
  (v.items.getD []).length

/--
The elements lie within the allocated cells and can be read, also after a
request for another capacity was refused.
-/
structure VH.Within
    {α : Type}
    (v : VH α)
    (list : List (Option α)) : Prop where
  total : v.total = list.length
  within : v.total ≤ v.allocatedCells
  readable :
    ∀ index,
      InRange list index →
      vGet v index = .ok (list.getD index.toNat none)
  refused :
    ∀ capacity,
      v.granted capacity = false →
      (vResize v capacity).total = v.total ∧
        (vResize v capacity).allocatedCells = v.allocatedCells ∧
        ∀ index, vGet (vResize v capacity) index = vGet v index

/--
After every call the elements are those of the list and lie within the storage;
no call faults.
-/
def StaysWithin
    {α : Type}
    (v : VH α)
    (list : List (Option α))
    (calls : List (VCall α)) : Prop :=
  ∀ front back,
    calls = front ++ back →
    ∃ next results nextList,
      runCalls vStep v front = .ok (next, results) ∧
        runCalls listStep list front = .ok (nextList, results) ∧
        next.Within nextList

/-- An item can be added: there are items, and a full vector can grow. -/
def HasRoom
    {α : Type}
    (v : VH α) : VCall α → Prop
  | .add _ =>
      v.items.isSome = true ∧
        (v.capacity = v.total →
          v.granted (toInt (v.capacity * 2)) = true)
  | _ =>
      True

/-- The vector has no items, because the first request for them was refused. -/
structure VH.Bare
    {α : Type}
    (v : VH α)
    (list : List (Option α)) : Prop where
  items : v.items = none
  positive : 1 ≤ v.capacity
  total : v.total = 0
  empty : list = []

/-- The vector holds the list, or has no items. -/
structure VH.Kept
    {α : Type}
    (v : VH α)
    (list : List (Option α)) : Prop where
  holds : v.Stored list ∨ v.Bare list
  isInt : v.capacity < 2 ^ 31

section Steps

variable {α : Type} {v : VH α} {list : List (Option α)}

/-- No index is in the range of a vector without items. -/
theorem VH.Bare.not_inRange
    (bare : v.Bare list)
    (index : Int) :
    ¬ InRange list index := by
  rw [bare.empty]
  rintro ⟨notNegative, small⟩
  rw [List.length_nil] at small
  omega

/-- Without items every call but `v_add` does nothing. -/
theorem VH.Bare.step
    (bare : v.Bare list)
    {call : VCall α}
    (noAdd : ∀ item, call ≠ .add item) :
    ∃ result,
      vStep v call = .ok (v, result) ∧
        listStep list call = .ok (list, result) := by
  have total : v.total = list.length := by
    rw [bare.total, bare.empty]
    rfl
  cases call with
  | add item =>
      exact (noAdd item rfl).elim
  | set index item =>
      have outside := bare.not_inRange index
      refine ⟨.done, ?_, if_neg outside⟩
      rw [vStep, vSet, if_neg ((inRange_iff total index).not.mpr outside)]
      rfl
  | get index =>
      have outside := bare.not_inRange index
      refine ⟨.item none, ?_, if_neg outside⟩
      rw [vStep, vGet, if_neg ((inRange_iff total index).not.mpr outside)]
      rfl
  | delete index =>
      have outside := bare.not_inRange index
      have isOutside : index < 0 ∨ index ≥ v.total := by
        have notInTotal := (inRange_iff total index).not.mpr outside
        omega
      refine ⟨.done, ?_, if_neg outside⟩
      rw [vStep, vDelete, if_pos isOutside]
      rfl
  | len =>
      refine ⟨.number list.length, ?_, rfl⟩
      rw [vStep, vLen, total]

/-- A call that finds room does to the vector what it does to the list. -/
theorem vStep_kept
    (kept : v.Kept list)
    {call : VCall α}
    (room : HasRoom v call) :
    ∃ next result nextList,
      vStep v call = .ok (next, result) ∧
        listStep list call = .ok (nextList, result) ∧
        next.Kept nextList := by
  rcases kept.holds with stored | bare
  · obtain ⟨next, result, nextList, steps, listSteps, nextStored, -, isInt⟩ :=
      vStep_stored stored kept.isInt call (by
        rintro ⟨item, rfl⟩
        exact room.2)
    exact ⟨next, result, nextList, steps, listSteps, .inl nextStored, isInt⟩
  · have noAdd : ∀ item, call ≠ .add item := by
      rintro item rfl
      obtain ⟨hasItems, -⟩ := room
      rw [bare.items] at hasItems
      cases hasItems
    obtain ⟨result, steps, listSteps⟩ := bare.step noAdd
    exact ⟨v, result, list, steps, listSteps, .inr bare, kept.isInt⟩

/-- `v_add` without room writes through `NULL` or behind the items. -/
theorem vAdd_faults
    (kept : v.Kept list)
    (item : Option α)
    (noRoom : ¬ HasRoom v (.add item)) :
    vAdd v item = .error .nullDereference ∨
      vAdd v item = .error .outOfBounds := by
  rcases kept.holds with stored | bare
  · obtain ⟨cells, isItems, length, -⟩ := stored.stored
    have refused :
        v.capacity = v.total ∧
          ¬ v.granted (toInt (v.capacity * 2)) = true := by
      simpa [HasRoom, isItems] using noRoom
    have positive := stored.positive
    have noCell : ¬ v.total.toNat < cells.length := by
      omega
    right
    simp only [vAdd, if_pos refused.1, vResize, if_neg refused.2, isItems,
      CellArray.write, if_neg noCell, Checked.error_bind]
  · have positive := bare.positive
    have total := bare.total
    have notFull : v.capacity ≠ v.total := by
      omega
    left
    simp only [vAdd, if_neg notFull, bare.items]

/-- The elements of a vector lie within its storage. -/
theorem VH.Kept.within
    (kept : v.Kept list) :
    v.Within list := by
  have refused :
      ∀ capacity,
        v.granted capacity = false →
        vResize v capacity = { v with requests := v.requests + 1 } := by
    intro capacity isRefused
    rw [vResize, if_neg (by simp [isRefused])]
  rcases kept.holds with stored | bare
  · obtain ⟨cells, isItems, length, begins⟩ := stored.stored
    have fits := stored.fits
    refine ⟨stored.total, ?_, fun _ => vGet_stored stored, ?_⟩
    · rw [VH.allocatedCells, isItems, Option.getD_some]
      omega
    · intro capacity isRefused
      rw [refused capacity isRefused]
      exact ⟨rfl, rfl, fun _ => rfl⟩
  · refine ⟨?_, ?_, fun index inRange => (bare.not_inRange index inRange).elim,
      ?_⟩
    · rw [bare.total, bare.empty]
      rfl
    · rw [bare.total]
      exact Int.natCast_nonneg _
    · intro capacity isRefused
      rw [refused capacity isRefused]
      exact ⟨rfl, rfl, fun _ => rfl⟩

/-- Calls that all find room stay within the storage. -/
theorem VH.Kept.staysWithin
    (kept : v.Kept list)
    {calls : List (VCall α)}
    (rooms : AlwaysAllowed (StepOf vStep) HasRoom v calls) :
    StaysWithin v list calls := by
  rintro front back rfl
  obtain ⟨next, results, nextList, runs, listRuns, nextKept⟩ :=
    runCalls_simulates (fun kept room => vStep_kept kept room) kept
      rooms.of_append
  exact ⟨next, results, nextList, runs, listRuns, nextKept.within⟩

/-- A call of a run that stays within the storage finds room. -/
theorem VH.Kept.hasRoom
    (kept : v.Kept list)
    {call : VCall α}
    {rest : List (VCall α)}
    (stays : StaysWithin v list (call :: rest)) :
    HasRoom v call := by
  obtain ⟨next, results, -, runs, -⟩ := stays [call] rest rfl
  obtain ⟨⟨middle, result⟩, steps, -⟩ := Checked.bind_eq_ok.mp runs
  cases call with
  | add item =>
      by_contra noRoom
      obtain ⟨added, adds, -⟩ := Checked.bind_eq_ok.mp steps
      rcases vAdd_faults kept item noRoom with faults | faults <;>
        · rw [faults] at adds
          cases adds
  | _ =>
      trivial

/-- In a run that stays within the storage all calls find room. -/
theorem VH.Kept.rooms
    (kept : v.Kept list)
    {calls : List (VCall α)}
    (stays : StaysWithin v list calls) :
    AlwaysAllowed (StepOf vStep) HasRoom v calls := by
  induction calls generalizing v list with
  | nil =>
      trivial
  | cons call rest inductionHypothesis =>
      have room := kept.hasRoom stays
      obtain ⟨next, result, nextList, steps, listSteps, nextKept⟩ :=
        vStep_kept kept room
      refine .step steps room (inductionHypothesis nextKept ?_)
      rintro front back rfl
      obtain ⟨last, results, lastList, runs, listRuns, within⟩ :=
        stays (call :: front) back rfl
      obtain ⟨⟨_, _⟩, stepsToo, later⟩ := Checked.bind_eq_ok.mp runs
      obtain ⟨⟨_, _⟩, listStepsToo, listLater⟩ :=
        Checked.bind_eq_ok.mp listRuns
      cases steps.symm.trans stepsToo
      cases listSteps.symm.trans listStepsToo
      obtain ⟨⟨final, laterResults⟩, laterRuns, same⟩ :=
        Checked.bind_eq_ok.mp later
      obtain ⟨⟨finalList, listResults⟩, listLaterRuns, sameList⟩ :=
        Checked.bind_eq_ok.mp listLater
      cases same
      cases sameList
      exact ⟨last, laterResults, lastList, laterRuns, listLaterRuns, within⟩

end Steps

/-- A new vector is empty, whatever requests are granted. -/
theorem vCreate_kept
    {α : Type}
    {passed : Bool}
    {dim : Int}
    {grants : Nat → Bool}
    {created : VH α}
    (isInt : dim < 2 ^ 31)
    (creates : vCreate passed dim grants = some created) :
    created.Kept [] := by
  obtain ⟨capacity, isCapacity, positive, small⟩ :
      ∃ capacity,
        (if dim > vectorInitCapacity then dim else vectorInitCapacity) =
            capacity ∧
          1 ≤ capacity ∧ capacity < 2 ^ 31 := by
    refine ⟨_, rfl, ?_, ?_⟩ <;>
      · unfold vectorInitCapacity
        split <;> omega
  unfold vCreate at creates
  split at creates
  next =>
    cases creates
  next =>
    cases creates
    refine ⟨?_, by simpa only [isCapacity] using small⟩
    simp only [isCapacity]
    generalize (if passed = true then (0 : Int) else 1) = allocated
    generalize (if passed = true then 0 else 1) = requests
    split
    next =>
      left
      refine ⟨rfl, positive, ?_, ⟨_, rfl, ?_, .nil _⟩⟩
      · change 0 ≤ capacity
        omega
      · rw [CellArray.length_fresh]
        exact Int.toNat_of_nonneg (by omega)
    next =>
      exact .inr ⟨rfl, positive, rfl, rfl⟩

/--
A vector stays within its storage in a run of calls, whatever requests for
memory are refused, exactly when every `v_add` of the run is called on a vector
that has items and is not full, or is granted the request to grow.
-/
theorem vector_stays_within_storage_iff
    {α : Type}
    (passed : Bool)
    (dim : Int)
    (isInt : dim < 2 ^ 31)
    (grants : Nat → Bool)
    (created : VH α)
    (creates : vCreate passed dim grants = some created)
    (calls : List (VCall α)) :
    StaysWithin created [] calls ↔
      AlwaysAllowed (StepOf vStep) HasRoom created calls := by
  have kept := vCreate_kept isInt creates
  exact ⟨kept.rooms, kept.staysWithin⟩

/-- Six items are added, and the request for fewer is refused after a deletion. -/
theorem vector_stays_within_storage_shrinks :
    ∃ created : VH Nat,
      vCreate true 0 (fun request => request = 0) = some created ∧
        StaysWithin created []
          (List.replicate 6 (.add (some 7)) ++ [.delete 0, .get 4]) := by
  refine ⟨_, rfl, ?_⟩
  apply
    (vector_stays_within_storage_iff true 0 (by decide)
      (fun request => request = 0) _ rfl _).mpr
  apply AlwaysAllowed.step rfl ⟨rfl, by decide⟩
  apply AlwaysAllowed.step rfl ⟨rfl, by decide⟩
  apply AlwaysAllowed.step rfl ⟨rfl, by decide⟩
  apply AlwaysAllowed.step rfl ⟨rfl, by decide⟩
  apply AlwaysAllowed.step rfl ⟨rfl, by decide⟩
  apply AlwaysAllowed.step rfl ⟨rfl, by decide⟩
  apply AlwaysAllowed.step rfl trivial
  apply AlwaysAllowed.step rfl trivial
  trivial

/--
Without memory for more than the first items, the addition after those writes
behind them; without memory for the first items, the first addition writes
through `NULL`.
-/
theorem vector_overruns_storage :
    (∃ created : VH Nat,
      vCreate true 0 (fun request => request = 0) = some created ∧
        runCalls vStep created (List.replicate 21 (.add (some 7))) =
          .error .outOfBounds ∧
        ¬ StaysWithin created [] (List.replicate 21 (.add (some 7)))) ∧
      ∃ created : VH Nat,
        vCreate true 0 (fun _ => false) = some created ∧
          runCalls vStep created [.add (some 7)] = .error .nullDereference ∧
          ¬ StaysWithin created [] [.add (some 7)] := by
  constructor
  · refine ⟨_, rfl, rfl, ?_⟩
    intro stays
    obtain ⟨next, results, nextList, runs, -⟩ :=
      stays (List.replicate 21 (.add (some 7))) [] (by simp)
    cases runs
  · refine ⟨_, rfl, rfl, ?_⟩
    intro stays
    obtain ⟨next, results, nextList, runs, -⟩ := stays [.add (some 7)] [] rfl
    cases runs

end Clibs.Vector
