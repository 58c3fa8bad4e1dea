import Mathlib.Algebra.BigOperators.Fin
import Mathlib.Algebra.Order.BigOperators.Group.Finset
import Mathlib.Data.List.FinRange
import Mathlib.Data.List.Perm.Basic
import Mathlib.Logic.Function.Basic
import Mathlib.Tactic.Common

namespace Clibs

/-!
# Tables of thread states

A program with `n` threads has a state for each.  `tally` counts the threads in
a given kind of state, `total` adds up a weight over them and `collect` lists
what they hold; all change by one entry when one thread moves.  `wakeOne` is the
effect of signalling a condition variable: one of the threads that sleep on it
is woken, and the caller's choice decides which.
-/

/-- In a table of one thread, the thread is a numeral. -/
theorem neZero_one :
    NeZero 1 :=
  ⟨Nat.one_ne_zero⟩

/-- In a table of two threads, the threads are numerals. -/
theorem neZero_two :
    NeZero 2 :=
  ⟨Nat.succ_ne_zero 1⟩

/-- In a table of three threads, the threads are numerals. -/
theorem neZero_three :
    NeZero 3 :=
  ⟨Nat.succ_ne_zero 2⟩

/-- The number of threads in a state of the given kind. -/
def tally
    {n : Nat}
    {State : Type}
    (kind : State → Bool)
    (table : Fin n → State) : Nat :=
  (List.finRange n).countP fun thread => kind (table thread)

/-- The sum of a weight over the threads. -/
def total
    {n : Nat}
    {State Weight : Type}
    [AddCommMonoid Weight]
    (weight : State → Weight)
    (table : Fin n → State) : Weight :=
  ∑ thread, weight (table thread)

/-- What the threads hold, in the order of the threads. -/
def collect
    {n : Nat}
    {State Item : Type}
    (held : State → Option Item)
    (table : Fin n → State) : List Item :=
  (List.finRange n).filterMap fun thread => held (table thread)

/-- The threads in a state of the given kind. -/
def threadsIn
    {n : Nat}
    {State : Type}
    (kind : State → Bool)
    (table : Fin n → State) : List (Fin n) :=
  (List.finRange n).filter fun thread => kind (table thread)

/--
Wake one of the threads of the given kind; nothing happens when there is none.
-/
def wakeOne
    {n : Nat}
    {State : Type}
    (asleep : State → Bool)
    (woken : State → State)
    (choice : Nat)
    (table : Fin n → State) : Fin n → State :=
  match
    (threadsIn asleep table)[choice % (threadsIn asleep table).length]?
  with
  | none =>
      table
  | some thread =>
      Function.update table thread (woken (table thread))

section ThreadTable

variable {n : Nat} {State Item : Type}

/-- The threads are one of them and the others. -/
theorem finRange_split
    (thread : Fin n) :
    ∃ before after,
      List.finRange n = before ++ thread :: after ∧
        ∀ other ∈ before ++ after, other ≠ thread := by
  obtain ⟨before, after, split⟩ :=
    List.mem_iff_append.mp (List.mem_finRange thread)
  have distinct := List.nodup_finRange n
  rw [split, List.nodup_middle, List.nodup_cons] at distinct
  refine ⟨before, after, split, ?_⟩
  rintro other member rfl
  exact distinct.1 member

/-- When one thread moves, the count of a kind changes by that thread. -/
theorem tally_update
    (kind : State → Bool)
    (table : Fin n → State)
    (thread : Fin n)
    (state : State) :
    tally kind (Function.update table thread state) +
        (if kind (table thread) then 1 else 0) =
      tally kind table + (if kind state then 1 else 0) := by
  obtain ⟨before, after, split, others⟩ := finRange_split thread
  have sameBefore :
      before.countP (fun other =>
          kind (Function.update table thread state other)) =
        before.countP fun other => kind (table other) := by
    apply List.countP_congr
    intro other member
    rw [Function.update_of_ne (others other (by simp [member]))]
  have sameAfter :
      after.countP (fun other =>
          kind (Function.update table thread state other)) =
        after.countP fun other => kind (table other) := by
    apply List.countP_congr
    intro other member
    rw [Function.update_of_ne (others other (by simp [member]))]
  simp only [tally, split, List.countP_append, List.countP_cons,
    sameBefore, sameAfter, Function.update_self]
  omega

/-- A kind is counted when some thread is of it. -/
theorem tally_pos
    {kind : State → Bool}
    {table : Fin n → State}
    (thread : Fin n)
    (isKind : kind (table thread) = true) :
    0 < tally kind table :=
  List.countP_pos_iff.mpr ⟨thread, List.mem_finRange thread, isKind⟩

/-- A kind that no thread is of is not counted. -/
theorem tally_eq_zero
    {kind : State → Bool}
    {table : Fin n → State}
    (noThread : ∀ thread, kind (table thread) = false) :
    tally kind table = 0 := by
  apply List.countP_eq_zero.mpr
  intro thread member
  simp [noThread thread]

/-- A counted kind has a thread. -/
theorem exists_of_tally_pos
    {kind : State → Bool}
    {table : Fin n → State}
    (positive : 0 < tally kind table) :
    ∃ thread, kind (table thread) = true := by
  obtain ⟨thread, -, isKind⟩ := List.countP_pos_iff.mp positive
  exact ⟨thread, isKind⟩

/-- When one thread moves, a sum changes by the weight of that thread. -/
theorem total_update
    {Weight : Type}
    [AddCommMonoid Weight]
    (weight : State → Weight)
    (table : Fin n → State)
    (thread : Fin n)
    (state : State) :
    total weight (Function.update table thread state) +
        weight (table thread) =
      total weight table + weight state := by
  have others :
      ∑ other ∈ Finset.univ.erase thread,
          weight (Function.update table thread state other) =
        ∑ other ∈ Finset.univ.erase thread, weight (table other) := by
    apply Finset.sum_congr rfl
    intro other member
    rw [Function.update_of_ne (Finset.ne_of_mem_erase member)]
  have isThread := Finset.mem_univ thread
  rw [total, total, ← Finset.sum_erase_add _ _ isThread,
    ← Finset.sum_erase_add _ _ isThread, others, Function.update_self]
  exact add_right_comm _ _ _

/-- A count is a sum of ones. -/
theorem tally_eq_total
    (kind : State → Bool)
    (table : Fin n → State) :
    tally kind table =
      total (fun state => if kind state then 1 else 0) table := by
  rw [total, ← List.sum_ofFn, tally, List.ofFn_eq_map]
  induction List.finRange n with
  | nil =>
      rfl
  | cons thread rest inductionHypothesis =>
      rw [List.countP_cons, List.map_cons, List.sum_cons, inductionHypothesis]
      exact Nat.add_comm _ _

/-- A sum of ones over the threads of a kind. -/
theorem total_eq_tally
    (kind : State → Bool)
    (table : Fin n → State) :
    total (fun state => if kind state then (1 : Int) else 0) table =
      tally kind table := by
  simp only [tally_eq_total, total, Nat.cast_sum, Nat.cast_ite, Nat.cast_one,
    Nat.cast_zero]

/-- No thread is of a kind that is not counted. -/
theorem not_kind_of_tally
    {kind : State → Bool}
    {table : Fin n → State}
    (nobody : tally kind table = 0)
    (thread : Fin n) :
    kind (table thread) = false := by
  cases isKind : kind (table thread) with
  | false =>
      rfl
  | true =>
      exact ((tally_pos thread isKind).ne' nobody).elim

/-- Kinds that no thread is of at once are counted apart. -/
theorem tally_add_tally_le
    {first second whole : State → Bool}
    {table : Fin n → State}
    (apart :
      ∀ thread,
        first (table thread) = true → second (table thread) = false)
    (firstInside :
      ∀ thread, first (table thread) = true → whole (table thread) = true)
    (secondInside :
      ∀ thread, second (table thread) = true → whole (table thread) = true) :
    tally first table + tally second table ≤ tally whole table := by
  simp only [tally_eq_total, total]
  rw [← Finset.sum_add_distrib]
  apply Finset.sum_le_sum
  intro thread _
  cases isFirst : first (table thread) with
  | true =>
      simp [apart thread isFirst, firstInside thread isFirst]
  | false =>
      cases isSecond : second (table thread) with
      | true =>
          simp [secondInside thread isSecond]
      | false =>
          simp

/-- There are as many items as threads that hold one. -/
theorem length_collect
    (held : State → Option Item)
    (table : Fin n → State) :
    (collect held table).length =
      tally (fun state => (held state).isSome) table :=
  List.length_filterMap_eq_countP

/-- What a thread holds is among the items. -/
theorem mem_collect
    {held : State → Option Item}
    {table : Fin n → State}
    {thread : Fin n}
    {item : Item}
    (holds : held (table thread) = some item) :
    item ∈ collect held table :=
  List.mem_filterMap.mpr ⟨thread, List.mem_finRange thread, holds⟩

/--
The items of all threads are the items of one of them and of the others; a
state in which a thread holds nothing leaves the others.
-/
theorem collect_update
    {held : State → Option Item}
    {empty : State}
    (holdsNothing : held empty = none)
    (table : Fin n → State)
    (thread : Fin n)
    (state : State) :
    (collect held (Function.update table thread state)).Perm
      ((held state).toList ++
        collect held (Function.update table thread empty)) := by
  obtain ⟨before, after, split, others⟩ := finRange_split thread
  have same :
      ∀ side : List (Fin n),
        (∀ other ∈ side, other ∈ before ++ after) →
        side.filterMap (fun other =>
            held (Function.update table thread state other)) =
          side.filterMap fun other =>
            held (Function.update table thread empty other) := by
    intro side inside
    apply List.filterMap_congr
    intro other member
    have isOther := others other (inside other member)
    rw [Function.update_of_ne isOther, Function.update_of_ne isOther]
  have sameBefore :=
    same before fun _ member => List.mem_append_left _ member
  have sameAfter :=
    same after fun _ member => List.mem_append_right _ member
  simp only [collect, split, List.filterMap_append, List.filterMap_cons,
    sameBefore, sameAfter, Function.update_self, holdsNothing]
  cases held state with
  | none =>
      simp
  | some item =>
      simp [List.perm_middle]

/-- The items of all threads, with one thread set apart. -/
theorem collect_split
    {held : State → Option Item}
    {empty : State}
    (holdsNothing : held empty = none)
    (table : Fin n → State)
    (thread : Fin n) :
    (collect held table).Perm
      ((held (table thread)).toList ++
        collect held (Function.update table thread empty)) := by
  have whole := collect_update holdsNothing table thread (table thread)
  rwa [Function.update_eq_self] at whole

/-- Only one thread holds an item, if the items of the threads are distinct. -/
theorem eq_of_collect_nodup
    {held : State → Option Item}
    {empty : State}
    (holdsNothing : held empty = none)
    {table : Fin n → State}
    (distinct : (collect held table).Nodup)
    {first second : Fin n}
    {item : Item}
    (firstHolds : held (table first) = some item)
    (secondHolds : held (table second) = some item) :
    second = first := by
  by_contra differ
  rw [(collect_split holdsNothing table first).nodup_iff, firstHolds] at distinct
  have others : held (Function.update table first empty second) = some item := by
    rwa [Function.update_of_ne differ]
  exact (List.nodup_cons.mp distinct).1 (mem_collect others)

/-- Signalling wakes nobody exactly when nobody sleeps. -/
theorem wakeOne_cases
    (asleep : State → Bool)
    (woken : State → State)
    (choice : Nat)
    (table : Fin n → State) :
    ((∀ thread, asleep (table thread) = false) ∧
        wakeOne asleep woken choice table = table) ∨
      ∃ thread,
        asleep (table thread) = true ∧
          wakeOne asleep woken choice table =
            Function.update table thread (woken (table thread)) := by
  unfold wakeOne
  split
  next missing =>
    left
    refine ⟨?_, rfl⟩
    intro thread
    by_contra isAsleep
    have member : thread ∈ threadsIn asleep table := by
      simp only [threadsIn, List.mem_filter, List.mem_finRange, true_and]
      simpa using isAsleep
    have nonempty := List.length_pos_of_mem member
    have small := Nat.mod_lt choice nonempty
    exact absurd missing (by simp [small])
  next thread found =>
    right
    have member := List.mem_of_getElem? found
    simp only [threadsIn, List.mem_filter] at member
    exact ⟨thread, member.2, rfl⟩

end ThreadTable

end Clibs
