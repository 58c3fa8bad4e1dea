import Mathlib.Order.Lattice
import Mathlib.Tactic.Common
import Mathlib.Data.List.Basic

namespace Clibs

/-!
# Association lists in strictly increasing key order

The in-order sequence of a search tree is an association list whose keys
increase.  Insertion that keeps an existing binding, removal, and lookup are
defined here on such lists, together with the way they distribute over a split
of the list at a pivot key.  The pivot lemmas are what a tree algorithm uses:
each recursion into a subtree is one of them.
-/

namespace SortedAssoc

variable {K V : Type} [LinearOrder K]

/-- Keys strictly increase along the list. -/
def Increasing (entries : List (K × V)) : Prop :=
  entries.Pairwise fun earlier later => earlier.1 < later.1

/-- The value of the entry with the given key. -/
def find (key : K) : List (K × V) → Option V
  | [] =>
      none
  | entry :: rest =>
      if entry.1 = key then some entry.2 else find key rest

/-- Add a binding in key order unless the key is bound already. -/
def insertNew (key : K) (value : V) : List (K × V) → List (K × V)
  | [] =>
      [(key, value)]
  | entry :: rest =>
      if key < entry.1 then
        (key, value) :: entry :: rest
      else if key = entry.1 then
        entry :: rest
      else
        entry :: insertNew key value rest

/-- Drop the binding of a key. -/
def erase (key : K) : List (K × V) → List (K × V)
  | [] =>
      []
  | entry :: rest =>
      if entry.1 = key then erase key rest else entry :: erase key rest

/-- A list is increasing exactly when a split of it at a pivot is. -/
theorem increasing_pivot
    {left right : List (K × V)}
    {pivot : K × V} :
    Increasing (left ++ pivot :: right) ↔
      Increasing left ∧ Increasing right ∧
        (∀ entry ∈ left, entry.1 < pivot.1) ∧
        (∀ entry ∈ right, pivot.1 < entry.1) := by
  unfold Increasing
  rw [List.pairwise_append, List.pairwise_cons]
  constructor
  · rintro ⟨leftIncreasing, ⟨pivotBelow, rightIncreasing⟩, across⟩
    exact ⟨leftIncreasing, rightIncreasing,
      fun entry member => across entry member pivot (by simp),
      pivotBelow⟩
  · rintro ⟨leftIncreasing, rightIncreasing, leftBelow, pivotBelow⟩
    refine ⟨leftIncreasing, ⟨pivotBelow, rightIncreasing⟩, ?_⟩
    intro earlier earlierMember later laterMember
    rcases List.mem_cons.mp laterMember with isPivot | inRight
    · subst later
      exact leftBelow earlier earlierMember
    · exact (leftBelow earlier earlierMember).trans
        (pivotBelow later inRight)

section Pivot

variable {left right : List (K × V)} {pivot : K × V} {key : K}

/-- A key not bound on the left is looked up from the pivot on. -/
theorem find_append_of_ne
    (absent : ∀ entry ∈ left, entry.1 ≠ key) :
    find key (left ++ right) = find key right := by
  induction left with
  | nil =>
      rfl
  | cons entry rest inductionHypothesis =>
      have headDiffers : entry.1 ≠ key :=
        absent entry (by simp)
      simp only [List.cons_append, find, headDiffers, ↓reduceIte]
      exact inductionHypothesis
        fun other member => absent other (List.mem_cons_of_mem _ member)

/-- A key that no entry carries has no value. -/
theorem find_eq_none
    {entries : List (K × V)}
    (absent : ∀ entry ∈ entries, entry.1 ≠ key) :
    find key entries = none := by
  have lookup : find key (entries ++ []) = find key ([] : List (K × V)) :=
    find_append_of_ne absent
  simpa [find] using lookup

/-- A key below the pivot is looked up on the left. -/
theorem find_pivot_left
    (increasing : Increasing (left ++ pivot :: right))
    (below : key < pivot.1) :
    find key (left ++ pivot :: right) = find key left := by
  obtain ⟨-, -, -, pivotBelow⟩ :=
    increasing_pivot.mp increasing
  have tailAbsent : ∀ entry ∈ pivot :: right, entry.1 ≠ key := by
    intro entry member
    rcases List.mem_cons.mp member with isPivot | inRight
    · subst entry
      exact below.ne'
    · exact (below.trans (pivotBelow entry inRight)).ne'
  clear increasing pivotBelow
  induction left with
  | nil =>
      simpa [find] using find_eq_none tailAbsent
  | cons entry rest inductionHypothesis =>
      simp only [List.cons_append, find, inductionHypothesis]

/-- The pivot's own key has the pivot's value. -/
theorem find_pivot_self
    (increasing : Increasing (left ++ pivot :: right)) :
    find pivot.1 (left ++ pivot :: right) = some pivot.2 := by
  obtain ⟨-, -, leftBelow, -⟩ :=
    increasing_pivot.mp increasing
  rw [find_append_of_ne fun entry member => (leftBelow entry member).ne]
  simp [find]

/-- A key above the pivot is looked up on the right. -/
theorem find_pivot_right
    (increasing : Increasing (left ++ pivot :: right))
    (above : pivot.1 < key) :
    find key (left ++ pivot :: right) = find key right := by
  obtain ⟨-, -, leftBelow, -⟩ :=
    increasing_pivot.mp increasing
  rw [find_append_of_ne fun entry member =>
    ((leftBelow entry member).trans above).ne]
  simp [find, above.ne]

/-- A key below the pivot is inserted on the left. -/
theorem insertNew_pivot_left
    {value : V}
    (below : key < pivot.1) :
    insertNew key value (left ++ pivot :: right) =
      insertNew key value left ++ pivot :: right := by
  induction left with
  | nil =>
      simp [insertNew, below]
  | cons entry rest inductionHypothesis =>
      simp only [List.cons_append, insertNew]
      split
      · rfl
      · split
        · rfl
        · rw [inductionHypothesis, List.cons_append]

/-- Entries below the key are passed by an insertion. -/
theorem insertNew_append_of_lt
    {value : V}
    (leftBelow : ∀ entry ∈ left, entry.1 < key) :
    insertNew key value (left ++ right) =
      left ++ insertNew key value right := by
  induction left with
  | nil =>
      rfl
  | cons entry rest inductionHypothesis =>
      have headBelow : entry.1 < key :=
        leftBelow entry (by simp)
      have restInserted :=
        inductionHypothesis
          fun other member => leftBelow other (List.mem_cons_of_mem _ member)
      simp [insertNew, headBelow.not_gt, headBelow.ne', restInserted]

/-- The pivot's own key is bound already, so nothing is inserted. -/
theorem insertNew_pivot_self
    {value : V}
    (increasing : Increasing (left ++ pivot :: right)) :
    insertNew pivot.1 value (left ++ pivot :: right) =
      left ++ pivot :: right := by
  obtain ⟨-, -, leftBelow, -⟩ :=
    increasing_pivot.mp increasing
  rw [insertNew_append_of_lt leftBelow]
  simp [insertNew]

/-- A key above the pivot is inserted on the right. -/
theorem insertNew_pivot_right
    {value : V}
    (increasing : Increasing (left ++ pivot :: right))
    (above : pivot.1 < key) :
    insertNew key value (left ++ pivot :: right) =
      left ++ pivot :: insertNew key value right := by
  obtain ⟨-, -, leftBelow, -⟩ :=
    increasing_pivot.mp increasing
  rw [insertNew_append_of_lt fun entry member =>
    (leftBelow entry member).trans above]
  simp [insertNew, above.not_gt, above.ne']

/-- Removal distributes over concatenation. -/
theorem erase_append :
    erase key (left ++ right) = erase key left ++ erase key right := by
  induction left with
  | nil =>
      rfl
  | cons entry rest inductionHypothesis =>
      simp only [List.cons_append, erase, inductionHypothesis]
      split <;> rfl

/-- Removing an unbound key changes nothing. -/
theorem erase_of_absent
    {entries : List (K × V)}
    (absent : ∀ entry ∈ entries, entry.1 ≠ key) :
    erase key entries = entries := by
  induction entries with
  | nil =>
      rfl
  | cons entry rest inductionHypothesis =>
      have headKept : entry.1 ≠ key :=
        absent entry (by simp)
      have restKept :=
        inductionHypothesis
          fun other member => absent other (List.mem_cons_of_mem _ member)
      simp [erase, headKept, restKept]

/-- A key below the pivot is removed on the left. -/
theorem erase_pivot_left
    (increasing : Increasing (left ++ pivot :: right))
    (below : key < pivot.1) :
    erase key (left ++ pivot :: right) =
      erase key left ++ pivot :: right := by
  obtain ⟨-, -, -, pivotBelow⟩ :=
    increasing_pivot.mp increasing
  have rightKept : erase key (pivot :: right) = pivot :: right := by
    apply erase_of_absent
    intro entry member
    rcases List.mem_cons.mp member with isPivot | inRight
    · subst entry
      exact below.ne'
    · exact (below.trans (pivotBelow entry inRight)).ne'
  rw [erase_append, rightKept]

/-- Removing the pivot joins the two sides. -/
theorem erase_pivot_self
    (increasing : Increasing (left ++ pivot :: right)) :
    erase pivot.1 (left ++ pivot :: right) = left ++ right := by
  obtain ⟨-, -, leftBelow, pivotBelow⟩ :=
    increasing_pivot.mp increasing
  rw [erase_append,
    erase_of_absent fun entry member => (leftBelow entry member).ne]
  simp [erase,
    erase_of_absent fun entry member => (pivotBelow entry member).ne']

/-- Removing the first key leaves the tail. -/
theorem erase_head
    {value : V}
    {rest : List (K × V)}
    (increasing : Increasing ((key, value) :: rest)) :
    erase key ((key, value) :: rest) = rest := by
  have headBelow :=
    (List.pairwise_cons.mp increasing).1
  simp [erase,
    erase_of_absent fun entry member => (headBelow entry member).ne']

/-- A key above the pivot is removed on the right. -/
theorem erase_pivot_right
    (increasing : Increasing (left ++ pivot :: right))
    (above : pivot.1 < key) :
    erase key (left ++ pivot :: right) =
      left ++ pivot :: erase key right := by
  obtain ⟨-, -, leftBelow, -⟩ :=
    increasing_pivot.mp increasing
  rw [erase_append,
    erase_of_absent fun entry member =>
      ((leftBelow entry member).trans above).ne]
  simp [erase, above.ne]

end Pivot

/-- Lookup in an increasing list is membership. -/
theorem find_eq_some_iff
    {entries : List (K × V)}
    (increasing : Increasing entries)
    {key : K}
    {value : V} :
    find key entries = some value ↔ (key, value) ∈ entries := by
  induction entries with
  | nil =>
      simp [find]
  | cons head rest inductionHypothesis =>
      obtain ⟨headBelow, restIncreasing⟩ :=
        List.pairwise_cons.mp increasing
      obtain ⟨headKey, headValue⟩ := head
      have restFound := inductionHypothesis restIncreasing
      by_cases headQueried : headKey = key
      · have notInRest : (key, value) ∉ rest := by
          intro member
          exact (headBelow _ member).ne headQueried
        simp [find, headQueried, notInRest, eq_comm]
      · simp [find, headQueried, restFound, Ne.symm headQueried]

/-- An insertion binds the new key or nothing. -/
theorem mem_insertNew
    {key : K}
    {value : V}
    {entries : List (K × V)}
    {entry : K × V}
    (member : entry ∈ insertNew key value entries) :
    entry = (key, value) ∨ entry ∈ entries := by
  induction entries with
  | nil =>
      simpa [insertNew] using member
  | cons head rest inductionHypothesis =>
      simp only [insertNew] at member
      split at member
      · simpa using member
      · split at member
        · exact Or.inr member
        · rcases List.mem_cons.mp member with isHead | inRest
          · exact Or.inr (by simp [isHead])
          · rcases inductionHypothesis inRest with isNew | wasThere
            · exact Or.inl isNew
            · exact Or.inr (List.mem_cons_of_mem _ wasThere)

/-- Insertion keeps the keys increasing. -/
theorem increasing_insertNew
    {key : K}
    {value : V}
    {entries : List (K × V)}
    (increasing : Increasing entries) :
    Increasing (insertNew key value entries) := by
  induction entries with
  | nil =>
      simp [insertNew, Increasing]
  | cons head rest inductionHypothesis =>
      obtain ⟨headBelow, restIncreasing⟩ :=
        List.pairwise_cons.mp increasing
      simp only [insertNew]
      split
      · rename_i below
        refine List.pairwise_cons.mpr ⟨?_, increasing⟩
        intro entry member
        rcases List.mem_cons.mp member with isHead | inRest
        · subst entry
          exact below
        · exact below.trans (headBelow entry inRest)
      · split
        · exact increasing
        · rename_i notBelow notSame
          refine List.pairwise_cons.mpr
            ⟨?_, inductionHypothesis restIncreasing⟩
          intro entry member
          rcases mem_insertNew member with isNew | wasThere
          · subst entry
            exact lt_of_le_of_ne (not_lt.mp notBelow) (Ne.symm notSame)
          · exact headBelow entry wasThere

/-- Removal only drops entries. -/
theorem mem_of_mem_erase
    {key : K}
    {entries : List (K × V)}
    {entry : K × V}
    (member : entry ∈ erase key entries) :
    entry ∈ entries := by
  induction entries with
  | nil =>
      exact member
  | cons head rest inductionHypothesis =>
      simp only [erase] at member
      split at member
      · exact List.mem_cons_of_mem _ (inductionHypothesis member)
      · rcases List.mem_cons.mp member with isHead | inRest
        · exact List.mem_cons.mpr (Or.inl isHead)
        · exact List.mem_cons_of_mem _ (inductionHypothesis inRest)

/-- Removal keeps the keys increasing. -/
theorem increasing_erase
    {key : K}
    {entries : List (K × V)}
    (increasing : Increasing entries) :
    Increasing (erase key entries) := by
  induction entries with
  | nil =>
      exact increasing
  | cons head rest inductionHypothesis =>
      obtain ⟨headBelow, restIncreasing⟩ :=
        List.pairwise_cons.mp increasing
      have restErased := inductionHypothesis restIncreasing
      simp only [erase]
      split
      · exact restErased
      · exact List.pairwise_cons.mpr
          ⟨fun entry member => headBelow entry (mem_of_mem_erase member),
            restErased⟩

/-- After an insertion a key has its old value, or the new one if it had none. -/
theorem find_insertNew
    {key query : K}
    {value : V}
    {entries : List (K × V)}
    (increasing : Increasing entries) :
    find query (insertNew key value entries) =
      if query = key ∧ find key entries = none then
        some value
      else
        find query entries := by
  induction entries with
  | nil =>
      by_cases same : query = key
      · simp [insertNew, find, same]
      · simp [insertNew, find, same, Ne.symm same]
  | cons head rest inductionHypothesis =>
      obtain ⟨headBelow, restIncreasing⟩ :=
        List.pairwise_cons.mp increasing
      have restFound := inductionHypothesis restIncreasing
      simp only [insertNew]
      split
      · rename_i below
        have headAbsent : find key (head :: rest) = none := by
          apply find_eq_none
          intro entry member
          rcases List.mem_cons.mp member with isHead | inRest
          · subst entry
            exact below.ne'
          · exact (below.trans (headBelow entry inRest)).ne'
        by_cases same : query = key
        · rw [if_pos ⟨same, headAbsent⟩]
          simp [find, same]
        · rw [if_neg (by simp [same])]
          simp [find, Ne.symm same]
      · split
        · rename_i same
          have headBound : find key (head :: rest) = some head.2 := by
            simp [find, same]
          simp [headBound]
        · rename_i notBelow notSame
          simp only [find, restFound]
          by_cases headQueried : head.1 = query
          · have differs : query ≠ key := by
              rintro rfl
              exact notSame headQueried.symm
            simp [headQueried, differs]
          · simp [headQueried, Ne.symm notSame]

/-- After a removal the removed key has no value and the others keep theirs. -/
theorem find_erase
    {key query : K}
    {entries : List (K × V)} :
    find query (erase key entries) =
      if query = key then none else find query entries := by
  induction entries with
  | nil =>
      simp [erase, find]
  | cons head rest inductionHypothesis =>
      by_cases headErased : head.1 = key
      · by_cases same : query = key
        · simpa [erase, headErased, same] using inductionHypothesis
        · simpa [erase, find, headErased, same, Ne.symm same]
            using inductionHypothesis
      · by_cases headQueried : head.1 = query
        · have differs : query ≠ key :=
            fun same => headErased (headQueried.trans same)
          simp [erase, find, headQueried, differs]
        · simpa [erase, find, headErased, headQueried]
            using inductionHypothesis

end SortedAssoc

end Clibs
