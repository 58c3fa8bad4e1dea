import Mathlib.Data.List.Basic
import Mathlib.Logic.Function.Basic

namespace Clibs

/-!
# Segments of linked nodes

Nodes live at addresses; each holds a value and an optional link to the next
node.  `Segment links first nodes last` says that following the links from
`first` visits exactly the listed nodes, in order, and arrives at `last`.  A
null-terminated list is the segment that arrives at `none`.
-/

/-- What the node at an address holds and where it points. -/
abbrev Links (Value : Type) :=
  Nat → Option (Value × Option Nat)

/-- Following the links from the first address visits the listed nodes. -/
def Segment
    {Value : Type}
    (links : Links Value) :
    Option Nat → List (Nat × Value) → Option Nat → Prop
  | first, [], last =>
      first = last
  | first, (address, value) :: rest, last =>
      ∃ next,
        first = some address ∧
          links address = some (value, next) ∧
          Segment links next rest last

section Segment

variable {Value : Type} {links : Links Value}

/-- A segment can be cut after any node. -/
theorem segment_append
    {first last : Option Nat}
    {front back : List (Nat × Value)} :
    Segment links first (front ++ back) last ↔
      ∃ middle,
        Segment links first front middle ∧
          Segment links middle back last := by
  induction front generalizing first with
  | nil =>
      simp [Segment]
  | cons node rest inductionHypothesis =>
      obtain ⟨address, value⟩ := node
      simp only [List.cons_append, Segment, inductionHypothesis]
      constructor
      · rintro ⟨next, isFirst, holds, middle, before, after⟩
        exact ⟨middle, ⟨next, isFirst, holds, before⟩, after⟩
      · rintro ⟨middle, ⟨next, isFirst, holds, before⟩, after⟩
        exact ⟨next, isFirst, holds, middle, before, after⟩

/-- The last node of a segment is where its front arrives. -/
theorem segment_concat
    {first last : Option Nat}
    {front : List (Nat × Value)}
    {address : Nat}
    {value : Value} :
    Segment links first (front ++ [(address, value)]) last ↔
      Segment links first front (some address) ∧
        links address = some (value, last) := by
  rw [segment_append]
  constructor
  · rintro ⟨middle, before, next, rfl, holds, rfl⟩
    exact ⟨before, holds⟩
  · rintro ⟨before, holds⟩
    exact ⟨some address, before, last, rfl, holds, rfl⟩

/-- A segment depends only on the links of its own nodes. -/
theorem Segment.congr
    {other : Links Value}
    {first last : Option Nat}
    {nodes : List (Nat × Value)}
    (segment : Segment links first nodes last)
    (agree : ∀ node ∈ nodes, other node.1 = links node.1) :
    Segment other first nodes last := by
  induction nodes generalizing first with
  | nil =>
      exact segment
  | cons node rest inductionHypothesis =>
      obtain ⟨next, isFirst, holds, after⟩ := segment
      refine ⟨next, isFirst, ?_, inductionHypothesis after ?_⟩
      · rw [agree node (by simp), holds]
      · exact fun later member => agree later (by simp [member])

/-- Linking a further node behind the last one of a null-terminated list. -/
theorem Segment.link_last
    {other : Links Value}
    {first : Option Nat}
    {front : List (Nat × Value)}
    {address added : Nat}
    {value addedValue : Value}
    (segment : Segment links first (front ++ [(address, value)]) none)
    (agree : ∀ node ∈ front, other node.1 = links node.1)
    (relinked : other address = some (value, some added))
    (linked : other added = some (addedValue, none)) :
    Segment other first
      (front ++ [(address, value)] ++ [(added, addedValue)]) none := by
  obtain ⟨before, -⟩ := segment_concat.mp segment
  exact segment_concat.mpr
    ⟨segment_concat.mpr ⟨before.congr agree, relinked⟩, linked⟩

end Segment

end Clibs
