import Mathlib.Data.Finset.Card
import Mathlib.Data.List.Nodup
import Mathlib.Data.List.TakeWhile
import Mathlib.Tactic.Common

namespace Clibs.RecencyList

/-!
# Lists ordered by last use

A cache of bounded size keeps its entries ordered by last use, the most recent
one first.  An entry that is used moves to the front, a new one is put in front
and the list is cut to the capacity.  After any sequence of references the keys
are the most recently referenced distinct ones, as many as fit.  In a list of
distinct keys that is ordered by last use, the keys before one are those used
after it.
-/

variable {Key Value : Type} [DecidableEq Key]

/-- The entries of the other keys. -/
def without
    (key : Key)
    (entries : List (Key × Value)) : List (Key × Value) :=
  entries.filter fun entry => entry.1 ≠ key

/-- The entry of a key moves to the front. -/
def touch
    (key : Key)
    (entries : List (Key × Value)) : List (Key × Value) :=
  match entries.lookup key with
  | none =>
      entries
  | some value =>
      (key, value) :: without key entries

/-- A new entry is put in front, and the list cut to the capacity. -/
def push
    (capacity : Nat)
    (key : Key)
    (value : Value)
    (entries : List (Key × Value)) : List (Key × Value) :=
  ((key, value) :: entries).take capacity

/-- A key is used if it has an entry, and else gets one. -/
def reference
    (capacity : Nat)
    (key : Key)
    (value : Value)
    (entries : List (Key × Value)) : List (Key × Value) :=
  match entries.lookup key with
  | none =>
      push capacity key value entries
  | some _ =>
      touch key entries

/-- The distinct keys of a list of references; both start with the latest. -/
def recent : List Key → List Key
  | [] =>
      []
  | key :: older =>
      key :: (recent older).filter (· ≠ key)

/-- The first key is referenced after the last reference to the second one. -/
def UsedAfter
    (references : List Key)
    (first second : Key) : Prop :=
  first ∈ references.takeWhile fun key => key ≠ second

instance
    (references : List Key)
    (first second : Key) :
    Decidable (UsedAfter references first second) :=
  inferInstanceAs (Decidable (first ∈ _))

/-- The keys of a list that are referenced after the last reference to one. -/
def usedAfter
    (references keys : List Key)
    (key : Key) : List Key :=
  keys.filter fun other => UsedAfter references other key

section Entries

variable {key : Key} {value : Value} {entries front back : List (Key × Value)}

/-- A key with an entry splits the list at it. -/
theorem lookup_split
    (found : entries.lookup key = some value) :
    ∃ front back, entries = front ++ (key, value) :: back := by
  obtain ⟨front, back, split, -⟩ := List.lookup_eq_some_iff.mp found
  exact ⟨front, back, split⟩

/-- A key without an entry is none of the keys. -/
theorem lookup_eq_none :
    entries.lookup key = none ↔ key ∉ entries.map Prod.fst := by
  simp only [List.lookup_eq_none_iff, bne_iff_ne, List.mem_map, not_exists,
    not_and]
  exact forall₂_congr fun _ _ => ne_comm

/-- Without the entry of a key the others are left in their order. -/
theorem without_of_split
    (distinct : ((front ++ (key, value) :: back).map Prod.fst).Nodup) :
    without key (front ++ (key, value) :: back) = front ++ back := by
  rw [List.map_append, List.map_cons, List.nodup_middle,
    List.nodup_cons, List.mem_append, not_or] at distinct
  have keeps :
      ∀ side : List (Key × Value),
        key ∉ side.map Prod.fst →
        side.filter (fun entry => entry.1 ≠ key) = side := by
    intro side absent
    apply List.filter_eq_self.mpr
    intro other member
    have different : other.1 ≠ key := by
      rintro rfl
      exact absent (List.mem_map_of_mem member)
    simpa using different
  rw [without, List.filter_append,
    List.filter_cons_of_neg (by simp), keeps front distinct.1.1,
    keeps back distinct.1.2]

/-- The keys of the entries of the other keys. -/
theorem without_keys
    (key : Key)
    (entries : List (Key × Value)) :
    (without key entries).map Prod.fst =
      (entries.map Prod.fst).filter (· ≠ key) := by
  induction entries with
  | nil =>
      rfl
  | cons entry rest inductionHypothesis =>
      unfold without at inductionHypothesis ⊢
      by_cases same : entry.1 = key
      · simpa [same] using inductionHypothesis
      · simpa [same] using inductionHypothesis

end Entries

section Recent

variable {key : Key}

/-- The distinct keys are the referenced ones. -/
theorem mem_recent
    {references : List Key} :
    key ∈ recent references ↔ key ∈ references := by
  induction references with
  | nil =>
      rfl
  | cons latest older inductionHypothesis =>
      by_cases same : key = latest
      · simp [recent, same]
      · simp [recent, same, inductionHypothesis]

/-- The distinct keys are distinct. -/
theorem recent_nodup
    (references : List Key) :
    (recent references).Nodup := by
  induction references with
  | nil =>
      exact List.nodup_nil
  | cons latest older inductionHypothesis =>
      apply List.nodup_cons.mpr
      exact ⟨by simp, inductionHypothesis.filter _⟩

/-- There are as many distinct keys as there are keys. -/
theorem recent_length
    (references : List Key) :
    (recent references).length = references.toFinset.card := by
  rw [← List.toFinset_card_of_nodup (recent_nodup references)]
  congr 1
  ext key
  simp [mem_recent]

/-- Cutting a list first and leaving a key out of it then. -/
theorem take_filter
    {keys : List Key}
    {count : Nat}
    (distinct : keys.Nodup)
    (member : key ∈ keys.take (count + 1)) :
    (keys.take (count + 1)).filter (· ≠ key) =
      (keys.filter (· ≠ key)).take count := by
  induction keys generalizing count with
  | nil =>
      simp at member
  | cons first rest inductionHypothesis =>
      rw [List.nodup_cons] at distinct
      by_cases isFirst : first = key
      · subst isFirst
        have restKept : rest.filter (· ≠ first) = rest := by
          apply List.filter_eq_self.mpr
          intro other inRest
          simpa using (ne_of_mem_of_not_mem inRest distinct.1)
        have cutKept : (rest.take count).filter (· ≠ first) = rest.take count := by
          apply List.filter_eq_self.mpr
          intro other inRest
          simpa using
            (ne_of_mem_of_not_mem (List.mem_of_mem_take inRest) distinct.1)
        rw [List.take_succ_cons, List.filter_cons_of_neg (by simp),
          List.filter_cons_of_neg (by simp), restKept, cutKept]
      · rw [List.take_succ_cons] at member ⊢
        have inRest : key ∈ rest.take count := by
          rcases List.mem_cons.mp member with isKey | inRest
          · exact (isFirst isKey.symm).elim
          · exact inRest
        rw [List.filter_cons_of_pos (by simpa using isFirst),
          List.filter_cons_of_pos (by simpa using isFirst)]
        cases count with
        | zero =>
            simp at inRest
        | succ count =>
            rw [List.take_succ_cons,
              inductionHypothesis distinct.2 inRest]

/-- A key behind the cut can be left out before cutting. -/
theorem take_filter_of_notMem
    {keys : List Key}
    {count : Nat}
    (absent : key ∉ keys.take (count + 1)) :
    (keys.filter (· ≠ key)).take count = keys.take count := by
  induction keys generalizing count with
  | nil =>
      rfl
  | cons first rest inductionHypothesis =>
      rw [List.take_succ_cons, List.mem_cons, not_or] at absent
      rw [List.filter_cons_of_pos (by simpa using Ne.symm absent.1)]
      cases count with
      | zero =>
          rfl
      | succ count =>
          rw [List.take_succ_cons, List.take_succ_cons,
            inductionHypothesis absent.2]

/-- A reference keeps the keys the most recent distinct ones that fit. -/
theorem reference_keys
    {capacity : Nat}
    (positive : 0 < capacity)
    {entries : List (Key × Value)}
    {older : List Key}
    (areRecent : entries.map Prod.fst = (recent older).take capacity)
    (key : Key)
    (value : Value) :
    (reference capacity key value entries).map Prod.fst =
      (recent (key :: older)).take capacity := by
  obtain ⟨count, rfl⟩ := Nat.exists_eq_succ_of_ne_zero positive.ne'
  unfold reference
  rw [recent, List.take_succ_cons]
  cases found : entries.lookup key with
  | none =>
      rw [lookup_eq_none, areRecent] at found
      rw [take_filter_of_notMem found, push, List.take_succ_cons,
        List.map_cons, List.map_take, areRecent, List.take_take,
        Nat.min_eq_left (Nat.le_succ count)]
  | some bound =>
      have member : key ∈ entries.map Prod.fst := by
        by_contra absent
        rw [lookup_eq_none.mpr absent] at found
        cases found
      rw [areRecent] at member
      simp only [touch, found, List.map_cons]
      rw [without_keys, areRecent, take_filter (recent_nodup older) member]

end Recent

section Order

variable {references keys front back : List Key}
  {first second key : Key}

/-- The latest reference is after those to the other keys. -/
theorem UsedAfter.cons_iff
    {latest : Key} :
    UsedAfter (latest :: references) first second ↔
      latest ≠ second ∧ (first = latest ∨ UsedAfter references first second) := by
  unfold UsedAfter
  by_cases same : latest = second
  · simp [same]
  · simp [same]

/-- A key is not used after itself. -/
theorem UsedAfter.irrefl
    (references : List Key)
    (key : Key) :
    ¬ UsedAfter references key key := by
  intro after
  have different := List.mem_takeWhile_imp after
  simp at different

/-- Two keys are not used after each other. -/
theorem UsedAfter.asymm
    (after : UsedAfter references first second) :
    ¬ UsedAfter references second first := by
  induction references with
  | nil =>
      cases after
  | cons latest older inductionHypothesis =>
      rw [UsedAfter.cons_iff] at after ⊢
      obtain ⟨notSecond, isLatest | after⟩ := after
      · exact fun reversed => reversed.1 isLatest.symm
      · rintro ⟨-, isLatest | reversed⟩
        · exact notSecond isLatest.symm
        · exact inductionHypothesis after reversed

/-- The distinct keys stand in the order of their last references. -/
theorem recent_ordered
    (references : List Key) :
    (recent references).Pairwise (UsedAfter references) := by
  induction references with
  | nil =>
      exact List.Pairwise.nil
  | cons latest older inductionHypothesis =>
      have notLatest :
          ∀ key ∈ (recent older).filter (· ≠ latest), latest ≠ key := by
        intro key member
        have different := (List.mem_filter.mp member).2
        exact Ne.symm (by simpa using different)
      rw [recent, List.pairwise_cons]
      constructor
      · intro key member
        exact UsedAfter.cons_iff.mpr ⟨notLatest key member, .inl rfl⟩
      · apply (inductionHypothesis.filter _).imp_of_mem
        intro first second _ isSecond after
        exact UsedAfter.cons_iff.mpr ⟨notLatest second isSecond, .inr after⟩

/-- The keys used after one are those before it in the order of last use. -/
theorem usedAfter_split
    (ordered : (front ++ key :: back).Sublist (recent references)) :
    usedAfter references (front ++ key :: back) key = front := by
  have inOrder := (recent_ordered references).sublist ordered
  rw [List.pairwise_append, List.pairwise_cons] at inOrder
  obtain ⟨-, ⟨isEarlier, -⟩, isLater⟩ := inOrder
  have allFront :
      ∀ other ∈ front, UsedAfter references other key :=
    fun other member => isLater other member key (List.mem_cons_self ..)
  have noneBack :
      ∀ other ∈ back, ¬ UsedAfter references other key :=
    fun other member => (isEarlier other member).asymm
  rw [usedAfter, List.filter_append,
    List.filter_eq_self.mpr (by simpa using allFront),
    List.filter_cons_of_neg (by simpa using UsedAfter.irrefl references key),
    List.filter_eq_nil_iff.mpr (by simpa using noneBack), List.append_nil]

/-- A reference to a key puts it in front of the others. -/
theorem sublist_recent_cons
    (ordered : keys.Sublist (recent references))
    (absent : key ∉ keys) :
    (key :: keys).Sublist (recent (key :: references)) := by
  have kept : keys.filter (· ≠ key) = keys := by
    apply List.filter_eq_self.mpr
    intro other member
    simpa using ne_of_mem_of_not_mem member absent
  rw [recent, ← kept]
  exact (ordered.filter _).cons_cons key

end Order

end Clibs.RecencyList
