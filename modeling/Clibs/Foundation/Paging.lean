import Clibs.Foundation.RecencyList
import Mathlib.Data.Finset.Card

namespace Clibs.Paging

open RecencyList

/-!
# Which references a cache serves

A cache that keeps the most recently referenced keys serves a reference exactly
when fewer other keys than its capacity were referenced since the last reference
to the same key.  Its misses are compared with those of any other cache that
holds at most so many keys and loads a key only when it is referenced: between
`capacity` misses of the one the other misses at least `capacity - small + 1`
times, where `small` is its size.
-/

variable {Key : Type} [DecidableEq Key]

/-- A key is still among the most recent ones when it is referenced again. -/
def Hits
    (capacity : Nat)
    (past : List Key)
    (key : Key) : Prop :=
  key ∈ past ∧ (past.takeWhile (· ≠ key)).toFinset.card < capacity

instance
    (capacity : Nat)
    (past : List Key)
    (key : Key) :
    Decidable (Hits capacity past key) :=
  inferInstanceAs (Decidable (_ ∧ _))

/-- Which of the references are served; the past starts with the latest. -/
def served
    (capacity : Nat) :
    List Key → List Key → List Bool
  | _, [] =>
      []
  | past, key :: rest =>
      decide (Hits capacity past key) :: served capacity (key :: past) rest

/-- The number of references that are not served. -/
def faults
    (capacity : Nat) :
    List Key → List Key → Nat
  | _, [] =>
      0
  | past, key :: rest =>
      (if Hits capacity past key then 0 else 1) +
        faults capacity (key :: past) rest

/--
Another cache of so many keys serves the references with so many misses: it
holds the key of a reference after it, and gets no other key by it.
-/
inductive Serves
    (size : Nat) :
    Finset Key → List Key → Nat → Finset Key → Prop where
  | done (cache : Finset Key) :
      Serves size cache [] 0 cache
  | hit
      {cache next final : Finset Key}
      {key : Key}
      {rest : List Key}
      {misses : Nat} :
      key ∈ cache →
      next ⊆ cache →
      key ∈ next →
      next.card ≤ size →
      Serves size next rest misses final →
      Serves size cache (key :: rest) misses final
  | miss
      {cache next final : Finset Key}
      {key : Key}
      {rest : List Key}
      {misses : Nat} :
      key ∉ cache →
      next ⊆ insert key cache →
      key ∈ next →
      next.card ≤ size →
      Serves size next rest misses final →
      Serves size cache (key :: rest) (misses + 1) final

section Recent

variable {capacity : Nat} {past : List Key} {key : Key}

/-- The distinct keys before a key are those referenced after it. -/
theorem recent_split
    (member : key ∈ past) :
    ∃ back, recent past = recent (past.takeWhile (· ≠ key)) ++ key :: back := by
  induction past with
  | nil =>
      cases member
  | cons latest older inductionHypothesis =>
      by_cases isLatest : latest = key
      · subst isLatest
        exact ⟨(recent older).filter (· ≠ latest), by simp [recent]⟩
      · have inOlder : key ∈ older := by
          rcases List.mem_cons.mp member with isKey | inOlder
          · exact (isLatest isKey.symm).elim
          · exact inOlder
        obtain ⟨back, split⟩ := inductionHypothesis inOlder
        refine ⟨back.filter (· ≠ latest), ?_⟩
        rw [List.takeWhile_cons_of_pos (by simpa using isLatest), recent, recent,
          split, List.filter_append,
          List.filter_cons_of_pos (by simpa using Ne.symm isLatest),
          List.cons_append]

/-- A key is among the most recent ones when few were referenced after it. -/
theorem mem_take_recent
    (capacity : Nat)
    (past : List Key)
    (key : Key) :
    key ∈ (recent past).take capacity ↔ Hits capacity past key := by
  rw [Hits, ← recent_length]
  constructor
  · intro member
    have inPast : key ∈ past :=
      mem_recent.mp (List.mem_of_mem_take member)
    refine ⟨inPast, ?_⟩
    obtain ⟨back, split⟩ := recent_split inPast
    have absent : key ∉ recent (past.takeWhile (· ≠ key)) := by
      intro inFront
      have different := List.mem_takeWhile_imp (mem_recent.mp inFront)
      simp at different
    by_contra isFar
    rw [split, List.take_append_of_le_length (not_lt.mp isFar)] at member
    exact absent (List.mem_of_mem_take member)
  · rintro ⟨inPast, isNear⟩
    obtain ⟨back, split⟩ := recent_split inPast
    rw [split, List.take_append, List.mem_append]
    right
    obtain ⟨room, isRoom⟩ :=
      Nat.exists_eq_succ_of_ne_zero (Nat.sub_ne_zero_of_lt isNear)
    rw [isRoom, List.take_succ_cons]
    exact List.mem_cons_self ..

/-- What a cache serves, a larger one serves too. -/
theorem Hits.mono
    {larger : Nat}
    (hits : Hits capacity past key)
    (isLarger : capacity ≤ larger) :
    Hits larger past key :=
  ⟨hits.1, hits.2.trans_le isLarger⟩

end Recent

section Faults

variable {capacity : Nat}

/-- The misses of a list of references are those of its parts. -/
theorem faults_append
    (past front back : List Key) :
    faults capacity past (front ++ back) =
      faults capacity past front +
        faults capacity (front.reverse ++ past) back := by
  induction front generalizing past with
  | nil =>
      rw [List.nil_append, faults, Nat.zero_add]
      rfl
  | cons key front inductionHypothesis =>
      rw [List.cons_append, faults, faults, inductionHypothesis,
        List.reverse_cons, List.append_assoc, List.singleton_append,
        Nat.add_assoc]

/-- What is served of a list of references is what is served of its parts. -/
theorem served_append
    (past front back : List Key) :
    served capacity past (front ++ back) =
      served capacity past front ++
        served capacity (front.reverse ++ past) back := by
  induction front generalizing past with
  | nil =>
      rfl
  | cons key front inductionHypothesis =>
      rw [List.cons_append, served, served, inductionHypothesis,
        List.reverse_cons, List.append_assoc, List.singleton_append,
        List.cons_append]

/-- There is one answer for each reference. -/
theorem served_length
    (past references : List Key) :
    (served capacity past references).length = references.length := by
  induction references generalizing past with
  | nil =>
      rfl
  | cons key rest inductionHypothesis =>
      rw [served, List.length_cons, List.length_cons, inductionHypothesis]

/-- A larger cache serves what a smaller one serves. -/
theorem served_mono
    {larger : Nat}
    (isLarger : capacity ≤ larger)
    (past references : List Key) :
    List.Forall₂ (fun small large => small = true → large = true)
      (served capacity past references) (served larger past references) := by
  induction references generalizing past with
  | nil =>
      exact .nil
  | cons key rest inductionHypothesis =>
      refine .cons ?_ (inductionHypothesis (key :: past))
      intro hits
      exact decide_eq_true ((of_decide_eq_true hits).mono isLarger)

/-- One reference is missed once at most. -/
theorem faults_single
    (past : List Key)
    (key : Key) :
    faults capacity past [key] = if Hits capacity past key then 0 else 1 :=
  rfl

/-- The misses are the references that are not served. -/
theorem faults_eq_count
    (past references : List Key) :
    faults capacity past references =
      (served capacity past references).count false := by
  induction references generalizing past with
  | nil =>
      rfl
  | cons key rest inductionHypothesis =>
      rw [faults, served, inductionHypothesis, List.count_cons]
      by_cases hits : Hits capacity past key
      · simp [hits]
      · simp [hits, Nat.add_comm]

/-- The references up to the last of so many misses. -/
theorem exists_phase
    {past references : List Key}
    {count : Nat}
    (enough : count ≤ faults capacity past references) :
    ∃ front back,
      references = front ++ back ∧ faults capacity past front = count := by
  induction references using List.reverseRecOn with
  | nil =>
      exact ⟨[], [], rfl, (Nat.le_zero.mp enough).symm⟩
  | append_singleton references key inductionHypothesis =>
      rcases Nat.lt_or_ge (faults capacity past references) count with
        isLess | isEnough
      · refine ⟨references ++ [key], [], (List.append_nil _).symm, ?_⟩
        rw [faults_append, faults_single] at enough ⊢
        by_cases hits :
            Hits capacity (references.reverse ++ past) key
        · rw [if_pos hits] at enough ⊢
          omega
        · rw [if_neg hits] at enough ⊢
          omega
      · obtain ⟨front, back, split, isCount⟩ := inductionHypothesis isEnough
        refine ⟨front, back ++ [key], ?_, isCount⟩
        rw [split, List.append_assoc]

/-- What comes before a key does not depend on what comes after it. -/
theorem takeWhile_of_mem
    {front : List Key}
    {key : Key}
    (member : key ∈ front)
    (back : List Key) :
    (front ++ back).takeWhile (· ≠ key) = front.takeWhile (· ≠ key) := by
  rw [List.takeWhile_append, if_neg]
  intro isWhole
  have isAll :=
    (List.takeWhile_prefix (fun other : Key => decide (other ≠ key))).eq_of_length
      isWhole
  rw [← isAll] at member
  have different := List.mem_takeWhile_imp member
  simp at different

/--
Between the references that are missed, so many distinct keys are referenced,
not counting the one referenced just before.
-/
theorem faults_distinct
    (past references : List Key) :
    min capacity (faults capacity past references) ≤
      (references.toFinset \ (past.take 1).toFinset).card := by
  induction references using List.reverseRecOn with
  | nil =>
      exact (Nat.min_le_right ..).trans (Nat.zero_le _)
  | append_singleton references key inductionHypothesis =>
      have grows :
          references.toFinset \ (past.take 1).toFinset ⊆
            (references ++ [key]).toFinset \ (past.take 1).toFinset := by
        apply Finset.sdiff_subset_sdiff _ (Finset.Subset.refl _)
        intro other member
        simp only [List.mem_toFinset] at member ⊢
        exact List.mem_append_left [key] member
      rw [faults_append, faults_single]
      by_cases hits : Hits capacity (references.reverse ++ past) key
      · rw [if_pos hits, Nat.add_zero]
        exact inductionHypothesis.trans (Finset.card_le_card grows)
      · rw [if_neg hits]
        have isFar :
            key ∈ references.reverse ++ past →
            capacity ≤
              ((references.reverse ++ past).takeWhile (· ≠ key)).toFinset.card :=
          fun inPast => not_lt.mp (fun isNear => hits ⟨inPast, isNear⟩)
        by_cases isInside : key ∈ references
        · have inReverse : key ∈ references.reverse :=
            List.mem_reverse.mpr isInside
          have others := isFar (List.mem_append_left past inReverse)
          rw [takeWhile_of_mem inReverse past] at others
          have absent :
              key ∉ (references.reverse.takeWhile (· ≠ key)).toFinset := by
            intro member
            have different := List.mem_takeWhile_imp (List.mem_toFinset.mp member)
            simp at different
          have inside :
              insert key (references.reverse.takeWhile (· ≠ key)).toFinset ⊆
                (references ++ [key]).toFinset := by
            intro other member
            rw [List.mem_toFinset, List.mem_append]
            rcases Finset.mem_insert.mp member with isKey | isOther
            · exact .inr (List.mem_singleton.mpr isKey)
            · left
              exact List.mem_reverse.mp
                ((List.takeWhile_sublist _).subset (List.mem_toFinset.mp isOther))
          have counted := Finset.card_le_card inside
          rw [Finset.card_insert_of_notMem absent] at counted
          have atMostOne : (past.take 1).toFinset.card ≤ 1 :=
            (List.toFinset_card_le _).trans (List.length_take_le 1 past)
          have left :=
            Finset.le_card_sdiff (past.take 1).toFinset
              (references ++ [key]).toFinset
          omega
        · by_cases isBefore : key ∈ (past.take 1).toFinset
          · cases past with
            | nil =>
                simp at isBefore
            | cons first older =>
                have isFirst : key = first := by
                  simpa using isBefore
                subst isFirst
                have allOther :
                    ∀ other ∈ references.reverse, decide (other ≠ key) = true := by
                  intro other member
                  have different :=
                    ne_of_mem_of_not_mem (List.mem_reverse.mp member) isInside
                  simpa using different
                have others :=
                  isFar (List.mem_append_right _ (List.mem_cons_self ..))
                rw [List.takeWhile_append_of_pos allOther,
                  List.takeWhile_cons_of_neg (by simp), List.append_nil,
                  List.toFinset_reverse] at others
                have isAll :
                    references.toFinset \ ((key :: older).take 1).toFinset =
                      references.toFinset := by
                  apply Finset.sdiff_eq_self_of_disjoint
                  simpa using isInside
                rw [isAll] at grows
                have counted := Finset.card_le_card grows
                omega
          · have larger :
                insert key (references.toFinset \ (past.take 1).toFinset) ⊆
                  (references ++ [key]).toFinset \ (past.take 1).toFinset := by
              intro other member
              rcases Finset.mem_insert.mp member with isKey | isOld
              · rw [isKey, Finset.mem_sdiff]
                exact ⟨by simp, isBefore⟩
              · exact grows isOld
            have counted := Finset.card_le_card larger
            have isNew : key ∉ references.toFinset \ (past.take 1).toFinset := by
              intro member
              exact isInside (List.mem_toFinset.mp (Finset.mem_sdiff.mp member).1)
            rw [Finset.card_insert_of_notMem isNew] at counted
            omega

end Faults

section Serves

variable {size misses : Nat}
  {cache final : Finset Key}
  {references front back : List Key}

/-- What serves a list of references serves its parts. -/
theorem Serves.split
    (serves : Serves size cache (front ++ back) misses final) :
    ∃ first second middle,
      misses = first + second ∧
        Serves size cache front first middle ∧
        Serves size middle back second final := by
  induction front generalizing cache misses with
  | nil =>
      exact ⟨0, misses, cache, (Nat.zero_add misses).symm, .done cache, serves⟩
  | cons key front inductionHypothesis =>
      cases serves with
      | hit isCached keeps isHeld fits rest =>
          obtain ⟨first, second, middle, isSum, isFirst, isSecond⟩ :=
            inductionHypothesis rest
          exact
            ⟨first, second, middle, isSum,
              .hit isCached keeps isHeld fits isFirst, isSecond⟩
      | miss isMissing loads isHeld fits rest =>
          obtain ⟨first, second, middle, isSum, isFirst, isSecond⟩ :=
            inductionHypothesis rest
          exact
            ⟨first + 1, second, middle, by omega,
              .miss isMissing loads isHeld fits isFirst, isSecond⟩

/-- Every key that was not cached at first is missed once at least. -/
theorem Serves.distinct_le
    (serves : Serves size cache references misses final) :
    (references.toFinset \ cache).card ≤ misses := by
  induction serves with
  | done cache =>
      simp
  | hit isCached keeps isHeld fits rest inductionHypothesis =>
      apply le_trans (Finset.card_le_card _) inductionHypothesis
      intro other member
      rw [Finset.mem_sdiff, List.mem_toFinset] at member ⊢
      obtain ⟨isReferenced, isNew⟩ := member
      refine ⟨?_, fun inNext => isNew (keeps inNext)⟩
      rcases List.mem_cons.mp isReferenced with isKey | inRest
      · rw [isKey] at isNew
        exact (isNew isCached).elim
      · exact inRest
  | @miss cache next final key rest misses isMissing loads isHeld fits serves
      inductionHypothesis =>
      have oneMore :
          (key :: rest).toFinset \ cache ⊆ insert key (rest.toFinset \ next) := by
        intro other member
        rw [Finset.mem_sdiff, List.mem_toFinset] at member
        rw [Finset.mem_insert, Finset.mem_sdiff, List.mem_toFinset]
        obtain ⟨isReferenced, isNew⟩ := member
        rcases List.mem_cons.mp isReferenced with isKey | inRest
        · exact .inl isKey
        · by_cases isKey : other = key
          · exact .inl isKey
          · right
            refine ⟨inRest, fun inNext => ?_⟩
            rcases Finset.mem_insert.mp (loads inNext) with same | inCache
            · exact isKey same
            · exact isNew inCache
      exact
        ((Finset.card_le_card oneMore).trans (Finset.card_insert_le _ _)).trans
          (Nat.add_le_add_right inductionHypothesis 1)

/-- A cache stays within its size. -/
theorem Serves.fits
    (serves : Serves size cache references misses final)
    (fits : cache.card ≤ size) :
    final.card ≤ size := by
  induction serves with
  | done cache =>
      exact fits
  | hit isCached keeps isHeld nextFits rest inductionHypothesis =>
      exact inductionHypothesis nextFits
  | miss isMissing loads isHeld nextFits rest inductionHypothesis =>
      exact inductionHypothesis nextFits

/-- The key that was referenced last is cached. -/
theorem Serves.latest
    (serves : Serves size cache references misses final)
    (isSome : references ≠ []) :
    (references.reverse.take 1).toFinset ⊆ final := by
  obtain ⟨front, key, rfl⟩ :=
    (List.eq_nil_or_concat' references).resolve_left isSome
  obtain ⟨first, second, middle, -, -, isLast⟩ := serves.split
  have isHeld : key ∈ final := by
    cases isLast with
    | hit isCached keeps isHeld fits rest =>
        cases rest
        exact isHeld
    | miss isMissing loads isHeld fits rest =>
        cases rest
        exact isHeld
  intro other member
  have isKey : other = key := by
    simpa using member
  rw [isKey]
  exact isHeld

end Serves

section Competition

variable {capacity size misses : Nat}
  {cache final : Finset Key}
  {past references : List Key}

/-- In a phase the other cache misses its share. -/
theorem Serves.phase
    (serves : Serves size cache references misses final)
    (isPhase : capacity ≤ faults capacity past references)
    (isSome : 0 < size)
    (fits : cache.card ≤ size)
    (latest : (past.take 1).toFinset ⊆ cache)
    (fresh : past = [] → cache = ∅) :
    capacity + 1 ≤ misses + size := by
  have distinct :
      min capacity (faults capacity past references) ≤
        (references.toFinset \ (past.take 1).toFinset).card :=
    faults_distinct past references
  rw [Nat.min_eq_left isPhase] at distinct
  have missed := serves.distinct_le
  have others : (cache \ (past.take 1).toFinset).card + 1 ≤ size := by
    cases past with
    | nil =>
        rw [fresh rfl, Finset.empty_sdiff, Finset.card_empty]
        exact isSome
    | cons key older =>
        have isHeld : key ∈ cache :=
          latest (by simp)
        have removed :
            (cache \ ((key :: older).take 1).toFinset).card = cache.card - 1 := by
          rw [Finset.card_sdiff_of_subset latest]
          simp
        have positive : 0 < cache.card :=
          Finset.card_pos.mpr ⟨key, isHeld⟩
        omega
  have covered :
      references.toFinset \ (past.take 1).toFinset ⊆
        (references.toFinset \ cache) ∪ (cache \ (past.take 1).toFinset) := by
    intro other member
    rw [Finset.mem_sdiff] at member
    rw [Finset.mem_union, Finset.mem_sdiff, Finset.mem_sdiff]
    by_cases isCached : other ∈ cache
    · exact .inr ⟨isCached, member.2⟩
    · exact .inl ⟨member.1, isCached⟩
  have counted :=
    (Finset.card_le_card covered).trans (Finset.card_union_le _ _)
  omega

/-- For each phase of the one cache the other misses its share. -/
theorem Serves.phases
    (serves : Serves size cache references misses final)
    (isSome : 0 < size)
    (isLarger : size ≤ capacity)
    (fits : cache.card ≤ size)
    (latest : (past.take 1).toFinset ⊆ cache)
    (fresh : past = [] → cache = ∅) :
    faults capacity past references / capacity * (capacity - size + 1) ≤
      misses := by
  have positive : 0 < capacity := isSome.trans_le isLarger
  generalize isLength : references.length = length
  induction length using Nat.strong_induction_on
    generalizing cache misses past references with
  | _ length inductionHypothesis =>
      rcases Nat.lt_or_ge (faults capacity past references) capacity with
        isLess | isPhase
      · rw [Nat.div_eq_of_lt isLess, Nat.zero_mul]
        exact Nat.zero_le _
      · obtain ⟨front, back, rfl, isCapacity⟩ := exists_phase isPhase
        obtain ⟨first, second, middle, isSum, isFirst, isSecond⟩ := serves.split
        have frontSome : front ≠ [] := by
          rintro rfl
          exact positive.ne isCapacity
        have share := isFirst.phase isCapacity.ge isSome fits latest fresh
        have shorter : back.length < length := by
          rw [← isLength, List.length_append]
          exact Nat.lt_add_of_pos_left (List.length_pos_iff.mpr frontSome)
        have headFront :
            (front.reverse ++ past).take 1 = front.reverse.take 1 := by
          apply List.take_append_of_le_length
          rw [List.length_reverse]
          exact List.length_pos_iff.mpr frontSome
        have isHeld : ((front.reverse ++ past).take 1).toFinset ⊆ middle := by
          rw [headFront]
          exact isFirst.latest frontSome
        have isUsed : front.reverse ++ past = [] → middle = ∅ := by
          intro isNone
          have noFront := (List.append_eq_nil_iff.mp isNone).1
          exact (frontSome (List.reverse_eq_nil_iff.mp noFront)).elim
        have rest :
            faults capacity (front.reverse ++ past) back / capacity *
                (capacity - size + 1) ≤
              second :=
          inductionHypothesis back.length shorter isSecond (isFirst.fits fits)
            isHeld isUsed rfl
        rw [faults_append, isCapacity, Nat.add_div_left _ positive, Nat.succ_mul,
          isSum]
        omega

/--
The misses of the cache that keeps the most recent keys are at most
`capacity / (capacity - size + 1)` times those of any other one that starts
empty, up to fewer than one phase.
-/
theorem faults_competitive
    (serves : Serves size ∅ references misses final)
    (isSome : 0 < size)
    (isLarger : size ≤ capacity) :
    faults capacity [] references * (capacity - size + 1) ≤
      capacity * misses + (capacity - 1) * (capacity - size + 1) := by
  have phases :
      faults capacity [] references / capacity * (capacity - size + 1) ≤
        misses :=
    serves.phases isSome isLarger (Nat.zero_le _) (Finset.empty_subset _)
      (fun _ => rfl)
  have positive : 0 < capacity := isSome.trans_le isLarger
  have remainder := Nat.mod_lt (faults capacity [] references) positive
  generalize faults capacity [] references = missed at phases remainder ⊢
  generalize capacity - size + 1 = share at phases ⊢
  calc
    missed * share =
        capacity * (missed / capacity * share) + missed % capacity * share := by
      rw [← Nat.mul_assoc, ← Nat.add_mul, Nat.div_add_mod]
    _ ≤ capacity * misses + (capacity - 1) * share :=
      Nat.add_le_add (Nat.mul_le_mul_left capacity phases)
        (Nat.mul_le_mul_right share (Nat.le_sub_one_of_lt remainder))

end Competition

end Clibs.Paging
