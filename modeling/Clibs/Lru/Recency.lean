import Clibs.Foundation.RecencyList
import Clibs.Foundation.Run
import Clibs.Lru.Operations

namespace Clibs.Lru

open Fh Ll

/-!
# A cache is a list ordered by last use

The list of entries of a cache, the most recently used one first, behaves as a
list that is cut to the capacity: a hit moves its entry to the front, a miss
changes nothing, a new entry pushes the last one out when the list is full, and
clearing empties it.  The keys left by any trace of references are therefore
the most recently referenced ones.
-/

/-- A call of a function of `lru.h`. -/
inductive LruCall where
  | check (key : CString)
  | add (key : CString) (payload : Nat)
  | clear
  deriving Repr, DecidableEq

/-- The returned code, and what `lru_check` stores through `payload`. -/
structure LruResult where
  code : Int
  payload : Option Nat
  deriving Repr, DecidableEq

/-- Make a call; the allocations of `lru_add` succeed as given. -/
def lruStep
    (grants : AddGrants)
    (lru : LruT) : LruCall → Checked (LruT × LruResult)
  | .check key => do
      let (lru, code, payload) ← lruCheck lru key
      .ok (lru, ⟨code, payload⟩)
  | .add key payload => do
      let (lru, code) ← lruAdd lru key payload grants
      .ok (lru, ⟨code, none⟩)
  | .clear => do
      let (lru, code) ← lruClear lru
      .ok (lru, ⟨code, none⟩)

/-- The same call on a list ordered by last use. -/
def recencyStep
    (capacity : Nat)
    (entries : List (CString × Nat)) :
    LruCall → Checked (List (CString × Nat) × LruResult)
  | .check key =>
      match entries.lookup key with
      | none =>
          .ok (entries, ⟨lruElementNotFound, none⟩)
      | some payload =>
          .ok (RecencyList.touch key entries, ⟨lruOk, some payload⟩)
  | .add key payload =>
      .ok (RecencyList.push capacity key payload entries, ⟨lruOk, none⟩)
  | .clear =>
      .ok ([], ⟨lruOk, none⟩)

/-- A key is added only when it is not cached. -/
def AddsAbsent
    (entries : List (CString × Nat)) : LruCall → Prop
  | .add key _ =>
      key ∉ entries.map Prod.fst
  | _ =>
      True

/-- A reference to a key, with the payload it gets if it is missing. -/
inductive LruReference where
  | use (key : CString) (payload : Nat)
  | clear
  deriving Repr, DecidableEq

/-- Check for a key and add it if it is missing, as the users of `lru.h` do. -/
def lruReference
    (lru : LruT) : LruReference → Checked (LruT × Int)
  | .use key payload => do
      let (lru, code, _) ← lruCheck lru key
      if code = lruOk then
        .ok (lru, code)
      else
        lruAdd lru key payload .all
  | .clear =>
      lruClear lru

/-- The keys referenced after the last clear; both start with the latest. -/
def sinceClear : List LruReference → List CString
  | [] =>
      []
  | .clear :: _ =>
      []
  | .use key _ :: older =>
      key :: sinceClear older

/-- The cache is at rest and has the entries. -/
def Caches
    (capacity : Nat)
    (lru : LruT)
    (entries : List (CString × Nat)) : Prop :=
  lru.entries = entries ∧
    ∃ map recency free, lru.AtRest capacity map recency free

section Steps

variable {lru : LruT}
  {capacity : Nat}
  {entries : List (CString × Nat)}
  {map : CString → Option (Option OpaqueObj)}
  {recency : List Card}
  {free : List Nat}

/-- A cache at rest has the entries of its cards. -/
theorem LruT.AtRest.caches
    (rest : lru.AtRest capacity map recency free) :
    Caches capacity lru (recency.map Card.entry) :=
  ⟨rest.ok.entries, map, recency, free, rest⟩

/-- The entries of a cache at rest are those of cards. -/
theorem Caches.exists_cards
    (caches : Caches capacity lru entries) :
    ∃ map recency free,
      lru.AtRest capacity map recency free ∧
        entries = recency.map Card.entry := by
  obtain ⟨rfl, map, recency, free, rest⟩ := caches
  exact ⟨map, recency, free, rest, rest.ok.entries⟩

/-- The keys of the entries are those of the cards. -/
theorem entry_keys
    (recency : List Card) :
    (recency.map Card.entry).map Prod.fst = recency.map Card.key := by
  rw [List.map_map]
  rfl

/-- `lru_check` of a key without an entry. -/
theorem Caches.check_miss
    (caches : Caches capacity lru entries)
    {key : CString}
    (missing : entries.lookup key = none) :
    lruCheck lru key = .ok (lru, lruElementNotFound, none) := by
  obtain ⟨map, recency, free, rest, rfl⟩ := caches.exists_cards
  rw [RecencyList.lookup_eq_none, entry_keys] at missing
  exact lruCheck_miss rest missing

/-- `lru_check` of a key with an entry. -/
theorem Caches.check_hit
    (caches : Caches capacity lru entries)
    {key : CString}
    {payload : Nat}
    (found : entries.lookup key = some payload) :
    ∃ next,
      lruCheck lru key = .ok (next, lruOk, some payload) ∧
        Caches capacity next (RecencyList.touch key entries) := by
  obtain ⟨map, recency, free, rest, rfl⟩ := caches.exists_cards
  obtain ⟨front, back, split⟩ := RecencyList.lookup_split found
  obtain ⟨frontCards, others, rfl, rfl, isRest⟩ :=
    List.map_eq_append_iff.mp split
  obtain ⟨card, backCards, rfl, isEntry, rfl⟩ := List.map_eq_cons_iff.mp isRest
  cases isEntry
  obtain ⟨next, checks, nextRest⟩ := lruCheck_hit rest
  refine ⟨next, checks, ?_⟩
  have distinct := rest.keys_nodup
  rw [← entry_keys, split] at distinct
  have touched :
      RecencyList.touch card.key
          ((frontCards ++ card :: backCards).map Card.entry) =
        (card :: (frontCards ++ backCards)).map Card.entry := by
    rw [RecencyList.touch, found, split, RecencyList.without_of_split distinct,
      List.map_cons, List.map_append]
    rfl
  rw [touched]
  exact nextRest.caches

/-- `lru_add` of a key without an entry. -/
theorem Caches.add_absent
    (caches : Caches capacity lru entries)
    (positive : 0 < capacity)
    {key : CString}
    (absent : key ∉ entries.map Prod.fst)
    (payload : Nat) :
    ∃ next,
      lruAdd lru key payload .all = .ok (next, lruOk) ∧
        Caches capacity next
          (RecencyList.push capacity key payload entries) := by
  obtain ⟨map, recency, free, rest, rfl⟩ := caches.exists_cards
  rw [entry_keys] at absent
  have isUnbound := rest.unbound absent
  have count := rest.count
  rw [List.length_nil, Nat.add_zero] at count
  cases free with
  | cons slot free =>
      obtain ⟨taken, takes, takenStands, -⟩ := takeSlot_free rest 1
      obtain ⟨next, nextMap, adds, nextRest⟩ :=
        addNew_new takenStands (show AddGrants.all.key = true from rfl)
          isUnbound (.inl rfl) payload
      refine ⟨next, (lruAdd_eq rest takes payload .all).trans adds, ?_⟩
      have fits : (recency.map Card.entry).length + 1 ≤ capacity := by
        rw [List.length_map]
        rw [List.length_cons] at count
        omega
      rw [RecencyList.push, List.take_of_length_le fits]
      exact nextRest.caches
  | nil =>
      rw [List.length_nil, Nat.add_zero] at count
      rcases List.eq_nil_or_concat' recency with rfl | ⟨kept, victim, rfl⟩
      · rw [← count] at positive
        cases positive
      · obtain ⟨taken, takes, takenStands, -⟩ := takeSlot_full rest
        have stillUnbound : Function.update map victim.key none key = none := by
          by_cases isVictim : key = victim.key
          · rw [isVictim, Function.update_self]
          · rw [Function.update_of_ne isVictim]
            exact isUnbound
        obtain ⟨next, nextMap, adds, nextRest⟩ :=
          addNew_new takenStands (show AddGrants.all.key = true from rfl)
            stillUnbound (.inl rfl) payload
        refine ⟨next, (lruAdd_eq rest takes payload .all).trans adds, ?_⟩
        have pushed :
            RecencyList.push capacity key payload
                ((kept ++ [victim]).map Card.entry) =
              (⟨victim.slot, key, payload⟩ :: kept : List Card).map
                Card.entry := by
          have isLength : capacity = (kept.map Card.entry).length + 1 := by
            rw [← count, List.length_append, List.length_singleton,
              List.length_map]
          rw [RecencyList.push, isLength, List.take_succ_cons,
            List.map_append, List.take_left, List.map_cons]
          rfl
        rw [pushed]
        exact nextRest.caches

/-- `lru_clear`. -/
theorem Caches.clear
    (caches : Caches capacity lru entries) :
    ∃ next, lruClear lru = .ok (next, lruOk) ∧ Caches capacity next [] := by
  obtain ⟨map, recency, free, rest, rfl⟩ := caches.exists_cards
  obtain ⟨next, nextMap, nextFree, clears, nextRest⟩ := lruClear_eq rest
  exact ⟨next, clears, nextRest.caches⟩

/-- A new cache has no entries. -/
theorem lruCreate_caches
    {dim : Int32}
    {hashFunction : CString → UInt64}
    {grants : LruGrants}
    (created : lruCreate dim hashFunction grants = .ok (some lru)) :
    Caches dim.toInt.toNat lru [] ∧ 0 < dim.toInt.toNat := by
  obtain ⟨ok, locks, size, positive⟩ := lruCreate_ok created
  have rest : lru.AtRest dim.toInt.toNat _ [] _ := ⟨ok, locks, size⟩
  exact ⟨rest.caches, by omega⟩

end Steps

section Runs

variable {capacity : Nat}

/-- Each allowed call does to the cache what it does to the list. -/
theorem lruStep_refines
    (positive : 0 < capacity)
    {lru : LruT}
    {entries : List (CString × Nat)}
    {call : LruCall}
    (caches : Caches capacity lru entries)
    (allowed : AddsAbsent entries call) :
    ∃ next result nextEntries,
      lruStep .all lru call = .ok (next, result) ∧
        StepOf (recencyStep capacity) entries call result nextEntries ∧
        Caches capacity next nextEntries := by
  unfold StepOf
  cases call with
  | check key =>
      cases found : entries.lookup key with
      | none =>
          refine ⟨lru, ⟨lruElementNotFound, none⟩, entries, ?_,
            by simp only [recencyStep, found], caches⟩
          simp only [lruStep, caches.check_miss found, Checked.ok_bind]
      | some payload =>
          obtain ⟨next, checks, nextCaches⟩ := caches.check_hit found
          refine ⟨next, ⟨lruOk, some payload⟩, _, ?_,
            by simp only [recencyStep, found], nextCaches⟩
          simp only [lruStep, checks, Checked.ok_bind]
  | add key payload =>
      obtain ⟨next, adds, nextCaches⟩ :=
        caches.add_absent positive allowed payload
      refine ⟨next, _, _, ?_, rfl, nextCaches⟩
      simp only [lruStep, adds, Checked.ok_bind]
  | clear =>
      obtain ⟨next, clears, nextCaches⟩ := caches.clear
      refine ⟨next, _, _, ?_, rfl, nextCaches⟩
      simp only [lruStep, clears, Checked.ok_bind]

/-- A run of allowed calls does to the cache what it does to the list. -/
theorem lruRun_refines
    (positive : 0 < capacity)
    {lru : LruT}
    {entries : List (CString × Nat)}
    (caches : Caches capacity lru entries)
    {calls : List LruCall}
    (permitted :
      AlwaysAllowed (StepOf (recencyStep capacity)) AddsAbsent entries
        calls) :
    ∃ final results,
      runCalls (lruStep .all) lru calls = .ok (final, results) ∧
        runCalls (recencyStep capacity) entries calls =
          .ok (final.entries, results) ∧
        Caches capacity final final.entries := by
  obtain ⟨final, results, finalEntries, runs, specified, finalCaches⟩ :=
    runCalls_refines (lruStep_refines positive) caches permitted
  obtain ⟨isEntries, exists_cards⟩ := finalCaches
  subst isEntries
  exact ⟨final, results, runs, specified.runCalls, rfl, exists_cards⟩

/-- A reference does to the cache what it does to the list. -/
theorem lruReference_use
    (positive : 0 < capacity)
    {lru : LruT}
    {entries : List (CString × Nat)}
    (caches : Caches capacity lru entries)
    (key : CString)
    (payload : Nat) :
    ∃ next,
      lruReference lru (.use key payload) = .ok (next, lruOk) ∧
        Caches capacity next
          (RecencyList.reference capacity key payload entries) := by
  unfold RecencyList.reference
  cases found : entries.lookup key with
  | none =>
      have absent := RecencyList.lookup_eq_none.mp found
      obtain ⟨next, adds, nextCaches⟩ :=
        caches.add_absent positive absent payload
      have notOk : lruElementNotFound ≠ lruOk := by decide
      refine ⟨next, ?_, nextCaches⟩
      simp only [lruReference, caches.check_miss found, Checked.ok_bind, notOk,
        if_false, adds]
  | some bound =>
      obtain ⟨next, checks, nextCaches⟩ := caches.check_hit found
      refine ⟨next, ?_, nextCaches⟩
      simp only [lruReference, checks, Checked.ok_bind, if_true]

/-- After a trace of references the cached keys are the most recent ones. -/
theorem lruReference_run
    (positive : 0 < capacity)
    {lru : LruT}
    {done : List LruReference}
    (caches : Caches capacity lru lru.entries)
    (areRecent :
      lru.entries.map Prod.fst =
        (RecencyList.recent (sinceClear done)).take capacity)
    (trace : List LruReference) :
    ∃ final codes,
      runCalls lruReference lru trace = .ok (final, codes) ∧
        Caches capacity final final.entries ∧
        final.entries.map Prod.fst =
          (RecencyList.recent (sinceClear (trace.reverse ++ done))).take
            capacity := by
  induction trace generalizing lru done with
  | nil =>
      exact ⟨lru, [], rfl, caches, areRecent⟩
  | cons reference trace inductionHypothesis =>
      have oneMore :
          ∃ next,
            lruReference lru reference = .ok (next, lruOk) ∧
              Caches capacity next next.entries ∧
              next.entries.map Prod.fst =
                (RecencyList.recent (sinceClear (reference :: done))).take
                  capacity := by
        cases reference with
        | use key payload =>
            obtain ⟨next, uses, nextCaches⟩ :=
              lruReference_use positive caches key payload
            obtain ⟨isEntries, exists_cards⟩ := nextCaches
            refine ⟨next, uses, ⟨rfl, exists_cards⟩, ?_⟩
            rw [isEntries, sinceClear]
            exact RecencyList.reference_keys positive areRecent key payload
        | clear =>
            obtain ⟨next, clears, nextCaches⟩ := caches.clear
            obtain ⟨isEntries, exists_cards⟩ := nextCaches
            refine ⟨next, clears, ⟨rfl, exists_cards⟩, ?_⟩
            rw [isEntries]
            simp [sinceClear, RecencyList.recent]
      obtain ⟨next, steps, nextCaches, nextRecent⟩ := oneMore
      obtain ⟨final, codes, runs, finalCaches, finalRecent⟩ :=
        inductionHypothesis nextCaches nextRecent
      refine ⟨final, lruOk :: codes, ?_, finalCaches, ?_⟩
      · simp only [runCalls, steps, runs, Checked.ok_bind]
      · rw [finalRecent, List.reverse_cons, List.append_assoc,
          List.singleton_append]

end Runs

/--
A cache does to its entries what every allowed run of calls does to the list
ordered by last use; after `lru_clear` it answers as a new cache; and the keys
left by a trace of references are the most recently referenced ones.
-/
theorem lru_refines_recency_list
    {dim : Int32}
    {hashFunction : CString → UInt64}
    {grants : LruGrants}
    {lru : LruT}
    (created : lruCreate dim hashFunction grants = .ok (some lru)) :
    (∀ calls,
      AlwaysAllowed (StepOf (recencyStep dim.toInt.toNat)) AddsAbsent []
          calls →
        ∃ final results,
          runCalls (lruStep .all) lru calls = .ok (final, results) ∧
            runCalls (recencyStep dim.toInt.toNat) [] calls =
              .ok (final.entries, results)) ∧
      (∀ before after,
        AlwaysAllowed (StepOf (recencyStep dim.toInt.toNat)) AddsAbsent []
            before →
        AlwaysAllowed (StepOf (recencyStep dim.toInt.toNat)) AddsAbsent []
            after →
        ∃ used fresh resultsBefore resultsAfter,
          runCalls (lruStep .all) lru (before ++ .clear :: after) =
              .ok (used, resultsBefore ++ ⟨lruOk, none⟩ :: resultsAfter) ∧
            runCalls (lruStep .all) lru after = .ok (fresh, resultsAfter) ∧
            used.entries = fresh.entries) ∧
      ∀ trace,
        ∃ final codes,
          runCalls lruReference lru trace = .ok (final, codes) ∧
            final.entries.map Prod.fst =
              (RecencyList.recent (sinceClear trace.reverse)).take
                dim.toInt.toNat ∧
            final.entries.length =
              min dim.toInt.toNat (sinceClear trace.reverse).toFinset.card := by
  obtain ⟨caches, positive⟩ := lruCreate_caches created
  refine ⟨?_, ?_, ?_⟩
  · intro calls permitted
    obtain ⟨final, results, runs, specified, -⟩ :=
      lruRun_refines positive caches permitted
    exact ⟨final, results, runs, specified⟩
  · intro before after beforePermitted afterPermitted
    obtain ⟨middle, resultsBefore, beforeRuns, -, middleCaches⟩ :=
      lruRun_refines positive caches beforePermitted
    obtain ⟨cleared, clears, clearedCaches⟩ := middleCaches.clear
    obtain ⟨used, resultsAfter, usedRuns, usedSpecified, -⟩ :=
      lruRun_refines positive clearedCaches afterPermitted
    obtain ⟨fresh, freshResults, freshRuns, freshSpecified, -⟩ :=
      lruRun_refines positive caches afterPermitted
    have same := Except.ok.inj (usedSpecified.symm.trans freshSpecified)
    obtain ⟨sameEntries, sameResults⟩ := Prod.mk.inj same
    subst sameResults
    have clearRuns :
        runCalls (lruStep .all) middle (.clear :: after) =
          .ok (used, ⟨lruOk, none⟩ :: resultsAfter) := by
      simp only [runCalls, lruStep, clears, usedRuns, Checked.ok_bind]
    exact ⟨used, fresh, resultsBefore, resultsAfter,
      runCalls_append beforeRuns clearRuns, freshRuns, sameEntries⟩
  · intro trace
    have noEntries : lru.entries = [] := caches.1
    have ownCaches : Caches dim.toInt.toNat lru lru.entries :=
      ⟨rfl, caches.2⟩
    have areRecent :
        lru.entries.map Prod.fst =
          (RecencyList.recent (sinceClear [])).take dim.toInt.toNat := by
      rw [noEntries]
      simp [sinceClear, RecencyList.recent]
    obtain ⟨final, codes, runs, -, finalRecent⟩ :=
      lruReference_run positive ownCaches areRecent trace
    rw [List.append_nil] at finalRecent
    refine ⟨final, codes, runs, finalRecent, ?_⟩
    have lengths := congrArg List.length finalRecent
    rwa [List.length_map, List.length_take, RecencyList.recent_length]
      at lengths

/-- Two of three keys are left, the one used again before the new one. -/
theorem lru_refines_recency_list_evicting :
    ∃ lru final codes,
      lruCreate 2 (fun _ => 7) .all = .ok (some lru) ∧
        runCalls lruReference lru
            [.use ⟨[97], by decide⟩ 1, .use ⟨[98], by decide⟩ 2,
              .use ⟨[97], by decide⟩ 1, .use ⟨[99], by decide⟩ 3] =
          .ok (final, codes) ∧
        final.entries.map Prod.fst =
          [⟨[99], by decide⟩, ⟨[97], by decide⟩] := by
  have creates :
      ∃ lru, lruCreate 2 (fun _ => 7) .all = .ok (some lru) := ⟨_, rfl⟩
  obtain ⟨lru, created⟩ := creates
  obtain ⟨final, codes, runs, keys, -⟩ :=
    (lru_refines_recency_list created).2.2
      [.use ⟨[97], by decide⟩ 1, .use ⟨[98], by decide⟩ 2,
        .use ⟨[97], by decide⟩ 1, .use ⟨[99], by decide⟩ 3]
  exact ⟨lru, final, codes, created, runs, keys⟩

end Clibs.Lru
