import Clibs.Foundation.Paging
import Clibs.Lru.Recency

namespace Clibs.Lru

open Fh Paging

/-!
# Which uses of a cache are hits

The users of `lru.h` check for a key and add it when it is missing.  Used so, a
cache answers by the distance to the last use of the same key: what a cache
holds a larger one holds too, and no cache that adds a key only when it is used
misses much less, whichever key it evicts.
-/

/-- Check for a key and add it if it is missing; whether it was found. -/
def lruServe
    (lru : LruT)
    (use : CString × Nat) : Checked (LruT × Bool) := do
  let (lru, code, _) ← lruCheck lru use.1
  if code = lruOk then
    .ok (lru, true)
  else do
    let (lru, _) ← lruAdd lru use.1 use.2 .all
    .ok (lru, false)

section Runs

variable {capacity : Nat} {lru : LruT}

/-- A use is a hit when the key has an entry. -/
theorem lruServe_use
    (positive : 0 < capacity)
    {entries : List (CString × Nat)}
    (caches : Caches capacity lru entries)
    (key : CString)
    (payload : Nat) :
    ∃ next,
      lruServe lru (key, payload) =
          .ok (next, decide (key ∈ entries.map Prod.fst)) ∧
        Caches capacity next
          (RecencyList.reference capacity key payload entries) := by
  unfold RecencyList.reference
  cases found : entries.lookup key with
  | none =>
      have absent := RecencyList.lookup_eq_none.mp found
      obtain ⟨next, adds, nextCaches⟩ :=
        caches.add_absent positive absent payload
      have notOk : lruElementNotFound ≠ lruOk := by decide
      refine ⟨next, ?_, nextCaches⟩
      rw [decide_eq_false absent]
      simp only [lruServe, caches.check_miss found, Checked.ok_bind, notOk,
        if_false, adds]
  | some bound =>
      have present : key ∈ entries.map Prod.fst := by
        by_contra absent
        rw [RecencyList.lookup_eq_none.mpr absent] at found
        cases found
      obtain ⟨next, checks, nextCaches⟩ := caches.check_hit found
      refine ⟨next, ?_, nextCaches⟩
      rw [decide_eq_true present]
      simp only [lruServe, checks, Checked.ok_bind, if_true]

/-- A run of uses is answered by the distances between uses of the same key. -/
theorem lruServe_run
    (positive : 0 < capacity)
    {past : List CString}
    (caches : Caches capacity lru lru.entries)
    (areRecent :
      lru.entries.map Prod.fst = (RecencyList.recent past).take capacity)
    (uses : List (CString × Nat)) :
    ∃ final,
      runCalls lruServe lru uses =
          .ok (final, served capacity past (uses.map Prod.fst)) ∧
        final.entries.map Prod.fst =
          (RecencyList.recent ((uses.map Prod.fst).reverse ++ past)).take
            capacity := by
  induction uses generalizing lru past with
  | nil =>
      exact ⟨lru, rfl, areRecent⟩
  | cons use uses inductionHypothesis =>
      obtain ⟨key, payload⟩ := use
      obtain ⟨next, serves, isEntries, exists_cards⟩ :=
        lruServe_use positive caches key payload
      have nextRecent :
          next.entries.map Prod.fst =
            (RecencyList.recent (key :: past)).take capacity := by
        rw [isEntries]
        exact RecencyList.reference_keys positive areRecent key payload
      obtain ⟨final, runs, finalRecent⟩ :=
        inductionHypothesis ⟨rfl, exists_cards⟩ nextRecent
      have isHit :
          decide (key ∈ lru.entries.map Prod.fst) =
            decide (Hits capacity past key) := by
        rw [areRecent]
        exact decide_eq_decide.mpr (mem_take_recent capacity past key)
      refine ⟨final, ?_, ?_⟩
      · rw [isHit] at serves
        simp only [runCalls, serves, runs, Checked.ok_bind, List.map_cons, served]
      · rw [finalRecent, List.map_cons, List.reverse_cons, List.append_assoc,
          List.singleton_append]

/-- A new cache that is used so. -/
theorem lruCreate_serves
    {dim : Int32}
    {hashFunction : CString → UInt64}
    {grants : LruGrants}
    (created : lruCreate dim hashFunction grants = .ok (some lru))
    (uses : List (CString × Nat)) :
    ∃ final,
      runCalls lruServe lru uses =
          .ok (final, served dim.toInt.toNat [] (uses.map Prod.fst)) ∧
        final.entries.map Prod.fst =
          (RecencyList.recent (uses.map Prod.fst).reverse).take
            dim.toInt.toNat := by
  obtain ⟨caches, positive⟩ := lruCreate_caches created
  have noEntries : lru.entries = [] := caches.1
  have areRecent :
      lru.entries.map Prod.fst =
        (RecencyList.recent []).take dim.toInt.toNat := by
    rw [noEntries]
    simp [RecencyList.recent]
  obtain ⟨final, runs, finalRecent⟩ :=
    lruServe_run positive ⟨rfl, caches.2⟩ areRecent uses
  rw [List.append_nil] at finalRecent
  exact ⟨final, runs, finalRecent⟩

end Runs

/--
A use is a hit exactly when its key was used before and fewer other keys than
the capacity were used since.
-/
theorem lru_hits_by_distance
    {dim : Int32}
    {hashFunction : CString → UInt64}
    {grants : LruGrants}
    {lru : LruT}
    (created : lruCreate dim hashFunction grants = .ok (some lru))
    (uses : List (CString × Nat)) :
    ∃ final hits,
      runCalls lruServe lru uses = .ok (final, hits) ∧
        hits.length = uses.length ∧
        ∀ before use after,
          uses = before ++ use :: after →
          (hits[before.length]? = some true ↔
            use.1 ∈ before.map Prod.fst ∧
              ((before.map Prod.fst).reverse.takeWhile
                  (· ≠ use.1)).toFinset.card <
                dim.toInt.toNat) := by
  obtain ⟨final, runs, -⟩ := lruCreate_serves created uses
  refine ⟨final, _, runs, ?_, ?_⟩
  · rw [served_length, List.length_map]
  · rintro before use after rfl
    have isPlace :
        before.length =
          (served dim.toInt.toNat [] (before.map Prod.fst)).length := by
      rw [served_length, List.length_map]
    rw [List.map_append, List.map_cons, served_append, isPlace,
      List.getElem?_append_right (Nat.le_refl _), Nat.sub_self, served,
      List.getElem?_cons_zero, Option.some_inj, decide_eq_true_iff, Hits,
      List.append_nil, List.mem_reverse]

/-- A key used again after one other is found in a cache of two. -/
theorem lru_hits_by_distance_again :
    ∃ lru final hits,
      lruCreate 2 (fun _ => 7) .all = .ok (some lru) ∧
        runCalls lruServe lru
            [(⟨[97], by decide⟩, 1), (⟨[98], by decide⟩, 2),
              (⟨[97], by decide⟩, 3)] =
          .ok (final, hits) ∧
        hits[2]? = some true := by
  have creates :
      ∃ lru, lruCreate 2 (fun _ => 7) .all = .ok (some lru) := ⟨_, rfl⟩
  obtain ⟨lru, created⟩ := creates
  obtain ⟨final, hits, runs, -, isHit⟩ :=
    lru_hits_by_distance created
      [(⟨[97], by decide⟩, 1), (⟨[98], by decide⟩, 2), (⟨[97], by decide⟩, 3)]
  exact
    ⟨lru, final, hits, created, runs,
      (isHit [(⟨[97], by decide⟩, 1), (⟨[98], by decide⟩, 2)] _ [] rfl).mpr
        (by decide)⟩

/--
A larger cache that is used in the same way finds every key that a smaller one
finds, and the smaller one holds the keys at the front of the larger one.
-/
theorem larger_lru_holds_smaller
    {dim largerDim : Int32}
    {hashFunction largerHash : CString → UInt64}
    {grants largerGrants : LruGrants}
    {lru larger : LruT}
    (created : lruCreate dim hashFunction grants = .ok (some lru))
    (largerCreated :
      lruCreate largerDim largerHash largerGrants = .ok (some larger))
    (isLarger : dim.toInt ≤ largerDim.toInt)
    (uses : List (CString × Nat)) :
    ∃ final hits largerFinal largerHits,
      runCalls lruServe lru uses = .ok (final, hits) ∧
        runCalls lruServe larger uses = .ok (largerFinal, largerHits) ∧
        List.Forall₂ (fun hit largerHit => hit = true → largerHit = true)
          hits largerHits ∧
        final.entries.map Prod.fst =
          (largerFinal.entries.map Prod.fst).take dim.toInt.toNat := by
  obtain ⟨final, runs, finalRecent⟩ := lruCreate_serves created uses
  obtain ⟨largerFinal, largerRuns, largerRecent⟩ :=
    lruCreate_serves largerCreated uses
  have atMost : dim.toInt.toNat ≤ largerDim.toInt.toNat :=
    Int.toNat_le_toNat isLarger
  refine ⟨final, _, largerFinal, _, runs, largerRuns, ?_, ?_⟩
  · exact served_mono atMost [] (uses.map Prod.fst)
  · rw [finalRecent, largerRecent, List.take_take, Nat.min_eq_left atMost]

/-- A cache of one and a cache of two. -/
theorem larger_lru_holds_smaller_two :
    ∃ lru larger final hits largerFinal largerHits,
      lruCreate 1 (fun _ => 7) .all = .ok (some lru) ∧
        lruCreate 2 (fun _ => 9) .all = .ok (some larger) ∧
        runCalls lruServe lru
            [(⟨[97], by decide⟩, 1), (⟨[98], by decide⟩, 2)] =
          .ok (final, hits) ∧
        runCalls lruServe larger
            [(⟨[97], by decide⟩, 1), (⟨[98], by decide⟩, 2)] =
          .ok (largerFinal, largerHits) ∧
        final.entries.map Prod.fst =
          (largerFinal.entries.map Prod.fst).take 1 := by
  have creates :
      ∃ lru, lruCreate 1 (fun _ => 7) .all = .ok (some lru) := ⟨_, rfl⟩
  have largerCreates :
      ∃ lru, lruCreate 2 (fun _ => 9) .all = .ok (some lru) := ⟨_, rfl⟩
  obtain ⟨lru, created⟩ := creates
  obtain ⟨larger, largerCreated⟩ := largerCreates
  obtain ⟨final, hits, largerFinal, largerHits, runs, largerRuns, -, keys⟩ :=
    larger_lru_holds_smaller created largerCreated (by decide)
      [(⟨[97], by decide⟩, 1), (⟨[98], by decide⟩, 2)]
  exact
    ⟨lru, larger, final, hits, largerFinal, largerHits, created, largerCreated,
      runs, largerRuns, keys⟩

/--
No cache of at most the same size that adds a key only when it is used misses
much less, whichever keys it evicts and whatever it knows of later uses.
-/
theorem lru_is_competitive
    {dim : Int32}
    {hashFunction : CString → UInt64}
    {grants : LruGrants}
    {lru : LruT}
    (created : lruCreate dim hashFunction grants = .ok (some lru))
    {size misses : Nat}
    {final : Finset CString}
    {uses : List (CString × Nat)}
    (other : Serves size ∅ (uses.map Prod.fst) misses final)
    (isSome : 0 < size)
    (isSmaller : size ≤ dim.toInt.toNat) :
    ∃ last hits,
      runCalls lruServe lru uses = .ok (last, hits) ∧
        hits.count false * (dim.toInt.toNat - size + 1) ≤
          dim.toInt.toNat * misses +
            (dim.toInt.toNat - 1) * (dim.toInt.toNat - size + 1) := by
  obtain ⟨last, runs, -⟩ := lruCreate_serves created uses
  refine ⟨last, _, runs, ?_⟩
  rw [← faults_eq_count]
  exact faults_competitive other isSome isSmaller

/-- A cache of two against one that keeps a single key. -/
theorem lru_is_competitive_two :
    ∃ lru last hits,
      lruCreate 2 (fun _ => 7) .all = .ok (some lru) ∧
        runCalls lruServe lru
            [(⟨[97], by decide⟩, 1), (⟨[98], by decide⟩, 2)] =
          .ok (last, hits) ∧
        hits.count false * 2 ≤ 2 * 2 + 1 * 2 := by
  have creates :
      ∃ lru, lruCreate 2 (fun _ => 7) .all = .ok (some lru) := ⟨_, rfl⟩
  obtain ⟨lru, created⟩ := creates
  have second :
      Serves 1 {(⟨[97], by decide⟩ : CString)} [⟨[98], by decide⟩] 1
        {⟨[98], by decide⟩} :=
    .miss (by simp) (by simp) (by simp) (by simp) (.done _)
  have other :
      Serves 1 ∅
        (([(⟨[97], by decide⟩, 1), (⟨[98], by decide⟩, 2)] :
          List (CString × Nat)).map Prod.fst)
        2 {⟨[98], by decide⟩} :=
    .miss (by simp) (by simp) (by simp) (by simp) second
  obtain ⟨last, hits, runs, few⟩ :=
    lru_is_competitive created other (by decide) (by decide)
  exact ⟨lru, last, hits, created, runs, few⟩

end Clibs.Lru
