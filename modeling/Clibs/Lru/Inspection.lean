import Clibs.Ll.Relink
import Clibs.Lru.Failure

namespace Clibs.Lru

open Fh Ll

/-!
# What the inspection of a cache tells

`lru_get_ll_data` and `lru_get_ll_key_position` walk down the recency list and
assign to nothing.  In every reachable cache that is not empty they agree with
the order of last use, which is read here from the calls and their results.  In
an empty one they read the links of a slot that is not there.
-/

/--
`lru_get_ll_data`: the code, and the record whose fields are stored through
`key`, `payload` and `ll_slot`.
-/
def lruGetLlData
    (lru : LruT)
    (idx : Int) : Checked (Int × Option LruPayload) :=
  if lru.magic ≠ lruMagicId then
    .ok (lruBadHandle, none)
  else do
    let (llErr, voidp) ← llGetPayload lru.ll idx
    if llErr ≠ llOk then
      .ok (llErr, none)
    else
      match voidp with
      | none =>
          .error .nullDereference
      | some p =>
          .ok (lruOk, some (lru.payloads p))

/--
The loop of `lru_get_ll_key_position`.  It is over at the end of the list, which
has no more slots than there are.
-/
def keyPositionLoop
    (lru : LruT)
    (key : CString) : Nat → Int → Checked Int
  | 0, _ =>
      .error .divergence
  | fuel + 1, idx => do
      let (llErr, voidp) ← llGetPayload lru.ll idx
      if llErr = llOk then
        match voidp with
        | none =>
            .error .nullDereference
        | some p => do
            match ← (lru.payloads p).fhKey.read with
            | none =>
                .error .nullDereference
            | some fhKey =>
                if key = fhKey then
                  .ok idx
                else
                  keyPositionLoop lru key fuel (idx + 1)
      else
        .ok (-1)

/-- `lru_get_ll_key_position`. -/
def lruGetLlKeyPosition
    (lru : LruT)
    (key : CString) : Checked Int :=
  if lru.magic ≠ lruMagicId then
    .ok lruBadHandle
  else
    keyPositionLoop lru key (lru.ll.size + 1) 0

/-- The key a call uses: one that is found or added. -/
def usedKey
    (call : LruCall)
    (result : LruResult) : Option CString :=
  if result.code = lruOk then
    match call with
    | .check key =>
        some key
    | .add key _ =>
        some key
    | .clear =>
        none
  else
    none

/-- The keys the calls of a run used, the latest first. -/
def usedKeys :
    List (LruCall × AddGrants) → List LruResult → List CString
  | call :: calls, result :: results =>
      usedKeys calls results ++ (usedKey call.1 result).toList
  | _, _ =>
      []

/-- The cached keys. -/
def LruT.keys (lru : LruT) : List CString :=
  lru.entries.map Prod.fst

/--
The position of a cached key is the number of cached keys that were used more
recently; any other key has the position -1.
-/
def PositionAgrees
    (lru : LruT)
    (uses : List CString)
    (key : CString) : Prop :=
  lruGetLlKeyPosition lru key =
    .ok (if key ∈ lru.keys then
        ((RecencyList.usedAfter uses lru.keys key).length : Int)
      else
        -1)

/--
The data at an index are those of the entry for which as many cached keys were
used more recently; an index with no entry is out of range.
-/
def DataAgrees
    (lru : LruT)
    (uses : List CString)
    (idx : Nat) : Prop :=
  if idx < lru.entries.length then
    ∃ record key payload,
      lruGetLlData lru idx = .ok (lruOk, some record) ∧
        record.fhKey = .allocated key ∧
        record.payload = payload ∧
        (key, payload) ∈ lru.entries ∧
        (RecencyList.usedAfter uses lru.keys key).length = idx
  else
    lruGetLlData lru idx = .ok (llErrorIndexOutOfRange, none)

section Walk

variable {lru : LruT}
  {capacity : Nat}
  {map : CString → Option (Option OpaqueObj)}
  {recency : List Card}
  {free : List Nat}

/-- The cached keys are those of the cards. -/
theorem LruT.AtRest.keys
    (rest : lru.AtRest capacity map recency free) :
    lru.keys = recency.map Card.key := by
  rw [LruT.keys, rest.ok.entries, entry_keys]

/-- An index leads to the card at it. -/
theorem llGetPayload_card
    (rest : lru.AtRest capacity map recency free)
    (notEmpty : recency ≠ [])
    (idx : Nat) :
    llGetPayload lru.ll idx =
      .ok (match recency[idx]? with
        | none =>
            (llErrorIndexOutOfRange, none)
        | some card =>
            (llOk, some card.slot)) := by
  obtain ⟨front, last, rfl⟩ :=
    (List.eq_nil_or_concat' recency).resolve_left notEmpty
  have llOk := rest.ok.ll
  rw [List.map_append, List.map_singleton] at llOk
  rw [llGetPayload_listed llOk, ← List.map_singleton, ← List.map_append,
    Int.toNat_natCast, List.getElem?_map]
  cases (front ++ [last])[idx]? with
  | none =>
      rfl
  | some card =>
      rfl

/-- The list of an empty cache has no last slot to look at. -/
theorem llGetPayload_empty
    (rest : lru.AtRest capacity map [] free)
    (idx : Int) :
    llGetPayload lru.ll idx = .error .nullDereference := by
  have noLast : lru.ll.last = none := rest.ok.ll.last
  simp only [llGetPayload, noLast]

/-- The data at an index are the record of the card at it. -/
theorem lruGetLlData_card
    (rest : lru.AtRest capacity map recency free)
    (notEmpty : recency ≠ [])
    (idx : Nat) :
    lruGetLlData lru idx =
      .ok (match recency[idx]? with
        | none =>
            (llErrorIndexOutOfRange, none)
        | some card =>
            (lruOk, some card.record)) := by
  have isMagic : ¬ lru.magic ≠ lruMagicId := not_not.mpr rest.ok.magic
  rw [lruGetLlData, if_neg isMagic, llGetPayload_card rest notEmpty,
    Checked.ok_bind]
  cases isAt : recency[idx]? with
  | none =>
      rfl
  | some card =>
      have record :=
        rest.ok.records card
          (List.mem_append_left _ (List.mem_of_getElem? isAt))
      simp [record]

/-- The loop looks at the cards from an index on. -/
theorem keyPositionLoop_eq
    (rest : lru.AtRest capacity map recency free)
    (notEmpty : recency ≠ [])
    (key : CString)
    {front back : List Card}
    (split : recency = front ++ back)
    {fuel : Nat}
    (enough : back.length < fuel) :
    keyPositionLoop lru key fuel front.length =
      .ok (if key ∈ back.map Card.key then
          (front.length + (back.map Card.key).idxOf key : Int)
        else
          -1) := by
  induction fuel generalizing front back with
  | zero =>
      cases enough
  | succ fuel inductionHypothesis =>
      rw [keyPositionLoop, llGetPayload_card rest notEmpty, Checked.ok_bind]
      cases back with
      | nil =>
          have atEnd : recency[front.length]? = none := by
            simp [split]
          have notOk : llErrorIndexOutOfRange ≠ llOk := by decide
          simp [atEnd, notOk]
      | cons card back =>
          have isAt : recency[front.length]? = some card := by
            simp [split]
          have record := rest.ok.records card (by simp [split])
          simp only [isAt, record, Card.record, KeyPointer.read,
            Checked.ok_bind, if_true]
          by_cases isKey : key = card.key
          · simp [isKey]
          · have oneMore : recency = (front ++ [card]) ++ back := by
              simp [split]
            have continues :=
              inductionHypothesis oneMore (Nat.lt_of_succ_lt_succ enough)
            rw [List.length_append, List.length_singleton, Nat.cast_succ]
              at continues
            rw [if_neg isKey, continues, List.map_cons,
              List.idxOf_cons_ne _ (Ne.symm isKey)]
            simp only [List.mem_cons, isKey, false_or, Nat.cast_succ]
            congr 2
            omega

/-- The position of a key is its index among the cards. -/
theorem lruGetLlKeyPosition_eq
    (rest : lru.AtRest capacity map recency free)
    (notEmpty : recency ≠ [])
    (key : CString) :
    lruGetLlKeyPosition lru key =
      .ok (if key ∈ lru.keys then (lru.keys.idxOf key : Int) else -1) := by
  have isMagic : ¬ lru.magic ≠ lruMagicId := not_not.mpr rest.ok.magic
  have enough : recency.length < lru.ll.size + 1 := by
    have count := rest.count
    have size := rest.size
    omega
  have walks :=
    keyPositionLoop_eq rest notEmpty key (List.nil_append recency).symm enough
  rw [lruGetLlKeyPosition, if_neg isMagic, rest.keys]
  simpa using walks

end Walk

section Agreement

variable {lru : LruT}
  {capacity : Nat}
  {map : CString → Option (Option OpaqueObj)}
  {recency : List Card}
  {free : List Nat}
  {uses : List CString}

/-- As many keys were used after a key as stand before it. -/
theorem usedAfter_length
    {keys : List CString}
    {key : CString}
    (ordered : keys.Sublist (RecencyList.recent uses))
    (member : key ∈ keys) :
    (RecencyList.usedAfter uses keys key).length = keys.idxOf key := by
  obtain ⟨front, back, rfl⟩ := List.append_of_mem member
  have distinct := ordered.nodup (RecencyList.recent_nodup uses)
  rw [List.nodup_middle, List.nodup_cons, List.mem_append, not_or] at distinct
  rw [RecencyList.usedAfter_split ordered, List.idxOf_append,
    if_neg distinct.1.1, List.idxOf_cons_self, Nat.zero_add]

/-- In a cache with an entry a position agrees with the order of last use. -/
theorem positionAgrees_of_entry
    (rest : lru.AtRest capacity map recency free)
    (notEmpty : recency ≠ [])
    (ordered : lru.keys.Sublist (RecencyList.recent uses))
    (key : CString) :
    PositionAgrees lru uses key := by
  rw [PositionAgrees, lruGetLlKeyPosition_eq rest notEmpty]
  by_cases member : key ∈ lru.keys
  · rw [if_pos member, if_pos member, usedAfter_length ordered member]
  · rw [if_neg member, if_neg member]

/-- In a cache with an entry the data agree with the order of last use. -/
theorem dataAgrees_of_entry
    (rest : lru.AtRest capacity map recency free)
    (notEmpty : recency ≠ [])
    (ordered : lru.keys.Sublist (RecencyList.recent uses))
    (idx : Nat) :
    DataAgrees lru uses idx := by
  rw [DataAgrees, rest.ok.entries, List.length_map,
    lruGetLlData_card rest notEmpty]
  split
  next inside =>
    have isAt : recency[idx]? = some recency[idx] :=
      List.getElem?_eq_getElem inside
    have member : recency[idx] ∈ recency := List.getElem_mem inside
    have isIndex : lru.keys.idxOf recency[idx].key = idx := by
      have distinct := rest.keys_nodup
      rw [← rest.keys] at distinct
      have inKeys : idx < lru.keys.length := by
        rwa [rest.keys, List.length_map]
      have isKey : recency[idx].key = lru.keys[idx] := by
        simp [rest.keys]
      rw [isKey]
      exact distinct.idxOf_getElem idx inKeys
    refine ⟨recency[idx].record, recency[idx].key, recency[idx].payload,
      by rw [isAt], rfl, rfl, List.mem_map_of_mem member, ?_⟩
    rw [usedAfter_length ordered, isIndex]
    rw [rest.keys]
    exact List.mem_map_of_mem member
  next outside =>
    rw [List.getElem?_eq_none (Nat.le_of_not_lt outside)]

/-- In an empty cache both calls read through `NULL`. -/
theorem inspection_faults
    (rest : lru.AtRest capacity map [] free) :
    (∀ key, lruGetLlKeyPosition lru key = .error .nullDereference) ∧
      ∀ idx, lruGetLlData lru idx = .error .nullDereference := by
  have isMagic : ¬ lru.magic ≠ lruMagicId := not_not.mpr rest.ok.magic
  constructor
  · intro key
    rw [lruGetLlKeyPosition, if_neg isMagic, keyPositionLoop,
      llGetPayload_empty rest]
    rfl
  · intro idx
    rw [lruGetLlData, if_neg isMagic, llGetPayload_empty rest]
    rfl

/-- The inspection of a cache agrees exactly when it has an entry. -/
theorem inspection_agrees_iff
    {entries : List (CString × Nat)}
    (caches : Caches capacity lru entries)
    (ordered : lru.keys.Sublist (RecencyList.recent uses))
    (key : CString)
    (idx : Nat) :
    (PositionAgrees lru uses key ↔ lru.entries ≠ []) ∧
      (DataAgrees lru uses idx ↔ lru.entries ≠ []) := by
  obtain ⟨map, recency, free, rest, -⟩ := caches.exists_cards
  have sameEmpty : lru.entries ≠ [] ↔ recency ≠ [] := by
    rw [rest.ok.entries]
    exact not_congr List.map_eq_nil_iff
  rw [sameEmpty]
  by_cases isEmpty : recency = []
  · subst isEmpty
    obtain ⟨positionFaults, dataFaults⟩ := inspection_faults rest
    refine ⟨iff_of_false ?_ (not_not.mpr rfl),
      iff_of_false ?_ (not_not.mpr rfl)⟩
    · rw [PositionAgrees, positionFaults]
      exact fun same => nomatch same
    · rw [DataAgrees, dataFaults]
      split
      · rintro ⟨record, key, payload, same, -⟩
        cases same
      · exact fun same => nomatch same
  · exact
      ⟨iff_of_true (positionAgrees_of_entry rest isEmpty ordered key) isEmpty,
        iff_of_true (dataAgrees_of_entry rest isEmpty ordered idx) isEmpty⟩

end Agreement

section Uses

variable {lru : LruT}
  {capacity : Nat}
  {uses : List CString}

/-- A call leaves the keys in the order of last use. -/
theorem lruStep_ordered
    {entries : List (CString × Nat)}
    (positive : 0 < capacity)
    (caches : Caches capacity lru entries)
    (ordered : lru.keys.Sublist (RecencyList.recent uses))
    (call : LruCall × AddGrants) :
    ∃ next result,
      lruStep call.2 lru call.1 = .ok (next, result) ∧
        (∃ nextEntries, Caches capacity next nextEntries) ∧
        next.keys.Sublist
          (RecencyList.recent ((usedKey call.1 result).toList ++ uses)) := by
  have isEntries : lru.entries = entries := caches.1
  rw [LruT.keys, isEntries] at ordered
  obtain ⟨call, grants⟩ := call
  cases call with
  | check key =>
      cases found : entries.lookup key with
      | none =>
          refine ⟨lru, ⟨lruElementNotFound, none⟩, ?_, ⟨entries, caches⟩, ?_⟩
          · simp only [lruStep, caches.check_miss found, Checked.ok_bind]
          · rw [LruT.keys, isEntries]
            exact ordered
      | some payload =>
          obtain ⟨next, checks, nextCaches⟩ := caches.check_hit found
          refine ⟨next, ⟨lruOk, some payload⟩, ?_, ⟨_, nextCaches⟩, ?_⟩
          · simp only [lruStep, checks, Checked.ok_bind]
          · rw [LruT.keys, nextCaches.1, RecencyList.touch, found, List.map_cons,
              RecencyList.without_keys]
            exact RecencyList.sublist_recent_cons
              (List.filter_sublist.trans ordered) (by simp)
  | add key payload =>
      obtain ⟨map, recency, free, rest, rfl⟩ := caches.exists_cards
      rw [entry_keys] at ordered
      obtain ⟨next, code, slot, kept, keptFree, adds, isPart, outcome⟩ :=
        lruAdd_outcome rest positive key payload grants
      have keptOrdered := (isPart.map Card.key).trans ordered
      refine ⟨next, ⟨code, none⟩,
        by simp only [lruStep, adds, Checked.ok_bind], ?_⟩
      cases outcome with
      | added nextRest =>
          refine ⟨⟨_, nextRest.caches⟩, ?_⟩
          have distinct := nextRest.keys_nodup
          rw [List.map_cons, List.nodup_cons] at distinct
          rw [nextRest.keys]
          exact RecencyList.sublist_recent_cons keptOrdered distinct.1
      | refused isError nextRest =>
          refine ⟨⟨_, nextRest.caches⟩, ?_⟩
          have notOk : code ≠ lruOk := by
            rintro rfl
            exact ok_not_error isError
          rw [nextRest.keys, usedKey, if_neg notOk]
          exact keptOrdered
  | clear =>
      obtain ⟨next, clears, nextCaches⟩ := caches.clear
      refine ⟨next, ⟨lruOk, none⟩, ?_, ⟨_, nextCaches⟩, ?_⟩
      · simp only [lruStep, clears, Checked.ok_bind]
      · rw [LruT.keys, nextCaches.1]
        exact List.nil_sublist _

/-- A run leaves the keys in the order of last use. -/
theorem lruRun_ordered
    {entries : List (CString × Nat)}
    (positive : 0 < capacity)
    (caches : Caches capacity lru entries)
    (ordered : lru.keys.Sublist (RecencyList.recent uses))
    (calls : List (LruCall × AddGrants)) :
    ∃ final results,
      runCalls (fun lru call => lruStep call.2 lru call.1) lru calls =
          .ok (final, results) ∧
        (∃ finalEntries, Caches capacity final finalEntries) ∧
        final.keys.Sublist
          (RecencyList.recent (usedKeys calls results ++ uses)) := by
  induction calls generalizing lru entries uses with
  | nil =>
      exact ⟨lru, [], rfl, ⟨entries, caches⟩, ordered⟩
  | cons call calls inductionHypothesis =>
      obtain ⟨next, result, steps, ⟨nextEntries, nextCaches⟩, nextOrdered⟩ :=
        lruStep_ordered positive caches ordered call
      obtain ⟨final, results, runs, finalCaches, finalOrdered⟩ :=
        inductionHypothesis nextCaches nextOrdered
      refine ⟨final, result :: results, runCalls_cons steps runs,
        finalCaches, ?_⟩
      rwa [usedKeys, List.append_assoc]

end Uses

/--
After every run of calls, with any outcome of their allocations, the position of
a key and the data at an index agree with the order of last use exactly when the
cache is not empty.
-/
theorem lru_inspection_agrees_iff
    {dim : Int32}
    {hashFunction : CString → UInt64}
    {grants : LruGrants}
    {lru : LruT}
    (created : lruCreate dim hashFunction grants = .ok (some lru))
    (calls : List (LruCall × AddGrants)) :
    ∃ final results,
      runCalls (fun lru call => lruStep call.2 lru call.1) lru calls =
          .ok (final, results) ∧
        ∀ key idx,
          (PositionAgrees final (usedKeys calls results) key ↔
              final.entries ≠ []) ∧
            (DataAgrees final (usedKeys calls results) idx ↔
              final.entries ≠ []) := by
  obtain ⟨caches, positive⟩ := lruCreate_caches created
  have ordered : lru.keys.Sublist (RecencyList.recent []) := by
    rw [LruT.keys, caches.1]
    exact List.nil_sublist _
  obtain ⟨final, results, runs, ⟨entries, finalCaches⟩, finalOrdered⟩ :=
    lruRun_ordered positive caches ordered calls
  rw [List.append_nil] at finalOrdered
  exact ⟨final, results, runs, fun key idx =>
    inspection_agrees_iff finalCaches finalOrdered key idx⟩

/-- Of two keys, the one that was found last is at the top. -/
theorem lru_inspection_agrees_reused :
    ∃ lru final results,
      lruCreate 2 (fun _ => 7) .all = .ok (some lru) ∧
        runCalls (fun lru (call : LruCall × AddGrants) =>
              lruStep call.2 lru call.1) lru
            [(.add ⟨[97], by decide⟩ 1, .all),
              (.add ⟨[98], by decide⟩ 2, .all),
              (.check ⟨[97], by decide⟩, .all)] =
          .ok (final, results) ∧
        (PositionAgrees final [⟨[97], by decide⟩, ⟨[98], by decide⟩,
            ⟨[97], by decide⟩] ⟨[98], by decide⟩ ↔
          final.entries ≠ []) := by
  have creates :
      ∃ lru, lruCreate 2 (fun _ => 7) .all = .ok (some lru) := ⟨_, rfl⟩
  obtain ⟨lru, created⟩ := creates
  obtain ⟨final, results, runs, agrees⟩ :=
    lru_inspection_agrees_iff created
      [(.add ⟨[97], by decide⟩ 1, .all), (.add ⟨[98], by decide⟩ 2, .all),
        (.check ⟨[97], by decide⟩, .all)]
  refine ⟨lru, final, results, created, runs, ?_⟩
  cases created
  cases runs
  exact (agrees ⟨[98], by decide⟩ 0).1

/-- A new cache, and one that was cleared, is read through `NULL`. -/
theorem lru_inspection_faults_when_empty :
    ∃ lru used results,
      lruCreate 2 (fun _ => 7) .all = .ok (some lru) ∧
        runCalls (fun lru (call : LruCall × AddGrants) =>
              lruStep call.2 lru call.1) lru
            [(.add ⟨[97], by decide⟩ 1, .all), (.clear, .all)] =
          .ok (used, results) ∧
        lruGetLlKeyPosition lru ⟨[97], by decide⟩ =
          .error .nullDereference ∧
        lruGetLlData used 0 = .error .nullDereference ∧
        ¬ PositionAgrees lru [] ⟨[97], by decide⟩ ∧
        ¬ DataAgrees used [⟨[97], by decide⟩] 0 := by
  refine ⟨_, _, _, rfl, rfl, rfl, rfl, ?_, ?_⟩
  · intro agrees
    cases agrees
  · intro agrees
    cases agrees

end Clibs.Lru
