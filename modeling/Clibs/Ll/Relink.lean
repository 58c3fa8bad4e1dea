import Clibs.Ll.Run

namespace Clibs.Ll

/-!
# Linking a removed slot again

`ll_slot_add_to_top` takes every slot that dangles.  `ll_slot_new` clears the
links of such a slot, `ll_remove_last` does not: the removed slot still points
up to the slot that was above it.  Added directly, it becomes a top whose `next`
is not `NULL`, except when it was the only slot listed.
-/

/--
`ll_remove_last` takes the slot from below the listed ones, the slot has the
status that `ll_slot_add_to_top` accepts, and adding it gives the list with the
slot on top.
-/
def LlT.Relinks
    (ll : LlT)
    (listed : List Nat)
    (slot : Nat) : Prop :=
  ∃ removed,
    llRemoveLast ll = (removed, some (slot, slot)) ∧
      removed.status slot = llSlotDangling ∧
      (llSlotAddToTop removed slot).LinkedAs (slot :: listed)

/-- After the calls, a slot that is removed can be linked again directly. -/
def RemovedSlotRelinks
    (dim : Nat)
    (calls : List LlCall) : Prop :=
  ∃ ll final places results,
    llCreate dim true = some ll ∧
      runCalls llStep ll calls = .ok (final, results) ∧
      runCalls placesStep (.initial dim) calls = .ok (places, results) ∧
      ∀ listed slot,
        places.listed = listed ++ [slot] → final.Relinks listed slot

/-- After the calls at most one slot is listed. -/
def ListsAtMostOne
    (dim : Nat)
    (calls : List LlCall) : Prop :=
  ∃ places results,
    runCalls placesStep (.initial dim) calls = .ok (places, results) ∧
      places.listed.length ≤ 1

section Links

variable {ll : LlT} {slot : Nat}

/-- Removing the last slot writes to no `next`. -/
theorem llRemoveLast_next
    (ll : LlT) :
    (llRemoveLast ll).1.next = ll.next := by
  unfold llRemoveLast
  split
  · rfl
  · dsimp only
    split <;> rfl

/-- Removing the only slot writes to no `prev`. -/
theorem llRemoveLast_prev
    (isLast : ll.last = some slot)
    (isOnly : ll.next slot = none) :
    (llRemoveLast ll).1.prev = ll.prev := by
  simp [llRemoveLast, isLast, isOnly]

/-- Adding a slot leaves its own `next`. -/
theorem llSlotAddToTop_next
    (notTop : ll.top ≠ some slot) :
    (llSlotAddToTop ll slot).next slot = ll.next slot := by
  unfold llSlotAddToTop
  split
  · rfl
  · rw [linkLast_eq]
    cases isTop : ll.top with
    | none =>
        rfl
    | some top =>
        have isOther : slot ≠ top := by
          rintro rfl
          exact notTop isTop
        exact Function.update_of_ne isOther ..

/-- Adding a slot puts it on top and writes to no other `prev`. -/
theorem llSlotAddToTop_links
    (dangles : ll.status slot = llSlotDangling) :
    (llSlotAddToTop ll slot).top = some slot ∧
      ∀ other,
        other ≠ slot →
        (llSlotAddToTop ll slot).prev other = ll.prev other := by
  rw [llSlotAddToTop, if_neg (not_not_intro dangles), linkLast_eq]
  cases isTop : ll.top with
  | none =>
      exact ⟨rfl, fun _ _ => rfl⟩
  | some top =>
      exact ⟨rfl, fun other isOther => Function.update_of_ne isOther ..⟩

/-- Adding a slot to a list that has a last slot leaves the last slot. -/
theorem llSlotAddToTop_last
    (dangles : ll.status slot = llSlotDangling)
    {last : Nat}
    (isLast : ll.last = some last) :
    (llSlotAddToTop ll slot).last = some last := by
  rw [llSlotAddToTop, if_neg (not_not_intro dangles), linkLast_eq]
  cases isTop : ll.top with
  | none =>
      simp [linkAbove, isLast]
  | some top =>
      simp [linkAbove, isLast]

/-- The loop of `ll_get_payload` walks down the chain. -/
theorem followPrev_chained
    {first : Option Nat}
    {nodes : List Nat}
    (chained : Chained ll.prev first nodes)
    (left : Nat) :
    followPrev ll left first = nodes[left]? := by
  induction nodes generalizing first left with
  | nil =>
      rw [chained]
      cases left <;> rfl
  | cons node rest inductionHypothesis =>
      obtain ⟨rfl, chainedRest⟩ := chained
      cases left with
      | zero =>
          rfl
      | succ left =>
          exact inductionHypothesis chainedRest left

end Links

section Relinks

variable {ll : LlT} {dim slot : Nat} {free held listed : List Nat}

/-- The only slot of a list has no links, so it can be linked again. -/
theorem relinks_only
    (ok : ll.Ok [slot] free held) :
    ll.Relinks [] slot := by
  have appended : ll.Ok ([] ++ [slot]) free held :=
    ok
  obtain ⟨removed, takes, removedOk, -, -⟩ := llRemoveLast_some appended
  obtain ⟨noneAbove, noneBelow, -⟩ := ok.linked
  have isRemoved : removed = (llRemoveLast ll).1 :=
    (congrArg Prod.fst takes).symm
  have cleared : removed.Cleared slot := by
    rw [isRemoved]
    refine ⟨?_, ?_⟩
    · rw [llRemoveLast_next]
      exact noneAbove
    · rw [llRemoveLast_prev ok.last noneAbove]
      exact noneBelow
  have relinked := llSlotAddToTop_ok removedOk cleared
  exact ⟨removed, takes, removedOk.heldStatus slot (List.mem_cons_self ..),
    relinked.1.linkedAs⟩

/-- A slot below another one keeps a link to it, and then the top has a link. -/
theorem not_relinks_of_above
    (ok : ll.Ok (listed ++ [slot]) free held)
    (notOnly : listed ≠ []) :
    ¬ ll.Relinks listed slot := by
  rintro ⟨removed, takes, -, linked⟩
  obtain ⟨-, isAbove, -⟩ := DoublyLinked.concat.mp ok.linked
  rw [Option.or_none] at isAbove
  obtain ⟨next, nextTakes, nextOk, -, -⟩ := llRemoveLast_some ok
  have isNext : next = removed :=
    congrArg Prod.fst (nextTakes.symm.trans takes)
  subst isNext
  have keptNext : next.next = ll.next := by
    rw [← llRemoveLast_next ll, nextTakes]
  have notListed : slot ∉ listed :=
    (nextOk.held_apart (List.mem_cons_self ..)).1
  have notTop : next.top ≠ some slot := by
    rw [nextOk.top]
    exact fun isTop => notListed (List.mem_of_head? isTop)
  have isEnd : (llSlotAddToTop next slot).next slot = none := by
    have chained := linked.up
    rw [List.reverse_cons] at chained
    exact chained.last_none
  rw [llSlotAddToTop_next notTop, keptNext, isAbove,
    List.getLast?_eq_none_iff] at isEnd
  exact notOnly isEnd

/-- `ll_get_payload` finds the slots of a list that is well formed. -/
theorem llGetPayload_listed
    (ok : ll.Ok (listed ++ [slot]) free held)
    (idx : Int) :
    llGetPayload ll idx =
      .ok (match (listed ++ [slot])[idx.toNat]? with
        | none =>
            (llErrorIndexOutOfRange, none)
        | some found =>
            (llOk, some found)) := by
  obtain ⟨-, -, noneBelow⟩ := DoublyLinked.concat.mp ok.linked
  have isLast : ll.last = some slot := by
    rw [ok.last, List.getLast?_concat]
  obtain ⟨top, isTop⟩ : ∃ top, (listed ++ [slot]).head? = some top := by
    cases listed <;> exact ⟨_, rfl⟩
  have noneAbove : ll.next top = none := by
    have chained := ok.linkedAs.up
    obtain ⟨rest, isSplit⟩ := List.head?_eq_some_iff.mp isTop
    rw [isSplit, List.reverse_cons] at chained
    exact chained.last_none
  have follows := followPrev_chained ok.linkedAs.down idx.toNat
  rw [ok.top, isTop] at follows
  simp only [llGetPayload, isLast, noneBelow, ok.top, isTop, noneAbove,
    follows, ok.payloads, ne_eq, not_true_eq_false, ↓reduceIte]
  cases (listed ++ [slot])[idx.toNat]? <;> rfl

/-- A removed slot that is linked again makes `ll_get_payload` give up. -/
theorem llGetPayload_relinked
    (ok : ll.Ok (listed ++ [slot]) free held)
    (notOnly : listed ≠ []) :
    ∃ removed,
      llRemoveLast ll = (removed, some (slot, slot)) ∧
        ∀ idx,
          llGetPayload (llSlotAddToTop removed slot) idx =
            .ok (llErrorTopSlotInconsistency, none) := by
  obtain ⟨removed, takes, removedOk, -, -⟩ := llRemoveLast_some ok
  refine ⟨removed, takes, ?_⟩
  intro idx
  obtain ⟨front, bottom, rfl⟩ :=
    (List.eq_nil_or_concat' listed).resolve_left notOnly
  obtain ⟨-, isAbove, -⟩ := DoublyLinked.concat.mp ok.linked
  obtain ⟨-, -, noneBelow⟩ := DoublyLinked.concat.mp removedOk.linked
  rw [Option.or_none, List.getLast?_concat] at isAbove
  have notListed : slot ∉ front ++ [bottom] :=
    (removedOk.held_apart (List.mem_cons_self ..)).1
  have dangles := removedOk.heldStatus slot (List.mem_cons_self ..)
  have isBottom : removed.last = some bottom := by
    rw [removedOk.last, List.getLast?_concat]
  have notTop : removed.top ≠ some slot := by
    rw [removedOk.top]
    exact fun isTop => notListed (List.mem_of_head? isTop)
  have bottomOther : bottom ≠ slot := by
    rintro rfl
    exact notListed (by simp)
  obtain ⟨isTop, otherPrev⟩ := llSlotAddToTop_links dangles
  have keptNext : removed.next = ll.next := by
    rw [← llRemoveLast_next ll, takes]
  have linkLeft : (llSlotAddToTop removed slot).next slot = some bottom := by
    rw [llSlotAddToTop_next notTop, keptNext, isAbove]
  simp [llGetPayload, llSlotAddToTop_last dangles isBottom,
    otherPrev bottom bottomOther, noneBelow, isTop, linkLeft]

/-- The slot at the bottom can be linked again exactly when it is the only one. -/
theorem relinks_iff
    (ok : ll.Ok (listed ++ [slot]) free held) :
    ll.Relinks listed slot ↔ listed = [] := by
  constructor
  · intro relinks
    by_contra notOnly
    exact not_relinks_of_above ok notOnly relinks
  · rintro rfl
    exact relinks_only ok

end Relinks

/--
After a run of permitted calls a removed slot can be linked again directly
exactly when at most one slot is listed.
-/
theorem removed_slot_relinks_iff
    (dim : Nat)
    (calls : List LlCall)
    (permitted : AllPermitted dim calls) :
    RemovedSlotRelinks dim calls ↔ ListsAtMostOne dim calls := by
  obtain ⟨ll, final, places, results, isCreated, runs, placesRun, keeps⟩ :=
    run_keeps permitted
  constructor
  · rintro ⟨otherLl, otherFinal, otherPlaces, otherResults, otherCreated,
      otherRuns, otherPlacesRun, relinks⟩
    cases isCreated.symm.trans otherCreated
    cases runs.symm.trans otherRuns
    cases placesRun.symm.trans otherPlacesRun
    refine ⟨places, results, placesRun, ?_⟩
    have ok := keeps.ok
    rcases List.eq_nil_or_concat' places.listed with
      isEmpty | ⟨listed, slot, isConcat⟩
    · rw [isEmpty]
      exact Nat.zero_le 1
    · have isOnly : listed = [] := by
        rw [isConcat] at ok
        exact (relinks_iff ok).mp (relinks listed slot isConcat)
      rw [isConcat, isOnly]
      exact Nat.le_refl 1
  · rintro ⟨otherPlaces, otherResults, otherPlacesRun, atMostOne⟩
    cases placesRun.symm.trans otherPlacesRun
    refine ⟨ll, final, places, results, isCreated, runs, placesRun, ?_⟩
    intro listed slot isConcat
    have ok := keeps.ok
    rw [isConcat] at ok atMostOne
    refine (relinks_iff ok).mpr ?_
    rw [List.length_append, List.length_singleton] at atMostOne
    exact List.eq_nil_of_length_eq_zero
      (Nat.le_zero.mp (Nat.le_of_succ_le_succ atMostOne))

/-- A list of one slot gives this slot out and takes it back. -/
theorem removed_slot_relinks_only :
    RemovedSlotRelinks 2 [.slotNew, .addToTop 0] := by
  refine (removed_slot_relinks_iff 2 [.slotNew, .addToTop 0] ?_).mpr ?_
  · apply AlwaysAllowed.step rfl (by decide)
    apply AlwaysAllowed.step rfl (by decide)
    trivial
  · exact ⟨⟨[0], [1], [], []⟩, _, rfl, Nat.le_refl 1⟩

/-- Of two listed slots the removed one becomes a top below the other slot. -/
theorem removed_slot_keeps_link :
    ¬ ∀ dim calls, AllPermitted dim calls → RemovedSlotRelinks dim calls := by
  intro relinksAlways
  have permitted :
      AllPermitted 2 [.slotNew, .addToTop 0, .slotNew, .addToTop 1] := by
    apply AlwaysAllowed.step rfl (by decide)
    apply AlwaysAllowed.step rfl (by decide)
    apply AlwaysAllowed.step rfl (by decide)
    apply AlwaysAllowed.step rfl (by decide)
    trivial
  obtain ⟨ll, final, places, results, isCreated, runs, placesRun, relinks⟩ :=
    relinksAlways _ _ permitted
  cases isCreated
  cases runs
  cases placesRun
  obtain ⟨removed, takes, -, linked⟩ := relinks [1] 0 rfl
  cases takes
  have isEnd := linked.up.2.2
  cases isEnd

end Clibs.Ll
