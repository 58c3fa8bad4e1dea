import Clibs.Foundation.Run
import Clibs.Ll.Invariant

namespace Clibs.Ll

/-!
# Runs of the recency list

The callers of the list hold slots: `fresh` ones that `ll_slot_new` gave out and
`removed` ones that `ll_remove_last` took from the list.  `placesStep` says what
each operation does to the places of the slots; every run of the list does the
same, and leaves two chains of links that are the list and its reverse.
-/

/-- Where the slots are. -/
structure Places where
  listed : List Nat
  free : List Nat
  fresh : List Nat
  removed : List Nat
  deriving Repr, DecidableEq

/-- A call on the list. -/
inductive LlCall where
  | slotNew
  | addToTop (slot : Nat)
  | moveToTop (slot : Nat)
  | removeLast
  | slotFree (slot : Nat)
  deriving Repr, DecidableEq

/-- What a call returns: a slot with its payload, or nothing. -/
inductive LlResult where
  | slot (taken : Option (Nat × Nat))
  | done
  deriving Repr, DecidableEq

/-- Make one call. -/
def llStep
    (ll : LlT) :
    LlCall → Checked (LlT × LlResult)
  | .slotNew =>
      .ok ((llSlotNew ll).1, .slot (llSlotNew ll).2)
  | .addToTop slot =>
      .ok (llSlotAddToTop ll slot, .done)
  | .moveToTop slot =>
      .ok (llSlotMoveToTop ll slot, .done)
  | .removeLast =>
      .ok ((llRemoveLast ll).1, .slot (llRemoveLast ll).2)
  | .slotFree slot =>
      .ok (llSlotFree ll slot, .done)

/-- All slots of a new list are free. -/
def Places.initial (dim : Nat) : Places where
  listed :=
    []
  free :=
    List.range dim
  fresh :=
    []
  removed :=
    []

/-- What a call does to the places of the slots. -/
def placesStep
    (places : Places) :
    LlCall → Checked (Places × LlResult)
  | .slotNew =>
      match places.free with
      | [] =>
          .ok (places, .slot none)
      | slot :: free =>
          .ok ({ places with free, fresh := slot :: places.fresh },
            .slot (some (slot, slot)))
  | .addToTop slot =>
      .ok ({ places with
        listed := slot :: places.listed
        fresh := places.fresh.erase slot }, .done)
  | .moveToTop slot =>
      if slot ∈ places.listed then
        .ok ({ places with listed := slot :: places.listed.erase slot }, .done)
      else
        .ok (places, .done)
  | .removeLast =>
      match places.listed.getLast? with
      | none =>
          .ok (places, .slot none)
      | some slot =>
          .ok ({ places with
            listed := places.listed.dropLast
            removed := slot :: places.removed }, .slot (some (slot, slot)))
  | .slotFree slot =>
      .ok ({ places with
        free := slot :: places.free
        fresh := places.fresh.erase slot
        removed := places.removed.erase slot }, .done)

/--
What callers may ask for: only slots of the pool are moved, only slots that
`ll_slot_new` gave out are added, and only slots in hands are freed.
-/
def Permitted
    (dim : Nat)
    (places : Places) : LlCall → Prop
  | .addToTop slot =>
      slot ∈ places.fresh
  | .moveToTop slot =>
      slot < dim
  | .slotFree slot =>
      slot ∈ places.fresh ∨ slot ∈ places.removed
  | _ =>
      True

instance
    (dim : Nat)
    (places : Places) :
    (call : LlCall) → Decidable (Permitted dim places call)
  | .slotNew =>
      isTrue trivial
  | .addToTop slot =>
      inferInstanceAs (Decidable (slot ∈ places.fresh))
  | .moveToTop slot =>
      inferInstanceAs (Decidable (slot < dim))
  | .removeLast =>
      isTrue trivial
  | .slotFree slot =>
      inferInstanceAs
        (Decidable (slot ∈ places.fresh ∨ slot ∈ places.removed))

/--
The links of the list: down from the top and up from the last slot they lead
through the same slots, each one once.
-/
structure LlT.LinkedAs
    (ll : LlT)
    (listed : List Nat) : Prop where
  down : Chained ll.prev ll.top listed
  up : Chained ll.next ll.last listed.reverse
  distinct : listed.Nodup

/-- The list is linked as the places say, and each status says the place. -/
structure LlT.WellFormed
    (ll : LlT)
    (dim : Nat)
    (places : Places) : Prop where
  linked : ll.LinkedAs places.listed
  top : ll.top = places.listed.head?
  last : ll.last = places.listed.getLast?
  topNull : ll.top = none ↔ places.listed = []
  lastNull : ll.last = none ↔ places.listed = []
  freed : Chained ll.next ll.freelist places.free
  partition :
    (places.listed ++ places.free ++ (places.fresh ++ places.removed)).Perm
      (List.range dim)
  listedStatus : ∀ slot < dim, ll.status slot = 0 ↔ slot ∈ places.listed
  freeStatus :
    ∀ slot < dim, ll.status slot = llSlotInFreelist ↔ slot ∈ places.free
  heldStatus :
    ∀ slot < dim,
      ll.status slot = llSlotDangling ↔
        slot ∈ places.fresh ∨ slot ∈ places.removed

/-- The list and its callers hold the slots as the places say. -/
structure LlT.Keeps
    (dim : Nat)
    (ll : LlT)
    (places : Places) : Prop where
  ok : ll.Ok places.listed places.free (places.fresh ++ places.removed)
  cleared : ∀ slot ∈ places.fresh, ll.Cleared slot
  size : ll.size = dim

section Keeps

variable {ll : LlT} {dim slot : Nat} {places : Places}

/-- The chains of a list that is well formed. -/
theorem LlT.Ok.linkedAs
    {listed free held : List Nat}
    (ok : ll.Ok listed free held) :
    ll.LinkedAs listed := by
  have distinct := ok.nodup
  rw [List.append_assoc, List.nodup_append] at distinct
  refine ⟨?_, ?_, distinct.1⟩
  · rw [ok.top]
    exact ok.linked.chained_prev
  · rw [ok.last]
    exact ok.linked.chained_next

/-- Every slot of the pool is in one of the places. -/
theorem LlT.Ok.cases
    {listed free held : List Nat}
    (ok : ll.Ok listed free held)
    (inPool : slot < ll.size) :
    slot ∈ listed ∨ slot ∈ free ∨ slot ∈ held := by
  have member : slot ∈ listed ++ free ++ held :=
    ok.partition.mem_iff.mpr (List.mem_range.mpr inPool)
  simpa [or_assoc] using member

/-- The slots in the places are as the list says. -/
theorem LlT.Keeps.wellFormed
    (keeps : ll.Keeps dim places) :
    ll.WellFormed dim places := by
  obtain ⟨ok, -, rfl⟩ := keeps
  have places_of_status :
      ∀ slot < ll.size,
        (ll.status slot = 0 ∧ slot ∈ places.listed) ∨
          (ll.status slot = llSlotInFreelist ∧ slot ∈ places.free) ∨
          (ll.status slot = llSlotDangling ∧
            slot ∈ places.fresh ++ places.removed) := by
    intro slot inPool
    rcases ok.cases inPool with isListed | isFree | isHeld
    · exact .inl ⟨ok.listedStatus slot isListed, isListed⟩
    · exact .inr (.inl ⟨ok.freeStatus slot isFree, isFree⟩)
    · exact .inr (.inr ⟨ok.heldStatus slot isHeld, isHeld⟩)
  exact {
    linked := ok.linkedAs
    top := ok.top
    last := ok.last
    topNull := by
      rw [ok.top, List.head?_eq_none_iff]
    lastNull := by
      rw [ok.last, List.getLast?_eq_none_iff]
    freed := ok.chained
    partition := ok.partition
    listedStatus := by
      intro slot inPool
      refine ⟨fun isZero => ?_, ok.listedStatus slot⟩
      rcases places_of_status slot inPool with
        ⟨-, isListed⟩ | ⟨other, -⟩ | ⟨other, -⟩
      · exact isListed
      · cases other.symm.trans isZero
      · cases other.symm.trans isZero
    freeStatus := by
      intro slot inPool
      refine ⟨fun isFree => ?_, ok.freeStatus slot⟩
      rcases places_of_status slot inPool with
        ⟨other, -⟩ | ⟨-, isFree⟩ | ⟨other, -⟩
      · cases other.symm.trans isFree
      · exact isFree
      · cases other.symm.trans isFree
    heldStatus := by
      intro slot inPool
      rw [← List.mem_append]
      refine ⟨fun isDangling => ?_, ok.heldStatus slot⟩
      rcases places_of_status slot inPool with
        ⟨other, -⟩ | ⟨other, -⟩ | ⟨-, isHeld⟩
      · cases other.symm.trans isDangling
      · cases other.symm.trans isDangling
      · exact isHeld }

/-- The call returns what the places say, and the places stay right. -/
def CallKeeps
    (ll : LlT)
    (dim : Nat)
    (places : Places)
    (call : LlCall) : Prop :=
  ∃ next result nextPlaces,
    llStep ll call = .ok (next, result) ∧
      placesStep places call = .ok (nextPlaces, result) ∧
      next.Keeps dim nextPlaces

/-- Slots that others hold keep their cleared links. -/
theorem LlT.Keeps.cleared_of_keepsLinks
    {next : LlT}
    {held : List Nat}
    (keeps : ll.Keeps dim places)
    (keepsLinks : ll.KeepsLinks next held)
    {fresh : List Nat}
    (isHeld : ∀ slot ∈ fresh, slot ∈ held)
    (wasFresh : ∀ slot ∈ fresh, slot ∈ places.fresh) :
    ∀ slot ∈ fresh, next.Cleared slot :=
  fun slot member =>
    keepsLinks.cleared (isHeld slot member)
      (keeps.cleared slot (wasFresh slot member))

/-- Taking a slot from the free list. -/
theorem slotNew_keeps
    (keeps : ll.Keeps dim places) :
    CallKeeps ll dim places .slotNew := by
  obtain ⟨listed, free, fresh, removed⟩ := places
  have ok := keeps.ok
  cases free with
  | nil =>
      refine ⟨ll, .slot none, ⟨listed, [], fresh, removed⟩, ?_, rfl, keeps⟩
      rw [llStep, llSlotNew_none ok]
  | cons slot free =>
      obtain ⟨next, takes, nextOk, isCleared, keepsLinks, sameSize⟩ :=
        llSlotNew_some ok
      refine ⟨next, .slot (some (slot, slot)),
        ⟨listed, free, slot :: fresh, removed⟩, ?_, rfl, nextOk, ?_,
        sameSize.trans keeps.size⟩
      · rw [llStep, takes]
      · rw [List.forall_mem_cons]
        exact ⟨isCleared,
          keeps.cleared_of_keepsLinks keepsLinks
            (fun _ member => List.mem_append_left _ member)
            fun _ member => member⟩

/-- Adding a slot that `ll_slot_new` gave out. -/
theorem addToTop_keeps
    (keeps : ll.Keeps dim places)
    (isFresh : slot ∈ places.fresh) :
    CallKeeps ll dim places (.addToTop slot) := by
  have split :
      (slot :: (places.fresh.erase slot ++ places.removed)).Perm
        (places.fresh ++ places.removed) :=
    (List.perm_cons_erase isFresh).symm.append_right places.removed
  obtain ⟨nextOk, keepsLinks, sameSize⟩ :=
    llSlotAddToTop_ok (keeps.ok.perm split) (keeps.cleared slot isFresh)
  refine ⟨llSlotAddToTop ll slot, .done,
    { places with
      listed := slot :: places.listed
      fresh := places.fresh.erase slot },
    rfl, rfl, nextOk, ?_, sameSize.trans keeps.size⟩
  exact keeps.cleared_of_keepsLinks keepsLinks
    (fun _ member => List.mem_append_left _ member)
    fun _ member => List.mem_of_mem_erase member

/-- Moving a slot of the pool that is not listed changes nothing. -/
theorem LlT.Keeps.move_unlisted
    (keeps : ll.Keeps dim places)
    (inPool : slot < dim)
    (notListed : slot ∉ places.listed) :
    llSlotMoveToTop ll slot = ll := by
  have ok := keeps.ok
  rw [← keeps.size] at inPool
  rcases ok.cases inPool with isListed | isFree | isHeld
  · exact (notListed isListed).elim
  · simp [llSlotMoveToTop, ok.freeStatus slot isFree]
  · exact llSlotMoveToTop_held ok isHeld

/-- Moving any slot of the pool. -/
theorem moveToTop_keeps
    (keeps : ll.Keeps dim places)
    (inPool : slot < dim) :
    CallKeeps ll dim places (.moveToTop slot) := by
  have ok := keeps.ok
  by_cases isListed : slot ∈ places.listed
  · obtain ⟨front, back, -, isSplit, erased⟩ :=
      List.exists_erase_eq isListed
    rw [isSplit] at ok
    obtain ⟨nextOk, keepsLinks, sameSize⟩ := llSlotMoveToTop_listed ok
    rw [← erased] at nextOk
    refine ⟨llSlotMoveToTop ll slot, .done,
      { places with listed := slot :: places.listed.erase slot }, rfl,
      if_pos isListed, nextOk, ?_, sameSize.trans keeps.size⟩
    exact keeps.cleared_of_keepsLinks keepsLinks
      (fun _ member => List.mem_append_left _ member) fun _ member => member
  · refine ⟨ll, .done, places, ?_, if_neg isListed, keeps⟩
    rw [llStep, keeps.move_unlisted inPool isListed]

/-- Removing the slot at the bottom of the list. -/
theorem removeLast_keeps
    (keeps : ll.Keeps dim places) :
    CallKeeps ll dim places .removeLast := by
  obtain ⟨listed, free, fresh, removed⟩ := places
  have ok := keeps.ok
  rcases List.eq_nil_or_concat' listed with rfl | ⟨front, slot, rfl⟩
  · refine ⟨ll, .slot none, ⟨[], free, fresh, removed⟩, ?_, rfl, keeps⟩
    rw [llStep, llRemoveLast_none ok]
  · obtain ⟨next, takes, nextOk, keepsLinks, sameSize⟩ :=
      llRemoveLast_some ok
    have inHands :
        (fresh ++ slot :: removed).Perm (slot :: (fresh ++ removed)) :=
      List.perm_middle
    refine ⟨next, .slot (some (slot, slot)),
      ⟨front, free, fresh, slot :: removed⟩, ?_, ?_, nextOk.perm inHands, ?_,
      sameSize.trans keeps.size⟩
    · rw [llStep, takes]
    · simp [placesStep]
    · exact keeps.cleared_of_keepsLinks keepsLinks
        (fun _ member => List.mem_append_left _ member) fun _ member => member

/-- Giving back a slot from the hands of a caller. -/
theorem slotFree_keeps
    (keeps : ll.Keeps dim places)
    (inHands : slot ∈ places.fresh ∨ slot ∈ places.removed) :
    CallKeeps ll dim places (.slotFree slot) := by
  have distinct := keeps.ok.nodup
  rw [List.nodup_append] at distinct
  have inHandsDistinct := distinct.2.1
  rw [List.nodup_append] at inHandsDistinct
  have apart : slot ∈ places.fresh → slot ∉ places.removed :=
    fun isFresh isRemoved =>
      inHandsDistinct.2.2 slot isFresh slot isRemoved rfl
  have split :
      (slot :: (places.fresh.erase slot ++ places.removed.erase slot)).Perm
        (places.fresh ++ places.removed) := by
    by_cases isFresh : slot ∈ places.fresh
    · rw [List.erase_of_not_mem (apart isFresh)]
      exact (List.perm_cons_erase isFresh).symm.append_right places.removed
    · rw [List.erase_of_not_mem isFresh]
      exact List.perm_middle.symm.trans
        ((List.perm_cons_erase (inHands.resolve_left isFresh)).symm.append_left
          places.fresh)
  obtain ⟨nextOk, keepsLinks, sameSize⟩ :=
    llSlotFree_ok (keeps.ok.perm split)
  refine ⟨llSlotFree ll slot, .done,
    { places with
      free := slot :: places.free
      fresh := places.fresh.erase slot
      removed := places.removed.erase slot },
    rfl, rfl, nextOk, ?_, sameSize.trans keeps.size⟩
  exact keeps.cleared_of_keepsLinks keepsLinks
    (fun _ member => List.mem_append_left _ member)
    fun _ member => List.mem_of_mem_erase member

/-- Every permitted call keeps the list. -/
theorem llStep_keeps
    (keeps : ll.Keeps dim places)
    {call : LlCall}
    (permitted : Permitted dim places call) :
    CallKeeps ll dim places call := by
  cases call with
  | slotNew =>
      exact slotNew_keeps keeps
  | addToTop slot =>
      exact addToTop_keeps keeps permitted
  | moveToTop slot =>
      exact moveToTop_keeps keeps permitted
  | removeLast =>
      exact removeLast_keeps keeps
  | slotFree slot =>
      exact slotFree_keeps keeps permitted

end Keeps

/-- The calls are permitted, each in the places that the ones before leave. -/
def AllPermitted
    (dim : Nat)
    (calls : List LlCall) : Prop :=
  AlwaysAllowed (StepOf placesStep) (Permitted dim) (Places.initial dim) calls

/-- A run of permitted calls does to the list what it does to the places. -/
theorem run_keeps
    {dim : Nat}
    {calls : List LlCall}
    (permitted : AllPermitted dim calls) :
    ∃ ll final places results,
      llCreate dim true = some ll ∧
        runCalls llStep ll calls = .ok (final, results) ∧
        runCalls placesStep (.initial dim) calls = .ok (places, results) ∧
        final.Keeps dim places := by
  obtain ⟨ll, isCreated⟩ : ∃ ll, llCreate dim true = some ll :=
    ⟨_, rfl⟩
  obtain ⟨ok, size⟩ := llCreate_ok isCreated
  have newKeeps : ll.Keeps dim (.initial dim) :=
    ⟨ok, fun _ member => (List.not_mem_nil member).elim, size⟩
  have stepRefines :
      ∀ {ll : LlT} {places : Places} {call : LlCall},
        ll.Keeps dim places →
        Permitted dim places call →
        ∃ next result nextPlaces,
          llStep ll call = .ok (next, result) ∧
            StepOf placesStep places call result nextPlaces ∧
            next.Keeps dim nextPlaces :=
    fun keeps isPermitted => llStep_keeps keeps isPermitted
  obtain ⟨final, results, places, runs, accepted, keeps⟩ :=
    runCalls_refines stepRefines newKeeps permitted
  exact ⟨ll, final, places, results, isCreated, runs, accepted.runCalls, keeps⟩

/--
Every run of permitted calls on a new list returns what it returns for the
places of the slots, and the list is well formed: both chains of links are the
listed slots, and list, free list and hands share out the slots as their
statuses say.  Moving a slot that is not listed leaves the list as it is.
-/
theorem recency_list_well_formed
    (dim : Nat)
    (calls : List LlCall)
    (permitted : AllPermitted dim calls) :
    ∃ ll final places results,
      llCreate dim true = some ll ∧
        runCalls llStep ll calls = .ok (final, results) ∧
        runCalls placesStep (.initial dim) calls = .ok (places, results) ∧
        final.WellFormed dim places ∧
        ∀ slot < dim,
          slot ∉ places.listed → llSlotMoveToTop final slot = final := by
  obtain ⟨ll, final, places, results, isCreated, runs, placesRun, keeps⟩ :=
    run_keeps permitted
  exact ⟨ll, final, places, results, isCreated, runs, placesRun,
    keeps.wellFormed, fun _ => keeps.move_unlisted⟩

/-- A run that fills a pool of three, moves slots and removes one. -/
theorem recency_list_well_formed_three :
    ∃ ll final places results,
      llCreate 3 true = some ll ∧
        runCalls llStep ll
            [.slotNew, .addToTop 0, .slotNew, .addToTop 1, .moveToTop 0,
              .moveToTop 2, .removeLast, .slotFree 1] =
          .ok (final, results) ∧
        runCalls placesStep (.initial 3)
            [.slotNew, .addToTop 0, .slotNew, .addToTop 1, .moveToTop 0,
              .moveToTop 2, .removeLast, .slotFree 1] =
          .ok (places, results) ∧
        final.WellFormed 3 places ∧
        ∀ slot < 3,
          slot ∉ places.listed → llSlotMoveToTop final slot = final := by
  apply recency_list_well_formed
  apply AlwaysAllowed.step rfl (by decide)
  apply AlwaysAllowed.step rfl (by decide)
  apply AlwaysAllowed.step rfl (by decide)
  apply AlwaysAllowed.step rfl (by decide)
  apply AlwaysAllowed.step rfl (by decide)
  apply AlwaysAllowed.step rfl (by decide)
  apply AlwaysAllowed.step rfl (by decide)
  apply AlwaysAllowed.step rfl (by decide)
  trivial

end Clibs.Ll
