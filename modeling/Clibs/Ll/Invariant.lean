import Clibs.Foundation.DoublyLinked
import Clibs.Ll.List
import Mathlib.Data.List.Nodup
import Mathlib.Data.List.Range
import Mathlib.Tactic.Common

namespace Clibs.Ll

/-!
# The recency list is well formed

`LlT.Ok ll listed free held` says that every slot is in exactly one of three
places: the list, whose slots from the top down are `listed`; the free list; or
the hands of a caller.  Its status says in which.  One lemma for each operation
gives the new places of the slots; no operation touches the links of a slot in
another caller's hands.
-/

/-- The links of a slot are `NULL`, as `ll_slot_new` leaves them. -/
def LlT.Cleared
    (ll : LlT)
    (slot : Nat) : Prop :=
  ll.next slot = none ∧ ll.prev slot = none

/-- Where each slot is, and that the links and the statuses say so. -/
structure LlT.Ok
    (ll : LlT)
    (listed free held : List Nat) : Prop where
  partition : (listed ++ free ++ held).Perm (List.range ll.size)
  top : ll.top = listed.head?
  last : ll.last = listed.getLast?
  linked : DoublyLinked ll.next ll.prev none listed none
  chained : Chained ll.next ll.freelist free
  listedStatus : ∀ slot ∈ listed, ll.status slot = 0
  freeStatus : ∀ slot ∈ free, ll.status slot = llSlotInFreelist
  heldStatus : ∀ slot ∈ held, ll.status slot = llSlotDangling
  payloads : ∀ slot, ll.payload slot = slot

/-- The slots in other hands keep their links. -/
def LlT.KeepsLinks
    (ll next : LlT)
    (held : List Nat) : Prop :=
  ∀ slot ∈ held,
    next.next slot = ll.next slot ∧ next.prev slot = ll.prev slot

section Places

variable {ll : LlT}
  {listed free held : List Nat}
  {slot : Nat}

/-- No slot is in two places. -/
theorem LlT.Ok.nodup
    (ok : ll.Ok listed free held) :
    (listed ++ free ++ held).Nodup :=
  ok.partition.nodup_iff.mpr List.nodup_range

/-- A listed slot is neither free nor held. -/
theorem LlT.Ok.listed_apart
    (ok : ll.Ok listed free held)
    (isListed : slot ∈ listed) :
    slot ∉ free ∧ slot ∉ held := by
  have distinct := ok.nodup
  rw [List.append_assoc, List.nodup_append] at distinct
  have apart := distinct.2.2 slot isListed
  exact ⟨fun member => apart slot (List.mem_append_left _ member) rfl,
    fun member => apart slot (List.mem_append_right _ member) rfl⟩

/-- A free slot is neither listed nor held. -/
theorem LlT.Ok.free_apart
    (ok : ll.Ok listed free held)
    (isFree : slot ∈ free) :
    slot ∉ listed ∧ slot ∉ held := by
  have distinct := ok.nodup
  rw [List.nodup_append] at distinct
  refine ⟨fun member => (ok.listed_apart member).1 isFree, fun member => ?_⟩
  exact distinct.2.2 slot (List.mem_append_right _ isFree) slot member rfl

/-- A held slot is neither listed nor free. -/
theorem LlT.Ok.held_apart
    (ok : ll.Ok listed free held)
    (isHeld : slot ∈ held) :
    slot ∉ listed ∧ slot ∉ free :=
  ⟨fun member => (ok.listed_apart member).2 isHeld,
    fun member => (ok.free_apart member).2 isHeld⟩

/-- A held slot is held once. -/
theorem LlT.Ok.held_once
    (ok : ll.Ok listed free (slot :: held)) :
    slot ∉ held := by
  have distinct := ok.nodup
  rw [List.nodup_append, List.nodup_cons] at distinct
  exact distinct.2.1.1

/-- A free slot is free once. -/
theorem LlT.Ok.free_once
    (ok : ll.Ok listed (slot :: free) held) :
    slot ∉ free := by
  have distinct := ok.nodup
  rw [List.nodup_append, List.nodup_append, List.nodup_cons] at distinct
  exact distinct.1.2.1.1

/-- A listed slot is listed once. -/
theorem LlT.Ok.listed_once
    {front back : List Nat}
    (ok : ll.Ok (front ++ slot :: back) free held) :
    slot ∉ front ++ back := by
  have distinct := ok.nodup
  rw [List.append_assoc, List.nodup_append] at distinct
  have moved : (front ++ slot :: back).Perm (slot :: (front ++ back)) :=
    List.perm_middle
  exact (List.nodup_cons.mp (moved.nodup_iff.mp distinct.1)).1

/-- The order of the slots in hands does not matter. -/
theorem LlT.Ok.perm
    (ok : ll.Ok listed free held)
    {others : List Nat}
    (same : others.Perm held) :
    ll.Ok listed free others where
  partition := (same.append_left _).trans ok.partition
  top := ok.top
  last := ok.last
  linked := ok.linked
  chained := ok.chained
  listedStatus := ok.listedStatus
  freeStatus := ok.freeStatus
  heldStatus slot member := ok.heldStatus slot (same.mem_iff.mp member)
  payloads := ok.payloads

/-- There are as many slots as the list was created with. -/
theorem LlT.Ok.count
    (ok : ll.Ok listed free held) :
    listed.length + free.length + held.length = ll.size := by
  have sameLength := ok.partition.length_eq
  rwa [List.length_append, List.length_append, List.length_range]
    at sameLength

end Places

/-- Slots that had their links cleared keep them so. -/
theorem LlT.KeepsLinks.cleared
    {ll next : LlT}
    {held : List Nat}
    {slot : Nat}
    (keeps : ll.KeepsLinks next held)
    (member : slot ∈ held)
    (cleared : ll.Cleared slot) :
    next.Cleared slot := by
  obtain ⟨sameNext, samePrev⟩ := keeps slot member
  exact ⟨sameNext.trans cleared.1, samePrev.trans cleared.2⟩

/-- Assigning to the status of one slot leaves those of the others. -/
theorem status_update
    {status : Nat → Nat}
    {slots : List Nat}
    {value slot : Nat}
    (holds : ∀ other ∈ slots, status other = value)
    (outside : slot ∉ slots)
    (assigned : Nat) :
    ∀ other ∈ slots, Function.update status slot assigned other = value := by
  intro other member
  rw [Function.update_of_ne (ne_of_mem_of_not_mem member outside)]
  exact holds other member

/-- The assigned status, and those of the others. -/
theorem status_update_cons
    {status : Nat → Nat}
    {slots : List Nat}
    {value slot : Nat}
    (holds : ∀ other ∈ slots, status other = value)
    (outside : slot ∉ slots) :
    ∀ other ∈ slot :: slots,
      Function.update status slot value other = value := by
  rw [List.forall_mem_cons]
  exact ⟨Function.update_self .., status_update holds outside value⟩

/-- The free list of a new list. -/
theorem chained_range
    (dim start : Nat)
    (within : start ≤ dim) :
    Chained (fun slot => if slot + 1 < dim then some (slot + 1) else none)
      (if start < dim then some start else none)
      (List.range' start (dim - start)) := by
  induction isLeft : dim - start generalizing start with
  | zero =>
      have isEnd : ¬ start < dim := by omega
      simp [Chained, isEnd]
  | succ left inductionHypothesis =>
      have isInside : start < dim := by omega
      rw [List.range'_succ, if_pos isInside]
      exact ⟨rfl, inductionHypothesis (start + 1) isInside (by omega)⟩

/-- In a new list all slots are free. -/
theorem llCreate_ok
    {dim : Nat}
    {granted : Bool}
    {ll : LlT}
    (created : llCreate dim granted = some ll) :
    ll.Ok [] (List.range dim) [] ∧ ll.size = dim := by
  unfold llCreate at created
  split at created
  next =>
    cases created
    refine ⟨?_, rfl⟩
    exact {
      partition := by simp
      top := rfl
      last := rfl
      linked := trivial
      chained := by
        rw [List.range_eq_range']
        exact chained_range dim 0 (Nat.zero_le dim)
      listedStatus := fun _ member => (List.not_mem_nil member).elim
      freeStatus := fun _ _ => rfl
      heldStatus := fun _ member => (List.not_mem_nil member).elim
      payloads := fun _ => rfl }
  next =>
    cases created

section Operations

variable {ll : LlT}
  {listed free held : List Nat}
  {slot : Nat}

/-- Without a free slot there is none to take. -/
theorem llSlotNew_none
    (ok : ll.Ok listed [] held) :
    llSlotNew ll = (ll, none) := by
  have isEmpty : ll.freelist = none := ok.chained
  simp [llSlotNew, isEmpty]

/-- The first free slot is taken. -/
theorem llSlotNew_some
    (ok : ll.Ok listed (slot :: free) held) :
    ∃ next,
      llSlotNew ll = (next, some (slot, slot)) ∧
        next.Ok listed free (slot :: held) ∧
        next.Cleared slot ∧
        ll.KeepsLinks next held ∧
        next.size = ll.size := by
  obtain ⟨isFirst, chainedRest⟩ := ok.chained
  obtain ⟨notListed, notHeld⟩ := ok.free_apart (List.mem_cons_self ..)
  have notRest := ok.free_once
  have takes :
      llSlotNew ll =
        ({ ll with
            freelist := ll.next slot
            prev := Function.update ll.prev slot none
            next := Function.update ll.next slot none
            status := Function.update ll.status slot llSlotDangling },
          some (slot, slot)) := by
    simp [llSlotNew, isFirst, ok.payloads slot]
  have freeStatus := ok.freeStatus
  rw [List.forall_mem_cons] at freeStatus
  refine ⟨_, takes, ?_, ⟨Function.update_self .., Function.update_self ..⟩,
    ?_, rfl⟩
  · exact {
      partition := by
        apply List.Perm.trans _ ok.partition
        simp only [List.append_assoc, List.cons_append]
        exact List.perm_middle.append_left listed
      top := ok.top
      last := ok.last
      linked :=
        (ok.linked.update_next notListed none).update_prev notListed none
      chained := chainedRest.update notRest none
      listedStatus := status_update ok.listedStatus notListed _
      freeStatus := status_update freeStatus.2 notRest _
      heldStatus := status_update_cons ok.heldStatus notHeld
      payloads := ok.payloads }
  · intro other member
    have different := ne_of_mem_of_not_mem member notHeld
    exact ⟨Function.update_of_ne different .., Function.update_of_ne different ..⟩

/-- A slot given back is the first free one. -/
theorem llSlotFree_ok
    (ok : ll.Ok listed free (slot :: held)) :
    (llSlotFree ll slot).Ok listed (slot :: free) held ∧
      ll.KeepsLinks (llSlotFree ll slot) held ∧
      (llSlotFree ll slot).size = ll.size := by
  obtain ⟨notListed, notFree⟩ := ok.held_apart (List.mem_cons_self ..)
  have notHeld := ok.held_once
  have heldStatus := ok.heldStatus
  rw [List.forall_mem_cons] at heldStatus
  refine ⟨?_, ?_, rfl⟩
  · exact {
      partition := by
        apply List.Perm.trans _ ok.partition
        simp only [List.append_assoc, List.cons_append]
        exact List.perm_middle.symm.append_left listed
      top := ok.top
      last := ok.last
      linked := ok.linked.update_next notListed _
      chained := by
        refine ⟨rfl, ?_⟩
        have kept := ok.chained.update notFree ll.freelist
        simpa [llSlotFree] using kept
      listedStatus := status_update ok.listedStatus notListed _
      freeStatus := status_update_cons ok.freeStatus notFree
      heldStatus := status_update heldStatus.2 notHeld _
      payloads := ok.payloads }
  · intro other member
    exact ⟨Function.update_of_ne (ne_of_mem_of_not_mem member notHeld) .., rfl⟩

/-- Without a listed slot there is none to remove. -/
theorem llRemoveLast_none
    (ok : ll.Ok [] free held) :
    llRemoveLast ll = (ll, none) := by
  have isEmpty : ll.last = none := ok.last
  simp [llRemoveLast, isEmpty]

/-- The slot at the bottom of the list is removed. -/
theorem llRemoveLast_some
    (ok : ll.Ok (listed ++ [slot]) free held) :
    ∃ next,
      llRemoveLast ll = (next, some (slot, slot)) ∧
        next.Ok listed free (slot :: held) ∧
        ll.KeepsLinks next held ∧
        next.size = ll.size := by
  obtain ⟨linkedFront, isAbove, -⟩ := DoublyLinked.concat.mp ok.linked
  rw [Option.or_none] at isAbove
  have isListed : slot ∈ listed ++ [slot] := by simp
  obtain ⟨notFree, notHeld⟩ := ok.listed_apart isListed
  have notListed : slot ∉ listed := by
    simpa using ok.listed_once
  have isLast : ll.last = some slot := by
    rw [ok.last]
    simp
  have isTop : listed ≠ [] → ll.top = listed.head? := by
    intro notEmpty
    rw [ok.top, List.head?_append_of_ne_nil _ notEmpty]
  have partition : (listed ++ free ++ slot :: held).Perm (List.range ll.size) := by
    apply List.Perm.trans _ ok.partition
    simp only [List.append_assoc, List.singleton_append]
    exact (List.perm_middle).append_left listed
  have listedStatus : ∀ other ∈ listed, ll.status other = 0 :=
    fun other member => ok.listedStatus other (List.mem_append_left _ member)
  rcases List.eq_nil_or_concat' listed with rfl | ⟨front, bottom, rfl⟩
  · have removes :
        llRemoveLast ll =
          ({ ll with
              last := none
              top := none
              status := Function.update ll.status slot llSlotDangling },
            some (slot, slot)) := by
      simp [llRemoveLast, isLast, isAbove, ok.payloads slot]
    refine ⟨_, removes, ?_, fun _ _ => ⟨rfl, rfl⟩, rfl⟩
    exact {
      partition := partition
      top := rfl
      last := rfl
      linked := trivial
      chained := ok.chained
      listedStatus := fun _ member => (List.not_mem_nil member).elim
      freeStatus := status_update ok.freeStatus notFree _
      heldStatus := status_update_cons ok.heldStatus notHeld
      payloads := ok.payloads }
  · have isNewlast : ll.next slot = some bottom := by
      rw [isAbove]
      simp
    have removes :
        llRemoveLast ll =
          ({ ll with
              last := some bottom
              prev := Function.update ll.prev bottom none
              status := Function.update ll.status slot llSlotDangling },
            some (slot, slot)) := by
      simp [llRemoveLast, isLast, isNewlast, ok.payloads slot]
    have bottomListed : bottom ∈ front ++ [bottom] ++ [slot] := by simp
    have bottomApart := ok.listed_apart bottomListed
    have bottomOnce : bottom ∉ front := by
      rw [List.append_assoc] at ok
      exact fun member => ok.listed_once (List.mem_append_left _ member)
    refine ⟨_, removes, ?_, ?_, rfl⟩
    · exact {
        partition := partition
        top := isTop (by simp)
        last := by simp
        linked := linkedFront.update_last bottomOnce none
        chained := ok.chained
        listedStatus := status_update listedStatus notListed _
        freeStatus := status_update ok.freeStatus notFree _
        heldStatus := status_update_cons ok.heldStatus notHeld
        payloads := ok.payloads }
    · intro other member
      exact ⟨rfl, Function.update_of_ne
        (ne_of_mem_of_not_mem member bottomApart.2) ..⟩

/-- The slot is linked above the others; all else is as it was. -/
structure LlT.Pushed
    (ll next : LlT)
    (listed : List Nat)
    (slot : Nat) : Prop where
  linked : DoublyLinked next.next next.prev none (slot :: listed) none
  top : next.top = some slot
  last : next.last = ll.last
  freelist : next.freelist = ll.freelist
  payload : next.payload = ll.payload
  status : next.status = ll.status
  size : next.size = ll.size
  otherLinks :
    ∀ other,
      other ∉ slot :: listed →
      next.next other = ll.next other ∧ next.prev other = ll.prev other

/-- A slot without links is linked above the top of a list. -/
theorem linkAbove_pushed
    {oldtop : Option Nat}
    (isTop : oldtop = listed.head?)
    (linked : DoublyLinked ll.next ll.prev none listed none)
    (distinct : (slot :: listed).Nodup)
    (noAbove : ll.next slot = none)
    (noBelow : listed = [] → ll.prev slot = none) :
    ll.Pushed (linkAbove ll oldtop slot) listed slot := by
  subst isTop
  rw [List.nodup_cons] at distinct
  cases listed with
  | nil =>
      exact {
        linked := ⟨noAbove, noBelow rfl, trivial⟩
        top := rfl
        last := rfl
        freelist := rfl
        payload := rfl
        status := rfl
        size := rfl
        otherLinks := fun _ _ => ⟨rfl, rfl⟩ }
  | cons first rest =>
      obtain ⟨outside, restDistinct⟩ := distinct
      rw [List.nodup_cons] at restDistinct
      exact {
        linked := linked.push restDistinct.1 outside noAbove
        top := rfl
        last := rfl
        freelist := rfl
        payload := rfl
        status := rfl
        size := rfl
        otherLinks := by
          intro other isOther
          simp only [List.mem_cons, not_or] at isOther
          exact ⟨Function.update_of_ne isOther.2.1 ..,
            Function.update_of_ne isOther.1 ..⟩ }

/-- The last slot stays the last one, unless there is none. -/
theorem linkLast_eq
    (ll : LlT)
    (slot : Nat) :
    linkLast ll slot =
      { ll with
        last := ll.last.or (some slot) } := by
  unfold linkLast
  split
  next last isLast =>
    rw [isLast, Option.some_or, ← isLast]
  next isLast =>
    rw [isLast, Option.none_or]

/-- A dangling slot without links is added at the top of the list. -/
theorem llSlotAddToTop_ok
    (ok : ll.Ok listed free (slot :: held))
    (cleared : ll.Cleared slot) :
    (llSlotAddToTop ll slot).Ok (slot :: listed) free held ∧
      ll.KeepsLinks (llSlotAddToTop ll slot) held ∧
      (llSlotAddToTop ll slot).size = ll.size := by
  obtain ⟨notListed, notFree⟩ := ok.held_apart (List.mem_cons_self ..)
  have notHeld := ok.held_once
  have distinct := ok.nodup
  rw [List.append_assoc, List.nodup_append] at distinct
  have heldStatus := ok.heldStatus
  rw [List.forall_mem_cons] at heldStatus
  let marked :=
    { ll with
      status := Function.update ll.status slot 0 }
  have pushed : marked.Pushed (linkAbove marked ll.top slot) listed slot :=
    linkAbove_pushed ok.top ok.linked
      (List.nodup_cons.mpr ⟨notListed, distinct.1⟩) cleared.1
      fun _ => cleared.2
  have adds :
      llSlotAddToTop ll slot =
        { linkAbove marked ll.top slot with
          last := ll.last.or (some slot) } := by
    rw [llSlotAddToTop, if_neg (not_not.mpr heldStatus.1), linkLast_eq,
      pushed.last]
  rw [adds]
  refine ⟨?_, ?_, pushed.size⟩
  · exact {
      partition := by
        change (_ : List Nat).Perm (List.range (linkAbove marked ll.top slot).size)
        rw [pushed.size]
        apply List.Perm.trans _ ok.partition
        exact List.perm_middle.symm
      top := pushed.top
      last := by
        rw [ok.last, List.getLast?_cons]
        cases listed.getLast? with
        | none =>
            rfl
        | some last =>
            rfl
      linked := pushed.linked
      chained := by
        change Chained (linkAbove marked ll.top slot).next
          (linkAbove marked ll.top slot).freelist free
        rw [pushed.freelist]
        apply ok.chained.congr
        intro other isFree
        apply (pushed.otherLinks other _).1
        rw [List.mem_cons, not_or]
        exact ⟨ne_of_mem_of_not_mem isFree notFree,
          (ok.free_apart isFree).1⟩
      listedStatus := by
        change ∀ other ∈ slot :: listed,
          (linkAbove marked ll.top slot).status other = 0
        rw [pushed.status]
        exact status_update_cons ok.listedStatus notListed
      freeStatus := by
        change ∀ other ∈ free, (linkAbove marked ll.top slot).status other = _
        rw [pushed.status]
        exact status_update ok.freeStatus notFree 0
      heldStatus := by
        change ∀ other ∈ held, (linkAbove marked ll.top slot).status other = _
        rw [pushed.status]
        exact status_update heldStatus.2 notHeld 0
      payloads := by
        change ∀ other, (linkAbove marked ll.top slot).payload other = other
        rw [pushed.payload]
        exact ok.payloads }
  · intro other isHeld
    apply pushed.otherLinks other
    rw [List.mem_cons, not_or]
    exact ⟨ne_of_mem_of_not_mem isHeld notHeld,
      (ok.held_apart (List.mem_cons_of_mem _ isHeld)).1⟩

/-- The slot is taken out from between the others; all else is as it was. -/
structure LlT.Cut
    (ll next : LlT)
    (front back : List Nat)
    (slot : Nat) : Prop where
  linked : DoublyLinked next.next next.prev none (front ++ back) none
  noAbove : next.next slot = none
  last : next.last = (front ++ back).getLast?
  freelist : next.freelist = ll.freelist
  payload : next.payload = ll.payload
  status : next.status = ll.status
  size : next.size = ll.size
  otherLinks :
    ∀ other,
      other ∉ front ++ slot :: back →
      next.next other = ll.next other ∧ next.prev other = ll.prev other

/-- A slot that was taken out is linked above the top. -/
theorem linkAbove_cut
    {cut : LlT}
    {front back : List Nat}
    (ok : ll.Ok (front ++ slot :: back) free held)
    (isCut : ll.Cut cut front back slot)
    (notTop : front ≠ []) :
    (linkAbove cut ll.top slot).Ok (slot :: (front ++ back)) free held ∧
      ll.KeepsLinks (linkAbove cut ll.top slot) held ∧
      (linkAbove cut ll.top slot).size = ll.size := by
  have moved : (front ++ slot :: back).Perm (slot :: (front ++ back)) :=
    List.perm_middle
  have isTop : ll.top = (front ++ back).head? := by
    rw [ok.top, List.head?_append_of_ne_nil _ notTop,
      List.head?_append_of_ne_nil _ notTop]
  have distinct := ok.nodup
  rw [List.append_assoc, List.nodup_append] at distinct
  have pushed : cut.Pushed (linkAbove cut ll.top slot) (front ++ back) slot :=
    linkAbove_pushed isTop isCut.linked (moved.nodup_iff.mp distinct.1)
      isCut.noAbove fun isEmpty =>
        (notTop (List.append_eq_nil_iff.mp isEmpty).1).elim
  have otherLinks :
      ∀ other,
        other ∉ front ++ slot :: back →
        (linkAbove cut ll.top slot).next other = ll.next other ∧
          (linkAbove cut ll.top slot).prev other = ll.prev other := by
    intro other isOther
    obtain ⟨sameNext, samePrev⟩ := isCut.otherLinks other isOther
    rw [moved.mem_iff] at isOther
    obtain ⟨keptNext, keptPrev⟩ := pushed.otherLinks other isOther
    exact ⟨keptNext.trans sameNext, keptPrev.trans samePrev⟩
  have size := pushed.size.trans isCut.size
  have status := pushed.status.trans isCut.status
  refine ⟨?_, ?_, size⟩
  · exact {
      partition := by
        rw [size]
        exact ((moved.symm.append_right free).append_right held).trans
          ok.partition
      top := pushed.top
      last := by
        rw [pushed.last, isCut.last, List.getLast?_cons]
        cases isLast : (front ++ back).getLast? with
        | none =>
            rw [List.getLast?_eq_none_iff, List.append_eq_nil_iff] at isLast
            exact (notTop isLast.1).elim
        | some last =>
            rfl
      linked := pushed.linked
      chained := by
        rw [pushed.freelist, isCut.freelist]
        apply ok.chained.congr
        intro other isFree
        exact (otherLinks other (ok.free_apart isFree).1).1
      listedStatus := by
        intro other member
        rw [status]
        exact ok.listedStatus other (moved.mem_iff.mpr member)
      freeStatus := by
        rw [status]
        exact ok.freeStatus
      heldStatus := by
        rw [status]
        exact ok.heldStatus
      payloads := by
        rw [pushed.payload, isCut.payload]
        exact ok.payloads }
  · intro other isHeld
    exact otherLinks other (ok.held_apart isHeld).1

/-- The last slot is taken out. -/
theorem cut_last
    {front : List Nat}
    {above : Nat}
    (ok : ll.Ok (front ++ [above] ++ [slot]) free held) :
    ll.Cut
      { ll with
        prev := Function.update ll.prev above none
        last := some above
        next := Function.update ll.next slot none }
      (front ++ [above]) [] slot := by
  have notFront : slot ∉ front ++ [above] := by
    simpa using ok.listed_once
  have aboveOnce : above ∉ front := by
    rw [List.append_assoc] at ok
    exact fun member => ok.listed_once (List.mem_append_left _ member)
  obtain ⟨linkedFront, -, -⟩ := DoublyLinked.concat.mp ok.linked
  exact {
    linked := by
      rw [List.append_nil]
      exact (linkedFront.update_last aboveOnce none).update_next notFront none
    noAbove := Function.update_self ..
    last := by simp
    freelist := rfl
    payload := rfl
    status := rfl
    size := rfl
    otherLinks := by
      intro other isOther
      simp only [List.mem_append, List.mem_singleton, not_or] at isOther
      exact ⟨Function.update_of_ne isOther.2 ..,
        Function.update_of_ne isOther.1.2 ..⟩ }

/-- A slot between two others is taken out. -/
theorem cut_middle
    {front back : List Nat}
    {above below : Nat}
    (ok : ll.Ok (front ++ [above] ++ slot :: below :: back) free held) :
    ll.Cut
      { ll with
        next :=
          Function.update (Function.update ll.next below (some above)) slot
            none
        prev := Function.update ll.prev above (some below) }
      (front ++ [above]) (below :: back) slot := by
  have distinct := ok.nodup
  rw [List.append_assoc, List.nodup_append] at distinct
  exact {
    linked := (ok.linked.unlink distinct.1).update_next ok.listed_once none
    noAbove := Function.update_self ..
    last := by
      change ll.last = _
      rw [ok.last]
      simp
    freelist := rfl
    payload := rfl
    status := rfl
    size := rfl
    otherLinks := by
      intro other isOther
      simp only [List.mem_append, List.mem_cons, List.not_mem_nil, or_false,
        not_or] at isOther
      obtain ⟨⟨-, notAbove⟩, notSlot, notBelow, -⟩ := isOther
      refine ⟨?_, Function.update_of_ne notAbove ..⟩
      change Function.update (Function.update ll.next below _) slot _ other = _
      rw [Function.update_of_ne notSlot, Function.update_of_ne notBelow] }

/-- A listed slot is moved to the top, and the others keep their order. -/
theorem llSlotMoveToTop_listed
    {front back : List Nat}
    (ok : ll.Ok (front ++ slot :: back) free held) :
    (llSlotMoveToTop ll slot).Ok (slot :: (front ++ back)) free held ∧
      ll.KeepsLinks (llSlotMoveToTop ll slot) held ∧
      (llSlotMoveToTop ll slot).size = ll.size := by
  have isListed : ll.status slot = 0 := ok.listedStatus slot (by simp)
  have isMovable :
      ¬ (ll.status slot = llSlotInFreelist ∨
        ll.status slot = llSlotDangling) := by
    rw [isListed]
    decide
  rw [llSlotMoveToTop, if_neg isMovable]
  rcases List.eq_nil_or_concat' front with rfl | ⟨front, above, rfl⟩
  · have isTop : ll.top = some slot := ok.top
    rw [if_pos isTop]
    exact ⟨ok, fun _ _ => ⟨rfl, rfl⟩, rfl⟩
  · have notTop : ll.top ≠ some slot := by
      intro isTop
      have isHead : (front ++ [above]).head? = some slot := by
        rw [← List.head?_append_of_ne_nil _ (by simp), ← ok.top, isTop]
      exact ok.listed_once
        (List.mem_append_left _ (List.mem_of_head? isHead))
    obtain ⟨-, isAbove, isBelow, -⟩ := DoublyLinked.append.mp ok.linked
    rw [if_neg notTop]
    cases back with
    | nil =>
        have noneBelow : ll.prev slot = none := isBelow
        have someAbove : ll.next slot = some above := by simpa using isAbove
        simp only [noneBelow, someAbove]
        exact linkAbove_cut ok (cut_last ok) (by simp)
    | cons below back =>
        have someBelow : ll.prev slot = some below := isBelow
        have someAbove : ll.next slot = some above := by simpa using isAbove
        simp only [someBelow, someAbove]
        exact linkAbove_cut ok (cut_middle ok) (by simp)

/-- A slot in other hands is not moved. -/
theorem llSlotMoveToTop_held
    (ok : ll.Ok listed free held)
    (isHeld : slot ∈ held) :
    llSlotMoveToTop ll slot = ll := by
  simp [llSlotMoveToTop, ok.heldStatus slot isHeld]

end Operations

end Clibs.Ll
