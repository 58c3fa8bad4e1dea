import Clibs.Ch.Refinement

namespace Clibs.Ch

/-!
# Every element is delivered once

Runs of any number of threads on a channel.  The elements that were linked are,
at every moment, those that a getter took, those that a clean discarded and
those in the queue, each of them once.
-/

open CellHeap

/-- The element a section linked. -/
def linkedOf : ChEvent → List Item
  | .linked item _ =>
      [item]
  | _ =>
      []

/-- The element a getter took. -/
def takenOf : ChEvent → List Item
  | .taken item _ =>
      [item]
  | _ =>
      []

/-- The elements a clean discarded. -/
def discardedOf : ChEvent → List Item
  | .cleaned items _ _ =>
      items
  | _ =>
      []

/-- The elements that left the queue in a section. -/
def goneOf (event : ChEvent) : List Item :=
  takenOf event ++ discardedOf event

section Conservation

variable {n : Nat} {settings : Settings}

/-- A section of a call neither loses nor duplicates an element. -/
theorem QueueStep.conserves
    {pending : Pending}
    {queue after : List Item}
    {event : ChEvent}
    (step : QueueStep settings pending queue event after) :
    (linkedOf event ++ queue).Perm (goneOf event ++ after) := by
  cases step with
  | @putLinks _ _ _ place _ _ _ =>
      cases place with
      | std =>
          exact List.perm_append_comm
      | top =>
          exact List.Perm.refl _
  | putSleeps _ _ _ =>
      exact List.Perm.refl _
  | putFull _ _ _ =>
      exact List.Perm.refl _
  | getSleeps _ =>
      exact List.Perm.refl _
  | getNodata _ =>
      exact List.Perm.refl _
  | getTakes =>
      exact List.Perm.refl _

/-- A step of the queue neither loses nor duplicates an element. -/
theorem FifoStep.conserves
    {state next : Fifo n}
    {label : Label n}
    {event : ChEvent}
    (step : FifoStep settings state label event next) :
    (linkedOf event ++ state.queue).Perm (goneOf event ++ next.queue) := by
  cases step with
  | put _ _ done =>
      exact done.conserves
  | get _ _ done =>
      exact done.conserves
  | resume _ done =>
      exact done.conserves
  | clean _ _ =>
      simp [linkedOf, goneOf, takenOf, discardedOf]
  | _ =>
      exact List.Perm.refl _

/-- Over a run, the linked elements are those that left and those queued. -/
theorem run_conserves
    {state final : Fifo n}
    {labels : List (Label n)}
    {events : List ChEvent}
    (run : SpecRun (FifoStep settings) state labels events final) :
    (events.flatMap linkedOf ++ state.queue).Perm
      (events.flatMap goneOf ++ final.queue) := by
  induction run with
  | nil state =>
      exact List.Perm.refl _
  | @cons initial middle final label event labels events step _ rest =>
      simp only [List.flatMap_cons]
      calc
        (linkedOf event ++ events.flatMap linkedOf ++ initial.queue).Perm
            (events.flatMap linkedOf ++ (linkedOf event ++ initial.queue)) := by
          rw [← List.append_assoc]
          exact List.perm_append_comm.append_right _
        List.Perm _ (events.flatMap linkedOf ++ (goneOf event ++ middle.queue)) :=
          step.conserves.append_left _
        List.Perm _ (goneOf event ++ (events.flatMap linkedOf ++ middle.queue)) := by
          rw [← List.append_assoc, ← List.append_assoc]
          exact List.perm_append_comm.append_right _
        List.Perm _ (goneOf event ++ (events.flatMap goneOf ++ final.queue)) :=
          rest.append_left _
        _ = goneOf event ++ events.flatMap goneOf ++ final.queue :=
          (List.append_assoc _ _ _).symm

end Conservation

/-- The addresses of the elements in the queue and of those that wait. -/
def Fifo.addresses
    {n : Nat}
    (state : Fifo n) : List Nat :=
  cellsOf state.queue ++ collect heldElement state.pending

/--
The addresses of the elements that left and of those still there are pairwise
distinct, and were all handed out.
-/
structure Distinct
    {n : Nat}
    (state : Fifo n)
    (gone : List Nat) : Prop where
  nodup : (gone ++ state.addresses).Nodup
  bounded : ∀ address ∈ gone ++ state.addresses, address < state.fresh

section Identity

variable {n : Nat} {settings : Settings}

/--
The elements of the queue and the caller's own are afterwards gone, dropped, or
still there.
-/
theorem QueueStep.addresses
    {pending : Pending}
    {queue after : List Item}
    {event : ChEvent}
    (step : QueueStep settings pending queue event after) :
    ∃ dropped : List Nat,
      (cellsOf (goneOf event) ++ dropped ++
          (cellsOf after ++
            (heldElement (pendingAfter pending event)).toList)).Perm
        ((heldElement (some pending)).toList ++ cellsOf queue) := by
  cases step with
  | putSleeps _ _ _ =>
      refine ⟨[], ?_⟩
      simp [goneOf, takenOf, discardedOf, pendingAfter, heldElement]
  | @putFull _ element _ _ _ _ _ =>
      refine ⟨[element], ?_⟩
      simp [goneOf, takenOf, discardedOf, pendingAfter, heldElement]
  | @putLinks _ _ _ place _ _ _ =>
      refine ⟨[], ?_⟩
      cases place with
      | std =>
          simp [goneOf, takenOf, discardedOf, pendingAfter, heldElement,
            Place.insert]
      | top =>
          simp [goneOf, takenOf, discardedOf, pendingAfter, heldElement,
            Place.insert]
  | getSleeps _ =>
      exact ⟨[], List.Perm.refl _⟩
  | getNodata _ =>
      exact ⟨[], List.Perm.refl _⟩
  | getTakes =>
      refine ⟨[], ?_⟩
      simp [goneOf, takenOf, discardedOf, pendingAfter, heldElement]

/-- The same for the whole state, the call of one thread replaced. -/
theorem addresses_after
    (state : Fifo n)
    (thread : Fin n)
    {pending : Pending}
    {after : List Item}
    {event : ChEvent}
    (step : QueueStep settings pending state.queue event after) :
    ∃ dropped : List Nat,
      (cellsOf (goneOf event) ++ dropped ++
          (state.after thread pending event after).addresses).Perm
        ((heldElement (some pending)).toList ++
          (state.remove thread).addresses) := by
  obtain ⟨dropped, moved⟩ := step.addresses
  refine ⟨dropped, ?_⟩
  have items :
      (collect heldElement
          (Function.update state.pending thread
            (pendingAfter pending event))).Perm
        ((heldElement (pendingAfter pending event)).toList ++
          collect heldElement (Function.update state.pending thread none)) :=
    collect_update rfl _ _ _
  simp only [Fifo.addresses, Fifo.after, Fifo.remove]
  calc
    List.Perm _
        (cellsOf (goneOf event) ++ dropped ++
          (cellsOf after ++
            ((heldElement (pendingAfter pending event)).toList ++
              collect heldElement
                (Function.update state.pending thread none)))) :=
      (items.append_left _).append_left _
    _ = cellsOf (goneOf event) ++ dropped ++
          (cellsOf after ++
            (heldElement (pendingAfter pending event)).toList) ++
          collect heldElement
            (Function.update state.pending thread none) := by
      simp
    List.Perm _
        ((heldElement (some pending)).toList ++ cellsOf state.queue ++
          collect heldElement
            (Function.update state.pending thread none)) :=
      moved.append_right _
    _ = _ :=
      List.append_assoc _ _ _

/--
A step of the queue takes at most one new address, and what was there before is
gone, dropped or still there.
-/
theorem FifoStep.addresses
    {state next : Fifo n}
    {label : Label n}
    {event : ChEvent}
    (step : FifoStep settings state label event next) :
    ∃ dropped added : List Nat,
      (cellsOf (goneOf event) ++ dropped ++ next.addresses).Perm
          (added ++ state.addresses) ∧
        (added = [] ∧ next.fresh = state.fresh ∨
          added = [state.fresh] ∧ next.fresh = state.fresh + 1) := by
  cases step with
  | @put thread block place choice _ queue notPending _ done =>
      have taken : (state.take.remove thread).addresses = state.addresses := by
        have takenIdle : state.take.pending thread = none :=
          notPending
        rw [Fifo.remove_of_idle takenIdle]
        rfl
      obtain ⟨dropped, moved⟩ :=
        addresses_after state.take thread done
      rw [taken] at moved
      exact ⟨dropped, [state.fresh], moved, .inr ⟨rfl, rfl⟩⟩
  | @get thread _ _ _ _ notPending _ done =>
      obtain ⟨dropped, moved⟩ :=
        addresses_after state thread done
      rw [Fifo.remove_of_idle notPending] at moved
      exact ⟨dropped, [], moved, .inl ⟨rfl, rfl⟩⟩
  | @resume thread pending _ _ _ isPending done =>
      obtain ⟨dropped, moved⟩ :=
        addresses_after state thread done
      have items :
          (collect heldElement state.pending).Perm
            ((heldElement (state.pending thread)).toList ++
              collect heldElement (state.remove thread).pending) :=
        collect_split rfl _ _
      rw [isPending] at items
      refine ⟨dropped, [], moved.trans ?_, .inl ⟨rfl, rfl⟩⟩
      refine List.Perm.trans ?_ (items.append_left (cellsOf state.queue)).symm
      simp only [Fifo.addresses, ← List.append_assoc]
      exact List.perm_append_comm.append_right _
  | clean _ _ =>
      refine ⟨[], [], ?_, .inl ⟨rfl, rfl⟩⟩
      simp [goneOf, takenOf, discardedOf, Fifo.addresses]
  | _ =>
      exact ⟨[], [], List.Perm.refl _, .inl ⟨rfl, rfl⟩⟩

/-- A step keeps all addresses distinct. -/
theorem Distinct.step
    {state next : Fifo n}
    {label : Label n}
    {event : ChEvent}
    {gone : List Nat}
    (distinct : Distinct state gone)
    (step : FifoStep settings state label event next) :
    Distinct next (gone ++ cellsOf (goneOf event)) := by
  obtain ⟨dropped, added, moved, isAdded⟩ := step.addresses
  have older : state.fresh ≤ next.fresh := by
    rcases isAdded with ⟨-, same⟩ | ⟨-, more⟩ <;> omega
  have addedBelow : ∀ address ∈ added, address < next.fresh := by
    rcases isAdded with ⟨rfl, -⟩ | ⟨rfl, more⟩
    · simp
    · simp [more]
  have addedFresh : (added ++ (gone ++ state.addresses)).Nodup := by
    rcases isAdded with ⟨rfl, -⟩ | ⟨rfl, -⟩
    · exact distinct.nodup
    · refine List.nodup_cons.mpr ⟨?_, distinct.nodup⟩
      intro member
      exact Nat.lt_irrefl _ (distinct.bounded _ member)
  have kept :
      (gone ++ cellsOf (goneOf event) ++ next.addresses).Sublist
        (gone ++ (cellsOf (goneOf event) ++ dropped ++ next.addresses)) := by
    rw [List.append_assoc, List.append_assoc]
    exact ((List.sublist_append_right _ _).append_left _).append_left _
  have whole :
      (gone ++ (cellsOf (goneOf event) ++ dropped ++ next.addresses)).Perm
        (added ++ (gone ++ state.addresses)) := by
    refine (moved.append_left gone).trans ?_
    rw [← List.append_assoc, ← List.append_assoc]
    exact List.perm_append_comm.append_right _
  refine ⟨(whole.nodup_iff.mpr addedFresh).sublist kept, ?_⟩
  intro address member
  rcases List.mem_append.mp (whole.subset (kept.subset member)) with
    isNew | isOld
  · exact addedBelow address isNew
  · exact (distinct.bounded address isOld).trans_le older

/-- A run keeps all addresses distinct. -/
theorem Distinct.run
    {state final : Fifo n}
    {labels : List (Label n)}
    {events : List ChEvent}
    {gone : List Nat}
    (distinct : Distinct state gone)
    (run : SpecRun (FifoStep settings) state labels events final) :
    Distinct final (gone ++ cellsOf (events.flatMap goneOf)) := by
  induction run generalizing gone with
  | nil state =>
      simpa using distinct
  | cons step rest inductionHypothesis =>
      have later := inductionHypothesis (distinct.step step)
      simpa [List.flatMap_cons] using later

end Identity

/-- The label makes no call but `ch_put`, `ch_put_head`, `ch_get`, `ch_clean`. -/
def Label.isQueueCall
    {n : Nat} : Label n → Bool
  | .call _ (.peek _) _ =>
      false
  | .call _ (.setattr _ _) _ =>
      false
  | _ =>
      true

/-- The thread's step is a put of the block. -/
inductive Label.Puts
    {n : Nat}
    (block : Block) : Label n → Prop where
  | put
      {thread : Fin n}
      {place : Place}
      {choice : Nat} :
      Label.Puts block (.call thread (.put block place) choice)

/-- A thread waits in a put of the block. -/
def Fifo.PutWaits
    {n : Nat}
    (state : Fifo n)
    (block : Block) : Prop :=
  ∃ thread element place,
    state.pending thread = some (.put element block place)

/--
What holds of a channel after a run: it is the linked list of its queue, within
its size, every element that was linked has the value of a block that was put and
was taken, discarded or is still queued, a getter is told of an end mark, a clean
hands over what its delete function is to free, and a call that is refused leaves
the channel as it was.
-/
structure Delivers
    {n : Nat}
    (settings : Settings)
    (labels : List (Label n))
    (system : System n)
    (events : List ChEvent)
    (queue : List Item) : Prop where
  holds : Holds settings system.ch queue
  headEmpty : system.ch.head = none ↔ queue = []
  tailEmpty : system.ch.tail = none ↔ queue = []
  capacity : settings.size ≠ 0 → system.ch.count ≤ settings.size
  conserved :
    (events.flatMap linkedOf).Perm
      (events.flatMap takenOf ++ events.flatMap discardedOf ++ queue)
  distinct : (cellsOf (events.flatMap linkedOf)).Nodup
  puts :
    ∀ item ∈ events.flatMap linkedOf,
      ∃ block,
        (∃ label ∈ labels, label.Puts block) ∧
          block.QueuedAs settings.datalen item.2
  codes :
    ∀ label item code,
      (label, ChEvent.taken item code) ∈ labels.zip events →
      code =
        if item.2 = .pointer chEndoftransmission then
          chGetEndoftransmission
        else
          chOk
  handed :
    ∀ label items deleted code,
      (label, ChEvent.cleaned items deleted code) ∈ labels.zip events →
      ∃ thread delFunc choice,
        label = .call thread (.clean delFunc) choice ∧
          code = chOk ∧
          (delFunc = true → settings.datalen = .voidp) ∧
          deleted = handedOver delFunc (items.map Prod.snd)
  refused :
    ∀ label next event,
      label.isQueueCall = true →
      systemStep system label = .ok (next, event) →
      event = .returned chPutChannelFull ∨ event = .returned chGetNodata →
      Holds settings next.ch queue ∧
        next.ch.head = system.ch.head ∧
        next.ch.tail = system.ch.tail ∧
        next.ch.count = system.ch.count

section Values

variable {n : Nat} {settings : Settings}

/-- A section links the value of the block of its own call. -/
theorem QueueStep.linked_queuedAs
    {pending : Pending}
    {queue after : List Item}
    {event : ChEvent}
    (step : QueueStep settings pending queue event after)
    {item : Item}
    (linked : item ∈ linkedOf event) :
    ∃ element block place,
      pending = .put element block place ∧
        block.QueuedAs settings.datalen item.2 := by
  cases step with
  | @putLinks _ element block place _ queues _ =>
      cases List.mem_singleton.mp linked
      exact ⟨element, block, place, rfl, queues⟩
  | _ =>
      cases linked

/-- A call that waits after its section is the call that made it. -/
theorem eq_of_pendingAfter
    {pending later : Pending}
    {event : ChEvent}
    (waits : pendingAfter pending event = some later) :
    pending = later := by
  cases event with
  | sleeps =>
      exact Option.some.inj waits
  | _ =>
      cases waits

/-- A put that waits after a section waited before, or made the section. -/
theorem Fifo.PutWaits.of_after
    {state : Fifo n}
    {thread : Fin n}
    {pending : Pending}
    {event : ChEvent}
    {queue : List Item}
    {block : Block}
    (waits : (state.after thread pending event queue).PutWaits block) :
    (∃ element place, pending = .put element block place) ∨
      state.PutWaits block := by
  obtain ⟨waiting, element, place, isPending⟩ := waits
  replace isPending :
      Function.update state.pending thread (pendingAfter pending event)
        waiting = some (.put element block place) :=
    isPending
  by_cases isOwn : waiting = thread
  · subst isOwn
    rw [Function.update_self] at isPending
    exact .inl ⟨element, place, eq_of_pendingAfter isPending⟩
  · rw [Function.update_of_ne isOwn] at isPending
    exact .inr ⟨waiting, element, place, isPending⟩

/-- A step links the value of a block that it puts, or whose put waited. -/
theorem FifoStep.linked_queuedAs
    {state next : Fifo n}
    {label : Label n}
    {event : ChEvent}
    (step : FifoStep settings state label event next)
    {item : Item}
    (linked : item ∈ linkedOf event) :
    ∃ block,
      (label.Puts block ∨ state.PutWaits block) ∧
        block.QueuedAs settings.datalen item.2 := by
  cases step with
  | put _ _ done =>
      obtain ⟨_, _, _, isPut, queues⟩ := done.linked_queuedAs linked
      cases isPut
      exact ⟨_, .inl .put, queues⟩
  | get _ _ done =>
      obtain ⟨_, _, _, isPut, _⟩ := done.linked_queuedAs linked
      cases isPut
  | @resume thread _ _ _ _ isPending done =>
      obtain ⟨element, block, place, rfl, queues⟩ := done.linked_queuedAs linked
      exact ⟨block, .inr ⟨thread, element, place, isPending⟩, queues⟩
  | _ =>
      cases linked

/-- A put that waits after a step waited before it, or was made by it. -/
theorem FifoStep.putWaits
    {state next : Fifo n}
    {label : Label n}
    {event : ChEvent}
    (step : FifoStep settings state label event next)
    {block : Block}
    (waits : next.PutWaits block) :
    label.Puts block ∨ state.PutWaits block := by
  cases step with
  | put _ _ _ =>
      rcases waits.of_after with ⟨_, _, isPut⟩ | before
      · cases isPut
        exact .inl .put
      · exact .inr before
  | get _ _ _ =>
      rcases waits.of_after with ⟨_, _, isPut⟩ | before
      · cases isPut
      · exact .inr before
  | @resume thread _ _ _ _ isPending _ =>
      rcases waits.of_after with ⟨element, place, rfl⟩ | before
      · exact .inr ⟨thread, element, place, isPending⟩
      · exact .inr before
  | _ =>
      exact .inr waits

/-- Over a run, what is linked was put, or waited to be put when it began. -/
theorem run_linked_queuedAs
    {state final : Fifo n}
    {labels : List (Label n)}
    {events : List ChEvent}
    (run : SpecRun (FifoStep settings) state labels events final)
    {item : Item}
    (linked : item ∈ events.flatMap linkedOf) :
    ∃ block,
      ((∃ label ∈ labels, label.Puts block) ∨ state.PutWaits block) ∧
        block.QueuedAs settings.datalen item.2 := by
  induction run with
  | nil state =>
      cases linked
  | @cons initial middle _ label event labels _ step _ inductionHypothesis =>
      rw [List.flatMap_cons, List.mem_append] at linked
      have fromStep :
          ∀ {block : Block},
            label.Puts block ∨ initial.PutWaits block →
            (∃ other ∈ label :: labels, other.Puts block) ∨
              initial.PutWaits block :=
        fun put => put.imp_left fun puts => ⟨label, List.mem_cons_self, puts⟩
      rcases linked with now | later
      · obtain ⟨block, put, queues⟩ := step.linked_queuedAs now
        exact ⟨block, fromStep put, queues⟩
      · obtain ⟨block, put, queues⟩ := inductionHypothesis later
        refine ⟨block, ?_, queues⟩
        rcases put with ⟨other, member, puts⟩ | waits
        · exact .inl ⟨other, List.mem_cons_of_mem _ member, puts⟩
        · exact fromStep (step.putWaits waits)

/-- A step that takes an element returns its code. -/
theorem FifoStep.takes_code
    {state next : Fifo n}
    {label : Label n}
    {item : Item}
    {code : Int}
    (step : FifoStep settings state label (.taken item code) next) :
    code = takenCode item.2 := by
  have ofSection :
      ∀ {pending : Pending} {queue after : List Item},
        QueueStep settings pending queue (.taken item code) after →
        code = takenCode item.2 := by
    intro pending queue after done
    cases done
    rfl
  cases step with
  | put _ _ done =>
      exact ofSection done
  | get _ _ done =>
      exact ofSection done
  | resume _ done =>
      exact ofSection done

/-- A step that cleans the channel is a clean, and hands over what it is to. -/
theorem FifoStep.cleans
    {state next : Fifo n}
    {label : Label n}
    {items : List Item}
    {deleted : List Nat}
    {code : Int}
    (step : FifoStep settings state label (.cleaned items deleted code) next) :
    ∃ thread delFunc choice,
      label = .call thread (.clean delFunc) choice ∧
        code = chOk ∧
        (delFunc = true → settings.datalen = .voidp) ∧
        deleted = handedOver delFunc (items.map Prod.snd) := by
  have noSection :
      ∀ {pending : Pending} {queue after : List Item},
        ¬QueueStep settings pending queue (.cleaned items deleted code)
          after := by
    intro pending queue after done
    cases done
  cases step with
  | put _ _ done =>
      exact (noSection done).elim
  | get _ _ done =>
      exact (noSection done).elim
  | resume _ done =>
      exact (noSection done).elim
  | @clean thread delFunc choice _ permitted =>
      exact ⟨thread, delFunc, choice, rfl, rfl, permitted, rfl⟩

end Values

section Delivery

variable {n : Nat} {settings : Settings}

/-- A call of the queue functions may be made at any time. -/
theorem safe_of_isQueueCall
    {label : Label n}
    (queueCall : label.isQueueCall = true)
    (system : System n) :
    label.keepsSettings = true ∧ PeekSafe system label := by
  cases label with
  | call thread call choice =>
      cases call with
      | peek block =>
          cases queueCall
      | setattr attr val =>
          cases queueCall
      | _ =>
          exact ⟨rfl, trivial⟩
  | _ =>
      exact ⟨rfl, trivial⟩

/-- A section that only returns a code leaves the queue alone. -/
theorem FifoStep.queue_of_returned
    {state next : Fifo n}
    {label : Label n}
    {code : Int}
    (step : FifoStep settings state label (.returned code) next) :
    next.queue = state.queue := by
  have unmoved :
      ∀ {pending : Pending} {queue after : List Item},
        QueueStep settings pending queue (.returned code) after →
        after = queue := by
    intro pending queue after done
    cases done <;> rfl
  cases step with
  | put _ _ done =>
      exact unmoved done
  | get _ _ done =>
      exact unmoved done
  | resume _ done =>
      exact unmoved done
  | _ =>
      rfl

/-- A step that is refused leaves the channel as it was. -/
theorem Refines.refused
    {system next : System n}
    {state : Fifo n}
    {label : Label n}
    {code : Int}
    (refines : Refines settings system state)
    (queueCall : label.isQueueCall = true)
    (steps : systemStep system label = .ok (next, .returned code)) :
    Holds settings next.ch state.queue ∧
      next.ch.head = system.ch.head ∧
      next.ch.tail = system.ch.tail ∧
      next.ch.count = system.ch.count := by
  obtain ⟨keeps, safe⟩ := safe_of_isQueueCall queueCall system
  obtain ⟨other, event, after, otherSteps, allowed, afterRefines, -⟩ :=
    systemStep_refines refines keeps safe
  cases steps.symm.trans otherSteps
  have before := refines.related.holds
  have afterHolds := afterRefines.related.holds
  rw [allowed.queue_of_returned] at afterHolds
  exact ⟨afterHolds, afterHolds.head.trans before.head.symm,
    afterHolds.tail.trans before.tail.symm,
    afterHolds.count.trans before.count.symm⟩

/-- Every run of queue calls returns and is a run of the queue. -/
theorem queueRun_refines
    (settings : Settings)
    {labels : List (Label n)}
    (queueCalls : ∀ label ∈ labels, label.isQueueCall = true) :
    ∃ system events final,
      runCalls systemStep (start n settings) labels = .ok (system, events) ∧
        SpecRun (FifoStep settings) (Fifo.initial n) labels events final ∧
        Refines settings system final := by
  have permitted :
      AlwaysAllowed (FifoStep settings)
        (fun (_ : Fifo n) label => label.isQueueCall = true)
        (Fifo.initial n) labels :=
    alwaysAllowed_of_forall (fun label member _ => queueCalls label member) _
  refine runCalls_refines ?_ (start_refines n settings) permitted
  intro system state label refines queueCall
  obtain ⟨keeps, safe⟩ := safe_of_isQueueCall queueCall system
  obtain ⟨next, event, after, steps, allowed, nextRefines, -⟩ :=
    systemStep_refines refines keeps safe
  exact ⟨next, event, after, steps, allowed, nextRefines⟩

/--
For any number of threads, every interleaving of puts, gets and cleans is a run
of a queue with a head insert: every element has the value of a block that was
put, and is delivered once, discarded once by a clean, or still queued.
-/
theorem channel_is_fifo
    (n : Nat)
    (settings : Settings)
    (labels : List (Label n))
    (queueCalls : ∀ label ∈ labels, label.isQueueCall = true) :
    ∃ system events final,
      runCalls systemStep (start n settings) labels = .ok (system, events) ∧
        SpecRun (FifoStep settings) (Fifo.initial n) labels events final ∧
        Delivers settings labels system events final.queue := by
  obtain ⟨system, events, final, runs, accepted, refines⟩ :=
    queueRun_refines settings queueCalls
  have holds := refines.related.holds
  have left :
      (events.flatMap goneOf).Perm
        (events.flatMap takenOf ++ events.flatMap discardedOf) :=
    (List.flatMap_append_perm events takenOf discardedOf).symm
  have conserved :
      (events.flatMap linkedOf).Perm
        (events.flatMap goneOf ++ final.queue) := by
    simpa [Fifo.initial] using run_conserves accepted
  have distinctStart : Distinct (Fifo.initial n) [] := by
    constructor
    · simp [Fifo.addresses, Fifo.initial, collect, heldElement]
    · simp [Fifo.addresses, Fifo.initial, collect, heldElement]
  have distinct : (cellsOf (events.flatMap linkedOf)).Nodup := by
    have whole := (distinctStart.run accepted).nodup
    have moved := conserved.map Prod.fst
    rw [List.map_append] at moved
    refine moved.nodup_iff.mpr (whole.sublist ?_)
    rw [List.nil_append, Fifo.addresses, ← List.append_assoc]
    exact List.sublist_append_left _ _
  refine ⟨system, events, final, runs, accepted, holds, ?_, ?_, ?_,
    conserved.trans (left.append_right _), distinct, ?_, ?_, ?_, ?_⟩
  · rw [holds.head]
    simp
  · rw [holds.tail]
    simp
  · intro fixed
    rw [holds.count]
    exact_mod_cast refines.related.capacity fixed
  · intro item linked
    obtain ⟨block, put | ⟨thread, _, _, waits⟩, queues⟩ :=
      run_linked_queuedAs accepted linked
    · exact ⟨block, put, queues⟩
    · cases waits
  · intro label item code member
    obtain ⟨before, after, step⟩ := accepted.exists_step member
    exact step.takes_code
  · intro label items deleted code member
    obtain ⟨before, after, step⟩ := accepted.exists_step member
    exact step.cleans
  · rintro label next event queueCall steps (rfl | rfl)
    · exact refines.refused queueCall steps
    · exact refines.refused queueCall steps

attribute [local instance] neZero_two

/--
A getter sleeps, a put of three bytes wakes it, it takes the two bytes that the
channel copies, and an end mark is put and taken.
-/
def markedRun : List (Label 2) :=
  [.call 1 (.get 1) 0, .call 0 (.put ⟨100, [1, 2, 3]⟩ .std) 0, .resume 1 0,
    .call 0 (.put ⟨chEndoftransmission, []⟩ .std) 0, .call 1 (.get 1) 0]

/-- What the sections of that run do. -/
def markedEvents : List ChEvent :=
  [.sleeps, .linked (0, .copy [1, 2]) 1, .taken (0, .copy [1, 2]) chOk,
    .linked (1, .pointer chEndoftransmission) 1,
    .taken (1, .pointer chEndoftransmission) chGetEndoftransmission]

/-- Two pointers and an end mark are put, and cleaned with a delete function. -/
def cleaningRun : List (Label 2) :=
  [.call 0 (.put ⟨100, []⟩ .std) 0, .call 1 (.put ⟨200, []⟩ .top) 0,
    .call 0 (.put ⟨chEndoftransmission, []⟩ .std) 0, .call 1 (.clean true) 0]

/-- What the sections of that run do. -/
def cleaningEvents : List ChEvent :=
  [.linked (0, .pointer 100) 1, .linked (1, .pointer 200) 2,
    .linked (2, .pointer chEndoftransmission) 3,
    .cleaned
      [(1, .pointer 200), (0, .pointer 100),
        (2, .pointer chEndoftransmission)]
      [200, 100] chOk]

/-- A run with a copy and an end mark, and one that hands over two pointers. -/
theorem channel_is_fifo_marked :
    (∃ system final,
      runCalls systemStep (start 2 ⟨.bytes 2, true, 1⟩) markedRun =
          .ok (system, markedEvents) ∧
        SpecRun (FifoStep ⟨.bytes 2, true, 1⟩) (Fifo.initial 2) markedRun
          markedEvents final ∧
        Delivers ⟨.bytes 2, true, 1⟩ markedRun system markedEvents
          final.queue) ∧
      ∃ system final,
        runCalls systemStep (start 2 ⟨.voidp, true, 0⟩) cleaningRun =
            .ok (system, cleaningEvents) ∧
          SpecRun (FifoStep ⟨.voidp, true, 0⟩) (Fifo.initial 2) cleaningRun
            cleaningEvents final ∧
          Delivers ⟨.voidp, true, 0⟩ cleaningRun system cleaningEvents
            final.queue := by
  constructor
  · obtain ⟨system, events, final, runs, accepted, delivers⟩ :=
      channel_is_fifo 2 ⟨.bytes 2, true, 1⟩ markedRun (by decide)
    have seen :
        (runCalls systemStep (start 2 ⟨.bytes 2, true, 1⟩) markedRun).map
            Prod.snd =
          .ok markedEvents :=
      rfl
    rw [runs] at seen
    cases Except.ok.inj seen
    exact ⟨system, final, runs, accepted, delivers⟩
  · obtain ⟨system, events, final, runs, accepted, delivers⟩ :=
      channel_is_fifo 2 ⟨.voidp, true, 0⟩ cleaningRun (by decide)
    have seen :
        (runCalls systemStep (start 2 ⟨.voidp, true, 0⟩) cleaningRun).map
            Prod.snd =
          .ok cleaningEvents :=
      rfl
    rw [runs] at seen
    cases Except.ok.inj seen
    exact ⟨system, final, runs, accepted, delivers⟩

end Delivery

end Clibs.Ch
