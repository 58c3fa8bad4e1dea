import Clibs.Ch.Administration

namespace Clibs.Ch

/-!
# The memory of a channel

`_ch_put` asks for memory before it takes the lock: for an element and, unless
the channel hands over pointers, for a copy of the block.  When the copy is
refused the element is not released.  Here requests may be refused at any time,
`ch_setattr` may change the size and the mode at any time, and every element
that was ever granted is accounted for: it is queued, held by a put that waits,
leaked by a put whose copy was refused, or was released once.
-/

open CellHeap

/-- The element that a thread holds while its put waits. -/
def ThreadState.element (state : ThreadState) : Option Nat :=
  heldElement state.pending

/-- The element of a put of the block that is granted it but not the copy. -/
def ChH.leakedBy
    (ch : ChH)
    (block : Block) : Option Nat :=
  if block.address ≠ 0 ∧ copiesBlock ch.datalen block ∧
      ch.heap.grants ch.heap.requests ∧
      ¬ ch.heap.grants (ch.heap.requests + 1) then
    some ch.heap.next
  else
    none

/-- The element that a step leaks. -/
def System.leakedBy
    {n : Nat}
    (system : System n) : Label n → Option Nat
  | .call thread (.put block _) _ =>
      match system.threads thread with
      | .idle =>
          system.ch.leakedBy block
      | .waiting _ _ =>
          none
  | _ =>
      none

/-- The elements that a run leaks, the last one first. -/
def System.leakedIn
    {n : Nat} :
    System n → List (Label n) → List Nat
  | _, [] =>
      []
  | system, label :: rest =>
      (match systemStep system label with
        | .ok (next, _) =>
            next.leakedIn rest
        | .error _ =>
            []) ++
        (system.leakedBy label).toList

/-- A channel fresh from `ch_create`, and the threads that will use it. -/
def created
    (n : Nat)
    (datalen : Datalen)
    (grants : Nat → Bool) : System n where
  ch :=
    chCreate datalen grants
  threads _ :=
    .idle

/--
The elements in memory are those of the queue, those that waiting puts hold and
the leaked ones, each once; and a waiting put holds an element with its block.
-/
structure Accounted
    {n : Nat}
    (settings : Settings)
    (ch : ChH)
    (threads : Fin n → ThreadState)
    (queue : List Item)
    (leaked : List Nat) : Prop where
  holds : Holds settings ch queue
  owns :
    ch.heap.Owns
      (cellsOf queue ++ (collect ThreadState.element threads ++ leaked))
  prepared :
    ∀ thread element block place,
      (threads thread).pending = some (.put element block place) →
      ch.heap.cell element =
        some ⟨storedBlock settings.datalen block, none⟩

/-- The memory of the system is accounted for. -/
def IsAccounted
    {n : Nat}
    (system : System n)
    (leaked : List Nat) : Prop :=
  ∃ settings queue,
    Accounted settings system.ch system.threads queue leaked

section Memory

variable {n : Nat} {settings : Settings} {ch : ChH}
  {threads : Fin n → ThreadState} {queue : List Item} {leaked : List Nat}

/-- A channel whose queue is untouched holds it in another heap. -/
theorem Holds.with_heap
    {heap : CellHeap ChElem}
    (holds : Holds settings ch queue)
    (agree : AgreeOn (cellsOf queue) ch.heap heap) :
    Holds settings { ch with heap := heap } queue :=
  { holds with chain := chain_congr holds.chain agree }

/-- The waiter counts of a channel say nothing about its queue. -/
theorem Holds.dropWaiter
    (holds : Holds settings ch queue)
    (condvar : Condvar) :
    Holds settings (ch.dropWaiter condvar) queue := by
  obtain ⟨magic, datalen, maxSize, blocking, count, chain, tail⟩ := holds
  cases condvar <;> exact ⟨magic, datalen, maxSize, blocking, count, chain, tail⟩

/-- What a thread holds is among what the threads hold. -/
theorem mem_elements
    {thread : Fin n}
    {element : Nat}
    {block : Block}
    {place : Place}
    (waits : (threads thread).pending = some (.put element block place)) :
    element ∈ collect ThreadState.element threads := by
  have holds : (threads thread).element = some element := by
    rw [ThreadState.element, waits]
    rfl
  exact mem_collect holds

/-- Threads that wait in the same calls hold the same. -/
theorem Accounted.with_threads
    {others : Fin n → ThreadState}
    (accounted : Accounted settings ch threads queue leaked)
    (same : ∀ thread, (others thread).pending = (threads thread).pending) :
    Accounted settings ch others queue leaked := by
  have sameItems :
      collect ThreadState.element others =
        collect ThreadState.element threads := by
    apply List.filterMap_congr
    intro thread _
    rw [ThreadState.element, ThreadState.element, same]
  refine ⟨accounted.holds, ?_, ?_⟩
  · rw [sameItems]
    exact accounted.owns
  · intro thread element block place waits
    rw [same] at waits
    exact accounted.prepared thread element block place waits

/-- A thread that waits in the same call as before, in another stage. -/
theorem Accounted.restage
    {thread : Fin n}
    {pending : Pending}
    (accounted : Accounted settings ch threads queue leaked)
    (waits : (threads thread).pending = some pending)
    (stage : Stage) :
    Accounted settings ch
      (Function.update threads thread (.waiting pending stage)) queue
      leaked := by
  apply accounted.with_threads
  intro other
  by_cases isThread : other = thread
  · subst isThread
    rw [Function.update_self, waits]
    rfl
  · rw [Function.update_of_ne isThread]

/-- A thread that leaves its section asleep holds its element. -/
theorem element_afterSection
    (pending : Pending)
    (event : ChEvent) :
    (ThreadState.afterSection pending event).element =
      heldElement (pendingAfter pending event) := by
  cases event <;> rfl

/-- Work on other cells changes what is leaked only. -/
theorem Accounted.with_heap
    {heap : CellHeap ChElem}
    {others : List Nat}
    (accounted : Accounted settings ch threads queue leaked)
    (owns :
      heap.Owns
        (cellsOf queue ++ (collect ThreadState.element threads ++ others)))
    (agree :
      AgreeOn (cellsOf queue ++ collect ThreadState.element threads)
        ch.heap heap) :
    Accounted settings { ch with heap := heap } threads queue others where
  holds :=
    accounted.holds.with_heap (agree.mono (List.subset_append_left _ _))
  owns :=
    owns
  prepared thread element block place waits := by
    rw [agree element (List.mem_append_right _ (mem_elements waits))]
    exact accounted.prepared thread element block place waits

/--
A section of a call, taken while the thread is set aside, leaves the memory
accounted for.
-/
theorem accounted_section
    {thread : Fin n}
    {pending : Pending}
    {code : Checked Section}
    (prepared :
      ∀ other element block place,
        (Function.update threads thread .idle other).pending =
            some (.put element block place) ∨
          pending = .put element block place →
        ch.heap.cell element =
          some ⟨storedBlock settings.datalen block, none⟩)
    (spec :
      SectionSpec settings pending queue
        (collect ThreadState.element (Function.update threads thread .idle) ++
          leaked) ch code)
    (choice : Nat) :
    ∃ done next event,
      code = .ok done ∧
        finish threads thread choice pending done = (next, event) ∧
        IsAccounted next leaked := by
  obtain ⟨next, event, after, returns, done⟩ := spec
  suffices accounted :
      Accounted settings next
        (Function.update threads thread (.afterSection pending event)) after
        leaked from
    ⟨_, _, _, returns, rfl, settings, after,
      accounted.with_threads (signal_pending _ _ _)⟩
  refine ⟨done.holds, ?_, ?_⟩
  · have items :
        (collect ThreadState.element
            (Function.update threads thread (.afterSection pending event))).Perm
          ((heldElement (pendingAfter pending event)).toList ++
            collect ThreadState.element
              (Function.update threads thread .idle)) := by
      rw [← element_afterSection]
      exact collect_update rfl _ _ _
    refine done.owns.perm (List.Perm.append_left _ ?_)
    rw [← List.append_assoc]
    exact (items.append_right leaked).symm
  · intro other element block place waits
    by_cases isThread : other = thread
    · subst isThread
      rw [Function.update_self] at waits
      have held : pendingAfter pending event = some (.put element block place) := by
        rw [← waits]
        cases event <;> rfl
      obtain ⟨rfl, isPending⟩ := pendingAfter_eq_some held
      rw [done.agree element (by simp [held, heldElement])]
      exact prepared other element block place (.inr isPending.symm)
    · rw [Function.update_of_ne isThread] at waits
      have others :
          (Function.update threads thread .idle other).pending =
            some (.put element block place) := by
        rwa [Function.update_of_ne isThread]
      rw [done.agree element (by simp [mem_elements others])]
      exact prepared other element block place (.inl others)

/-- The cells of the queue and of the threads, with those of one set in front. -/
theorem Accounted.owns_apart
    (accounted : Accounted settings ch threads queue leaked)
    (thread : Fin n) :
    ch.heap.Owns
      ((threads thread).element.toList ++
        (cellsOf queue ++
          (collect ThreadState.element
              (Function.update threads thread .idle) ++ leaked))) := by
  have items :
      (collect ThreadState.element threads).Perm
        ((threads thread).element.toList ++
          collect ThreadState.element
            (Function.update threads thread .idle)) :=
    collect_split rfl _ _
  apply accounted.owns.perm
  refine ((items.append_right leaked).append_left (cellsOf queue)).trans ?_
  simp only [← List.append_assoc]
  exact (List.perm_append_comm.append_right _).append_right _

/-- A thread that is idle holds nothing apart. -/
theorem update_idle
    {thread : Fin n}
    (isIdle : threads thread = .idle) :
    Function.update threads thread .idle = threads := by
  rw [← isIdle, Function.update_eq_self]

end Memory

section Steps

variable {n : Nat} {settings : Settings} {system : System n}
  {queue : List Item} {leaked : List Nat}

/--
Before the lock a put is refused its element, or loses it with the copy, or has
it in hand.
-/
theorem chPutPrepare_cases
    {ch : ChH}
    {block : Block}
    (isMagic : ch.magic = chMagicId)
    (wanted : block.address ≠ 0) :
    let stored := ch.heap.store ⟨storedBlock ch.datalen block, none⟩
    (chPutPrepare ch block =
          ({ ch with heap := ch.heap.request.2 }, .inl chNoMemory) ∧
        ch.leakedBy block = none) ∨
      (chPutPrepare ch block =
          ({ ch with heap := stored.request.2 }, .inl chNoMemory) ∧
        ch.leakedBy block = some ch.heap.next) ∨
      ∃ heap,
        (heap = stored ∨ heap = stored.request.2) ∧
          chPutPrepare ch block = ({ ch with heap := heap }, .inr ch.heap.next) ∧
          ch.leakedBy block = none := by
  intro stored
  have accepted : ¬ (block.address = 0 ∨ ch.magic ≠ chMagicId) := by
    simp [wanted, isMagic]
  rw [chPutPrepare, if_neg accepted, CellHeap.allocate]
  cases element : ch.heap.grants ch.heap.requests with
  | false =>
      left
      simp [ChH.leakedBy, element]
  | true =>
      right
      have request :
          stored.request =
            (ch.heap.grants (ch.heap.requests + 1), stored.request.2) :=
        rfl
      cases copies : copiesBlock ch.datalen block with
      | false =>
          exact .inr ⟨stored, .inl rfl, by simp [stored],
            by simp [ChH.leakedBy, copies]⟩
      | true =>
          cases copy : ch.heap.grants (ch.heap.requests + 1) with
          | false =>
              left
              rw [copy] at request
              refine ⟨?_, by
                simp [ChH.leakedBy, element, copies, copy, wanted]⟩
              simp only [↓reduceIte]
              rw [request]
          | true =>
              right
              rw [copy] at request
              refine ⟨stored.request.2, .inr rfl, ?_, by
                simp [ChH.leakedBy, copy]⟩
              simp only [↓reduceIte]
              rw [request]

/-- A call of `ch_put` or `ch_put_head`. -/
theorem put_accounted
    {thread : Fin n}
    (accounted : Accounted settings system.ch system.threads queue leaked)
    (isIdle : system.threads thread = .idle)
    (block : Block)
    (place : Place)
    (choice : Nat) :
    ∃ next event,
      systemStep system (.call thread (.put block place) choice) =
          .ok (next, event) ∧
        IsAccounted next ((system.ch.leakedBy block).toList ++ leaked) := by
  have holds := accounted.holds
  by_cases isNull : block.address = 0
  · refine ⟨system, .returned chWrongParam, ?_, settings, queue, ?_⟩
    · simp [systemStep, isIdle, callStep, chPutPrepare, isNull]
    · simpa [ChH.leakedBy, isNull] using accounted
  rcases chPutPrepare_cases holds.magic isNull with
    ⟨prepares, noLeak⟩ | ⟨prepares, leak⟩ | ⟨heap, isStored, prepares, noLeak⟩
  · refine ⟨{ system with
      ch := { system.ch with heap := system.ch.heap.request.2 } },
      .returned chNoMemory, ?_, settings, queue, ?_⟩
    · simp only [systemStep, isIdle, callStep, prepares]
    · rw [noLeak]
      exact accounted.with_heap accounted.owns.request fun _ _ => rfl
  · have agree := accounted.owns.store_agreeOn
      ⟨storedBlock system.ch.datalen block, none⟩
    refine ⟨{ system with
      ch := { system.ch with
        heap := (system.ch.heap.store
          ⟨storedBlock system.ch.datalen block, none⟩).request.2 } },
      .returned chNoMemory, ?_, settings, queue, ?_⟩
    · simp only [systemStep, isIdle, callStep, prepares]
    · rw [leak]
      refine accounted.with_heap
        ((accounted.owns.store _).request.perm ?_) (agree.mono ?_)
      · have moved :
            (system.ch.heap.next ::
              (cellsOf queue ++ collect ThreadState.element system.threads ++
                leaked)).Perm
              (cellsOf queue ++ collect ThreadState.element system.threads ++
                system.ch.heap.next :: leaked) :=
          List.perm_middle.symm
        simpa using moved
      · simp [← List.append_assoc]
  · have others :
        heap.Owns
            (system.ch.heap.next ::
              (cellsOf queue ++
                (collect ThreadState.element system.threads ++ leaked))) ∧
          AgreeOn
            (cellsOf queue ++
              (collect ThreadState.element system.threads ++ leaked))
            system.ch.heap heap ∧
          heap.cell system.ch.heap.next =
            some ⟨storedBlock system.ch.datalen block, none⟩ := by
      rcases isStored with rfl | rfl
      · exact ⟨accounted.owns.store _, accounted.owns.store_agreeOn _,
          Function.update_self ..⟩
      · exact ⟨(accounted.owns.store _).request,
          accounted.owns.store_agreeOn _, Function.update_self ..⟩
    obtain ⟨owns, agree, isCell⟩ := others
    rw [holds.datalen] at isCell
    have spec :
        SectionSpec settings (.put system.ch.heap.next block place) queue
          (collect ThreadState.element
              (Function.update system.threads thread .idle) ++ leaked)
          { system.ch with heap := heap }
          (chPutEnter { system.ch with heap := heap } system.ch.heap.next
            block place) := by
      rw [update_idle isIdle]
      exact chPutEnter_section
        (holds.with_heap (agree.mono (List.subset_append_left _ _))) owns isCell
    obtain ⟨done, next, event, returns, finishes, isAccounted⟩ :=
      accounted_section (fun other element held at_ waits => by
        rcases waits with isOther | isOwn
        · rw [update_idle isIdle] at isOther
          rw [agree element (by simp [mem_elements isOther])]
          exact accounted.prepared other element held at_ isOther
        · cases isOwn
          exact isCell) spec choice
    refine ⟨next, event, ?_, by simpa [noLeak] using isAccounted⟩
    simp only [systemStep, isIdle, callStep, prepares, returns, Checked.ok_bind,
      finishes]

/-- A call of `ch_get`. -/
theorem get_accounted
    {thread : Fin n}
    (accounted : Accounted settings system.ch system.threads queue leaked)
    (isIdle : system.threads thread = .idle)
    (block choice : Nat) :
    ∃ next event,
      systemStep system (.call thread (.get block) choice) =
          .ok (next, event) ∧
        IsAccounted next leaked := by
  by_cases isNull : block = 0
  · subst isNull
    refine ⟨system, .returned chWrongParam, ?_, settings, queue, accounted⟩
    simp [systemStep, isIdle, callStep, chGetEnter, finish, signal,
      ThreadState.afterSection, update_idle isIdle]
  · have spec :
        SectionSpec settings .get queue
          (collect ThreadState.element
              (Function.update system.threads thread .idle) ++ leaked)
          system.ch (chGetEnter system.ch block) := by
      rw [update_idle isIdle]
      exact chGetEnter_section accounted.holds accounted.owns isNull
    obtain ⟨done, next, event, returns, finishes, isAccounted⟩ :=
      accounted_section (fun other element held place waits => by
        rcases waits with isOther | isOwn
        · rw [update_idle isIdle] at isOther
          exact accounted.prepared other element held place isOther
        · cases isOwn) spec choice
    refine ⟨next, event, ?_, isAccounted⟩
    simp only [systemStep, isIdle, callStep, returns, Checked.ok_bind, finishes]

/-- A call of `ch_peek` that does not meet an end marker. -/
theorem peek_accounted
    {thread : Fin n}
    {block choice : Nat}
    (accounted : Accounted settings system.ch system.threads queue leaked)
    (isIdle : system.threads thread = .idle)
    (safe : PeekSafe system (.call thread (.peek block) choice)) :
    ∃ next event,
      systemStep system (.call thread (.peek block) choice) =
          .ok (next, event) ∧
        IsAccounted next leaked := by
  have holds := accounted.holds
  by_cases isNull : block = 0
  · subst isNull
    refine ⟨system, .returned chWrongParam, ?_, settings, queue, accounted⟩
    simp [systemStep, isIdle, callStep, chPeek]
  · have peeks := chPeek_spec holds isNull (safe.unmarked holds isIdle isNull)
    refine ⟨system, peekedAt queue, ?_, settings, queue, accounted⟩
    simp [systemStep, isIdle, callStep, peeks]

/-- A call of `ch_clean`. -/
theorem clean_accounted
    {thread : Fin n}
    (accounted : Accounted settings system.ch system.threads queue leaked)
    (isIdle : system.threads thread = .idle)
    (delFunc : Bool)
    (choice : Nat) :
    ∃ next event,
      systemStep system (.call thread (.clean delFunc) choice) =
          .ok (next, event) ∧
        IsAccounted next leaked := by
  by_cases requested : delFunc = true → settings.datalen = .voidp
  · obtain ⟨next, cleans, nextHolds, nextOwns, -, agree, -⟩ :=
      chClean_spec accounted.holds accounted.owns requested
    refine ⟨⟨next, system.threads⟩,
      .cleaned queue (deletedFrom settings.datalen delFunc queue) chOk, ?_,
      settings, [], nextHolds, nextOwns, ?_⟩
    · simp only [systemStep, isIdle, callStep, cleans, Checked.ok_bind]
    · intro other element block place waits
      rw [agree element (by simp [mem_elements waits])]
      exact accounted.prepared other element block place waits
  · obtain ⟨rfl, notVoidp⟩ := Classical.not_imp.mp requested
    refine ⟨system, .returned chFreeNotRequested, ?_, settings, queue,
      accounted⟩
    simp [systemStep, isIdle, callStep, chClean, accounted.holds.magic,
      accounted.holds.datalen, notVoidp]

/-- A call of `ch_setattr`, whatever it sets. -/
theorem setattr_accounted
    {thread : Fin n}
    (accounted : Accounted settings system.ch system.threads queue leaked)
    (isIdle : system.threads thread = .idle)
    (attr val : Int)
    (choice : Nat) :
    ∃ next event,
      systemStep system (.call thread (.setattr attr val) choice) =
          .ok (next, event) ∧
        IsAccounted next leaked := by
  have holds := accounted.holds
  obtain ⟨mode, size, code, sets, isSize, isMode⟩ :=
    chSetattr_spec holds attr val
  have sameDatalen := settings.datalen_set attr val
  refine ⟨{ system with
      ch := { system.ch with attr := mode, maxSize := size } },
    .returned code, ?_, settings.set attr val, queue,
    ⟨holds.magic, holds.datalen.trans sameDatalen.symm, isSize, isMode,
      holds.count, holds.chain, holds.tail⟩, accounted.owns, ?_⟩
  · simp only [systemStep, isIdle, callStep, sets]
  · rw [sameDatalen]
    exact accounted.prepared

/-- A call that comes back from `pthread_cond_wait`. -/
theorem resume_accounted
    {thread : Fin n}
    {pending : Pending}
    (accounted : Accounted settings system.ch system.threads queue leaked)
    (waits : (system.threads thread).pending = some pending)
    (choice : Nat) :
    ∃ next event,
      resumeStep system thread choice pending = .ok (next, event) ∧
        IsAccounted next leaked := by
  have holds := accounted.holds
  by_cases blocked : Blocked settings queue pending
  · refine ⟨{ system with
        threads :=
          Function.update system.threads thread (.waiting pending .asleep) },
      .sleeps, ?_, ?_⟩
    · rw [resumeStep, resumeSection_of_blocked holds blocked]
      rfl
    · exact ⟨settings, queue, accounted.restage waits .asleep⟩
  · have sameHeap : (system.ch.dropWaiter pending.condvar).heap = system.ch.heap := by
      cases pending.condvar <;> rfl
    have apart := accounted.owns_apart thread
    rw [ThreadState.element, waits, ← sameHeap] at apart
    have prepared :
        ∀ element block place,
          pending = .put element block place →
          (system.ch.dropWaiter pending.condvar).heap.cell element =
            some ⟨storedBlock settings.datalen block, none⟩ := by
      rintro element block place rfl
      rw [sameHeap]
      exact accounted.prepared thread element block place waits
    obtain ⟨done, next, event, returns, finishes, isAccounted⟩ :=
      accounted_section (fun other element held place waits => by
        rcases waits with isOther | isOwn
        · have isHeld :
              (system.threads other).pending =
                some (.put element held place) := by
            by_cases isThread : other = thread
            · subst isThread
              simp [ThreadState.pending] at isOther
            · rwa [Function.update_of_ne isThread] at isOther
          rw [sameHeap]
          exact accounted.prepared other element held place isHeld
        · exact prepared element held place isOwn)
        (resumeSection_of_free (holds.dropWaiter _) apart prepared blocked) choice
    refine ⟨next, event, ?_, isAccounted⟩
    rw [resumeStep, returns, Checked.ok_bind, finishes]

/--
Every step in which no peek meets an end marker returns and keeps the memory
accounted for; it leaks one element when it is a put whose copy is refused, and
none otherwise.
-/
theorem step_accounted
    {label : Label n}
    (isAccounted : IsAccounted system leaked)
    (safe : PeekSafe system label) :
    ∃ next event,
      systemStep system label = .ok (next, event) ∧
        IsAccounted next ((system.leakedBy label).toList ++ leaked) := by
  obtain ⟨settings, queue, accounted⟩ := isAccounted
  cases label with
  | call thread call choice =>
      cases isState : system.threads thread with
      | waiting pending stage =>
          refine ⟨system, .nothing, by simp only [systemStep, isState],
            settings, queue, ?_⟩
          cases call <;> simpa [System.leakedBy, isState] using accounted
      | idle =>
          cases call with
          | put block place =>
              simp only [System.leakedBy, isState]
              exact put_accounted accounted isState block place choice
          | get block =>
              exact get_accounted accounted isState block choice
          | peek block =>
              exact peek_accounted accounted isState safe
          | clean delFunc =>
              exact clean_accounted accounted isState delFunc choice
          | setattr attr val =>
              exact setattr_accounted accounted isState attr val choice
  | resume thread choice =>
      cases isState : system.threads thread with
      | idle =>
          exact ⟨system, .nothing, by simp only [systemStep, isState],
            settings, queue, accounted⟩
      | waiting pending stage =>
          have waits : (system.threads thread).pending = some pending := by
            rw [isState]
            rfl
          cases stage with
          | asleep =>
              exact ⟨system, .nothing, by simp only [systemStep, isState],
                settings, queue, accounted⟩
          | notified | awake =>
              simp only [systemStep, isState]
              exact resume_accounted accounted waits choice
  | wake thread =>
      cases isState : system.threads thread with
      | idle =>
          exact ⟨system, .nothing, by simp only [systemStep, isState],
            settings, queue, accounted⟩
      | waiting pending stage =>
          have waits : (system.threads thread).pending = some pending := by
            rw [isState]
            rfl
          cases stage with
          | asleep =>
              refine ⟨{ system with
                  threads :=
                    Function.update system.threads thread
                      (.waiting pending .awake) }, .nothing, ?_,
                settings, queue, accounted.restage waits .awake⟩
              simp only [systemStep, isState]
          | notified | awake =>
              exact ⟨system, .nothing, by simp only [systemStep, isState],
                settings, queue, accounted⟩

/-- Every run in which no peek meets an end marker keeps the memory accounted. -/
theorem run_accounted
    {labels : List (Label n)}
    (isAccounted : IsAccounted system leaked)
    (safe : AlwaysAllowed (StepOf systemStep) PeekSafe system labels) :
    ∃ final events,
      runCalls systemStep system labels = .ok (final, events) ∧
        IsAccounted final (system.leakedIn labels ++ leaked) := by
  induction labels generalizing system leaked with
  | nil =>
      exact ⟨system, [], rfl, isAccounted⟩
  | cons label rest inductionHypothesis =>
      obtain ⟨stepSafe, restSafe⟩ := safe
      obtain ⟨middle, event, steps, middleAccounted⟩ :=
        step_accounted isAccounted stepSafe
      obtain ⟨final, events, runs, finalAccounted⟩ :=
        inductionHypothesis middleAccounted (restSafe event middle steps)
      refine ⟨final, event :: events, runCalls_cons steps runs, ?_⟩
      simpa [System.leakedIn, steps] using finalAccounted

/-- A channel fresh from `ch_create` has no elements in memory. -/
theorem created_accounted
    (n : Nat)
    (datalen : Datalen)
    (grants : Nat → Bool) :
    IsAccounted (created n datalen grants) [] := by
  have noItems :
      collect ThreadState.element (created n datalen grants).threads =
        ([] : List Nat) := by
    simp [collect, created, ThreadState.element, ThreadState.pending,
      heldElement]
  refine ⟨⟨datalen, true, 0⟩, [], ⟨rfl, rfl, rfl, ?_, rfl, rfl, rfl⟩, ?_, ?_⟩
  · simp [created, chCreate, ChH.blocking, chAttrBlockingGetput]
  · rw [noItems]
    exact Owns.empty _
  · intro thread element block place waits
    cases waits

/--
Whatever requests for memory are refused, and however the channel is set up
anew meanwhile, every run of any threads in which no peek meets an end marker
returns.  The elements in memory are then those of the queue, those of the puts
that wait and those that were leaked when a copy was refused; every other
element was released once.  A clean releases those of the queue, so that once no
call waits only the leaked ones stay.
-/
theorem channel_memory
    (n : Nat)
    (datalen : Datalen)
    (grants : Nat → Bool)
    (labels : List (Label n))
    (safe :
      AlwaysAllowed (StepOf systemStep) PeekSafe (created n datalen grants)
        labels) :
    ∃ system events queue,
      runCalls systemStep (created n datalen grants) labels =
          .ok (system, events) ∧
        Segment (links system.ch.heap) system.ch.head queue none ∧
        system.ch.heap.Owns
          (cellsOf queue ++
            (collect ThreadState.element system.threads ++
              (created n datalen grants).leakedIn labels)) ∧
        ∃ cleaned deleted,
          chClean system.ch false =
              .ok (cleaned, .cleaned queue deleted chOk, none) ∧
            ((∀ thread, system.threads thread = .idle) →
              cleaned.heap.Owns ((created n datalen grants).leakedIn labels)) := by
  obtain ⟨system, events, runs, settings, queue, accounted⟩ :=
    run_accounted (created_accounted n datalen grants) safe
  rw [List.append_nil] at accounted
  obtain ⟨cleaned, cleans, -, cleanedOwns, -⟩ :=
    chClean_spec accounted.holds accounted.owns
      (by simp : false = true → settings.datalen = .voidp)
  refine ⟨system, events, queue, runs, accounted.holds.chain, accounted.owns,
    cleaned, _, cleans, ?_⟩
  intro allIdle
  have noItems :
      collect ThreadState.element system.threads = ([] : List Nat) := by
    simp [collect, allIdle, ThreadState.element, ThreadState.pending,
      heldElement]
  rwa [noItems] at cleanedOwns

attribute [local instance] neZero_one

/-- Two strings are put and one is taken, with a request for each part. -/
def refusedRun : List (Label 1) :=
  [.call 0 (.put ⟨100, [1]⟩ .std) 0, .call 0 (.put ⟨200, [2]⟩ .std) 0,
    .call 0 (.get 1) 0]

/-- The second string's copy is refused, and its element is leaked. -/
theorem channel_memory_refused :
    (created 1 .string (· ≠ 3)).leakedIn refusedRun = [1] ∧
      ∃ system events queue,
        runCalls systemStep (created 1 .string (· ≠ 3)) refusedRun =
            .ok (system, events) ∧
          Segment (links system.ch.heap) system.ch.head queue none ∧
          system.ch.heap.Owns
            (cellsOf queue ++
              (collect ThreadState.element system.threads ++
                (created 1 .string (· ≠ 3)).leakedIn refusedRun)) ∧
          ∃ cleaned deleted,
            chClean system.ch false =
                .ok (cleaned, .cleaned queue deleted chOk, none) ∧
              ((∀ thread, system.threads thread = .idle) →
                cleaned.heap.Owns
                  ((created 1 .string (· ≠ 3)).leakedIn refusedRun)) :=
  ⟨rfl, channel_memory 1 .string (· ≠ 3) refusedRun
    (.step rfl trivial (.step rfl trivial (.step rfl trivial trivial)))⟩

end Steps

end Clibs.Ch
