import Clibs.Ch.Pipe

namespace Clibs.Ch

/-!
# Channels whose requests for memory are refused

Only `_ch_put` asks for memory, and only before it takes the lock.  So a channel
that is granted what a step asks for makes the step of the channel that is
granted everything, and what is known of pipes holds of it too.  A put that is
refused returns `CH_NO_MEMORY` and leaves the pipe as it was.
-/

/-- The channel of which every further request for memory is granted. -/
def ChH.granting (ch : ChH) : ChH :=
  { ch with heap := ch.heap.granting }

/-- What a section did to the channel of which every request is granted. -/
def grantSection : Section → Section
  | (ch, event, condvar) =>
      (ch.granting, event, condvar)

/-- The system of which every further request for memory is granted. -/
def System.granting
    {n : Nat}
    (system : System n) : System n :=
  { system with ch := system.ch.granting }

/-- What a step did to the system of which every request is granted. -/
def grantStep
    {n : Nat} : System n × ChEvent → System n × ChEvent
  | (system, event) =>
      (system.granting, event)

/-- A put of the block is granted the memory that it asks for. -/
def ChH.grantsPut
    (ch : ChH)
    (block : Block) : Bool :=
  ch.heap.grants ch.heap.requests &&
    (!copiesBlock ch.datalen block || ch.heap.grants (ch.heap.requests + 1))

/-- A step of the system is granted the memory that it asks for. -/
def System.grantsStep
    {n : Nat}
    (system : System n) : Label n → Bool
  | .call _ (.put block _) _ =>
      system.ch.grantsPut block
  | _ =>
      true

/-- The channel after a request for memory that was refused. -/
def ChH.refused (ch : ChH) : ChH :=
  { ch with heap := ch.heap.request.2 }

section Sections

variable {ch : ChH} {block : Block} {place : Place} {element : Nat}

@[simp] theorem granting_magic :
    ch.granting.magic = ch.magic :=
  rfl

@[simp] theorem granting_datalen :
    ch.granting.datalen = ch.datalen :=
  rfl

@[simp] theorem granting_count :
    ch.granting.count = ch.count :=
  rfl

@[simp] theorem granting_maxSize :
    ch.granting.maxSize = ch.maxSize :=
  rfl

@[simp] theorem granting_head :
    ch.granting.head = ch.head :=
  rfl

@[simp] theorem granting_tail :
    ch.granting.tail = ch.tail :=
  rfl

@[simp] theorem granting_blocking :
    ch.granting.blocking = ch.blocking :=
  rfl

@[simp] theorem granting_heap :
    ch.granting.heap = ch.heap.granting :=
  rfl

/-- A granted put prepares the element of the channel that grants all. -/
theorem chPutPrepare_granting
    (granted : ch.grantsPut block = true) :
    chPutPrepare ch.granting block =
      ((chPutPrepare ch block).1.granting, (chPutPrepare ch block).2) := by
  rw [ChH.grantsPut, Bool.and_eq_true] at granted
  obtain ⟨first, second⟩ := granted
  by_cases rejected : block.address = 0 ∨ ch.magic ≠ chMagicId
  · have alsoRejected : block.address = 0 ∨ ch.granting.magic ≠ chMagicId :=
      rejected
    rw [chPutPrepare, chPutPrepare, if_pos rejected, if_pos alsoRejected]
  · have alsoAccepted : ¬ (block.address = 0 ∨ ch.granting.magic ≠ chMagicId) :=
      rejected
    have allocates :
        ch.heap.allocate ⟨storedBlock ch.datalen block, none⟩ =
          (some ch.heap.next, ch.heap.store
            ⟨storedBlock ch.datalen block, none⟩) :=
      if_pos first
    rw [chPutPrepare, chPutPrepare, if_neg rejected, if_neg alsoAccepted,
      granting_heap, granting_datalen, CellHeap.allocate_granting first,
      allocates]
    cases copies : copiesBlock ch.datalen block with
    | false =>
        rfl
    | true =>
        have copyGranted :
            (ch.heap.store ⟨storedBlock ch.datalen block, none⟩).grants
              (ch.heap.store ⟨storedBlock ch.datalen block, none⟩).requests =
              true := by
          rw [copies] at second
          exact second
        simp only [if_true, CellHeap.request_granting copyGranted]
        simp only [CellHeap.request, copyGranted]
        rfl

/-- Linking an element asks for no memory. -/
@[simp] theorem chLinkElement_granting :
    chLinkElement ch.granting element place =
      ChH.granting <$> chLinkElement ch element place := by
  by_cases isEmpty : ch.count = 0
  · cases place <;> simp [chLinkElement, ChH.granting, isEmpty]
  · cases place with
    | std =>
        cases isTail : ch.tail with
        | none =>
            simp [chLinkElement, isEmpty, isTail]
        | some tail =>
            simp [chLinkElement, ChH.granting, isEmpty, isTail]
    | top =>
        simp [chLinkElement, ChH.granting, isEmpty]

/-- The end of a put. -/
@[simp] theorem chPutLink_granting :
    chPutLink ch.granting element block place =
      grantSection <$> chPutLink ch element block place := by
  simp only [chPutLink, chLinkElement_granting, bind_map_left, map_bind]
  rfl

/-- The wait loop of a put. -/
@[simp] theorem chPutLoop_granting :
    chPutLoop ch.granting element block place =
      grantSection <$> chPutLoop ch element block place := by
  rw [chPutLoop, chPutLoop, chPutLink_granting, apply_ite (grantSection <$> ·)]
  rfl

/-- A put from the lock on. -/
@[simp] theorem chPutEnter_granting :
    chPutEnter ch.granting element block place =
      grantSection <$> chPutEnter ch element block place := by
  simp only [chPutEnter, chPutLink_granting, chPutLoop_granting,
    apply_ite (grantSection <$> ·), granting_heap, CellHeap.release_granting,
    bind_map_left, map_bind]
  rfl

/-- A put that comes back from its wait. -/
@[simp] theorem chPutResume_granting :
    chPutResume ch.granting element block place =
      grantSection <$> chPutResume ch element block place := by
  rw [chPutResume, chPutResume, ← chPutLoop_granting]
  rfl

/-- The removal of the top element. -/
@[simp] theorem chDetach_granting
    {elem : ChElem}
    {code : Int} :
    chDetach ch.granting element elem code =
      grantSection <$> chDetach ch element elem code := by
  simp only [chDetach, granting_heap, CellHeap.release_granting, bind_map_left,
    map_bind]
  rfl

/-- A get from a queue that is not empty. -/
@[simp] theorem chGetTake_granting :
    chGetTake ch.granting = grantSection <$> chGetTake ch := by
  simp only [chGetTake, granting_head]
  cases ch.head with
  | none =>
      rfl
  | some element =>
      simp only [granting_heap, CellHeap.read_granting, chDetach_granting,
        map_bind, apply_ite (grantSection <$> ·)]

/-- The wait loop of a get. -/
@[simp] theorem chGetLoop_granting :
    chGetLoop ch.granting = grantSection <$> chGetLoop ch := by
  rw [chGetLoop, chGetLoop, chGetTake_granting, apply_ite (grantSection <$> ·)]
  rfl

/-- A get. -/
@[simp] theorem chGetEnter_granting
    {address : Nat} :
    chGetEnter ch.granting address = grantSection <$> chGetEnter ch address := by
  simp only [chGetEnter, chGetLoop_granting, apply_ite (grantSection <$> ·)]
  rfl

/-- A get that comes back from its wait. -/
@[simp] theorem chGetResume_granting :
    chGetResume ch.granting = grantSection <$> chGetResume ch := by
  rw [chGetResume, chGetResume, ← chGetLoop_granting]
  rfl

/-- A look at the top element. -/
@[simp] theorem chPeek_granting
    {address : Nat} :
    chPeek ch.granting address = grantSection <$> chPeek ch address := by
  simp only [chPeek, granting_head]
  cases ch.head with
  | none =>
      simp only [apply_ite (grantSection <$> ·)]
      rfl
  | some element =>
      simp only [granting_heap, CellHeap.read_granting, map_bind,
        apply_ite (grantSection <$> ·)]
      rfl

/-- The loop of a clean, which releases the elements that it visits. -/
theorem chCleanLoop_granting
    {delFunc : Bool}
    {turns : Nat}
    {curElement : Option Nat} :
    chCleanLoop delFunc turns ch.granting element curElement =
      (fun done => (done.1.granting, done.2)) <$>
        chCleanLoop delFunc turns ch element curElement := by
  induction turns generalizing ch element curElement with
  | zero =>
      rfl
  | succ turns inductionHypothesis =>
      simp only [chCleanLoop, granting_heap, CellHeap.read_granting,
        CellHeap.release_granting, bind_map_left, map_bind]
      refine bind_congr fun elem => bind_congr fun heap => ?_
      cases curElement with
      | none =>
          rfl
      | some next =>
          have isGranting :
              ({ ch.granting with heap := heap.granting, count := ch.count - 1 } :
                ChH) =
                ChH.granting { ch with heap, count := ch.count - 1 } :=
            rfl
          simp only [granting_count, isGranting, inductionHypothesis]
          simp only [bind_map_left, map_bind]
          rfl

/-- A clean. -/
@[simp] theorem chClean_granting
    {delFunc : Bool} :
    chClean ch.granting delFunc = grantSection <$> chClean ch delFunc := by
  simp only [chClean, granting_head, granting_heap, CellHeap.read_granting,
    chCleanLoop_granting]
  cases ch.head with
  | none =>
      simp only [apply_ite (grantSection <$> ·)]
      rfl
  | some element =>
      simp only [bind_map_left, map_bind, apply_ite (grantSection <$> ·)]
      rfl

/-- The attributes of a channel are no memory. -/
@[simp] theorem chSetattr_granting
    {attr val : Int} :
    chSetattr ch.granting attr val =
      ((chSetattr ch attr val).1.granting, (chSetattr ch attr val).2) := by
  by_cases isWrong : ch.magic ≠ chMagicId
  · have alsoWrong : ch.granting.magic ≠ chMagicId :=
      isWrong
    rw [chSetattr, chSetattr, if_pos isWrong, if_pos alsoWrong]
  · have alsoRight : ¬ ch.granting.magic ≠ chMagicId :=
      isWrong
    rw [chSetattr, chSetattr, if_neg isWrong, if_neg alsoRight]
    split_ifs <;> rfl

/-- The blocks of a channel are there whatever memory it is granted. -/
theorem blocksFrom_granting
    (heap : CellHeap ChElem)
    (elements : Nat)
    (first : Option Nat) :
    blocksFrom heap.granting elements first =
      blocksFrom heap elements first := by
  induction elements generalizing first with
  | zero =>
      rfl
  | succ elements inductionHypothesis =>
      cases first with
      | none =>
          rfl
      | some element =>
          simp only [blocksFrom, CellHeap.granting]
          cases heap.cell element with
          | none =>
              rfl
          | some elem =>
              exact congrArg _ (inductionHypothesis elem.prev)

/-- What a channel holds, it holds whatever memory it is granted. -/
theorem blocks_granting :
    ch.granting.blocks = ch.blocks :=
  blocksFrom_granting _ _ _

end Sections

section Steps

variable {n : Nat} {system : System n} {label : Label n}

/-- The end of a section, with the signal that it sends. -/
@[simp] theorem finish_grantSection
    (threads : Fin n → ThreadState)
    (thread : Fin n)
    (choice : Nat)
    (pending : Pending)
    (done : Section) :
    finish threads thread choice pending (grantSection done) =
      grantStep (finish threads thread choice pending done) :=
  rfl

/--
A step that is granted the memory it asks for is the step of the system that is
granted everything.
-/
theorem systemStep_granting
    (granted : system.grantsStep label = true) :
    systemStep system.granting label =
      grantStep <$> systemStep system label := by
  cases label with
  | call thread call choice =>
      cases isState : system.threads thread with
      | waiting pending stage =>
          simp only [systemStep, System.granting, isState]
          rfl
      | idle =>
          simp only [systemStep, System.granting, isState]
          cases call with
          | put block place =>
              simp only [callStep, chPutPrepare_granting granted]
              obtain ⟨ch, code | element⟩ := chPutPrepare system.ch block
              · rfl
              · simp [map_bind]
          | get block =>
              simp [callStep, map_bind]
          | peek block | clean delFunc =>
              simp only [callStep, chPeek_granting, chClean_granting,
                bind_map_left, map_bind]
              rfl
          | setattr attr val =>
              simp only [callStep, chSetattr_granting]
              rfl
  | resume thread choice =>
      simp only [systemStep, System.granting]
      cases system.threads thread with
      | idle =>
          rfl
      | waiting pending stage =>
          cases stage with
          | asleep =>
              rfl
          | notified | awake =>
              cases pending <;> simp [resumeStep, resumeSection, map_bind]
  | wake thread =>
      simp only [systemStep, System.granting]
      cases system.threads thread with
      | idle =>
          rfl
      | waiting pending stage =>
          cases stage <;> rfl

end Steps

section Refusals

variable {n : Nat} {system : System n} {pointers : List Nat}

/-- A pointer is put without a copy, so its put asks for one element only. -/
theorem Pipes.grantsPut
    (pipes : Pipes system.granting pointers)
    (pointer : Nat) :
    system.ch.grantsPut ⟨pointer, []⟩ =
      system.ch.heap.grants system.ch.heap.requests := by
  obtain ⟨state, carries, -, -, -⟩ := pipes
  have isPointer : system.ch.datalen = .voidp :=
    carries.intact.holds.datalen
  simp [ChH.grantsPut, copiesBlock, isPointer]

/-- A refused put returns the error and leaves the pipe as it was. -/
theorem Pipes.put_refused
    {thread : Fin n}
    {pointer : Nat}
    (pipes : Pipes system.granting pointers)
    (isIdle : system.threads thread = .idle)
    (wanted : pointer ≠ 0)
    (refused : system.ch.heap.grants system.ch.heap.requests = false)
    (choice : Nat) :
    systemStep system (.call thread (.put ⟨pointer, []⟩ .std) choice) =
        .ok ({ system with ch := system.ch.refused }, .returned chNoMemory) ∧
      Pipes ({ system with ch := system.ch.refused } : System n).granting
        pointers := by
  obtain ⟨state, carries, fits, covered, same⟩ := pipes
  have accepted : ¬ (pointer = 0 ∨ system.ch.magic ≠ chMagicId) := by
    have isMagic : system.ch.magic = chMagicId :=
      carries.intact.holds.magic
    simp [wanted, isMagic]
  have prepares :
      chPutPrepare system.ch ⟨pointer, []⟩ =
        (system.ch.refused, .inl chNoMemory) := by
    simp only [chPutPrepare, if_neg accepted, CellHeap.allocate, refused]
    rfl
  refine ⟨?_, state, ⟨?_, carries.pending⟩, fits, covered, same⟩
  · simp only [systemStep, isIdle, callStep, prepares]
  · exact carries.intact.with_heap carries.intact.owns.request
      carries.intact.grants carries.intact.fresh fun _ _ => rfl

end Refusals

end Clibs.Ch
