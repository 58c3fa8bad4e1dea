import Clibs.Ch.Threads
import Mathlib.Data.List.TakeWhile

namespace Clibs.Ch

/-!
# The channel as a queue with a head insert

The abstract channel is a list of elements and, for each thread, the call it
waits in.  `QueueStep` says what one locked section of a call may do to the
list, and `FifoStep` says which sections a step may take.  The sections of the
source are shown to do exactly that.
-/

open CellHeap

/--
What a put of a block is to queue: the end mark as it is, and any other block by
the kind of data, as its pointer, as a copy of so many bytes, or as a copy of the
string up to its terminator.  A block may have fewer bytes, or no terminator.
-/
inductive Block.QueuedAs
    (block : Block) : Datalen → ElemBlock → Prop where
  | endMark
      {datalen : Datalen} :
      block.address = chEndoftransmission →
      Block.QueuedAs block datalen (.pointer chEndoftransmission)
  | pointer :
      block.address ≠ chEndoftransmission →
      Block.QueuedAs block .voidp (.pointer block.address)
  | bytes
      {length : ℕ+}
      {copied rest : List UInt8} :
      block.address ≠ chEndoftransmission →
      block.bytes = copied ++ rest →
      (copied.length = length ∨ rest = [] ∧ copied.length < length) →
      Block.QueuedAs block (.bytes length) (.copy copied)
  | string
      {copied rest : List UInt8} :
      block.address ≠ chEndoftransmission →
      block.bytes = copied ++ rest →
      0 ∉ copied →
      (∀ terminator ∈ rest.head?, terminator = 0) →
      Block.QueuedAs block .string (.copy copied)

/-- The user's pointer in a queued block: a pointer that is not the end mark. -/
def ElemBlock.userPointer : ElemBlock → Option Nat
  | .pointer address =>
      if address = chEndoftransmission then none else some address
  | .copy _ =>
      none

/-- What a clean hands to the delete function, if it was given one. -/
def handedOver
    (delFunc : Bool)
    (blocks : List ElemBlock) : List Nat :=
  if delFunc then blocks.filterMap ElemBlock.userPointer else []

/-- What a locked section of a waiting call does to the queue. -/
inductive QueueStep
    (settings : Settings) :
    Pending → List Item → ChEvent → List Item → Prop where
  | putSleeps
      {queue : List Item}
      {element : Nat}
      {block : Block}
      {place : Place} :
      settings.blocking = true →
      settings.size ≠ 0 →
      settings.size ≤ queue.length →
      QueueStep settings (.put element block place) queue .sleeps queue
  | putFull
      {queue : List Item}
      {element : Nat}
      {block : Block}
      {place : Place} :
      settings.blocking = false →
      settings.size ≠ 0 →
      settings.size ≤ queue.length →
      QueueStep settings (.put element block place) queue
        (.returned chPutChannelFull) queue
  | putLinks
      {queue : List Item}
      {element : Nat}
      {block : Block}
      {place : Place}
      {value : ElemBlock} :
      block.QueuedAs settings.datalen value →
      (settings.size = 0 ∨ queue.length < settings.size) →
      QueueStep settings (.put element block place) queue
        (.linked (element, value) (queue.length + 1))
        (place.insert (element, value) queue)
  | getSleeps :
      settings.blocking = true →
      QueueStep settings .get [] .sleeps []
  | getNodata :
      settings.blocking = false →
      QueueStep settings .get [] (.returned chGetNodata) []
  | getTakes
      {item : Item}
      {queue : List Item} :
      QueueStep settings .get (item :: queue)
        (.taken item (takenCode item.2)) queue

/-- The call a thread waits in after a section of it. -/
def pendingAfter
    (pending : Pending) : ChEvent → Option Pending
  | .sleeps =>
      some pending
  | _ =>
      none

/--
The queue, the call each thread waits in, and the address the next element
gets.
-/
structure Fifo (n : Nat) where
  queue : List Item
  pending : Fin n → Option Pending
  fresh : Nat

/-- The state after a section of a call that may wait. -/
def Fifo.after
    {n : Nat}
    (state : Fifo n)
    (thread : Fin n)
    (pending : Pending)
    (event : ChEvent)
    (queue : List Item) : Fifo n where
  queue :=
    queue
  pending :=
    Function.update state.pending thread (pendingAfter pending event)
  fresh :=
    state.fresh

/-- The state once the next address is taken. -/
def Fifo.take
    {n : Nat}
    (state : Fifo n) : Fifo n :=
  { state with fresh := state.fresh + 1 }

/-- The steps of a queue with a head insert that threads share. -/
inductive FifoStep
    {n : Nat}
    (settings : Settings) :
    Fifo n → Label n → ChEvent → Fifo n → Prop where
  | busy
      {state : Fifo n}
      {thread : Fin n}
      {call : ChCall}
      {choice : Nat} :
      state.pending thread ≠ none →
      FifoStep settings state (.call thread call choice) .nothing state
  | asleep
      {state : Fifo n}
      {thread : Fin n}
      {choice : Nat} :
      FifoStep settings state (.resume thread choice) .nothing state
  | wake
      {state : Fifo n}
      {thread : Fin n} :
      FifoStep settings state (.wake thread) .nothing state
  | putNull
      {state : Fifo n}
      {thread : Fin n}
      {block : Block}
      {place : Place}
      {choice : Nat} :
      state.pending thread = none →
      block.address = 0 →
      FifoStep settings state (.call thread (.put block place) choice)
        (.returned chWrongParam) state
  | put
      {state : Fifo n}
      {thread : Fin n}
      {block : Block}
      {place : Place}
      {choice : Nat}
      {event : ChEvent}
      {queue : List Item} :
      state.pending thread = none →
      block.address ≠ 0 →
      QueueStep settings (.put state.fresh block place)
        state.queue event queue →
      FifoStep settings state (.call thread (.put block place) choice) event
        (state.take.after thread (.put state.fresh block place) event queue)
  | getNull
      {state : Fifo n}
      {thread : Fin n}
      {choice : Nat} :
      state.pending thread = none →
      FifoStep settings state (.call thread (.get 0) choice)
        (.returned chWrongParam) state
  | get
      {state : Fifo n}
      {thread : Fin n}
      {block choice : Nat}
      {event : ChEvent}
      {queue : List Item} :
      state.pending thread = none →
      block ≠ 0 →
      QueueStep settings .get state.queue event queue →
      FifoStep settings state (.call thread (.get block) choice) event
        (state.after thread .get event queue)
  | resume
      {state : Fifo n}
      {thread : Fin n}
      {pending : Pending}
      {choice : Nat}
      {event : ChEvent}
      {queue : List Item} :
      state.pending thread = some pending →
      QueueStep settings pending state.queue event queue →
      FifoStep settings state (.resume thread choice) event
        (state.after thread pending event queue)
  | peekNull
      {state : Fifo n}
      {thread : Fin n}
      {choice : Nat} :
      state.pending thread = none →
      FifoStep settings state (.call thread (.peek 0) choice)
        (.returned chWrongParam) state
  | peekNodata
      {state : Fifo n}
      {thread : Fin n}
      {block choice : Nat} :
      state.pending thread = none →
      block ≠ 0 →
      state.queue = [] →
      FifoStep settings state (.call thread (.peek block) choice)
        (.returned chGetNodata) state
  | peek
      {state : Fifo n}
      {thread : Fin n}
      {block choice : Nat}
      {item : Item}
      {rest : List Item} :
      state.pending thread = none →
      block ≠ 0 →
      state.queue = item :: rest →
      item.2.isEndoftransmission = false →
      FifoStep settings state (.call thread (.peek block) choice)
        (.peeked (some item.2) chOk) state
  | cleanRefused
      {state : Fifo n}
      {thread : Fin n}
      {choice : Nat} :
      state.pending thread = none →
      settings.datalen ≠ .voidp →
      FifoStep settings state (.call thread (.clean true) choice)
        (.returned chFreeNotRequested) state
  | clean
      {state : Fifo n}
      {thread : Fin n}
      {delFunc : Bool}
      {choice : Nat} :
      state.pending thread = none →
      (delFunc = true → settings.datalen = .voidp) →
      FifoStep settings state (.call thread (.clean delFunc) choice)
        (.cleaned state.queue
          (handedOver delFunc (state.queue.map Prod.snd)) chOk)
        { state with queue := [] }

/-- The element a waiting call holds. -/
def heldElement : Option Pending → Option Nat
  | some (.put element _ _) =>
      some element
  | _ =>
      none

/-- The call waits for the condition. -/
def waitsFor
    (condvar : Condvar) : Option Pending → Bool
  | none =>
      false
  | some pending =>
      pending.condvar = condvar

@[simp] theorem waitsFor_none
    (condvar : Condvar) :
    waitsFor condvar none = false :=
  rfl

/-- The condition that a section signals. -/
def signalled
    (settings : Settings)
    (putWaiting : Int) : ChEvent → Option Condvar
  | .linked _ _ =>
      if settings.blocking then some .get else none
  | .taken _ _ =>
      if settings.size ≠ 0 ∧ putWaiting > 0 then some .put else none
  | _ =>
      none

/--
The outcome of a section of a waiting call: what it did is allowed, the channel
holds the new queue, the call still owns its element if it sleeps, and the
waiter counts and the frame are right.
-/
structure SectionDone
    (settings : Settings)
    (pending : Pending)
    (queue : List Item)
    (frame : List Nat)
    (ch next : ChH)
    (event : ChEvent)
    (after : List Item) : Prop where
  allowed : QueueStep settings pending queue event after
  holds : Holds settings next after
  owns :
    next.heap.Owns
      (cellsOf after ++
        ((heldElement (pendingAfter pending event)).toList ++ frame))
  noAllocation : NoAllocation ch.heap next.heap
  agree :
    AgreeOn
      ((heldElement (pendingAfter pending event)).toList ++ frame)
      ch.heap next.heap
  waiting :
    ∀ condvar,
      next.waitingThreads condvar =
        ch.waitingThreads condvar +
          (if waitsFor condvar (pendingAfter pending event) then 1 else 0)

/-- A section of a waiting call returns with an allowed outcome. -/
def SectionSpec
    (settings : Settings)
    (pending : Pending)
    (queue : List Item)
    (frame : List Nat)
    (ch : ChH)
    (code : Checked Section) : Prop :=
  ∃ next event after,
    code = .ok (next, event, signalled settings ch.putWaitingThreads event) ∧
      SectionDone settings pending queue frame ch next event after

/-- What `_ch_put` stores is what is to be queued. -/
theorem storedBlock_queuedAs
    (datalen : Datalen)
    (block : Block) :
    block.QueuedAs datalen (storedBlock datalen block) := by
  unfold storedBlock
  split
  next isEnd =>
    exact .endMark isEnd
  next notEnd =>
    cases datalen with
    | voidp =>
        exact .pointer notEnd
    | bytes length =>
        refine .bytes notEnd (List.take_append_drop length block.bytes).symm ?_
        rcases Nat.lt_or_ge block.bytes.length length with isShort | enough
        · right
          simp [isShort, Nat.le_of_lt isShort]
        · left
          simp [enough]
    | string =>
        refine .string notEnd List.takeWhile_append_dropWhile.symm ?_ ?_
        · intro isCopied
          simpa using List.mem_takeWhile_imp isCopied
        · intro terminator isFirst
          have stopped := List.head?_dropWhile_not (· ≠ 0) block.bytes
          rw [Option.mem_def.mp isFirst] at stopped
          simpa using stopped

/-- What `ch_clean` passes to `del_func` is what is to be handed over. -/
theorem deletedFrom_handedOver
    {datalen : Datalen}
    {delFunc : Bool}
    (requested : delFunc = true → datalen = .voidp)
    (queue : List Item) :
    deletedFrom datalen delFunc queue =
      handedOver delFunc (queue.map Prod.snd) := by
  induction queue with
  | nil =>
      cases delFunc <;> rfl
  | cons item rest inductionHypothesis =>
      rw [deletedFrom, List.flatMap_cons]
      rw [deletedFrom] at inductionHypothesis
      rw [inductionHypothesis]
      obtain ⟨address, block⟩ := item
      cases delFunc with
      | false =>
          cases block <;> simp [deletedBy, handedOver]
      | true =>
          rw [requested rfl]
          cases block with
          | copy bytes =>
              rfl
          | pointer pointer =>
              by_cases isEnd : pointer = chEndoftransmission
              · simp [deletedBy, handedOver, ElemBlock.isEndoftransmission,
                  ElemBlock.userPointer, isEnd]
              · simp [deletedBy, handedOver, ElemBlock.isEndoftransmission,
                  ElemBlock.userPointer, isEnd]

section Sections

variable {settings : Settings} {ch : ChH} {queue : List Item}
  {frame : List Nat}

/-- The last part of `_ch_put`, when there is room. -/
theorem chPutLink_section
    {element : Nat}
    {block : Block}
    {place : Place}
    (holds : Holds settings ch queue)
    (owns : ch.heap.Owns (element :: (cellsOf queue ++ frame)))
    (prepared :
      ch.heap.cell element =
        some ⟨storedBlock settings.datalen block, none⟩)
    (room : settings.size = 0 ∨ queue.length < settings.size) :
    SectionSpec settings (.put element block place) queue frame ch
      (chPutLink ch element block place) := by
  obtain ⟨next, links, nextHolds, nextOwns, noAllocation, agree, waiting⟩ :=
    chPutLink_spec holds owns prepared place
  refine ⟨next, _, _, links, .putLinks (storedBlock_queuedAs _ block) room,
    nextHolds, ?_, noAllocation, agree, ?_⟩
  · apply nextOwns.perm
    cases place with
    | std =>
        simpa [Place.insert, pendingAfter, heldElement] using
          List.perm_middle.symm
    | top =>
        simp [Place.insert, pendingAfter, heldElement]
  · intro condvar
    simp [waiting, pendingAfter, waitsFor]

/-- The wait loop of `_ch_put` in a blocking channel of fixed size. -/
theorem chPutLoop_section
    {element : Nat}
    {block : Block}
    {place : Place}
    (holds : Holds settings ch queue)
    (owns : ch.heap.Owns (element :: (cellsOf queue ++ frame)))
    (prepared :
      ch.heap.cell element =
        some ⟨storedBlock settings.datalen block, none⟩)
    (blocking : settings.blocking = true)
    (fixed : settings.size ≠ 0) :
    SectionSpec settings (.put element block place) queue frame ch
      (chPutLoop ch element block place) := by
  unfold chPutLoop
  split
  next full =>
    have isFull : settings.size ≤ queue.length := by
      rw [holds.count, holds.maxSize] at full
      exact_mod_cast full
    refine ⟨_, .sleeps, queue, rfl, .putSleeps blocking fixed isFull,
      ⟨holds.magic, holds.datalen, holds.maxSize, holds.blocking,
        holds.count, holds.chain, holds.tail⟩, ?_, ⟨rfl, rfl⟩,
      AgreeOn.refl _ _, ?_⟩
    · exact owns.perm List.perm_middle.symm
    · intro condvar
      cases condvar <;> simp [ChH.waitingThreads, pendingAfter, waitsFor,
        Pending.condvar]
  next room =>
    refine chPutLink_section holds owns prepared (.inr ?_)
    rw [holds.count, holds.maxSize] at room
    omega

/-- The first section of `_ch_put`. -/
theorem chPutEnter_section
    {element : Nat}
    {block : Block}
    {place : Place}
    (holds : Holds settings ch queue)
    (owns : ch.heap.Owns (element :: (cellsOf queue ++ frame)))
    (prepared :
      ch.heap.cell element =
        some ⟨storedBlock settings.datalen block, none⟩) :
    SectionSpec settings (.put element block place) queue frame ch
      (chPutEnter ch element block place) := by
  unfold chPutEnter
  split
  next sized =>
    have fixed : settings.size ≠ 0 := by
      rw [holds.maxSize] at sized
      omega
    split
    next nonBlocking =>
      have isNonBlocking : settings.blocking = false := by
        rw [← holds.blocking]
        simpa using nonBlocking
      split
      next full =>
        have isFull : settings.size ≤ queue.length := by
          rw [holds.count, holds.maxSize] at full
          exact_mod_cast full
        have agree := owns.retire_agreeOn
        refine ⟨{ ch with heap := ch.heap.retire element },
          .returned chPutChannelFull, queue, ?_,
          .putFull isNonBlocking fixed isFull,
          ⟨holds.magic, holds.datalen, holds.maxSize, holds.blocking,
            holds.count, ?_, holds.tail⟩, owns.retire, ⟨rfl, rfl⟩, ?_, ?_⟩
        · simp only [owns.release_eq List.mem_cons_self, Checked.ok_bind]
          rfl
        · exact chain_congr holds.chain
            (agree.mono (List.subset_append_left _ _))
        · exact agree.mono (List.subset_append_right _ _)
        · intro condvar
          cases condvar <;> simp [ChH.waitingThreads, pendingAfter, waitsFor]
      next room =>
        refine chPutLink_section holds owns prepared (.inr ?_)
        rw [holds.count, holds.maxSize] at room
        omega
    next blocking =>
      refine chPutLoop_section holds owns prepared ?_ fixed
      rw [← holds.blocking]
      simpa using blocking
  next unsized =>
    refine chPutLink_section holds owns prepared (.inl ?_)
    rw [holds.maxSize] at unsized
    omega

/-- The wait loop of `ch_get`. -/
theorem chGetLoop_section
    (holds : Holds settings ch queue)
    (owns : ch.heap.Owns (cellsOf queue ++ frame))
    (waits : queue = [] → settings.blocking = true) :
    SectionSpec settings .get queue frame ch (chGetLoop ch) := by
  unfold chGetLoop
  split
  next empty =>
    have isEmpty := holds.count_eq_zero.mp empty
    subst isEmpty
    refine ⟨_, .sleeps, [], rfl, .getSleeps (waits rfl),
      ⟨holds.magic, holds.datalen, holds.maxSize, holds.blocking,
        holds.count, holds.chain, holds.tail⟩, owns, ⟨rfl, rfl⟩,
      AgreeOn.refl _ _, ?_⟩
    intro condvar
    cases condvar <;> simp [ChH.waitingThreads, pendingAfter, waitsFor,
      Pending.condvar]
  next notEmpty =>
    cases queue with
    | nil =>
        exact (notEmpty (holds.count_eq_zero.mpr rfl)).elim
    | cons item rest =>
        obtain ⟨next, takes, nextHolds, nextOwns, noAllocation, agree, waiting⟩ :=
          chGetTake_spec holds (by simpa using owns)
        refine ⟨next, _, rest, ?_, .getTakes, nextHolds, nextOwns, noAllocation,
          agree, ?_⟩
        · rw [takes]
          simp [signalled, holds.maxSize]
        · intro condvar
          simp [waiting, pendingAfter, waitsFor]

/-- The first section of `ch_get`. -/
theorem chGetEnter_section
    {block : Nat}
    (holds : Holds settings ch queue)
    (owns : ch.heap.Owns (cellsOf queue ++ frame))
    (wanted : block ≠ 0) :
    SectionSpec settings .get queue frame ch (chGetEnter ch block) := by
  unfold chGetEnter
  rw [if_neg (by simp [wanted, holds.magic])]
  split
  next noData =>
    obtain ⟨empty, nonBlocking⟩ := noData
    have isEmpty := holds.count_eq_zero.mp empty
    subst isEmpty
    refine ⟨ch, .returned chGetNodata, [], rfl, .getNodata ?_, holds, owns,
      ⟨rfl, rfl⟩, AgreeOn.refl _ _, ?_⟩
    · rw [← holds.blocking]
      simpa using nonBlocking
    · intro condvar
      simp [pendingAfter, waitsFor]
  next some =>
    refine chGetLoop_section holds owns ?_
    rintro rfl
    rw [← holds.blocking]
    by_contra nonBlocking
    exact some ⟨holds.count_eq_zero.mpr rfl, nonBlocking⟩

end Sections

end Clibs.Ch
