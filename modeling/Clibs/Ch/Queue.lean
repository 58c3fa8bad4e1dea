import Clibs.Ch.Channel
import Clibs.Foundation.Segment
import Mathlib.Data.List.Nodup

namespace Clibs.Ch

/-!
# The queue in a channel

`Holds` relates a channel to the list of its elements: the chain from `head`
through `prev` is the list, `tail` is its last element and `count` its length.
Each locked section is specified by what it does to that list; cells outside
the list form a frame that the section leaves alone.
-/

open CellHeap

/-- How a channel is set up before use. -/
structure Settings where
  datalen : Datalen
  blocking : Bool
  size : Nat

/-- An element as a linked node. -/
def links (heap : CellHeap ChElem) : Links ElemBlock :=
  fun address =>
    (heap.cell address).map fun elem => (elem.block, elem.prev)

/-- The channel holds exactly the elements of the queue, in order. -/
structure Holds
    (settings : Settings)
    (ch : ChH)
    (queue : List Item) : Prop where
  magic : ch.magic = chMagicId
  datalen : ch.datalen = settings.datalen
  maxSize : ch.maxSize = settings.size
  blocking : ch.blocking = settings.blocking
  count : ch.count = queue.length
  chain : Segment (links ch.heap) ch.head queue none
  tail : ch.tail = queue.getLast?.map Prod.fst

/-- The addresses of the elements of a queue. -/
abbrev cellsOf (queue : List Item) : List Nat :=
  queue.map Prod.fst

/-- The queue after an element was put at a place. -/
def Place.insert
    (item : Item)
    (queue : List Item) : Place → List Item
  | .std =>
      queue ++ [item]
  | .top =>
      item :: queue

/-- What `ch_get` is to return for an element: an end mark has its own code. -/
def takenCode (block : ElemBlock) : Int :=
  if block = .pointer chEndoftransmission then
    chGetEndoftransmission
  else
    chOk

/-- The source tells an end mark by its pointer. -/
theorem ElemBlock.isEndoftransmission_iff
    {block : ElemBlock} :
    block.isEndoftransmission = true ↔
      block = .pointer chEndoftransmission := by
  cases block with
  | pointer address =>
      simp [ElemBlock.isEndoftransmission]
  | copy bytes =>
      simp [ElemBlock.isEndoftransmission]

/-- An element that is not an end mark is returned with `CH_OK`. -/
theorem takenCode_of_isData
    {block : ElemBlock}
    (isData : block.isEndoftransmission = false) :
    takenCode block = chOk := by
  refine if_neg fun isEnd => ?_
  rw [ElemBlock.isEndoftransmission_iff.mpr isEnd] at isData
  cases isData

section Holds

variable {settings : Settings} {ch : ChH} {queue : List Item}

@[simp] theorem links_replace
    (heap : CellHeap ChElem)
    (address : Nat)
    (elem : ChElem) :
    links (heap.replace address elem) =
      Function.update (links heap) address (some (elem.block, elem.prev)) := by
  funext other
  by_cases same : other = address
  · subst same
    simp [links, CellHeap.replace]
  · simp [links, CellHeap.replace, same]

/-- Agreement on cells is agreement on links. -/
theorem links_congr
    {cells : List Nat}
    {heap other : CellHeap ChElem}
    (agree : AgreeOn cells heap other)
    {address : Nat}
    (member : address ∈ cells) :
    links other address = links heap address := by
  rw [links, links, agree address member]

/-- The chain is where it was when only other cells changed. -/
theorem chain_congr
    {heap other : CellHeap ChElem}
    {first : Option Nat}
    (chain : Segment (links heap) first queue none)
    (agree : AgreeOn (cellsOf queue) heap other) :
    Segment (links other) first queue none :=
  chain.congr fun _ member =>
    links_congr agree (List.mem_map_of_mem member)

/-- The first element of a queue that is not empty. -/
theorem Holds.exists_head
    {item : Item}
    (holds : Holds settings ch (item :: queue)) :
    ∃ prev,
      ch.head = some item.1 ∧
        ch.heap.cell item.1 = some ⟨item.2, prev⟩ ∧
        Segment (links ch.heap) prev queue none := by
  obtain ⟨prev, isHead, linked, rest⟩ := holds.chain
  obtain ⟨⟨block, link⟩, isCell, same⟩ :=
    Option.map_eq_some_iff.mp linked
  cases same
  exact ⟨link, isHead, isCell, rest⟩

/-- The head of a channel is the first element of its queue. -/
theorem Holds.head
    (holds : Holds settings ch queue) :
    ch.head = queue.head?.map Prod.fst := by
  cases queue with
  | nil =>
      exact holds.chain
  | cons item rest =>
      obtain ⟨prev, isHead, -⟩ := holds.exists_head
      exact isHead

/-- A chain element is read from its cell. -/
theorem read_of_cell
    {heap : CellHeap ChElem}
    {address : Nat}
    {elem : ChElem}
    (isCell : heap.cell address = some elem) :
    heap.read address = .ok elem := by
  simp [CellHeap.read, isCell]

/-- The count is zero exactly when the queue is empty. -/
theorem Holds.count_eq_zero
    (holds : Holds settings ch queue) :
    ch.count = 0 ↔ queue = [] := by
  rw [holds.count]
  simp

/-- Linking an element puts it at its place in the chain. -/
theorem chLinkElement_spec
    {element : Nat}
    {block : ElemBlock}
    {frame : List Nat}
    (holds : Holds settings ch queue)
    (owns : ch.heap.Owns (element :: (cellsOf queue ++ frame)))
    (prepared : ch.heap.cell element = some ⟨block, none⟩)
    (place : Place) :
    ∃ head tail heap,
      chLinkElement ch element place =
          .ok { ch with head := head, tail := tail, heap := heap } ∧
        Segment (links heap) head
          (place.insert (element, block) queue) none ∧
        tail =
          (place.insert (element, block) queue).getLast?.map Prod.fst ∧
        heap.Owns (element :: (cellsOf queue ++ frame)) ∧
        NoAllocation ch.heap heap ∧
        AgreeOn frame ch.heap heap := by
  have elementFresh : element ∉ cellsOf queue ++ frame :=
    (List.nodup_cons.mp owns.nodup).1
  have isLinked : links ch.heap element = some (block, none) := by
    simp [links, prepared]
  cases place with
  | std =>
      rcases List.eq_nil_or_concat' queue with rfl | ⟨front, last, rfl⟩
      · refine ⟨some element, some element, ch.heap, ?_,
          ⟨none, rfl, isLinked, rfl⟩, rfl, owns, ⟨rfl, rfl⟩, AgreeOn.refl _ _⟩
        simp only [chLinkElement, holds.count_eq_zero.mpr rfl, ↓reduceIte]
      · obtain ⟨address, value⟩ := last
        have notEmpty : ch.count ≠ 0 :=
          mt holds.count_eq_zero.mp (by simp)
        have isTail : ch.tail = some address := by
          simp [holds.tail]
        obtain ⟨-, lastLinked⟩ := segment_concat.mp holds.chain
        obtain ⟨⟨stored, _⟩, lastCell, same⟩ :=
          Option.map_eq_some_iff.mp lastLinked
        cases same
        have others :
            address ∉ element :: (cellsOf front ++ frame) := by
          have distinct :
              (element :: cellsOf front ++ address :: frame).Nodup := by
            simpa using owns.nodup
          exact (List.nodup_cons.mp (List.nodup_middle.mp distinct)).1
        have agree :
            AgreeOn (element :: (cellsOf front ++ frame)) ch.heap
              (ch.heap.replace address ⟨stored, some element⟩) :=
          replace_agreeOn others _
        have addressHeld :
            address ∈ element ::
              (cellsOf (front ++ [(address, stored)]) ++ frame) := by
          simp
        refine ⟨ch.head, some element,
          ch.heap.replace address ⟨stored, some element⟩, ?_, ?_, ?_,
          owns.replace addressHeld _, ⟨rfl, rfl⟩, ?_⟩
        · simp only [chLinkElement, notEmpty, ↓reduceIte, isTail,
            read_of_cell lastCell, owns.write_eq addressHeld,
            Checked.ok_bind]
        · refine holds.chain.link_last ?_ ?_ ?_
          · intro node member
            exact links_congr agree
              (by simp [List.mem_map_of_mem member])
          · simp
          · rw [links_congr agree (by simp), isLinked]
        · simp [Place.insert]
        · exact agree.mono fun cell member => by simp [member]
  | top =>
      cases queue with
      | nil =>
          refine ⟨some element, some element, ch.heap, ?_,
            ⟨none, rfl, isLinked, rfl⟩, rfl, owns, ⟨rfl, rfl⟩, AgreeOn.refl _ _⟩
          simp only [chLinkElement, holds.count_eq_zero.mpr rfl, ↓reduceIte]
      | cons item rest =>
          have notEmpty : ch.count ≠ 0 :=
            mt holds.count_eq_zero.mp (by simp)
          have member : element ∈ element :: (cellsOf (item :: rest) ++ frame) :=
            List.mem_cons_self
          have agree :
              AgreeOn (cellsOf (item :: rest) ++ frame) ch.heap
                (ch.heap.replace element ⟨block, ch.head⟩) :=
            replace_agreeOn elementFresh _
          refine ⟨some element, ch.tail,
            ch.heap.replace element ⟨block, ch.head⟩, ?_,
            ⟨ch.head, rfl, ?_, ?_⟩, ?_, owns.replace member _, ⟨rfl, rfl⟩,
            ?_⟩
          · simp only [chLinkElement, notEmpty, ↓reduceIte,
              read_of_cell prepared, Checked.ok_bind,
              owns.write_eq member]
          · simp
          · exact chain_congr holds.chain
              (agree.mono (List.subset_append_left _ _))
          · simp [holds.tail, Place.insert]
          · exact agree.mono (List.subset_append_right _ _)

/--
Linking an element: the queue gains it at the chosen place, the count is
returned, and a getter is signalled when the channel blocks.
-/
theorem chPutLink_spec
    {element : Nat}
    {block : Block}
    {frame : List Nat}
    (holds : Holds settings ch queue)
    (owns : ch.heap.Owns (element :: (cellsOf queue ++ frame)))
    (prepared :
      ch.heap.cell element =
        some ⟨storedBlock settings.datalen block, none⟩)
    (place : Place) :
    ∃ next,
      chPutLink ch element block place =
          .ok (next,
            .linked (element, storedBlock settings.datalen block)
              (queue.length + 1),
            if settings.blocking then some .get else none) ∧
        Holds settings next
          (place.insert (element, storedBlock settings.datalen block)
            queue) ∧
        next.heap.Owns (element :: (cellsOf queue ++ frame)) ∧
        NoAllocation ch.heap next.heap ∧
        AgreeOn frame ch.heap next.heap ∧
        ∀ condvar,
          next.waitingThreads condvar = ch.waitingThreads condvar := by
  obtain ⟨head, tail, heap, links, chain, isTail, heapOwns, noAllocation, agree⟩ :=
    chLinkElement_spec holds owns prepared place
  refine ⟨{ ch with
      head := head
      tail := tail
      heap := heap
      count := ch.count + 1 }, ?_,
    ⟨holds.magic, holds.datalen, holds.maxSize, holds.blocking, ?_,
      chain, isTail⟩, heapOwns, noAllocation, agree,
    fun condvar => by cases condvar <;> rfl⟩
  · simp only [chPutLink, links, Checked.ok_bind, holds.datalen, holds.count]
    rw [← holds.blocking]
    rfl
  · cases place <;> simp [Place.insert, holds.count]

/--
Taking the first element of a queue that is not empty: the element is returned
and released, and a putter is signalled when the size is fixed and some putter
waits.
-/
theorem chGetTake_spec
    {item : Item}
    {frame : List Nat}
    (holds : Holds settings ch (item :: queue))
    (owns : ch.heap.Owns (item.1 :: (cellsOf queue ++ frame))) :
    ∃ next,
      chGetTake ch =
          .ok (next, .taken item (takenCode item.2),
            if ch.maxSize ≠ 0 ∧ ch.putWaitingThreads > 0 then
              some .put
            else
              none) ∧
        Holds settings next queue ∧
        next.heap.Owns (cellsOf queue ++ frame) ∧
        NoAllocation ch.heap next.heap ∧
        AgreeOn frame ch.heap next.heap ∧
        ∀ condvar,
          next.waitingThreads condvar = ch.waitingThreads condvar := by
  obtain ⟨address, block⟩ := item
  obtain ⟨prev, isHead, headCell, chain⟩ := holds.exists_head
  have agree := owns.retire_agreeOn
  have released := owns.release_eq (List.mem_cons_self)
  have newTail :
      (if prev = none then none else ch.tail) =
        queue.getLast?.map Prod.fst := by
    cases queue with
    | nil =>
        cases chain
        rfl
    | cons first rest =>
        obtain ⟨next, rfl, -⟩ := chain
        simp [holds.tail]
  have newCount : ch.count - 1 = queue.length := by
    simp [holds.count]
  refine ⟨{ ch with
      head := prev
      tail := if prev = none then none else ch.tail
      heap := ch.heap.retire address
      count := ch.count - 1 }, ?_,
    ⟨holds.magic, holds.datalen, holds.maxSize, holds.blocking, newCount,
      ?_, newTail⟩, owns.retire, ⟨rfl, rfl⟩, ?_,
    fun condvar => by cases condvar <;> rfl⟩
  · simp only [chGetTake, isHead, read_of_cell headCell, Checked.ok_bind,
      chDetach, released, takenCode, ElemBlock.isEndoftransmission_iff]
    split <;> rfl
  · exact chain_congr chain (agree.mono (List.subset_append_left _ _))
  · exact agree.mono (List.subset_append_right _ _)

/-- What `ch_clean` passes to `del_func`, for a whole queue. -/
def deletedFrom
    (datalen : Datalen)
    (delFunc : Bool)
    (items : List Item) : List Nat :=
  items.flatMap fun item => deletedBy datalen delFunc item.2

/-- The loop of `ch_clean` releases the rest of the chain, element by element. -/
theorem chCleanLoop_spec
    (delFunc : Bool)
    {turns element : Nat}
    {block : ElemBlock}
    {prev : Option Nat}
    {frame : List Nat}
    (chain : Segment (links ch.heap) prev queue none)
    (isCell : ch.heap.cell element = some ⟨block, prev⟩)
    (owns : ch.heap.Owns (element :: (cellsOf queue ++ frame)))
    (enough : queue.length < turns) :
    ∃ heap,
      chCleanLoop delFunc turns ch element prev =
          .ok ({ ch with
              heap := heap
              count := ch.count - (queue.length + 1)
              head := none
              tail := none },
            (element, block) :: queue,
            deletedFrom ch.datalen delFunc ((element, block) :: queue)) ∧
        heap.Owns frame ∧
        NoAllocation ch.heap heap ∧
        AgreeOn frame ch.heap heap := by
  induction queue generalizing ch turns element block prev with
  | nil =>
      obtain ⟨turns, rfl⟩ := Nat.exists_eq_add_of_lt enough
      cases chain
      refine ⟨ch.heap.retire element, ?_, owns.retire, ⟨rfl, rfl⟩,
        owns.retire_agreeOn⟩
      simp [chCleanLoop, read_of_cell isCell,
        owns.release_eq List.mem_cons_self, deletedFrom]
  | cons item rest inductionHypothesis =>
      obtain ⟨turns, rfl⟩ := Nat.exists_eq_add_of_lt enough
      obtain ⟨address, value⟩ := item
      obtain ⟨next, rfl, linked, restChain⟩ := chain
      obtain ⟨⟨stored, link⟩, itemCell, same⟩ :=
        Option.map_eq_some_iff.mp linked
      cases same
      have agree := owns.retire_agreeOn
      have itemKept :
          (ch.heap.retire element).cell address = some ⟨stored, link⟩ := by
        rw [agree address (by simp), itemCell]
      have restKept :
          Segment (links (ch.heap.retire element)) link rest none :=
        chain_congr restChain
          (agree.mono fun cell member => by
            rcases List.mem_map.mp member with ⟨node, isNode, rfl⟩
            simp [List.mem_map_of_mem isNode])
      let smaller : ChH :=
        { ch with
          heap := ch.heap.retire element
          count := ch.count - 1 }
      have smallerOwns :
          smaller.heap.Owns (address :: (cellsOf rest ++ frame)) := by
        simpa using owns.retire
      have fewer : rest.length < rest.length + 1 + turns := by
        omega
      obtain ⟨heap, loops, heapOwns, ⟨sameNext, sameGrants⟩, heapAgree⟩ :=
        inductionHypothesis restKept itemKept smallerOwns fewer
      refine ⟨heap, ?_, heapOwns, ⟨sameNext, sameGrants⟩,
        (agree.mono (List.subset_append_right _ _)).trans heapAgree⟩
      have counts :
          ch.count - 1 - ((rest.length : Int) + 1) =
            ch.count - (((rest.length + 1 : Nat) : Int) + 1) := by
        omega
      simp only [chCleanLoop, read_of_cell isCell,
        owns.release_eq List.mem_cons_self, Checked.ok_bind,
        read_of_cell itemKept, List.length_cons, loops, smaller, counts]
      rfl

/--
Cleaning releases the whole queue, leaves the channel empty, and hands the
discarded pointers to the delete function.
-/
theorem chClean_spec
    {delFunc : Bool}
    {frame : List Nat}
    (holds : Holds settings ch queue)
    (owns : ch.heap.Owns (cellsOf queue ++ frame))
    (requested : delFunc = true → settings.datalen = .voidp) :
    ∃ next,
      chClean ch delFunc =
          .ok (next,
            .cleaned queue (deletedFrom settings.datalen delFunc queue) chOk,
            none) ∧
        Holds settings next [] ∧
        next.heap.Owns frame ∧
        NoAllocation ch.heap next.heap ∧
        AgreeOn frame ch.heap next.heap ∧
        ∀ condvar,
          next.waitingThreads condvar = ch.waitingThreads condvar := by
  have accepted : ¬ (delFunc = true ∧ ch.datalen ≠ .voidp) := by
    rintro ⟨wanted, notVoidp⟩
    exact notVoidp (holds.datalen.trans (requested wanted))
  cases queue with
  | nil =>
      refine ⟨ch, ?_, holds, owns, ⟨rfl, rfl⟩, AgreeOn.refl _ _,
        fun _ => rfl⟩
      simp [chClean, holds.magic, accepted, holds.count_eq_zero.mpr,
        deletedFrom]
  | cons item rest =>
      obtain ⟨address, block⟩ := item
      obtain ⟨prev, isHead, headCell, chain⟩ := holds.exists_head
      have notEmpty : ch.count ≠ 0 :=
        mt holds.count_eq_zero.mp (by simp)
      have enough : rest.length < ch.heap.next + 1 := by
        have bound := owns.length_le
        simp at bound
        omega
      obtain ⟨heap, loops, heapOwns, noAllocation, agree⟩ :=
        chCleanLoop_spec delFunc chain headCell owns enough
      refine ⟨{ ch with
          heap := heap
          count := ch.count - (rest.length + 1)
          head := none
          tail := none }, ?_,
        ⟨holds.magic, holds.datalen, holds.maxSize, holds.blocking, ?_,
          rfl, rfl⟩, heapOwns, noAllocation, agree,
    fun condvar => by cases condvar <;> rfl⟩
      · rw [chClean, if_neg (not_not_intro holds.magic), if_neg accepted,
          if_pos notEmpty, isHead]
        simp only [read_of_cell headCell, loops, Checked.ok_bind,
          holds.datalen]
      · simp [holds.count]

/-- What a peek reports when the first element is not a marker. -/
def peekedAt : List Item → ChEvent
  | [] =>
      .returned chGetNodata
  | item :: _ =>
      .peeked (some item.2) chOk

/-- Peeking at an empty queue, or at an element that is not a marker. -/
theorem chPeek_spec
    {block : Nat}
    (holds : Holds settings ch queue)
    (wanted : block ≠ 0)
    (unmarked :
      ∀ item ∈ queue.head?, item.2.isEndoftransmission = false) :
    chPeek ch block = .ok (ch, peekedAt queue, none) := by
  cases queue with
  | nil =>
      simp [chPeek, wanted, holds.magic, holds.count_eq_zero.mpr, peekedAt]
  | cons item rest =>
      obtain ⟨prev, isHead, headCell, -⟩ := holds.exists_head
      have notEmpty : ch.count ≠ 0 :=
        mt holds.count_eq_zero.mp (by simp)
      have isData : item.2.isEndoftransmission = false :=
        unmarked item rfl
      simp [chPeek, wanted, holds.magic, notEmpty, isHead,
        read_of_cell headCell, isData, peekedAt]

end Holds

end Clibs.Ch
