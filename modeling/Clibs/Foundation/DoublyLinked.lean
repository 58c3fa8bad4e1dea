import Mathlib.Data.List.Basic
import Mathlib.Data.List.Induction
import Mathlib.Logic.Function.Basic
import Mathlib.Tactic.Common

namespace Clibs

/-!
# Doubly linked lists

Nodes have a link to the node above and one to the node below.
`DoublyLinked next prev above nodes below` says that the listed nodes are linked
in this order, the first one to `above` and the last one to `below`.  A list can
be cut anywhere, and assigning to a link at its end changes only where that end
is linked to.  `Chained` is the same for lists with a single link.
-/

/--
The nodes are linked in order: `next` leads from a node to the one before it in
the list, `prev` to the one after it.
-/
def DoublyLinked
    {Node : Type}
    (next prev : Node → Option Node) :
    Option Node → List Node → Option Node → Prop
  | _, [], _ =>
      True
  | above, node :: rest, below =>
      next node = above ∧
        prev node = rest.head?.or below ∧
        DoublyLinked next prev (some node) rest below

/-- Following the link from the first node visits the nodes and then ends. -/
def Chained
    {Node : Type}
    (link : Node → Option Node) :
    Option Node → List Node → Prop
  | first, [] =>
      first = none
  | first, node :: rest =>
      first = some node ∧ Chained link (link node) rest

namespace DoublyLinked

variable {Node : Type}
  {next prev : Node → Option Node}
  {above below : Option Node}

/-- A list can be cut: each part is linked to the end of the other. -/
theorem append
    {front back : List Node} :
    DoublyLinked next prev above (front ++ back) below ↔
      DoublyLinked next prev above front (back.head?.or below) ∧
        DoublyLinked next prev (front.getLast?.or above) back below := by
  induction front generalizing above with
  | nil =>
      simp [DoublyLinked]
  | cons node rest inductionHypothesis =>
      have lastLink :
          (node :: rest).getLast?.or above =
            rest.getLast?.or (some node) := by
        rw [List.getLast?_cons]
        cases rest.getLast? with
        | none =>
            rfl
        | some last =>
            rfl
      simp only [List.cons_append, DoublyLinked, inductionHypothesis,
        List.head?_append, Option.or_assoc, lastLink, and_assoc]

/-- The last node of a list is linked to what is below. -/
theorem concat
    {front : List Node}
    {node : Node} :
    DoublyLinked next prev above (front ++ [node]) below ↔
      DoublyLinked next prev above front (some node) ∧
        next node = front.getLast?.or above ∧
        prev node = below := by
  simp [append, DoublyLinked]

/-- Only the links of the listed nodes matter. -/
theorem congr
    {otherNext otherPrev : Node → Option Node}
    {nodes : List Node}
    (linked : DoublyLinked next prev above nodes below)
    (sameNext : ∀ node ∈ nodes, otherNext node = next node)
    (samePrev : ∀ node ∈ nodes, otherPrev node = prev node) :
    DoublyLinked otherNext otherPrev above nodes below := by
  induction nodes generalizing above with
  | nil =>
      trivial
  | cons node rest inductionHypothesis =>
      rw [List.forall_mem_cons] at sameNext samePrev
      obtain ⟨isAbove, isBelow, linkedRest⟩ := linked
      exact ⟨sameNext.1.trans isAbove, samePrev.1.trans isBelow,
        inductionHypothesis linkedRest sameNext.2 samePrev.2⟩

variable [DecidableEq Node]

/-- Assigning to a `next` link outside the list leaves the list. -/
theorem update_next
    {nodes : List Node}
    {node : Node}
    (linked : DoublyLinked next prev above nodes below)
    (outside : node ∉ nodes)
    (link : Option Node) :
    DoublyLinked (Function.update next node link) prev above nodes below :=
  linked.congr
    (fun _ member =>
      Function.update_of_ne (ne_of_mem_of_not_mem member outside) ..)
    fun _ _ => rfl

/-- Assigning to a `prev` link outside the list leaves the list. -/
theorem update_prev
    {nodes : List Node}
    {node : Node}
    (linked : DoublyLinked next prev above nodes below)
    (outside : node ∉ nodes)
    (link : Option Node) :
    DoublyLinked next (Function.update prev node link) above nodes below :=
  linked.congr (fun _ _ => rfl)
    fun _ member =>
      Function.update_of_ne (ne_of_mem_of_not_mem member outside) ..

/-- Assigning to the `next` link of the first node links it elsewhere. -/
theorem update_first
    {node : Node}
    {rest : List Node}
    (linked : DoublyLinked next prev above (node :: rest) below)
    (distinct : node ∉ rest)
    (link : Option Node) :
    DoublyLinked (Function.update next node link) prev link (node :: rest)
      below :=
  ⟨Function.update_self .., linked.2.1, linked.2.2.update_next distinct link⟩

/-- Assigning to the `prev` link of the last node links it elsewhere. -/
theorem update_last
    {front : List Node}
    {node : Node}
    (linked : DoublyLinked next prev above (front ++ [node]) below)
    (distinct : node ∉ front)
    (link : Option Node) :
    DoublyLinked next (Function.update prev node link) above (front ++ [node])
      link := by
  obtain ⟨linkedFront, isAbove, -⟩ := concat.mp linked
  exact concat.mpr ⟨linkedFront.update_prev distinct link, isAbove,
    Function.update_self ..⟩

/-- A node outside the list is linked above its first node. -/
theorem push
    {first node : Node}
    {rest : List Node}
    {newAbove : Option Node}
    (linked : DoublyLinked next prev above (first :: rest) below)
    (distinct : first ∉ rest)
    (outside : node ∉ first :: rest)
    (isAbove : next node = newAbove) :
    DoublyLinked (Function.update next first (some node))
      (Function.update prev node (some first)) newAbove
      (node :: first :: rest) below := by
  have different : node ≠ first := fun same => outside (by simp [same])
  refine ⟨?_, ?_, ?_⟩
  · rw [Function.update_of_ne different]
    exact isAbove
  · exact Function.update_self ..
  · exact (linked.update_first distinct (some node)).update_prev outside _

/-- A node is taken out by linking its neighbours to each other. -/
theorem unlink
    {front back : List Node}
    {upper node lower : Node}
    (linked :
      DoublyLinked next prev above (front ++ [upper] ++ node :: lower :: back)
        below)
    (distinct : (front ++ [upper] ++ node :: lower :: back).Nodup) :
    DoublyLinked (Function.update next lower (some upper))
      (Function.update prev upper (some lower)) above
      (front ++ [upper] ++ lower :: back) below := by
  obtain ⟨linkedFront, linkedBack⟩ := append.mp linked
  obtain ⟨-, -, linkedRest⟩ := linkedBack
  rw [List.nodup_append] at distinct
  obtain ⟨distinctFront, distinctBack, apart⟩ := distinct
  have upperFront : upper ∉ front := by
    rw [List.nodup_append] at distinctFront
    exact fun member => distinctFront.2.2 upper member upper (by simp) rfl
  have lowerOnce : lower ∉ back := by
    rw [List.nodup_cons, List.nodup_cons] at distinctBack
    exact distinctBack.2.1
  have lowerFront : lower ∉ front ++ [upper] :=
    fun member => apart lower member lower (by simp) rfl
  have upperBack : upper ∉ lower :: back :=
    fun member => apart upper (by simp) upper (List.mem_cons_of_mem _ member) rfl
  have newBack :=
    (linkedRest.update_first lowerOnce (some upper)).update_prev upperBack
      (some lower)
  apply append.mpr
  refine ⟨?_, ?_⟩
  · exact (linkedFront.update_last upperFront (some lower)).update_next
      lowerFront _
  · simpa using newBack

end DoublyLinked

/-- Only the links of the chained nodes matter. -/
theorem Chained.congr
    {Node : Type}
    {link otherLink : Node → Option Node}
    {first : Option Node}
    {nodes : List Node}
    (chained : Chained link first nodes)
    (sameLink : ∀ node ∈ nodes, otherLink node = link node) :
    Chained otherLink first nodes := by
  induction nodes generalizing first with
  | nil =>
      exact chained
  | cons head rest inductionHypothesis =>
      rw [List.forall_mem_cons] at sameLink
      obtain ⟨isFirst, chainedRest⟩ := chained
      refine ⟨isFirst, ?_⟩
      rw [sameLink.1]
      exact inductionHypothesis chainedRest sameLink.2

/-- Assigning to a link outside the chain leaves the chain. -/
theorem Chained.update
    {Node : Type}
    [DecidableEq Node]
    {link : Node → Option Node}
    {first : Option Node}
    {nodes : List Node}
    (chained : Chained link first nodes)
    {node : Node}
    (outside : node ∉ nodes)
    (target : Option Node) :
    Chained (Function.update link node target) first nodes :=
  chained.congr fun _ member =>
    Function.update_of_ne (ne_of_mem_of_not_mem member outside) ..

/-- The last node of a chain is linked to nothing. -/
theorem Chained.last_none
    {Node : Type}
    {link : Node → Option Node}
    {first : Option Node}
    {front : List Node}
    {node : Node}
    (chained : Chained link first (front ++ [node])) :
    link node = none := by
  induction front generalizing first with
  | nil =>
      exact chained.2
  | cons head rest inductionHypothesis =>
      exact inductionHypothesis chained.2

/-- Following `prev` from the first node of a doubly linked list. -/
theorem DoublyLinked.chained_prev
    {Node : Type}
    {next prev : Node → Option Node}
    {above : Option Node}
    {nodes : List Node}
    (linked : DoublyLinked next prev above nodes none) :
    Chained prev nodes.head? nodes := by
  induction nodes generalizing above with
  | nil =>
      rfl
  | cons node rest inductionHypothesis =>
      obtain ⟨-, isBelow, linkedRest⟩ := linked
      rw [Option.or_none] at isBelow
      refine ⟨rfl, ?_⟩
      rw [isBelow]
      exact inductionHypothesis linkedRest

/-- Following `next` from the last node of a doubly linked list. -/
theorem DoublyLinked.chained_next
    {Node : Type}
    {next prev : Node → Option Node}
    {below : Option Node}
    {nodes : List Node}
    (linked : DoublyLinked next prev none nodes below) :
    Chained next nodes.getLast? nodes.reverse := by
  induction nodes using List.reverseRecOn generalizing below with
  | nil =>
      rfl
  | append_singleton front node inductionHypothesis =>
      obtain ⟨linkedFront, isAbove, -⟩ := DoublyLinked.concat.mp linked
      rw [Option.or_none] at isAbove
      rw [List.getLast?_concat, List.reverse_concat]
      refine ⟨rfl, ?_⟩
      rw [isAbove]
      exact inductionHypothesis linkedFront

end Clibs
