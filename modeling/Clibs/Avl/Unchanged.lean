import Clibs.Avl.Map

namespace Clibs.Avl

/-!
# Calls that leave the tree as it is

Inserting a key that is present and deleting one that is absent still run the
height update and the rebalancing tests on every ancestor.  In a balanced tree
each of these ancestors stores the height that the update computes and passes no
test for a rotation, so the tree that is put together again is the same one.
-/

open AvlNode SortedAssoc

/-- The subtrees whose roots a call for the key compares with, from the top. -/
def searchPath
    {α : Type} :
    Tree α → CString → List (Tree α)
  | .null, _ =>
      []
  | .node nodeKey nodeData nodeHeight left right, key =>
      .node nodeKey nodeData nodeHeight left right ::
        if strcmp key nodeKey < 0 then
          searchPath left key
        else if strcmp key nodeKey > 0 then
          searchPath right key
        else
          []

/-- The height update leaves the node, and no test for a rotation succeeds. -/
structure AvlNode.Settled
    {κ δ : Type}
    (node : AvlNode κ δ) : Prop where
  height : storeHeight node = node
  notLeftHeavy : ¬ avlGetBalance node > 1
  notRightHeavy : ¬ avlGetBalance node < -1

section Balanced

variable {κ δ : Type} {tree : AvlNode κ δ}

/-- The root of a balanced tree is settled. -/
theorem AvlNode.Balanced.settled
    (balanced : tree.Balanced) :
    tree.Settled := by
  cases tree with
  | null =>
      exact ⟨rfl, by simp [avlGetBalance], by simp [avlGetBalance]⟩
  | node key data height left right =>
      obtain ⟨isExact, leftSmall, rightSmall, leftBalanced, rightBalanced⟩ :=
        balanced
      refine ⟨?_, ?_, ?_⟩
      · rw [storeHeight_node leftBalanced rightBalanced, isExact]
      · rw [avlGetBalance_node leftBalanced rightBalanced]
        omega
      · rw [avlGetBalance_node leftBalanced rightBalanced]
        omega

/-- The tail of a deletion keeps a settled node. -/
theorem AvlNode.Settled.deleteRebalance
    (settled : tree.Settled) :
    avlDeleteRebalance tree = .ok tree := by
  cases tree with
  | null =>
      rfl
  | node key data height left right =>
      obtain ⟨sameHeight, notLeftHeavy, notRightHeavy⟩ := settled
      simp only [avlDeleteRebalance, sameHeight, notLeftHeavy, notRightHeavy,
        false_and, ↓reduceIte]

end Balanced

section Unchanged

variable {α : Type} {tree : Tree α}

/-- The nodes that a call looks at are settled. -/
theorem settled_of_searchPath
    (balanced : tree.Balanced)
    {key : CString}
    {node : Tree α}
    (onPath : node ∈ searchPath tree key) :
    node.Settled := by
  induction tree with
  | null =>
      cases onPath
  | node nodeKey nodeData nodeHeight left right leftSettled rightSettled =>
      obtain ⟨-, -, -, leftBalanced, rightBalanced⟩ := id balanced
      rw [searchPath, List.mem_cons] at onPath
      rcases onPath with rfl | onPath
      · exact balanced.settled
      · split_ifs at onPath
        · exact leftSettled leftBalanced onPath
        · exact rightSettled rightBalanced onPath
        · cases onPath

/-- The tail of an insertion keeps a balanced node. -/
theorem avlInsertRebalance_balanced
    {nodeKey : CString}
    {nodeData : Option α}
    {nodeHeight : Int}
    {left right : Tree α}
    (balanced : (node nodeKey nodeData nodeHeight left right).Balanced)
    (key : CString) :
    avlInsertRebalance key nodeKey nodeData nodeHeight left right =
      .ok (.node nodeKey nodeData nodeHeight left right) := by
  obtain ⟨isExact, leftSmall, rightSmall, leftBalanced, rightBalanced⟩ :=
    balanced
  rw [avlInsertRebalance_keeps leftBalanced rightBalanced leftSmall rightSmall,
    isExact]

/-- Inserting a key that is present returns the tree. -/
theorem avlInsertNode_present
    (balanced : tree.Balanced)
    (increasing : Increasing tree.entries)
    {key : CString}
    (present : find key tree.entries ≠ none)
    (data : Option α) :
    avlInsertNode tree key data = .ok tree := by
  induction tree with
  | null =>
      exact (present rfl).elim
  | node nodeKey nodeData nodeHeight left right leftSame rightSame =>
      obtain ⟨-, -, -, leftBalanced, rightBalanced⟩ := id balanced
      obtain ⟨leftIncreasing, rightIncreasing, -, -⟩ :=
        increasing_pivot.mp increasing
      simp only [AvlNode.entries] at present
      rcases lt_trichotomy key nodeKey with below | same | above
      · rw [find_pivot_left increasing below] at present
        rw [avlInsertNode, if_pos (strcmp_neg.mpr below),
          leftSame leftBalanced leftIncreasing present]
        exact avlInsertRebalance_balanced balanced key
      · rw [avlInsertNode, if_neg (mt strcmp_neg.mp same.not_lt),
          if_neg (mt strcmp_pos.mp same.not_gt)]
      · rw [find_pivot_right increasing above] at present
        rw [avlInsertNode, if_neg (mt strcmp_neg.mp above.not_gt),
          if_pos (strcmp_pos.mpr above),
          rightSame rightBalanced rightIncreasing present]
        exact avlInsertRebalance_balanced balanced key

/-- Deleting a key that is absent returns the tree and writes nothing. -/
theorem avlDeleteNode_absent
    (balanced : tree.Balanced)
    (increasing : Increasing tree.entries)
    {key : CString}
    (absent : find key tree.entries = none) :
    avlDeleteNode tree key = .ok (tree, none) := by
  induction tree with
  | null =>
      rfl
  | node nodeKey nodeData nodeHeight left right leftSame rightSame =>
      obtain ⟨-, -, -, leftBalanced, rightBalanced⟩ := id balanced
      obtain ⟨leftIncreasing, rightIncreasing, -, -⟩ :=
        increasing_pivot.mp increasing
      have keeps := balanced.settled.deleteRebalance
      simp only [AvlNode.entries] at absent
      rcases lt_trichotomy key nodeKey with below | same | above
      · rw [find_pivot_left increasing below] at absent
        simp only [avlDeleteNode, if_pos (strcmp_neg.mpr below),
          leftSame leftBalanced leftIncreasing absent, Checked.ok_bind, keeps]
      · subst same
        rw [find_pivot_self increasing] at absent
        cases absent
      · rw [find_pivot_right increasing above] at absent
        simp only [avlDeleteNode, if_neg (mt strcmp_neg.mp above.not_gt),
          if_pos (strcmp_pos.mpr above),
          rightSame rightBalanced rightIncreasing absent, Checked.ok_bind,
          keeps]

end Unchanged

/--
In every tree that calls build, inserting a present key and deleting an absent
one return the tree node by node as it was, and on the way neither call comes
to a node whose height is updated or that is rotated.
-/
theorem absent_deletions_and_present_insertions_keep_tree
    {α : Type}
    (calls : List (AvlCall α)) :
    ∃ ah results,
      runCalls avlStep avlCreate calls = .ok (ah, results) ∧
        ∀ key,
          (∀ stored data,
            (key, stored) ∈ ah.root.entries →
            avlInsert ah key data = .ok (ah, 0)) ∧
          ((∀ stored, (key, stored) ∉ ah.root.entries) →
            avlDel ah key = .ok (ah, none)) ∧
          ∀ node ∈ searchPath ah.root key, node.Settled := by
  obtain ⟨ah, results, map, runs, -, represents⟩ :=
    avlRun_refines calls
  refine ⟨ah, results, runs, ?_⟩
  intro key
  refine ⟨?_, ?_, fun node => settled_of_searchPath represents.balanced⟩
  · intro stored data member
    have present : find key ah.root.entries ≠ none := by
      rw [(find_eq_some_iff represents.increasing).mpr member]
      exact Option.some_ne_none stored
    rw [avlInsert, avlInsertNode_present represents.balanced
      represents.increasing present]
    rfl
  · intro notMember
    have absent : find key ah.root.entries = none := by
      by_contra present
      obtain ⟨stored, isStored⟩ := Option.ne_none_iff_exists'.mp present
      exact notMember stored
        ((find_eq_some_iff represents.increasing).mp isStored)
    rw [avlDel_eq, avlDeleteNode_absent represents.balanced
      represents.increasing absent]
    rfl

end Clibs.Avl
