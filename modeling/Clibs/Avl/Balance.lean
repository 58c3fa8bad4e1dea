import Clibs.Avl.Tree

namespace Clibs.Avl

/-!
# One rebalancing pass per visited node

Every step of `avl_insert_node` and `avl_delete_node` hands back a balanced tree
whose in-order sequence is the expected one, and changes the height of the
subtree by at most one.  For an insertion the induction also has to know on
which side a subtree grew, since the source picks the rotation by comparing the
inserted key and not by the balance factor of the child.
-/

open AvlNode SortedAssoc

/-- The subtree grew on the side of its root where the key belongs. -/
def LeansToward
    {α : Type}
    (key : CString) :
    Tree α → Prop
  | .null =>
      False
  | .node nodeKey _ _ left right =>
      (key < nodeKey ∧ left.depth = right.depth + 1) ∨
        (nodeKey < key ∧ right.depth = left.depth + 1)

/-- How an insertion may change the height of a subtree. -/
inductive InsertDepth
    {α : Type}
    (key : CString)
    (before after : Tree α) : Prop where
  | same :
      after.depth = before.depth →
      InsertDepth key before after
  | fresh :
      before = .null →
      after.depth = 1 →
      InsertDepth key before after
  | grew :
      after.depth = before.depth + 1 →
      LeansToward key after →
      InsertDepth key before after

/-- A node whose children are close in height only has its height stored. -/
theorem avlInsertRebalance_keeps
    {α : Type}
    {left right : Tree α}
    (leftBalanced : left.Balanced)
    (rightBalanced : right.Balanced)
    (leftSmall : left.depth ≤ right.depth + 1)
    (rightSmall : right.depth ≤ left.depth + 1)
    (key nodeKey : CString)
    (data : Option α)
    (height : Int) :
    avlInsertRebalance key nodeKey data height left right =
      .ok (.node nodeKey data (1 + max (left.depth : Int) right.depth)
        left right) := by
  have notLeftHeavy : ¬ (left.depth : Int) - right.depth > 1 := by
    omega
  have notRightHeavy : ¬ (left.depth : Int) - right.depth < -1 := by
    omega
  simp only [avlInsertRebalance,
    storeHeight_node leftBalanced rightBalanced,
    avlGetBalance_node leftBalanced rightBalanced,
    notLeftHeavy, notRightHeavy, ↓reduceIte]

/--
A left child that grew and became too high is leaning toward the key, so the
rotation picked by the key is the one that repairs the node.
-/
theorem avlInsertRebalance_rotates_right
    {α : Type}
    {left right : Tree α}
    {key : CString}
    (leftBalanced : left.Balanced)
    (rightBalanced : right.Balanced)
    (leftDeep : left.depth = right.depth + 2)
    (leans : LeansToward key left)
    (nodeKey : CString)
    (data : Option α)
    (height : Int) :
    ∃ after,
      avlInsertRebalance key nodeKey data height left right = .ok after ∧
        Rebalanced (.node nodeKey data height left right) after ∧
        after.depth = left.depth := by
  have leftHeavy : (left.depth : Int) - right.depth > 1 := by
    omega
  cases left with
  | null =>
      exact leans.elim
  | node lKey lData lHeight lLeft lRight =>
      simp only [avlInsertRebalance,
        storeHeight_node leftBalanced rightBalanced,
        avlGetBalance_node leftBalanced rightBalanced,
        leftHeavy, ↓reduceIte, avlGetHeight]
      rcases leans with ⟨below, outerDeep⟩ | ⟨above, innerDeep⟩
      · obtain ⟨after, rotates, repaired, depthAfter⟩ :=
          avlRotateRight_repairs rfl leftBalanced rightBalanced leftDeep
            (by omega) nodeKey data
            (1 + max ((node lKey lData lHeight lLeft lRight).depth : Int)
              right.depth)
        refine ⟨after, ?_, ⟨repaired.balanced, repaired.entries⟩, by omega⟩
        rw [if_pos (strcmp_neg.mpr below)]
        exact rotates
      · obtain ⟨rotated, after, rotates, rotatesNode, repaired, depthAfter⟩ :=
          avlRotateLeftRight_repairs rfl leftBalanced rightBalanced leftDeep
            (by omega) nodeKey data
            (1 + max ((node lKey lData lHeight lLeft lRight).depth : Int)
              right.depth)
        refine ⟨after, ?_, ⟨repaired.balanced, repaired.entries⟩, depthAfter⟩
        rw [if_neg (mt strcmp_neg.mp above.not_gt),
          if_pos (strcmp_pos.mpr above), rotates]
        exact rotatesNode

/-- The mirror image of `avlInsertRebalance_rotates_right`. -/
theorem avlInsertRebalance_rotates_left
    {α : Type}
    {left right : Tree α}
    {key : CString}
    (leftBalanced : left.Balanced)
    (rightBalanced : right.Balanced)
    (rightDeep : right.depth = left.depth + 2)
    (leans : LeansToward key right)
    (nodeKey : CString)
    (data : Option α)
    (height : Int) :
    ∃ after,
      avlInsertRebalance key nodeKey data height left right = .ok after ∧
        Rebalanced (.node nodeKey data height left right) after ∧
        after.depth = right.depth := by
  have notLeftHeavy : ¬ (left.depth : Int) - right.depth > 1 := by
    omega
  have rightHeavy : (left.depth : Int) - right.depth < -1 := by
    omega
  cases right with
  | null =>
      exact leans.elim
  | node rKey rData rHeight rLeft rRight =>
      simp only [avlInsertRebalance,
        storeHeight_node leftBalanced rightBalanced,
        avlGetBalance_node leftBalanced rightBalanced,
        notLeftHeavy, rightHeavy, ↓reduceIte, avlGetHeight]
      rcases leans with ⟨below, innerDeep⟩ | ⟨above, outerDeep⟩
      · obtain ⟨rotated, after, rotates, rotatesNode, repaired, depthAfter⟩ :=
          avlRotateRightLeft_repairs rfl leftBalanced rightBalanced rightDeep
            (by omega) nodeKey data
            (1 + max (left.depth : Int)
              (node rKey rData rHeight rLeft rRight).depth)
        refine ⟨after, ?_, ⟨repaired.balanced, repaired.entries⟩, depthAfter⟩
        rw [if_neg (mt strcmp_pos.mp below.not_gt),
          if_pos (strcmp_neg.mpr below), rotates]
        exact rotatesNode
      · obtain ⟨after, rotates, repaired, depthAfter⟩ :=
          avlRotateLeft_repairs rfl leftBalanced rightBalanced rightDeep
            (by omega) nodeKey data
            (1 + max (left.depth : Int)
              (node rKey rData rHeight rLeft rRight).depth)
        refine ⟨after, ?_, ⟨repaired.balanced, repaired.entries⟩, by omega⟩
        rw [if_pos (strcmp_pos.mpr above)]
        exact rotates

/-- The pass over a node after an insertion into its left subtree. -/
theorem avlInsertRebalance_left
    {α : Type}
    {left grown right : Tree α}
    {key nodeKey : CString}
    {data : Option α}
    {height : Int}
    (nodeBalanced : (node nodeKey data height left right).Balanced)
    (grownBalanced : grown.Balanced)
    (growth : InsertDepth key left grown)
    (below : key < nodeKey) :
    ∃ after,
      avlInsertRebalance key nodeKey data height grown right = .ok after ∧
        Rebalanced (.node nodeKey data height grown right) after ∧
        InsertDepth key (.node nodeKey data height left right) after := by
  obtain ⟨-, leftSmall, rightSmall, -, rightBalanced⟩ := nodeBalanced
  have keepsNode
      (grownSmall : grown.depth ≤ right.depth + 1)
      (rightClose : right.depth ≤ grown.depth + 1)
      (depths :
        InsertDepth key (.node nodeKey data height left right)
          (.node nodeKey data (1 + max (grown.depth : Int) right.depth)
            grown right)) :
      ∃ after,
        avlInsertRebalance key nodeKey data height grown right = .ok after ∧
          Rebalanced (.node nodeKey data height grown right) after ∧
          InsertDepth key (.node nodeKey data height left right) after :=
    ⟨_, avlInsertRebalance_keeps grownBalanced rightBalanced
        grownSmall rightClose key nodeKey data height,
      ⟨⟨rfl, grownSmall, rightClose, grownBalanced, rightBalanced⟩, rfl⟩,
      depths⟩
  cases growth with
  | same sameDepth =>
      exact keepsNode (by omega) (by omega)
        (.same (by simp [sameDepth]))
  | fresh wasNull depthOne =>
      subst left
      simp only [depth_null] at leftSmall rightSmall
      by_cases rightEmpty : right.depth = 0
      · exact keepsNode (by omega) (by omega)
          (.grew (by simp [depthOne, rightEmpty])
            (Or.inl ⟨below, by omega⟩))
      · exact keepsNode (by omega) (by omega)
          (.same (by simp [depthOne]; omega))
  | grew depthGrew leans =>
      by_cases fits : grown.depth ≤ right.depth + 1
      · by_cases leftWasLow : left.depth < right.depth
        · exact keepsNode fits (by omega)
            (.same (by simp only [depth_node]; omega))
        · exact keepsNode fits (by omega)
            (.grew (by simp only [depth_node]; omega)
              (Or.inl ⟨below, by omega⟩))
      · obtain ⟨after, rebalances, repaired, depthAfter⟩ :=
          avlInsertRebalance_rotates_right grownBalanced rightBalanced
            (by omega) leans nodeKey data height
        exact ⟨after, rebalances, repaired,
          .same (by simp only [depth_node]; omega)⟩

/-- The pass over a node after an insertion into its right subtree. -/
theorem avlInsertRebalance_right
    {α : Type}
    {left grown right : Tree α}
    {key nodeKey : CString}
    {data : Option α}
    {height : Int}
    (nodeBalanced : (node nodeKey data height left right).Balanced)
    (grownBalanced : grown.Balanced)
    (growth : InsertDepth key right grown)
    (above : nodeKey < key) :
    ∃ after,
      avlInsertRebalance key nodeKey data height left grown = .ok after ∧
        Rebalanced (.node nodeKey data height left grown) after ∧
        InsertDepth key (.node nodeKey data height left right) after := by
  obtain ⟨-, leftSmall, rightSmall, leftBalanced, -⟩ := nodeBalanced
  have keepsNode
      (leftClose : left.depth ≤ grown.depth + 1)
      (grownSmall : grown.depth ≤ left.depth + 1)
      (depths :
        InsertDepth key (.node nodeKey data height left right)
          (.node nodeKey data (1 + max (left.depth : Int) grown.depth)
            left grown)) :
      ∃ after,
        avlInsertRebalance key nodeKey data height left grown = .ok after ∧
          Rebalanced (.node nodeKey data height left grown) after ∧
          InsertDepth key (.node nodeKey data height left right) after :=
    ⟨_, avlInsertRebalance_keeps leftBalanced grownBalanced
        leftClose grownSmall key nodeKey data height,
      ⟨⟨rfl, leftClose, grownSmall, leftBalanced, grownBalanced⟩, rfl⟩,
      depths⟩
  cases growth with
  | same sameDepth =>
      exact keepsNode (by omega) (by omega)
        (.same (by simp [sameDepth]))
  | fresh wasNull depthOne =>
      subst right
      simp only [depth_null] at leftSmall rightSmall
      by_cases leftEmpty : left.depth = 0
      · exact keepsNode (by omega) (by omega)
          (.grew (by simp [depthOne, leftEmpty])
            (Or.inr ⟨above, by omega⟩))
      · exact keepsNode (by omega) (by omega)
          (.same (by simp [depthOne]; omega))
  | grew depthGrew leans =>
      by_cases fits : grown.depth ≤ left.depth + 1
      · by_cases rightWasLow : right.depth < left.depth
        · exact keepsNode (by omega) fits
            (.same (by simp only [depth_node]; omega))
        · exact keepsNode (by omega) fits
            (.grew (by simp only [depth_node]; omega)
              (Or.inr ⟨above, by omega⟩))
      · obtain ⟨after, rebalances, repaired, depthAfter⟩ :=
          avlInsertRebalance_rotates_left leftBalanced grownBalanced
            (by omega) leans nodeKey data height
        exact ⟨after, rebalances, repaired,
          .same (by simp only [depth_node]; omega)⟩

/--
`avl_insert_node` on a balanced search tree returns a balanced tree with the
key inserted in order.
-/
theorem avlInsertNode_spec
    {α : Type}
    {tree : Tree α}
    (balanced : tree.Balanced)
    (increasing : Increasing tree.entries)
    (key : CString)
    (data : Option α) :
    ∃ after,
      avlInsertNode tree key data = .ok after ∧
        after.Balanced ∧
        after.entries = insertNew key data tree.entries ∧
        InsertDepth key tree after := by
  induction tree with
  | null =>
      exact ⟨avlNewNode key data, rfl, ⟨rfl, by simp, by simp, trivial, trivial⟩,
        rfl, .fresh rfl rfl⟩
  | node nodeKey nodeData nodeHeight left right leftSpec rightSpec =>
      obtain ⟨-, -, -, leftBalanced, rightBalanced⟩ := id balanced
      obtain ⟨leftIncreasing, rightIncreasing, -, -⟩ :=
        increasing_pivot.mp increasing
      rcases lt_trichotomy key nodeKey with below | same | above
      · obtain ⟨grown, inserts, grownBalanced, grownEntries, growth⟩ :=
          leftSpec leftBalanced leftIncreasing
        obtain ⟨after, rebalances, repaired, depths⟩ :=
          avlInsertRebalance_left balanced grownBalanced growth below
        refine ⟨after, ?_, repaired.balanced, ?_, depths⟩
        · simp only [avlInsertNode, strcmp_neg.mpr below, ↓reduceIte,
            inserts, Checked.ok_bind, rebalances]
        · rw [repaired.entries]
          simp only [AvlNode.entries, grownEntries]
          exact (insertNew_pivot_left below).symm
      · subst key
        refine ⟨_, ?_, balanced, ?_, .same rfl⟩
        · simp [avlInsertNode, strcmp_eq_zero.mpr (rfl : nodeKey = nodeKey)]
        · exact (insertNew_pivot_self increasing).symm
      · obtain ⟨grown, inserts, grownBalanced, grownEntries, growth⟩ :=
          rightSpec rightBalanced rightIncreasing
        obtain ⟨after, rebalances, repaired, depths⟩ :=
          avlInsertRebalance_right balanced grownBalanced growth above
        refine ⟨after, ?_, repaired.balanced, ?_, depths⟩
        · simp only [avlInsertNode, mt strcmp_neg.mp above.not_gt,
            strcmp_pos.mpr above, ↓reduceIte,
            inserts, Checked.ok_bind, rebalances]
        · rw [repaired.entries]
          simp only [AvlNode.entries, grownEntries]
          exact (insertNew_pivot_right increasing above).symm

/--
The pass of `avl_delete_node` over a node whose children are balanced and at
most two levels apart.  In the equal case the heavy child's two sides have the
same height, a single rotation is chosen, and the height does not shrink.
-/
theorem avlDeleteRebalance_spec
    {κ δ : Type}
    {left right : AvlNode κ δ}
    (leftBalanced : left.Balanced)
    (rightBalanced : right.Balanced)
    (leftClose : left.depth ≤ right.depth + 2)
    (rightClose : right.depth ≤ left.depth + 2)
    (key : κ)
    (data : δ)
    (height : Int) :
    ∃ after,
      avlDeleteRebalance (.node key data height left right) = .ok after ∧
        Rebalanced (.node key data height left right) after ∧
        after.depth ≤ max left.depth right.depth + 1 ∧
        max left.depth right.depth ≤ after.depth ∧
        (left.depth ≤ right.depth + 1 →
          right.depth ≤ left.depth + 1 →
          after.depth = max left.depth right.depth + 1) := by
  simp only [avlDeleteRebalance,
    storeHeight_node leftBalanced rightBalanced,
    avlGetBalance_node leftBalanced rightBalanced, avlGetHeight]
  by_cases leftHeavy : (left.depth : Int) - right.depth > 1
  · obtain ⟨lKey, lData, lHeight, lLeft, lRight, leftShape⟩ :=
      exists_node_of_depth_pos left (by omega)
    have childBalance :
        avlGetBalance left = (lLeft.depth : Int) - lRight.depth := by
      subst left
      exact avlGetBalance_node leftBalanced.2.2.2.1
        leftBalanced.2.2.2.2 lKey lData lHeight
    by_cases outer : lRight.depth ≤ lLeft.depth
    · obtain ⟨after, rotates, repaired, depthAfter⟩ :=
        avlRotateRight_repairs leftShape leftBalanced rightBalanced
          (by omega) outer key data
          (1 + max (left.depth : Int) right.depth)
      have childClose : lLeft.depth ≤ lRight.depth + 1 := by
        subst left
        exact leftBalanced.2.1
      refine ⟨after, ?_, ⟨repaired.balanced, repaired.entries⟩,
        by omega, by omega, by omega⟩
      rw [if_pos ⟨leftHeavy, by omega⟩]
      exact rotates
    · obtain ⟨rotated, after, rotates, rotatesNode, repaired, depthAfter⟩ :=
        avlRotateLeftRight_repairs leftShape leftBalanced rightBalanced
          (by omega) (by omega) key data
          (1 + max (left.depth : Int) right.depth)
      refine ⟨after, ?_, ⟨repaired.balanced, repaired.entries⟩,
        by omega, by omega, by omega⟩
      rw [if_neg (by omega), if_pos ⟨leftHeavy, by omega⟩, rotates]
      exact rotatesNode
  · by_cases rightHeavy : (left.depth : Int) - right.depth < -1
    · obtain ⟨rKey, rData, rHeight, rLeft, rRight, rightShape⟩ :=
        exists_node_of_depth_pos right (by omega)
      have childBalance :
          avlGetBalance right = (rLeft.depth : Int) - rRight.depth := by
        subst right
        exact avlGetBalance_node rightBalanced.2.2.2.1
          rightBalanced.2.2.2.2 rKey rData rHeight
      by_cases outer : rLeft.depth ≤ rRight.depth
      · obtain ⟨after, rotates, repaired, depthAfter⟩ :=
          avlRotateLeft_repairs rightShape leftBalanced rightBalanced
            (by omega) outer key data
            (1 + max (left.depth : Int) right.depth)
        have childClose : rRight.depth ≤ rLeft.depth + 1 := by
          subst right
          exact rightBalanced.2.2.1
        refine ⟨after, ?_, ⟨repaired.balanced, repaired.entries⟩,
          by omega, by omega, by omega⟩
        rw [if_neg (by omega), if_neg (by omega),
          if_pos ⟨rightHeavy, by omega⟩]
        exact rotates
      · obtain ⟨rotated, after, rotates, rotatesNode, repaired,
            depthAfter⟩ :=
          avlRotateRightLeft_repairs rightShape leftBalanced rightBalanced
            (by omega) (by omega) key data
            (1 + max (left.depth : Int) right.depth)
        refine ⟨after, ?_, ⟨repaired.balanced, repaired.entries⟩,
          by omega, by omega, by omega⟩
        rw [if_neg (by omega), if_neg (by omega), if_neg (by omega),
          if_pos ⟨rightHeavy, by omega⟩, rotates]
        exact rotatesNode
    · have keptBalanced :
          (node key data (1 + max (left.depth : Int) right.depth)
            left right).Balanced :=
        ⟨rfl, by omega, by omega, leftBalanced, rightBalanced⟩
      refine ⟨_, ?_, ⟨keptBalanced, rfl⟩, ?_, ?_, ?_⟩
      · rw [if_neg (by omega), if_neg (by omega),
          if_neg (by omega), if_neg (by omega)]
      · simp
      · simp
      · simp

/-- A balanced tree passes `avl_delete_node`'s tail with its height kept. -/
theorem avlDeleteRebalance_of_balanced
    {κ δ : Type}
    {tree : AvlNode κ δ}
    (balanced : tree.Balanced) :
    ∃ after,
      avlDeleteRebalance tree = .ok after ∧
        Rebalanced tree after ∧
        after.depth = tree.depth := by
  cases tree with
  | null =>
      exact ⟨.null, rfl, ⟨balanced, rfl⟩, rfl⟩
  | node key data height left right =>
      obtain ⟨-, leftSmall, rightSmall, leftBalanced, rightBalanced⟩ :=
        balanced
      obtain ⟨after, rebalances, repaired, -, -, depthAfter⟩ :=
        avlDeleteRebalance_spec leftBalanced rightBalanced
          (by omega) (by omega) key data height
      exact ⟨after, rebalances, repaired, depthAfter leftSmall rightSmall⟩

/-- The leftmost node has no left child and carries the first entry. -/
theorem avlMinValueNode_first
    {κ δ : Type}
    (tree : AvlNode κ δ)
    (nonempty : tree ≠ .null) :
    ∃ key data height right rest,
      avlMinValueNode tree = .node key data height .null right ∧
        tree.entries = (key, data) :: rest := by
  induction tree with
  | null =>
      exact (nonempty rfl).elim
  | node nodeKey nodeData nodeHeight left right leftFirst _ =>
      cases left with
      | null =>
          exact ⟨nodeKey, nodeData, nodeHeight, right, right.entries,
            rfl, rfl⟩
      | node lKey lData lHeight lLeft lRight =>
          obtain ⟨key, data, height, minRight, rest, isMin, first⟩ :=
            leftFirst (by simp)
          refine ⟨key, data, height, minRight,
            rest ++ (nodeKey, nodeData) :: right.entries, isMin, ?_⟩
          rw [AvlNode.entries, first, List.cons_append]

/-- A removal keeps the height of a subtree or lowers it by one. -/
def ShrinksAtMostOne
    {κ δ : Type}
    (before after : AvlNode κ δ) : Prop :=
  after.depth = before.depth ∨ after.depth + 1 = before.depth

/-- The pass over a node after a removal from its left subtree. -/
theorem avlDeleteRebalance_left
    {κ δ : Type}
    {left shrunk right : AvlNode κ δ}
    {key : κ}
    {data : δ}
    {height : Int}
    (nodeBalanced : (node key data height left right).Balanced)
    (shrunkBalanced : shrunk.Balanced)
    (shrinks : ShrinksAtMostOne left shrunk) :
    ∃ after,
      avlDeleteRebalance (.node key data height shrunk right) = .ok after ∧
        Rebalanced (.node key data height shrunk right) after ∧
        ShrinksAtMostOne (.node key data height left right) after := by
  obtain ⟨-, leftSmall, rightSmall, -, rightBalanced⟩ := nodeBalanced
  have shrunkDepth : shrunk.depth ≤ left.depth ∧
      left.depth ≤ shrunk.depth + 1 := by
    rcases shrinks with same | lower <;> omega
  obtain ⟨after, rebalances, repaired, atMost, atLeast, exact⟩ :=
    avlDeleteRebalance_spec shrunkBalanced rightBalanced
      (by omega) (by omega) key data height
  refine ⟨after, rebalances, repaired, ?_⟩
  unfold ShrinksAtMostOne
  rw [depth_node]
  rcases shrinks with same | lower <;> omega

/-- The pass over a node after a removal from its right subtree. -/
theorem avlDeleteRebalance_right
    {κ δ : Type}
    {left right shrunk : AvlNode κ δ}
    {key : κ}
    {data : δ}
    {height : Int}
    (nodeBalanced : (node key data height left right).Balanced)
    (shrunkBalanced : shrunk.Balanced)
    (shrinks : ShrinksAtMostOne right shrunk)
    (newKey : κ)
    (newData : δ) :
    ∃ after,
      avlDeleteRebalance
          (.node newKey newData height left shrunk) = .ok after ∧
        Rebalanced (.node newKey newData height left shrunk) after ∧
        ShrinksAtMostOne (.node key data height left right) after := by
  obtain ⟨-, leftSmall, rightSmall, leftBalanced, -⟩ := nodeBalanced
  have shrunkDepth : shrunk.depth ≤ right.depth ∧
      right.depth ≤ shrunk.depth + 1 := by
    rcases shrinks with same | lower <;> omega
  obtain ⟨after, rebalances, repaired, atMost, atLeast, exact⟩ :=
    avlDeleteRebalance_spec leftBalanced shrunkBalanced
      (by omega) (by omega) newKey newData height
  refine ⟨after, rebalances, repaired, ?_⟩
  unfold ShrinksAtMostOne
  rw [depth_node]
  rcases shrinks with same | lower <;> omega

/--
`avl_delete_node` on a balanced search tree returns a balanced tree without
the key and writes the removed data, or nothing if the key was absent.
-/
theorem avlDeleteNode_spec
    {α : Type}
    {tree : Tree α}
    (balanced : tree.Balanced)
    (increasing : Increasing tree.entries)
    (key : CString) :
    ∃ after,
      avlDeleteNode tree key = .ok (after, find key tree.entries) ∧
        after.Balanced ∧
        after.entries = erase key tree.entries ∧
        ShrinksAtMostOne tree after := by
  induction tree generalizing key with
  | null =>
      exact ⟨.null, rfl, trivial, rfl, .inl rfl⟩
  | node rootKey rootData rootHeight left right leftSpec rightSpec =>
      obtain ⟨-, leftSmall, rightSmall, leftBalanced, rightBalanced⟩ :=
        id balanced
      obtain ⟨leftIncreasing, rightIncreasing, -, -⟩ :=
        increasing_pivot.mp increasing
      simp only [AvlNode.entries]
      rcases lt_trichotomy key rootKey with below | same | above
      · obtain ⟨shrunk, deletes, shrunkBalanced, shrunkEntries, shrinks⟩ :=
          leftSpec leftBalanced leftIncreasing key
        obtain ⟨after, rebalances, repaired, depths⟩ :=
          avlDeleteRebalance_left balanced shrunkBalanced shrinks
        refine ⟨after, ?_, repaired.balanced, ?_, depths⟩
        · rw [find_pivot_left increasing below]
          simp only [avlDeleteNode, strcmp_neg.mpr below, ↓reduceIte,
            deletes, Checked.ok_bind, rebalances]
        · rw [repaired.entries, AvlNode.entries, shrunkEntries]
          exact (erase_pivot_left increasing below).symm
      · subst key
        rw [find_pivot_self increasing, erase_pivot_self increasing]
        simp only [avlDeleteNode,
          strcmp_eq_zero.mpr (rfl : rootKey = rootKey),
          lt_irrefl, ↓reduceIte]
        cases left with
        | null =>
            cases right with
            | null =>
                exact ⟨.null, rfl, trivial, rfl, .inr rfl⟩
            | node rKey rData rHeight rLeft rRight =>
                obtain ⟨after, rebalances, repaired, depthAfter⟩ :=
                  avlDeleteRebalance_of_balanced rightBalanced
                refine ⟨after, ?_, repaired.balanced, ?_, .inr ?_⟩
                · simp only [rebalances, Checked.ok_bind]
                · simpa [AvlNode.entries] using repaired.entries
                · rw [depthAfter, depth_node]
                  simp
        | node lKey lData lHeight lLeft lRight =>
            cases right with
            | null =>
                obtain ⟨after, rebalances, repaired, depthAfter⟩ :=
                  avlDeleteRebalance_of_balanced leftBalanced
                refine ⟨after, ?_, repaired.balanced, ?_, .inr ?_⟩
                · simp only [rebalances, Checked.ok_bind]
                · simpa [AvlNode.entries] using repaired.entries
                · rw [depthAfter, depth_node]
                  simp
            | node rKey rData rHeight rLeft rRight =>
                obtain ⟨tempKey, tempData, tempHeight, tempRight, rest,
                    isMin, first⟩ :=
                  avlMinValueNode_first
                    (node rKey rData rHeight rLeft rRight) (by simp)
                obtain ⟨shrunk, deletes, shrunkBalanced, shrunkEntries,
                    shrinks⟩ :=
                  rightSpec rightBalanced rightIncreasing tempKey
                obtain ⟨after, rebalances, repaired, depths⟩ :=
                  avlDeleteRebalance_right balanced shrunkBalanced shrinks
                    tempKey tempData
                refine ⟨after, ?_, repaired.balanced, ?_, depths⟩
                · simp only [isMin, deletes, Checked.ok_bind, rebalances]
                · have successorMoved :
                      (tempKey, tempData) :: shrunk.entries =
                        (node rKey rData rHeight rLeft rRight).entries := by
                    rw [first] at rightIncreasing
                    rw [shrunkEntries, first, erase_head rightIncreasing]
                  rw [repaired.entries]
                  simp only [AvlNode.entries] at successorMoved ⊢
                  rw [successorMoved]
      · obtain ⟨shrunk, deletes, shrunkBalanced, shrunkEntries, shrinks⟩ :=
          rightSpec rightBalanced rightIncreasing key
        obtain ⟨after, rebalances, repaired, depths⟩ :=
          avlDeleteRebalance_right balanced shrunkBalanced shrinks
            rootKey rootData
        refine ⟨after, ?_, repaired.balanced, ?_, depths⟩
        · rw [find_pivot_right increasing above]
          simp only [avlDeleteNode, mt strcmp_neg.mp above.not_gt,
            strcmp_pos.mpr above, ↓reduceIte,
            deletes, Checked.ok_bind, rebalances]
        · rw [repaired.entries, AvlNode.entries, shrunkEntries]
          exact (erase_pivot_right increasing above).symm

end Clibs.Avl
