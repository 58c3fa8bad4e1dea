import Clibs.Foundation.Checked
import Clibs.Foundation.HeightBalanced
import Mathlib.Tactic.Linarith

namespace Clibs.Avl

/-!
# AVL nodes, heights and rotations

The node type and the helpers of `avl_internal.c`.  A node pointer is a tree:
the source never shares a node, so `NULL` is `.null` and a node owns its two
subtrees.  The helpers do not look at keys, so the key type stays a parameter:
the same definitions serve nodes that hold string values and nodes that hold
the addresses of key cells.
-/

/-- `avl_node`, with `NULL` as the empty tree. -/
inductive AvlNode (κ δ : Type) where
  | null
  | node (key : κ) (data : δ) (height : Int) (left right : AvlNode κ δ)
  deriving Repr, DecidableEq

/-- `avl_get_height`: the stored height, zero for `NULL`. -/
def avlGetHeight
    {κ δ : Type} :
    AvlNode κ δ → Int
  | .null =>
      0
  | .node _ _ height _ _ =>
      height

/-- `avl_update_height`: the height recomputed from the stored ones below. -/
def avlUpdateHeight
    {κ δ : Type} :
    AvlNode κ δ → Int
  | .null =>
      0
  | .node _ _ _ left right =>
      let leftHeight := avlGetHeight left
      let rightHeight := avlGetHeight right
      1 + (if leftHeight > rightHeight then leftHeight else rightHeight)

/-- The assignment `n->height = avl_update_height(n)`. -/
def storeHeight
    {κ δ : Type} :
    AvlNode κ δ → AvlNode κ δ
  | .null =>
      .null
  | .node key data height left right =>
      .node key data
        (avlUpdateHeight (.node key data height left right))
        left right

/-- `avl_get_balance`: left height minus right height. -/
def avlGetBalance
    {κ δ : Type} :
    AvlNode κ δ → Int
  | .null =>
      0
  | .node _ _ _ left right =>
      avlGetHeight left - avlGetHeight right

/-- `avl_rotate_right`; it reads through `y->left`. -/
def avlRotateRight
    {κ δ : Type} :
    AvlNode κ δ → Checked (AvlNode κ δ)
  | .node yKey yData yHeight
      (.node xKey xData xHeight xLeft t2) yRight =>
      let y := storeHeight (.node yKey yData yHeight t2 yRight)
      .ok (storeHeight (.node xKey xData xHeight xLeft y))
  | _ =>
      .error .nullDereference

/-- `avl_rotate_left`; it reads through `x->right`. -/
def avlRotateLeft
    {κ δ : Type} :
    AvlNode κ δ → Checked (AvlNode κ δ)
  | .node xKey xData xHeight xLeft
      (.node yKey yData yHeight t2 yRight) =>
      let x := storeHeight (.node xKey xData xHeight xLeft t2)
      .ok (storeHeight (.node yKey yData yHeight x yRight))
  | _ =>
      .error .nullDereference

namespace AvlNode

/-- The tree without its stored heights. -/
def shape
    {κ δ : Type} :
    AvlNode κ δ → BinaryTree (κ × δ)
  | .null =>
      .nil
  | .node key data _ left right =>
      .node (key, data) left.shape right.shape

/-- The length of the longest path from the root. -/
def depth
    {κ δ : Type}
    (tree : AvlNode κ δ) : Nat :=
  tree.shape.height

/-- The number of nodes. -/
def size
    {κ δ : Type}
    (tree : AvlNode κ δ) : Nat :=
  tree.shape.numNodes

/-- The in-order sequence of keys and data. -/
def entries
    {κ δ : Type} :
    AvlNode κ δ → List (κ × δ)
  | .null =>
      []
  | .node key data _ left right =>
      left.entries ++ (key, data) :: right.entries

/--
Every stored height is one plus the larger height of the subtrees, and the
heights of two siblings differ by at most one.
-/
def Balanced
    {κ δ : Type} :
    AvlNode κ δ → Prop
  | .null =>
      True
  | .node _ _ height left right =>
      height = 1 + max (left.depth : Int) right.depth ∧
        left.depth ≤ right.depth + 1 ∧
        right.depth ≤ left.depth + 1 ∧
        left.Balanced ∧
        right.Balanced

@[simp] theorem depth_null
    {κ δ : Type} :
    (null : AvlNode κ δ).depth = 0 :=
  rfl

@[simp] theorem depth_node
    {κ δ : Type}
    (key : κ)
    (data : δ)
    (height : Int)
    (left right : AvlNode κ δ) :
    (node key data height left right).depth =
      max left.depth right.depth + 1 :=
  rfl

/-- The number of nodes is the number of entries. -/
theorem length_entries
    {κ δ : Type}
    (tree : AvlNode κ δ) :
    tree.entries.length = tree.size := by
  induction tree with
  | null =>
      rfl
  | node key data height left right leftLength rightLength =>
      simp only [size] at leftLength rightLength
      simp only [entries, size, shape, List.length_append,
        List.length_cons, BinaryTree.numNodes, leftLength, rightLength]
      omega

/-- Only the empty tree has depth zero. -/
theorem exists_node_of_depth_pos
    {κ δ : Type}
    (tree : AvlNode κ δ)
    (positive : 0 < tree.depth) :
    ∃ key data height left right,
      tree = .node key data height left right := by
  cases tree with
  | null =>
      simp at positive
  | node key data height left right =>
      exact ⟨key, data, height, left, right, rfl⟩

namespace Balanced

/-- A balanced tree stores its own height at the root. -/
theorem getHeight
    {κ δ : Type}
    {tree : AvlNode κ δ}
    (balanced : tree.Balanced) :
    avlGetHeight tree = tree.depth := by
  cases tree with
  | null =>
      rfl
  | node key data height left right =>
      obtain ⟨heightExact, -⟩ := balanced
      rw [avlGetHeight, heightExact, depth_node]
      omega

/-- The shape of a balanced tree is height balanced. -/
theorem heightBalanced
    {κ δ : Type}
    {tree : AvlNode κ δ}
    (balanced : tree.Balanced) :
    HeightBalanced tree.shape := by
  induction tree with
  | null =>
      trivial
  | node key data height left right leftBalanced rightBalanced =>
      obtain ⟨-, leftSmall, rightSmall, left, right⟩ := balanced
      exact ⟨leftSmall, rightSmall,
        leftBalanced left, rightBalanced right⟩

end Balanced

end AvlNode

open AvlNode

/-- Storing the height over balanced subtrees stores the exact height. -/
theorem storeHeight_node
    {κ δ : Type}
    {left right : AvlNode κ δ}
    (leftBalanced : left.Balanced)
    (rightBalanced : right.Balanced)
    (key : κ)
    (data : δ)
    (height : Int) :
    storeHeight (.node key data height left right) =
      .node key data (1 + max (left.depth : Int) right.depth)
        left right := by
  simp only [storeHeight, avlUpdateHeight,
    leftBalanced.getHeight, rightBalanced.getHeight]
  congr 1
  split <;> omega

/-- The balance factor over balanced subtrees is the difference of depths. -/
theorem avlGetBalance_node
    {κ δ : Type}
    {left right : AvlNode κ δ}
    (leftBalanced : left.Balanced)
    (rightBalanced : right.Balanced)
    (key : κ)
    (data : δ)
    (height : Int) :
    avlGetBalance (.node key data height left right) =
      left.depth - right.depth := by
  simp [avlGetBalance, leftBalanced.getHeight, rightBalanced.getHeight]

/-- What a rotation must achieve on an unbalanced node. -/
structure Rebalanced
    {κ δ : Type}
    (before after : AvlNode κ δ) : Prop where
  balanced : after.Balanced
  entries : after.entries = before.entries

/--
A right rotation repairs a node that is too deep on the left when the left
child is not deeper on its right side.
-/
theorem avlRotateRight_repairs
    {κ δ : Type}
    {left right : AvlNode κ δ}
    {lKey : κ}
    {lData : δ}
    {lHeight : Int}
    {lLeft lRight : AvlNode κ δ}
    (leftShape : left = .node lKey lData lHeight lLeft lRight)
    (leftBalanced : left.Balanced)
    (rightBalanced : right.Balanced)
    (leftDeep : left.depth = right.depth + 2)
    (outer : lRight.depth ≤ lLeft.depth)
    (key : κ)
    (data : δ)
    (height : Int) :
    ∃ after,
      avlRotateRight (.node key data height left right) = .ok after ∧
        Rebalanced (.node key data height left right) after ∧
        after.depth = left.depth + (1 + lRight.depth - lLeft.depth) := by
  subst left
  obtain ⟨-, lLeftSmall, lRightSmall, lLeftBalanced, lRightBalanced⟩ :=
    leftBalanced
  simp only [depth_node] at leftDeep
  have yBalanced :
      (node key data (1 + max (lRight.depth : Int) right.depth)
        lRight right).Balanced :=
    ⟨rfl, by omega, by omega, lRightBalanced, rightBalanced⟩
  refine ⟨_, rfl, ⟨?_, ?_⟩, ?_⟩
  · rw [storeHeight_node lRightBalanced rightBalanced,
      storeHeight_node lLeftBalanced yBalanced]
    refine ⟨rfl, ?_, ?_, lLeftBalanced, yBalanced⟩
    · simp only [depth_node]
      omega
    · simp only [depth_node]
      omega
  · simp [storeHeight, AvlNode.entries]
  · simp only [storeHeight, depth_node]
    omega

/--
A left rotation repairs a node that is too deep on the right when the right
child is not deeper on its left side.
-/
theorem avlRotateLeft_repairs
    {κ δ : Type}
    {left right : AvlNode κ δ}
    {rKey : κ}
    {rData : δ}
    {rHeight : Int}
    {rLeft rRight : AvlNode κ δ}
    (rightShape : right = .node rKey rData rHeight rLeft rRight)
    (leftBalanced : left.Balanced)
    (rightBalanced : right.Balanced)
    (rightDeep : right.depth = left.depth + 2)
    (outer : rLeft.depth ≤ rRight.depth)
    (key : κ)
    (data : δ)
    (height : Int) :
    ∃ after,
      avlRotateLeft (.node key data height left right) = .ok after ∧
        Rebalanced (.node key data height left right) after ∧
        after.depth = right.depth + (1 + rLeft.depth - rRight.depth) := by
  subst right
  obtain ⟨-, rLeftSmall, rRightSmall, rLeftBalanced, rRightBalanced⟩ :=
    rightBalanced
  simp only [depth_node] at rightDeep
  have xBalanced :
      (node key data (1 + max (left.depth : Int) rLeft.depth)
        left rLeft).Balanced :=
    ⟨rfl, by omega, by omega, leftBalanced, rLeftBalanced⟩
  refine ⟨_, rfl, ⟨?_, ?_⟩, ?_⟩
  · rw [storeHeight_node leftBalanced rLeftBalanced,
      storeHeight_node xBalanced rRightBalanced]
    refine ⟨rfl, ?_, ?_, xBalanced, rRightBalanced⟩
    · simp only [depth_node]
      omega
    · simp only [depth_node]
      omega
  · simp [storeHeight, AvlNode.entries]
  · simp only [storeHeight, depth_node]
    omega

/--
Rotating the left child left and then the node right repairs a node that is
too deep on the left when the left child is deeper on its right side.
-/
theorem avlRotateLeftRight_repairs
    {κ δ : Type}
    {left right : AvlNode κ δ}
    {lKey : κ}
    {lData : δ}
    {lHeight : Int}
    {lLeft lRight : AvlNode κ δ}
    (leftShape : left = .node lKey lData lHeight lLeft lRight)
    (leftBalanced : left.Balanced)
    (rightBalanced : right.Balanced)
    (leftDeep : left.depth = right.depth + 2)
    (inner : lLeft.depth < lRight.depth)
    (key : κ)
    (data : δ)
    (height : Int) :
    ∃ rotated after,
      avlRotateLeft left = .ok rotated ∧
        avlRotateRight (.node key data height rotated right) = .ok after ∧
        Rebalanced (.node key data height left right) after ∧
        after.depth = left.depth := by
  subst left
  obtain ⟨-, -, lRightSmall, lLeftBalanced, lRightBalanced⟩ :=
    leftBalanced
  obtain ⟨mKey, mData, mHeight, mLeft, mRight, rfl⟩ :=
    exists_node_of_depth_pos lRight (by omega)
  obtain ⟨-, mLeftSmall, mRightSmall, mLeftBalanced, mRightBalanced⟩ :=
    lRightBalanced
  simp only [depth_node] at leftDeep lRightSmall inner
  have xBalanced :
      (node lKey lData (1 + max (lLeft.depth : Int) mLeft.depth)
        lLeft mLeft).Balanced :=
    ⟨rfl, by omega, by omega, lLeftBalanced, mLeftBalanced⟩
  have yBalanced :
      (node key data (1 + max (mRight.depth : Int) right.depth)
        mRight right).Balanced :=
    ⟨rfl, by omega, by omega, mRightBalanced, rightBalanced⟩
  refine ⟨_, _, rfl, rfl, ⟨?_, ?_⟩, ?_⟩
  · rw [storeHeight_node lLeftBalanced mLeftBalanced,
      storeHeight_node mRightBalanced rightBalanced,
      storeHeight_node xBalanced yBalanced]
    refine ⟨rfl, ?_, ?_, xBalanced, yBalanced⟩
    · simp only [depth_node]
      omega
    · simp only [depth_node]
      omega
  · simp [storeHeight, AvlNode.entries]
  · simp only [storeHeight, depth_node]
    omega

/--
Rotating the right child right and then the node left repairs a node that is
too deep on the right when the right child is deeper on its left side.
-/
theorem avlRotateRightLeft_repairs
    {κ δ : Type}
    {left right : AvlNode κ δ}
    {rKey : κ}
    {rData : δ}
    {rHeight : Int}
    {rLeft rRight : AvlNode κ δ}
    (rightShape : right = .node rKey rData rHeight rLeft rRight)
    (leftBalanced : left.Balanced)
    (rightBalanced : right.Balanced)
    (rightDeep : right.depth = left.depth + 2)
    (inner : rRight.depth < rLeft.depth)
    (key : κ)
    (data : δ)
    (height : Int) :
    ∃ rotated after,
      avlRotateRight right = .ok rotated ∧
        avlRotateLeft (.node key data height left rotated) = .ok after ∧
        Rebalanced (.node key data height left right) after ∧
        after.depth = right.depth := by
  subst right
  obtain ⟨-, rLeftSmall, -, rLeftBalanced, rRightBalanced⟩ :=
    rightBalanced
  obtain ⟨mKey, mData, mHeight, mLeft, mRight, rfl⟩ :=
    exists_node_of_depth_pos rLeft (by omega)
  obtain ⟨-, mLeftSmall, mRightSmall, mLeftBalanced, mRightBalanced⟩ :=
    rLeftBalanced
  simp only [depth_node] at rightDeep rLeftSmall inner
  have xBalanced :
      (node key data (1 + max (left.depth : Int) mLeft.depth)
        left mLeft).Balanced :=
    ⟨rfl, by omega, by omega, leftBalanced, mLeftBalanced⟩
  have yBalanced :
      (node rKey rData (1 + max (mRight.depth : Int) rRight.depth)
        mRight rRight).Balanced :=
    ⟨rfl, by omega, by omega, mRightBalanced, rRightBalanced⟩
  refine ⟨_, _, rfl, rfl, ⟨?_, ?_⟩, ?_⟩
  · rw [storeHeight_node leftBalanced mLeftBalanced,
      storeHeight_node mRightBalanced rRightBalanced,
      storeHeight_node xBalanced yBalanced]
    refine ⟨rfl, ?_, ?_, xBalanced, yBalanced⟩
    · simp only [depth_node]
      omega
    · simp only [depth_node]
      omega
  · simp [storeHeight, AvlNode.entries]
  · simp only [storeHeight, depth_node]
    omega

end Clibs.Avl
