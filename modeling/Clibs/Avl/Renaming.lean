import Clibs.Avl.Balance

namespace Clibs.Avl

/-!
# Trees under a renaming of their keys

Rotations and the tail of a deletion never look at a key, so they commute with
replacing the keys; they also keep the in-order sequence.  The last part names
the deletions that unlink a node without children.
-/

open AvlNode SortedAssoc

namespace AvlNode

/-- Replace every key. -/
def mapKeys
    {κ κ' δ : Type}
    (rename : κ → κ') :
    AvlNode κ δ → AvlNode κ' δ
  | .null =>
      .null
  | .node key data height left right =>
      .node (rename key) data height
        (left.mapKeys rename) (right.mapKeys rename)

/-- The keys in order. -/
def keys
    {κ δ : Type}
    (tree : AvlNode κ δ) : List κ :=
  tree.entries.map Prod.fst

@[simp] theorem keys_null
    {κ δ : Type} :
    (null : AvlNode κ δ).keys = [] :=
  rfl

@[simp] theorem keys_node
    {κ δ : Type}
    (key : κ)
    (data : δ)
    (height : Int)
    (left right : AvlNode κ δ) :
    (node key data height left right).keys =
      left.keys ++ key :: right.keys := by
  simp [keys, entries]

/-- Two renamings that agree on the keys of a tree give the same tree. -/
theorem mapKeys_congr
    {κ κ' δ : Type}
    {first second : κ → κ'}
    {tree : AvlNode κ δ}
    (agree : ∀ key ∈ tree.keys, first key = second key) :
    tree.mapKeys first = tree.mapKeys second := by
  induction tree with
  | null =>
      rfl
  | node key data height left right leftSame rightSame =>
      simp only [keys_node, List.mem_append, List.mem_cons] at agree
      simp only [mapKeys]
      rw [agree key (by simp),
        leftSame fun other member => agree other (by simp [member]),
        rightSame fun other member => agree other (by simp [member])]

end AvlNode

section Renaming

variable {κ κ' δ : Type} (rename : κ → κ')

@[simp] theorem avlGetHeight_mapKeys
    (tree : AvlNode κ δ) :
    avlGetHeight (tree.mapKeys rename) = avlGetHeight tree := by
  cases tree <;> rfl

@[simp] theorem avlGetBalance_mapKeys
    (tree : AvlNode κ δ) :
    avlGetBalance (tree.mapKeys rename) = avlGetBalance tree := by
  cases tree with
  | null =>
      rfl
  | node key data height left right =>
      simp [mapKeys, avlGetBalance]

theorem storeHeight_mapKeys
    (tree : AvlNode κ δ) :
    storeHeight (tree.mapKeys rename) =
      (storeHeight tree).mapKeys rename := by
  cases tree with
  | null =>
      rfl
  | node key data height left right =>
      simp [mapKeys, storeHeight, avlUpdateHeight]

/-- A right rotation does not look at the keys. -/
theorem avlRotateRight_mapKeys
    (tree : AvlNode κ δ) :
    avlRotateRight (tree.mapKeys rename) =
      mapKeys rename <$> avlRotateRight tree := by
  rcases tree with _ | ⟨key, data, height,
    _ | ⟨lKey, lData, lHeight, lLeft, lRight⟩, right⟩
  · rfl
  · rfl
  · have lower :=
      storeHeight_mapKeys rename (.node key data height lRight right)
    have upper :=
      storeHeight_mapKeys rename (.node lKey lData lHeight lLeft
        (storeHeight (.node key data height lRight right)))
    simp only [mapKeys] at lower upper
    simp only [mapKeys, avlRotateRight, Checked.map_ok, lower, upper]

/-- A left rotation does not look at the keys. -/
theorem avlRotateLeft_mapKeys
    (tree : AvlNode κ δ) :
    avlRotateLeft (tree.mapKeys rename) =
      mapKeys rename <$> avlRotateLeft tree := by
  rcases tree with _ | ⟨key, data, height, left,
    _ | ⟨rKey, rData, rHeight, rLeft, rRight⟩⟩
  · rfl
  · rfl
  · have lower :=
      storeHeight_mapKeys rename (.node key data height left rLeft)
    have upper :=
      storeHeight_mapKeys rename (.node rKey rData rHeight
        (storeHeight (.node key data height left rLeft)) rRight)
    simp only [mapKeys] at lower upper
    simp only [mapKeys, avlRotateLeft, Checked.map_ok, lower, upper]

/-- A left-right double rotation does not look at the keys. -/
theorem avlRotateLeftRight_mapKeys
    (key : κ)
    (data : δ)
    (height : Int)
    (left right : AvlNode κ δ) :
    (do
      let rotated ← avlRotateLeft (left.mapKeys rename)
      avlRotateRight
        (.node (rename key) data height rotated (right.mapKeys rename))) =
      mapKeys rename <$> (do
        let rotated ← avlRotateLeft left
        avlRotateRight (.node key data height rotated right)) := by
  rw [avlRotateLeft_mapKeys]
  cases avlRotateLeft left with
  | error fault =>
      rfl
  | ok rotated =>
      exact avlRotateRight_mapKeys rename
        (.node key data height rotated right)

/-- A right-left double rotation does not look at the keys. -/
theorem avlRotateRightLeft_mapKeys
    (key : κ)
    (data : δ)
    (height : Int)
    (left right : AvlNode κ δ) :
    (do
      let rotated ← avlRotateRight (right.mapKeys rename)
      avlRotateLeft
        (.node (rename key) data height (left.mapKeys rename) rotated)) =
      mapKeys rename <$> (do
        let rotated ← avlRotateRight right
        avlRotateLeft (.node key data height left rotated)) := by
  rw [avlRotateRight_mapKeys]
  cases avlRotateRight right with
  | error fault =>
      rfl
  | ok rotated =>
      exact avlRotateLeft_mapKeys rename
        (.node key data height left rotated)

/-- The tail of a deletion does not look at the keys. -/
theorem avlDeleteRebalance_mapKeys
    (tree : AvlNode κ δ) :
    avlDeleteRebalance (tree.mapKeys rename) =
      mapKeys rename <$> avlDeleteRebalance tree := by
  cases tree with
  | null =>
      rfl
  | node key data height left right =>
      have stored :=
        storeHeight_mapKeys rename (.node key data height left right)
      simp only [mapKeys] at stored
      simp only [mapKeys, avlDeleteRebalance, stored,
        avlGetBalance_mapKeys, avlGetHeight_mapKeys,
        avlRotateRight_mapKeys rename (storeHeight _),
        avlRotateLeft_mapKeys rename (storeHeight _),
        avlRotateLeftRight_mapKeys, avlRotateRightLeft_mapKeys]
      split_ifs <;> rfl

/-- The leftmost node does not depend on the keys. -/
theorem avlMinValueNode_mapKeys
    (tree : AvlNode κ δ) :
    avlMinValueNode (tree.mapKeys rename) =
      (avlMinValueNode tree).mapKeys rename := by
  induction tree with
  | null =>
      rfl
  | node key data height left right leftMin _ =>
      cases left with
      | null =>
          rfl
      | node lKey lData lHeight lLeft lRight =>
          exact leftMin

end Renaming

section InOrder

variable {κ δ : Type}

/-- A right rotation keeps the in-order sequence. -/
theorem avlRotateRight_entries
    {tree after : AvlNode κ δ}
    (rotates : avlRotateRight tree = .ok after) :
    after.entries = tree.entries := by
  rcases tree with _ | ⟨key, data, height, _ | ⟨_, _, _, lLeft, lRight⟩, right⟩
  · cases rotates
  · cases rotates
  · cases rotates
    simp [storeHeight, AvlNode.entries]

/-- A left rotation keeps the in-order sequence. -/
theorem avlRotateLeft_entries
    {tree after : AvlNode κ δ}
    (rotates : avlRotateLeft tree = .ok after) :
    after.entries = tree.entries := by
  rcases tree with _ | ⟨key, data, height, left, _ | ⟨_, _, _, rLeft, rRight⟩⟩
  · cases rotates
  · cases rotates
  · cases rotates
    simp [storeHeight, AvlNode.entries]

@[simp] theorem storeHeight_entries
    (tree : AvlNode κ δ) :
    (storeHeight tree).entries = tree.entries := by
  cases tree <;> rfl

/-- Rotating the left child and then the node keeps the in-order sequence. -/
theorem avlRotateLeftRight_entries
    {left right after : AvlNode κ δ}
    {key : κ}
    {data : δ}
    {height newHeight : Int}
    (rotates :
      (do
        let rotated ← avlRotateLeft left
        avlRotateRight (.node key data newHeight rotated right)) =
        .ok after) :
    after.entries = (node key data height left right).entries := by
  obtain ⟨rotated, first, second⟩ := Checked.bind_eq_ok.mp rotates
  rw [avlRotateRight_entries second]
  simp only [AvlNode.entries, avlRotateLeft_entries first]

/-- Rotating the right child and then the node keeps the in-order sequence. -/
theorem avlRotateRightLeft_entries
    {left right after : AvlNode κ δ}
    {key : κ}
    {data : δ}
    {height newHeight : Int}
    (rotates :
      (do
        let rotated ← avlRotateRight right
        avlRotateLeft (.node key data newHeight left rotated)) =
        .ok after) :
    after.entries = (node key data height left right).entries := by
  obtain ⟨rotated, first, second⟩ := Checked.bind_eq_ok.mp rotates
  rw [avlRotateLeft_entries second]
  simp only [AvlNode.entries, avlRotateRight_entries first]

/-- The tail of a deletion keeps the in-order sequence. -/
theorem avlDeleteRebalance_entries
    {tree after : AvlNode κ δ}
    (rebalances : avlDeleteRebalance tree = .ok after) :
    after.entries = tree.entries := by
  cases tree with
  | null =>
      cases rebalances
      rfl
  | node key data height left right =>
      simp only [avlDeleteRebalance] at rebalances
      split at rebalances
      · rw [avlRotateRight_entries rebalances, storeHeight_entries]
      · split at rebalances
        · exact avlRotateLeftRight_entries rebalances
        · split at rebalances
          · rw [avlRotateLeft_entries rebalances, storeHeight_entries]
          · split at rebalances
            · exact avlRotateRightLeft_entries rebalances
            · cases rebalances
              rw [storeHeight_entries]

end InOrder

/-- A node without children. -/
def isLeaf
    {κ δ : Type} :
    AvlNode κ δ → Bool
  | .node _ _ _ .null .null =>
      true
  | _ =>
      false

/--
The node that goes away when a node with these children is deleted is a leaf:
the node itself, or its in-order successor.
-/
def removesLeaf
    {κ δ : Type} :
    AvlNode κ δ → AvlNode κ δ → Bool
  | .null, .null =>
      true
  | .null, .node .. =>
      false
  | .node .., .null =>
      false
  | .node .., .node key data height left right =>
      isLeaf (avlMinValueNode (.node key data height left right))

/-- Deleting the key unlinks a leaf or, when the key is absent, nothing. -/
def unlinksLeaf
    {α : Type} :
    Tree α → CString → Bool
  | .null, _ =>
      true
  | .node rootKey _ _ left right, key =>
      if strcmp key rootKey < 0 then
        unlinksLeaf left key
      else if strcmp key rootKey > 0 then
        unlinksLeaf right key
      else
        removesLeaf left right

/-- The leftmost key of a left child is below the key of its parent. -/
theorem avlMinValueNode_lt
    {α : Type}
    {left right : Tree α}
    {rootKey : CString}
    {rootData : Option α}
    {rootHeight : Int}
    (increasing :
      Increasing
        (AvlNode.node rootKey rootData rootHeight left right).entries)
    {key : CString}
    {data : Option α}
    {height : Int}
    {minRight : Tree α}
    (isMin : avlMinValueNode left = .node key data height .null minRight) :
    key < rootKey := by
  obtain ⟨-, -, leftBelow, -⟩ := increasing_pivot.mp increasing
  have nonempty : left ≠ .null := by
    rintro rfl
    cases isMin
  obtain ⟨minKey, minData, minHeight, leftRight, rest, leftMin, first⟩ :=
    avlMinValueNode_first left nonempty
  have sameNode := leftMin.symm.trans isMin
  injection sameNode with sameKey
  subst sameKey
  exact leftBelow (minKey, minData) (by rw [first]; simp)

/-- The leftmost key is found by going left all the way, and its node goes away. -/
theorem unlinksLeaf_min
    {α : Type}
    {tree : Tree α}
    (increasing : Increasing tree.entries)
    {key : CString}
    {data : Option α}
    {height : Int}
    {minRight : Tree α}
    (isMin : avlMinValueNode tree = .node key data height .null minRight) :
    unlinksLeaf tree key = isLeaf (.node key data height .null minRight) := by
  induction tree with
  | null =>
      cases isMin
  | node rootKey rootData rootHeight left right leftUnlinks _ =>
      cases left with
      | null =>
          cases isMin
          have itself : strcmp key key = 0 :=
            strcmp_eq_zero.mpr rfl
          cases minRight <;> simp [unlinksLeaf, removesLeaf, isLeaf, itself]
      | node lKey lData lHeight lLeft lRight =>
          obtain ⟨leftIncreasing, -, -, -⟩ := increasing_pivot.mp increasing
          have below : key < rootKey :=
            avlMinValueNode_lt increasing isMin
          rw [unlinksLeaf, if_pos (strcmp_neg.mpr below)]
          exact leftUnlinks leftIncreasing isMin

/-- Looking for the key ends at a missing child. -/
def reachesNull
    {α : Type} :
    Tree α → CString → Bool
  | .null, _ =>
      true
  | .node nodeKey _ _ left right, key =>
      if strcmp key nodeKey < 0 then
        reachesNull left key
      else if strcmp key nodeKey > 0 then
        reachesNull right key
      else
        false

/-- Both children are there. -/
def twoChildren
    {κ δ : Type} :
    AvlNode κ δ → AvlNode κ δ → Bool
  | .node .., .node .. =>
      true
  | _, _ =>
      false

/-- Deleting the key puts a copy of another key in its place. -/
def duplicatesKey
    {α : Type} :
    Tree α → CString → Bool
  | .null, _ =>
      false
  | .node rootKey _ _ left right, key =>
      if strcmp key rootKey < 0 then
        duplicatesKey left key
      else if strcmp key rootKey > 0 then
        duplicatesKey right key
      else
        twoChildren left right

/-- The leftmost node has no left child, so its key is deleted without a copy. -/
theorem duplicatesKey_min
    {α : Type}
    {tree : Tree α}
    (increasing : Increasing tree.entries)
    {key : CString}
    {data : Option α}
    {height : Int}
    {minRight : Tree α}
    (isMin : avlMinValueNode tree = .node key data height .null minRight) :
    duplicatesKey tree key = false := by
  induction tree with
  | null =>
      rfl
  | node rootKey rootData rootHeight left right leftOnly _ =>
      cases left with
      | null =>
          cases isMin
          simp [duplicatesKey, twoChildren,
            strcmp_eq_zero.mpr (rfl : key = key)]
      | node lKey lData lHeight lLeft lRight =>
          obtain ⟨leftIncreasing, -, -, -⟩ := increasing_pivot.mp increasing
          have below : key < rootKey :=
            avlMinValueNode_lt increasing isMin
          rw [duplicatesKey, if_pos (strcmp_neg.mpr below)]
          exact leftOnly leftIncreasing isMin

end Clibs.Avl
