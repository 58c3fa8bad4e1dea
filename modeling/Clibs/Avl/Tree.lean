import Clibs.Avl.Node
import Clibs.Foundation.CString
import Clibs.Foundation.SortedAssoc

namespace Clibs.Avl

/-!
# The AVL operations on string-valued keys

`avl.c` read with the key field of a node standing for the string it points to.
The storage behind the key pointers is modelled separately.  A data pointer is
an `Option`, with `none` for `NULL`.
-/

open AvlNode

/-- A tree whose nodes hold string values and data pointers. -/
abbrev Tree (α : Type) :=
  AvlNode CString (Option α)

/-- `avl_new_node` when its allocations succeed. -/
def avlNewNode
    {α : Type}
    (key : CString)
    (data : Option α) : Tree α :=
  .node key data 1 .null .null

/--
The tail of `avl_insert_node`: store the height, then rotate by the balance
factor and the position of the inserted key relative to the heavy child's key.
-/
def avlInsertRebalance
    {α : Type}
    (key : CString)
    (nodeKey : CString)
    (nodeData : Option α)
    (nodeHeight : Int)
    (left right : Tree α) : Checked (Tree α) := do
  let node := storeHeight (.node nodeKey nodeData nodeHeight left right)
  let balance := avlGetBalance node
  if balance > 1 then
    match left with
    | .null =>
        .error .nullDereference
    | .node leftKey _ _ _ _ =>
        if strcmp key leftKey < 0 then
          avlRotateRight node
        else if strcmp key leftKey > 0 then
          let rotated ← avlRotateLeft left
          avlRotateRight
            (.node nodeKey nodeData (avlGetHeight node) rotated right)
        else
          .ok node
  else if balance < -1 then
    match right with
    | .null =>
        .error .nullDereference
    | .node rightKey _ _ _ _ =>
        if strcmp key rightKey > 0 then
          avlRotateLeft node
        else if strcmp key rightKey < 0 then
          let rotated ← avlRotateRight right
          avlRotateLeft
            (.node nodeKey nodeData (avlGetHeight node) left rotated)
        else
          .ok node
  else
    .ok node

/-- `avl_insert_node`. -/
def avlInsertNode
    {α : Type} :
    Tree α → CString → Option α → Checked (Tree α)
  | .null, key, data =>
      .ok (avlNewNode key data)
  | .node nodeKey nodeData nodeHeight left right, key, data =>
      if strcmp key nodeKey < 0 then do
        let left ← avlInsertNode left key data
        avlInsertRebalance key nodeKey nodeData nodeHeight left right
      else if strcmp key nodeKey > 0 then do
        let right ← avlInsertNode right key data
        avlInsertRebalance key nodeKey nodeData nodeHeight left right
      else
        .ok (.node nodeKey nodeData nodeHeight left right)

/-- `avl_search_node`. -/
def avlSearchNode
    {α : Type} :
    Tree α → CString → Option α
  | .null, _ =>
      none
  | .node nodeKey nodeData _ left right, key =>
      if strcmp key nodeKey = 0 then
        nodeData
      else if strcmp key nodeKey < 0 then
        avlSearchNode left key
      else
        avlSearchNode right key

/-- The number of nodes `avl_search_node` compares the key with. -/
def avlSearchVisits
    {α : Type} :
    Tree α → CString → Nat
  | .null, _ =>
      0
  | .node nodeKey _ _ left right, key =>
      if strcmp key nodeKey = 0 then
        1
      else if strcmp key nodeKey < 0 then
        1 + avlSearchVisits left key
      else
        1 + avlSearchVisits right key

/-- `avl_min_value_node`: the node the loop over `left` stops at. -/
def avlMinValueNode
    {κ δ : Type} :
    AvlNode κ δ → AvlNode κ δ
  | .null =>
      .null
  | .node key data height .null right =>
      .node key data height .null right
  | .node _ _ _ (.node key data height left right) _ =>
      avlMinValueNode (.node key data height left right)

/--
The tail of `avl_delete_node`: store the height, then rotate by the balance
factor of the node and of its heavy child.
-/
def avlDeleteRebalance
    {κ δ : Type} :
    AvlNode κ δ → Checked (AvlNode κ δ)
  | .null =>
      .ok .null
  | .node key data height left right => do
      let root := storeHeight (.node key data height left right)
      let balance := avlGetBalance root
      if balance > 1 ∧ avlGetBalance left ≥ 0 then
        avlRotateRight root
      else if balance > 1 ∧ avlGetBalance left < 0 then
        let rotated ← avlRotateLeft left
        avlRotateRight (.node key data (avlGetHeight root) rotated right)
      else if balance < -1 ∧ avlGetBalance right ≤ 0 then
        avlRotateLeft root
      else if balance < -1 ∧ avlGetBalance right > 0 then
        let rotated ← avlRotateRight right
        avlRotateLeft (.node key data (avlGetHeight root) left rotated)
      else
        .ok root

/--
`avl_delete_node`.  The second component is what was written through `data`;
it is `none` when nothing was written.  In the two-child case the recursive
call writes the successor's data back into the successor itself, a node that
is going away, so that output is dropped.
-/
def avlDeleteNode
    {α : Type} :
    Tree α → CString → Checked (Tree α × Option (Option α))
  | .null, _ =>
      .ok (.null, none)
  | .node rootKey rootData rootHeight left right, key =>
      if strcmp key rootKey < 0 then do
        let (left, written) ← avlDeleteNode left key
        let root ←
          avlDeleteRebalance (.node rootKey rootData rootHeight left right)
        .ok (root, written)
      else if strcmp key rootKey > 0 then do
        let (right, written) ← avlDeleteNode right key
        let root ←
          avlDeleteRebalance (.node rootKey rootData rootHeight left right)
        .ok (root, written)
      else
        match left, right with
        | .null, .null =>
            .ok (.null, some rootData)
        | .null, child => do
            let root ← avlDeleteRebalance child
            .ok (root, some rootData)
        | child, .null => do
            let root ← avlDeleteRebalance child
            .ok (root, some rootData)
        | _, _ =>
            match avlMinValueNode right with
            | .null =>
                .error .nullDereference
            | .node tempKey tempData _ _ _ => do
                let (right, _) ← avlDeleteNode right tempKey
                let root ←
                  avlDeleteRebalance
                    (.node tempKey tempData rootHeight left right)
                .ok (root, some rootData)

/-- `avl_h`. -/
structure AvlH (α : Type) where
  root : Tree α
  allocated : Int

/-- `avl_create(NULL)` when the handle can be allocated. -/
def avlCreate
    {α : Type} : AvlH α where
  root :=
    .null
  allocated :=
    1

/-- `avl_insert`; the handle is never `NULL` here. -/
def avlInsert
    {α : Type}
    (ah : AvlH α)
    (key : CString)
    (data : Option α) : Checked (AvlH α × Int) := do
  let root ← avlInsertNode ah.root key data
  .ok ({ ah with root }, 0)

/-- `avl_search`. -/
def avlSearch
    {α : Type}
    (ah : AvlH α)
    (key : CString) : Option α :=
  match ah.root with
  | .null =>
      none
  | root =>
      avlSearchNode root key

/-- `avl_del`; `deleted_data` starts as `NULL`. -/
def avlDel
    {α : Type}
    (ah : AvlH α)
    (key : CString) : Checked (AvlH α × Option α) :=
  match ah.root with
  | .null =>
      .ok (ah, none)
  | root => do
      let (root, written) ← avlDeleteNode root key
      .ok ({ ah with root }, written.getD none)

end Clibs.Avl
