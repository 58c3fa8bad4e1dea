import Clibs.Avl.Tree
import Clibs.Foundation.CellHeap
import Clibs.Foundation.Run

namespace Clibs.Avl.Stored

/-!
# The AVL operations with the storage of the keys

`avl.c` once more, now with the key field of a node as the pointer it is.  Key
strings live in cells that `strdup` allocates and `free` releases; comparing,
duplicating or releasing a key goes through the heap and faults on `NULL` and
on a released cell.  A refused node allocation faults where the source writes
through the result of `malloc`, and a refused `strdup` leaves `NULL` in `key`.

A node itself is still a tree: the source never keeps a second pointer to one,
so only the key cells can be aliased.  The one alias the source creates is the
key argument of the recursive deletion of a successor, which is why a key
argument is either the caller's own string or a key pointer.
-/

open AvlNode

/-- A key pointer, `none` for `NULL`. -/
abbrev KeyPtr :=
  Option Nat

/-- The heap of key cells. -/
abbrev KeyHeap :=
  CellHeap CString

/-- A tree whose nodes hold key pointers. -/
abbrev StoredTree (α : Type) :=
  AvlNode KeyPtr (Option α)

/-- A `const char *` argument: a string of the caller, or the key of a node. -/
inductive KeyArg where
  | caller (string : CString)
  | cell (pointer : KeyPtr)
  deriving Repr, DecidableEq

/-- Dereference a key pointer. -/
def readKey
    (heap : KeyHeap) :
    KeyPtr → Checked CString
  | none =>
      .error .nullDereference
  | some address =>
      heap.read address

/-- Dereference a key argument. -/
def readArg
    (heap : KeyHeap) :
    KeyArg → Checked CString
  | .caller string =>
      .ok string
  | .cell pointer =>
      readKey heap pointer

/-- `strcmp(key, node->key)`. -/
def compareKey
    (heap : KeyHeap)
    (key : KeyArg)
    (nodeKey : KeyPtr) : Checked Int := do
  let first ← readArg heap key
  let second ← readKey heap nodeKey
  .ok (strcmp first second)

/-- `strdup(key)`, `NULL` when it is refused. -/
def strdup
    (heap : KeyHeap)
    (key : KeyArg) : Checked (KeyPtr × KeyHeap) := do
  let string ← readArg heap key
  .ok (heap.allocate string)

/-- `free(key)`; freeing `NULL` does nothing. -/
def freeKey
    (heap : KeyHeap) :
    KeyPtr → Checked KeyHeap
  | none =>
      .ok heap
  | some address =>
      heap.release address

/-- `avl_new_node`; the result of `malloc` is used without a test. -/
def avlNewNode
    {α : Type}
    (heap : KeyHeap)
    (key : KeyArg)
    (data : Option α) : Checked (StoredTree α × KeyHeap) := do
  let (granted, heap) := heap.request
  if granted then
    let (nodeKey, heap) ← strdup heap key
    .ok (.node nodeKey data 1 .null .null, heap)
  else
    .error .nullDereference

/-- The tail of `avl_insert_node`. -/
def avlInsertRebalance
    {α : Type}
    (heap : KeyHeap)
    (key : KeyArg)
    (nodeKey : KeyPtr)
    (nodeData : Option α)
    (nodeHeight : Int)
    (left right : StoredTree α) : Checked (StoredTree α) := do
  let node := storeHeight (.node nodeKey nodeData nodeHeight left right)
  let balance := avlGetBalance node
  if balance > 1 then
    match left with
    | .null =>
        .error .nullDereference
    | .node leftKey _ _ _ _ =>
        let order ← compareKey heap key leftKey
        if order < 0 then
          avlRotateRight node
        else if order > 0 then
          let rotated ← avlRotateLeft left
          avlRotateRight
            (.node nodeKey nodeData (avlGetHeight node) rotated right)
        else
          .ok node
  else if balance < -1 then
    match right with
    | .null =>
        .error .nullDereference
    | .node rightKey _ _ _ _ =>
        let order ← compareKey heap key rightKey
        if order > 0 then
          avlRotateLeft node
        else if order < 0 then
          let rotated ← avlRotateRight right
          avlRotateLeft
            (.node nodeKey nodeData (avlGetHeight node) left rotated)
        else
          .ok node
  else
    .ok node

/-- `avl_insert_node`. -/
def avlInsertNode
    {α : Type}
    (heap : KeyHeap) :
    StoredTree α → KeyArg → Option α → Checked (StoredTree α × KeyHeap)
  | .null, key, data =>
      avlNewNode heap key data
  | .node nodeKey nodeData nodeHeight left right, key, data => do
      let order ← compareKey heap key nodeKey
      if order < 0 then
        let (left, heap) ← avlInsertNode heap left key data
        let node ←
          avlInsertRebalance heap key nodeKey nodeData nodeHeight left right
        .ok (node, heap)
      else if order > 0 then
        let (right, heap) ← avlInsertNode heap right key data
        let node ←
          avlInsertRebalance heap key nodeKey nodeData nodeHeight left right
        .ok (node, heap)
      else
        .ok (.node nodeKey nodeData nodeHeight left right, heap)

/-- `avl_search_node`. -/
def avlSearchNode
    {α : Type}
    (heap : KeyHeap) :
    StoredTree α → KeyArg → Checked (Option α)
  | .null, _ =>
      .ok none
  | .node nodeKey nodeData _ left right, key => do
      let order ← compareKey heap key nodeKey
      if order = 0 then
        .ok nodeData
      else if order < 0 then
        avlSearchNode heap left key
      else
        avlSearchNode heap right key

/--
`avl_delete_node`.  With one child, `*root = *temp` overwrites the node with
its child, key pointer included, and `free(temp->key)` then releases that very
key.  With two children the node's own key is released before the successor's
is duplicated, and the recursive call gets the successor's key as argument.
-/
def avlDeleteNode
    {α : Type}
    (heap : KeyHeap) :
    StoredTree α → KeyArg →
      Checked (StoredTree α × KeyHeap × Option (Option α))
  | .null, _ =>
      .ok (.null, heap, none)
  | .node rootKey rootData rootHeight left right, key => do
      let order ← compareKey heap key rootKey
      if order < 0 then
        let (left, heap, written) ← avlDeleteNode heap left key
        let root ←
          avlDeleteRebalance (.node rootKey rootData rootHeight left right)
        .ok (root, heap, written)
      else if order > 0 then
        let (right, heap, written) ← avlDeleteNode heap right key
        let root ←
          avlDeleteRebalance (.node rootKey rootData rootHeight left right)
        .ok (root, heap, written)
      else
        match left, right with
        | .null, .null =>
            let heap ← freeKey heap rootKey
            .ok (.null, heap, some rootData)
        | .null, .node tempKey tempData tempHeight tempLeft tempRight =>
            let heap ← freeKey heap tempKey
            let root ←
              avlDeleteRebalance
                (.node tempKey tempData tempHeight tempLeft tempRight)
            .ok (root, heap, some rootData)
        | .node tempKey tempData tempHeight tempLeft tempRight, .null =>
            let heap ← freeKey heap tempKey
            let root ←
              avlDeleteRebalance
                (.node tempKey tempData tempHeight tempLeft tempRight)
            .ok (root, heap, some rootData)
        | _, _ =>
            match avlMinValueNode right with
            | .null =>
                .error .nullDereference
            | .node tempKey tempData _ _ _ =>
                let heap ← freeKey heap rootKey
                let (newKey, heap) ← strdup heap (.cell tempKey)
                let (right, heap, _) ←
                  avlDeleteNode heap right (.cell tempKey)
                let root ←
                  avlDeleteRebalance
                    (.node newKey tempData rootHeight left right)
                .ok (root, heap, some rootData)

/-- `avl_destroy_node`. -/
def avlDestroyNode
    {α : Type}
    (heap : KeyHeap) :
    StoredTree α → Checked KeyHeap
  | .null =>
      .ok heap
  | .node key _ _ left right => do
      let heap ← avlDestroyNode heap left
      let heap ← avlDestroyNode heap right
      freeKey heap key

/-- An AVL handle together with the heap of its keys. -/
structure AvlStore (α : Type) where
  root : StoredTree α
  heap : KeyHeap

/-- `avl_create(NULL)` on an empty heap. -/
def avlCreate
    {α : Type}
    (grants : Nat → Bool) : AvlStore α where
  root :=
    .null
  heap :=
    .empty grants

/-- `avl_insert`. -/
def avlInsert
    {α : Type}
    (store : AvlStore α)
    (key : CString)
    (data : Option α) : Checked (AvlStore α × Int) := do
  let (root, heap) ←
    avlInsertNode store.heap store.root (.caller key) data
  .ok (⟨root, heap⟩, 0)

/-- `avl_search`. -/
def avlSearch
    {α : Type}
    (store : AvlStore α)
    (key : CString) : Checked (Option α) :=
  match store.root with
  | .null =>
      .ok none
  | root =>
      avlSearchNode store.heap root (.caller key)

/-- `avl_del`. -/
def avlDel
    {α : Type}
    (store : AvlStore α)
    (key : CString) : Checked (AvlStore α × Option α) :=
  match store.root with
  | .null =>
      .ok (store, none)
  | root => do
      let (root, heap, written) ←
        avlDeleteNode store.heap root (.caller key)
      .ok (⟨root, heap⟩, written.getD none)

/-- `avl_destroy`, as far as the keys are concerned. -/
def avlDestroy
    {α : Type}
    (store : AvlStore α) : Checked KeyHeap :=
  avlDestroyNode store.heap store.root

end Clibs.Avl.Stored
