import Clibs.Avl.KeyStore
import Clibs.Avl.Map
import Clibs.Avl.Renaming

namespace Clibs.Avl.Stored

/-!
# Ownership of the key cells

A tree owns its key cells when its key pointers are pairwise distinct and are
exactly the allocated cells.  Under this invariant the operations with storage
compute what the operations on string values compute, and keep the invariant,
except where `avl_delete_node` unlinks a node that has a child: the node that
is overwritten then keeps a released key.
-/

open AvlNode SortedAssoc CellHeap

/-- The string behind a key pointer; any string for a pointer without a cell. -/
def keyText
    (heap : KeyHeap)
    (pointer : KeyPtr) : CString :=
  ((pointer.bind heap.cell).getD ⟨[], CString.noTerminator_nil⟩)

/-- The tree with the strings in place of the key pointers. -/
def textTree
    {α : Type}
    (heap : KeyHeap)
    (tree : StoredTree α) : Tree α :=
  tree.mapKeys (keyText heap)

/-- The key pointers of the tree are the listed cells, in order. -/
def HoldsCells
    {α : Type}
    (tree : StoredTree α)
    (cells : List Nat) : Prop :=
  tree.keys = cells.map some

section Reading

variable {α : Type} {heap : KeyHeap}

/-- A node holds the cells of its subtrees and its own. -/
theorem holdsCells_node
    {key : KeyPtr}
    {data : Option α}
    {height : Int}
    {left right : StoredTree α}
    {cells : List Nat} :
    HoldsCells (.node key data height left right) cells ↔
      ∃ leftCells address rightCells,
        key = some address ∧
          cells = leftCells ++ address :: rightCells ∧
          HoldsCells left leftCells ∧
          HoldsCells right rightCells := by
  unfold HoldsCells
  rw [keys_node]
  constructor
  · intro holds
    obtain ⟨leftCells, rest, rfl, leftHolds, restHolds⟩ :=
      List.map_eq_append_iff.mp holds.symm
    obtain ⟨address, rightCells, rfl, isKey, rightHolds⟩ :=
      List.map_eq_cons_iff.mp restHolds
    exact ⟨leftCells, address, rightCells, isKey.symm, rfl,
      leftHolds.symm, rightHolds.symm⟩
  · rintro ⟨leftCells, address, rightCells, rfl, rfl,
      leftHolds, rightHolds⟩
    simp [leftHolds, rightHolds]

/-- An owned cell reads as its text. -/
theorem readKey_eq
    {cells : List Nat}
    (owns : heap.Owns cells)
    {address : Nat}
    (member : address ∈ cells) :
    readKey heap (some address) = .ok (keyText heap (some address)) := by
  obtain ⟨string, holds⟩ := owns.exists_cell member
  simp [readKey, CellHeap.read, keyText, holds]

/-- Comparing with an owned key compares with its text. -/
theorem compareKey_eq
    {cells : List Nat}
    (owns : heap.Owns cells)
    {address : Nat}
    (member : address ∈ cells)
    {key : KeyArg}
    {string : CString}
    (reads : readArg heap key = .ok string) :
    compareKey heap key (some address) =
      .ok (strcmp string (keyText heap (some address))) := by
  simp [compareKey, reads, readKey_eq owns member]

/-- Heaps that agree on the cells of a tree give it the same strings. -/
theorem textTree_congr
    {other : KeyHeap}
    {tree : StoredTree α}
    {cells : List Nat}
    (holds : HoldsCells tree cells)
    (agree : AgreeOn cells heap other) :
    textTree other tree = textTree heap tree := by
  apply mapKeys_congr
  intro key member
  rw [holds] at member
  obtain ⟨address, isCell, rfl⟩ := List.mem_map.mp member
  simp [keyText, agree address isCell]

/-- Heaps that agree on a cell give it the same string. -/
theorem keyText_congr
    {other : KeyHeap}
    {cells : List Nat}
    (agree : AgreeOn cells heap other)
    {address : Nat}
    (member : address ∈ cells) :
    keyText other (some address) = keyText heap (some address) := by
  simp [keyText, agree address member]

/-- The tail of an insertion sees the stored tree as it sees the text. -/
theorem avlInsertRebalance_text
    {owned leftCells rightCells : List Nat}
    (owns : heap.Owns owned)
    {left right : StoredTree α}
    (leftHolds : HoldsCells left leftCells)
    (rightHolds : HoldsCells right rightCells)
    (leftOwned : leftCells ⊆ owned)
    (rightOwned : rightCells ⊆ owned)
    {key : KeyArg}
    {string : CString}
    (reads : readArg heap key = .ok string)
    (nodeKey : KeyPtr)
    (data : Option α)
    (height : Int) :
    mapKeys (keyText heap) <$>
        avlInsertRebalance heap key nodeKey data height left right =
      Avl.avlInsertRebalance string (keyText heap nodeKey) data height
        (textTree heap left) (textTree heap right) := by
  have stored :=
    storeHeight_mapKeys (keyText heap) (.node nodeKey data height left right)
  simp only [mapKeys] at stored
  simp only [avlInsertRebalance, Avl.avlInsertRebalance, textTree, stored,
    avlGetBalance_mapKeys, avlGetHeight_mapKeys]
  split
  · cases left with
    | null =>
        rfl
    | node lKey lData lHeight lLeft lRight =>
        obtain ⟨lCells, address, rCells, rfl, rfl, -, -⟩ :=
          holdsCells_node.mp leftHolds
        have compared :=
          compareKey_eq owns (leftOwned (by simp : address ∈ _)) reads
        simp only [mapKeys, compared, Checked.ok_bind]
        split_ifs with below above
        · exact (avlRotateRight_mapKeys _ _).symm
        · exact (avlRotateLeftRight_mapKeys (keyText heap) nodeKey data _
            (.node (some address) lData lHeight lLeft lRight) right).symm
        · rfl
  · split
    · cases right with
      | null =>
          rfl
      | node rKey rData rHeight rLeft rRight =>
          obtain ⟨lCells, address, rCells, rfl, rfl, -, -⟩ :=
            holdsCells_node.mp rightHolds
          have compared :=
            compareKey_eq owns (rightOwned (by simp : address ∈ _)) reads
          simp only [mapKeys, compared, Checked.ok_bind]
          split_ifs with above below
          · exact (avlRotateLeft_mapKeys _ _).symm
          · exact (avlRotateRightLeft_mapKeys (keyText heap) nodeKey data _
              left (.node (some address) rData rHeight rLeft rRight)).symm
          · rfl
    · rfl

/-- The tail of an insertion keeps the in-order sequence. -/
theorem avlInsertRebalance_entries
    {key : KeyArg}
    {nodeKey : KeyPtr}
    {data : Option α}
    {height : Int}
    {left right after : StoredTree α}
    (rebalances :
      avlInsertRebalance heap key nodeKey data height left right =
        .ok after) :
    after.entries = (node nodeKey data height left right).entries := by
  simp only [avlInsertRebalance] at rebalances
  split at rebalances
  · split at rebalances
    · cases rebalances
    · obtain ⟨order, -, rotates⟩ := Checked.bind_eq_ok.mp rebalances
      split at rotates
      · rw [avlRotateRight_entries rotates, storeHeight_entries]
      · split at rotates
        · exact avlRotateLeftRight_entries rotates
        · cases rotates
          rw [storeHeight_entries]
  · split at rebalances
    · split at rebalances
      · cases rebalances
      · obtain ⟨order, -, rotates⟩ := Checked.bind_eq_ok.mp rebalances
        split at rotates
        · rw [avlRotateLeft_entries rotates, storeHeight_entries]
        · split at rotates
          · exact avlRotateRightLeft_entries rotates
          · cases rotates
            rw [storeHeight_entries]
    · cases rebalances
      rw [storeHeight_entries]

end Reading

/--
The outcome of an operation on a tree that owns its cells: the new tree owns
its own, stands for the given tree of strings, and the cells of the frame and
the outcomes of later requests are as before.
-/
structure Kept
    {α : Type}
    (frame : List Nat)
    (before heap : KeyHeap)
    (root : StoredTree α)
    (after : Tree α) : Prop where
  owned : ∃ cells, HoldsCells root cells ∧ heap.Owns (cells ++ frame)
  sameGrants : heap.grants = before.grants
  agree : AgreeOn frame before heap
  text : textTree heap root = after

/-- The cells of a right subtree, moved between the frame and the tree. -/
theorem right_frame_perm
    (leftCells rightCells frame : List Nat)
    (address : Nat) :
    (rightCells ++ (leftCells ++ address :: frame)).Perm
      (leftCells ++ address :: rightCells ++ frame) := by
  rw [← List.append_assoc, List.append_assoc leftCells, List.cons_append]
  calc
    (rightCells ++ leftCells ++ address :: frame).Perm
        (leftCells ++ rightCells ++ address :: frame) :=
      List.perm_append_comm.append_right _
    _ = leftCells ++ (rightCells ++ address :: frame) :=
      List.append_assoc ..
    List.Perm _ (leftCells ++ address :: (rightCells ++ frame)) :=
      List.perm_middle.append_left _

/-- The cells of a node, before those of the trees below it. -/
theorem root_frame_perm
    (leftCells rightCells frame : List Nat)
    (address : Nat) :
    (leftCells ++ address :: rightCells ++ frame).Perm
      (address :: (rightCells ++ (leftCells ++ frame))) :=
  calc
    (leftCells ++ address :: rightCells ++ frame).Perm
        (rightCells ++ (leftCells ++ address :: frame)) :=
      (right_frame_perm leftCells rightCells frame address).symm
    List.Perm _ (rightCells ++ address :: (leftCells ++ frame)) :=
      List.perm_middle.append_left _
    List.Perm _ (address :: (rightCells ++ (leftCells ++ frame))) :=
      List.perm_middle

namespace Kept

variable {α : Type} {frame : List Nat} {before heap : KeyHeap}

/-- An operation that comes after one that left the frame alone. -/
theorem trans
    {middle : KeyHeap}
    {root : StoredTree α}
    {after : Tree α}
    (kept : Kept frame middle heap root after)
    (sameGrants : middle.grants = before.grants)
    (agree : AgreeOn frame before middle) :
    Kept frame before heap root after :=
  ⟨kept.owned, kept.sameGrants.trans sameGrants, agree.trans kept.agree,
    kept.text⟩

/-- A node whose left subtree was worked on, after its rebalancing. -/
theorem of_left
    {rightCells : List Nat}
    {address : Nat}
    {left right root : StoredTree α}
    {data : Option α}
    {height : Int}
    {leftAfter after : Tree α}
    (kept : Kept (address :: rightCells ++ frame) before heap left leftAfter)
    (rightHolds : HoldsCells right rightCells)
    (entries :
      root.entries = (node (some address) data height left right).entries)
    (text : textTree heap root = after) :
    Kept frame before heap root after := by
  obtain ⟨leftCells, leftHolds, owns⟩ := kept.owned
  have holds : HoldsCells root (leftCells ++ address :: rightCells) := by
    unfold HoldsCells AvlNode.keys
    rw [entries]
    exact holdsCells_node.mpr
      ⟨leftCells, address, rightCells, rfl, rfl, leftHolds, rightHolds⟩
  refine ⟨⟨_, holds, ?_⟩, kept.sameGrants, ?_, text⟩
  · simpa using owns
  · exact kept.agree.mono fun cell member => by simp [member]

/-- A node whose right subtree was worked on, after its rebalancing. -/
theorem of_right
    {leftCells : List Nat}
    {address : Nat}
    {left right root : StoredTree α}
    {data : Option α}
    {height : Int}
    {rightAfter after : Tree α}
    (kept : Kept (leftCells ++ address :: frame) before heap right rightAfter)
    (leftHolds : HoldsCells left leftCells)
    (entries :
      root.entries = (node (some address) data height left right).entries)
    (text : textTree heap root = after) :
    Kept frame before heap root after := by
  obtain ⟨rightCells, rightHolds, owns⟩ := kept.owned
  have holds : HoldsCells root (leftCells ++ address :: rightCells) := by
    unfold HoldsCells AvlNode.keys
    rw [entries]
    exact holdsCells_node.mpr
      ⟨leftCells, address, rightCells, rfl, rfl, leftHolds, rightHolds⟩
  refine ⟨⟨_, holds, owns.perm (right_frame_perm _ _ _ _)⟩,
    kept.sameGrants, ?_, text⟩
  exact kept.agree.mono fun cell member => by simp [member]

end Kept

/--
`avl_insert_node` on a tree that owns its cells does what it does on the
strings, and the tree still owns its cells.
-/
theorem avlInsertNode_kept
    {α : Type}
    {tree : StoredTree α}
    {heap : KeyHeap}
    {cells frame : List Nat}
    (holds : HoldsCells tree cells)
    (owns : heap.Owns (cells ++ frame))
    {key : CString}
    {data : Option α}
    (granted :
      reachesNull (textTree heap tree) key = true →
      heap.grants heap.requests = true ∧
        heap.grants (heap.requests + 1) = true)
    {after : Tree α}
    (inserts : Avl.avlInsertNode (textTree heap tree) key data = .ok after) :
    ∃ root grown,
      avlInsertNode heap tree (.caller key) data = .ok (root, grown) ∧
        Kept frame heap grown root after := by
  induction tree generalizing cells frame after with
  | null =>
      cases inserts
      have isNil : cells = [] :=
        List.map_eq_nil_iff.mp holds.symm
      subst isNil
      obtain ⟨nodeGranted, keyGranted⟩ := granted rfl
      refine ⟨.node (some heap.next) data 1 .null .null,
        heap.request.2.store key, ?_, ⟨[heap.next], rfl, ?_⟩, rfl, ?_, ?_⟩
      · simp [avlInsertNode, avlNewNode, strdup, readArg, CellHeap.request,
          CellHeap.allocate, nodeGranted, keyGranted]
      · exact owns.request.store key
      · exact owns.request.store_agreeOn key
      · simp [textTree, mapKeys, keyText, CellHeap.store, CellHeap.request,
          Avl.avlNewNode]
  | node nodeKey nodeData nodeHeight left right leftSpec rightSpec =>
      obtain ⟨leftCells, address, rightCells, rfl, rfl,
          leftHolds, rightHolds⟩ := holdsCells_node.mp holds
      have compared :
          compareKey heap (.caller key) (some address) =
            .ok (strcmp key (keyText heap (some address))) :=
        compareKey_eq owns (by simp) rfl
      simp only [textTree, mapKeys, Avl.avlInsertNode] at inserts
      simp only [textTree, mapKeys, reachesNull] at granted
      simp only [avlInsertNode, compared, Checked.ok_bind]
      split_ifs at inserts granted ⊢ with below above
      · obtain ⟨leftAfter, leftInserts, rebalances⟩ :=
          Checked.bind_eq_ok.mp inserts
        have leftOwns :
            heap.Owns (leftCells ++ (address :: rightCells ++ frame)) := by
          simpa using owns
        obtain ⟨newLeft, grown, steps, kept⟩ :=
          leftSpec leftHolds leftOwns granted leftInserts
        obtain ⟨newCells, newHolds, grownOwns⟩ := kept.owned
        have rebalanced :=
          avlInsertRebalance_text grownOwns newHolds rightHolds
            (by simp) (fun cell member => by simp [member])
            (rfl : readArg grown (.caller key) = .ok key)
            (some address) nodeData nodeHeight
        rw [kept.text, keyText_congr kept.agree (by simp),
          textTree_congr rightHolds
            (kept.agree.mono fun cell member => by simp [member])]
          at rebalanced
        obtain ⟨root, rebalances, text⟩ :=
          Checked.map_eq_ok.mp (rebalanced.trans rebalances)
        refine ⟨root, grown, ?_,
          kept.of_left rightHolds
            (avlInsertRebalance_entries rebalances) text⟩
        simp [steps, rebalances]
      · obtain ⟨rightAfter, rightInserts, rebalances⟩ :=
          Checked.bind_eq_ok.mp inserts
        obtain ⟨newRight, grown, steps, kept⟩ :=
          rightSpec rightHolds
            (owns.perm (right_frame_perm _ _ _ _).symm) granted rightInserts
        obtain ⟨newCells, newHolds, grownOwns⟩ := kept.owned
        have rebalanced :=
          avlInsertRebalance_text grownOwns leftHolds newHolds
            (fun cell member => by simp [member]) (by simp)
            (rfl : readArg grown (.caller key) = .ok key)
            (some address) nodeData nodeHeight
        rw [kept.text, keyText_congr kept.agree (by simp),
          textTree_congr leftHolds
            (kept.agree.mono fun cell member => by simp [member])]
          at rebalanced
        obtain ⟨root, rebalances, text⟩ :=
          Checked.map_eq_ok.mp (rebalanced.trans rebalances)
        refine ⟨root, grown, ?_,
          kept.of_right leftHolds
            (avlInsertRebalance_entries rebalances) text⟩
        simp [steps, rebalances]
      · cases inserts
        exact ⟨_, heap, rfl, ⟨_, holds, owns⟩, rfl,
          AgreeOn.refl frame heap, rfl⟩

/-- `avl_search_node` on a tree that owns its cells reads only owned cells. -/
theorem avlSearchNode_kept
    {α : Type}
    {tree : StoredTree α}
    {heap : KeyHeap}
    {cells owned : List Nat}
    (holds : HoldsCells tree cells)
    (owns : heap.Owns owned)
    (subset : cells ⊆ owned)
    (key : CString) :
    avlSearchNode heap tree (.caller key) =
      .ok (Avl.avlSearchNode (textTree heap tree) key) := by
  induction tree generalizing cells with
  | null =>
      rfl
  | node nodeKey nodeData nodeHeight left right leftSpec rightSpec =>
      obtain ⟨leftCells, address, rightCells, rfl, rfl,
          leftHolds, rightHolds⟩ := holdsCells_node.mp holds
      have compared :
          compareKey heap (.caller key) (some address) =
            .ok (strcmp key (keyText heap (some address))) :=
        compareKey_eq owns (subset (by simp)) rfl
      have leftFound :=
        leftSpec leftHolds fun cell member => subset (by simp [member])
      have rightFound :=
        rightSpec rightHolds fun cell member => subset (by simp [member])
      simp only [textTree] at leftFound rightFound
      simp only [avlSearchNode, compared, Checked.ok_bind,
        textTree, mapKeys, Avl.avlSearchNode, leftFound, rightFound]
      split_ifs <;> rfl

/--
Releasing one key and then duplicating another one of the tree: the fresh cell
takes the place of the released one.
-/
theorem replaceKey_kept
    {heap : KeyHeap}
    {address source : Nat}
    {cells : List Nat}
    (owns : heap.Owns (address :: cells))
    (granted : heap.grants heap.requests = true)
    (member : source ∈ cells) :
    ∃ released fresh replaced,
      freeKey heap (some address) = .ok released ∧
        strdup released (.cell (some source)) =
          .ok (some fresh, replaced) ∧
        replaced.Owns (fresh :: cells) ∧
        replaced.grants = heap.grants ∧
        AgreeOn cells heap replaced ∧
        keyText replaced (some fresh) = keyText heap (some source) := by
  have releasedAgrees := owns.retire_agreeOn
  have reads := readKey_eq owns.retire member
  rw [keyText_congr releasedAgrees member] at reads
  have stillGranted :
      (heap.retire address).grants (heap.retire address).requests = true :=
    granted
  refine ⟨heap.retire address, heap.next,
    (heap.retire address).store (keyText heap (some source)),
    owns.release_eq (by simp), ?_, owns.retire.store _, rfl,
    releasedAgrees.trans (owns.retire.store_agreeOn _), ?_⟩
  · simp only [strdup, readArg, reads, Checked.ok_bind, CellHeap.allocate]
    rw [if_pos stillGranted]
    rfl
  · simp [keyText, CellHeap.store, CellHeap.retire]

/-- The tail of a deletion sees the stored tree as it sees the text. -/
theorem avlDeleteRebalance_text
    {α : Type}
    {heap : KeyHeap}
    {tree : StoredTree α}
    {text after : Tree α}
    (isText : textTree heap tree = text)
    (rebalances : avlDeleteRebalance text = .ok after) :
    ∃ root,
      avlDeleteRebalance tree = .ok root ∧
        root.entries = tree.entries ∧
        textTree heap root = after := by
  subst isText
  rw [textTree, avlDeleteRebalance_mapKeys] at rebalances
  obtain ⟨root, rebalances, text⟩ := Checked.map_eq_ok.mp rebalances
  exact ⟨root, rebalances, avlDeleteRebalance_entries rebalances, text⟩

/-- A deletion in the left subtree, after the rebalancing of the node. -/
theorem Kept.delete_left
    {α : Type}
    {heap shrunk : KeyHeap}
    {rightCells frame : List Nat}
    {address : Nat}
    {left right : StoredTree α}
    {leftAfter rootAfter : Tree α}
    (kept : Kept (address :: rightCells ++ frame) heap shrunk left leftAfter)
    (rightHolds : HoldsCells right rightCells)
    {data : Option α}
    {height : Int}
    (rebalances :
      Avl.avlDeleteRebalance
          (.node (keyText heap (some address)) data height leftAfter
            (textTree heap right)) =
        .ok rootAfter) :
    ∃ root,
      avlDeleteRebalance (.node (some address) data height left right) =
          .ok root ∧
        Kept frame heap shrunk root rootAfter := by
  have isText :
      textTree shrunk (.node (some address) data height left right) =
        .node (keyText heap (some address)) data height leftAfter
          (textTree heap right) := by
    simp only [textTree, mapKeys, ← kept.text]
    rw [keyText_congr kept.agree (by simp)]
    congr 1
    exact textTree_congr rightHolds
      (kept.agree.mono fun cell member => by simp [member])
  obtain ⟨root, rebalances, entries, text⟩ :=
    avlDeleteRebalance_text isText rebalances
  exact ⟨root, rebalances, kept.of_left rightHolds entries text⟩

/-- A deletion in the right subtree, after the rebalancing of the node. -/
theorem Kept.delete_right
    {α : Type}
    {heap shrunk : KeyHeap}
    {leftCells frame : List Nat}
    {address : Nat}
    {left right : StoredTree α}
    {rightAfter rootAfter : Tree α}
    (kept : Kept (leftCells ++ address :: frame) heap shrunk right rightAfter)
    (leftHolds : HoldsCells left leftCells)
    {data : Option α}
    {height : Int}
    (rebalances :
      Avl.avlDeleteRebalance
          (.node (keyText heap (some address)) data height
            (textTree heap left) rightAfter) =
        .ok rootAfter) :
    ∃ root,
      avlDeleteRebalance (.node (some address) data height left right) =
          .ok root ∧
        Kept frame heap shrunk root rootAfter := by
  have isText :
      textTree shrunk (.node (some address) data height left right) =
        .node (keyText heap (some address)) data height
          (textTree heap left) rightAfter := by
    simp only [textTree, mapKeys, ← kept.text]
    rw [keyText_congr kept.agree (by simp)]
    congr 1
    exact textTree_congr leftHolds
      (kept.agree.mono fun cell member => by simp [member])
  obtain ⟨root, rebalances, entries, text⟩ :=
    avlDeleteRebalance_text isText rebalances
  exact ⟨root, rebalances, kept.of_right leftHolds entries text⟩

/-- The successor that `avl_delete_node` moves up has a cell of the right subtree. -/
theorem successor_held
    {α : Type}
    (heap : KeyHeap)
    {right : StoredTree α}
    {rightCells : List Nat}
    (rightHolds : HoldsCells right rightCells)
    (nonempty : right ≠ .null) :
    ∃ source ∈ rightCells, ∃ data height tempRight,
      avlMinValueNode right =
          .node (some source) data height .null tempRight ∧
        avlMinValueNode (right.mapKeys (keyText heap)) =
          .node (keyText heap (some source)) data height .null
            (tempRight.mapKeys (keyText heap)) := by
  obtain ⟨tempKey, data, height, tempRight, rest, isMin, first⟩ :=
    avlMinValueNode_first right nonempty
  have held : tempKey ∈ right.keys := by
    simp only [AvlNode.keys, first, List.map_cons, List.mem_cons, true_or]
  rw [rightHolds] at held
  obtain ⟨source, sourceHeld, rfl⟩ := List.mem_map.mp held
  have textMin := avlMinValueNode_mapKeys (keyText heap) right
  rw [isMin] at textMin
  exact ⟨source, sourceHeld, data, height, tempRight, isMin, textMin⟩

/--
Replacing the key of a node with two children by a copy of its successor's: the
right subtree still stands for the same strings, and the successor's key is read
from its cell.
-/
theorem successor_copied
    {α : Type}
    {heap : KeyHeap}
    {leftCells rightCells frame : List Nat}
    {address source : Nat}
    {right : StoredTree α}
    (owns : heap.Owns (address :: (rightCells ++ (leftCells ++ frame))))
    (rightHolds : HoldsCells right rightCells)
    (granted : heap.grants heap.requests = true)
    (member : source ∈ rightCells) :
    ∃ released fresh replaced,
      freeKey heap (some address) = .ok released ∧
        strdup released (.cell (some source)) =
          .ok (some fresh, replaced) ∧
        replaced.Owns (rightCells ++ (leftCells ++ fresh :: frame)) ∧
        replaced.grants = heap.grants ∧
        AgreeOn (rightCells ++ (leftCells ++ frame)) heap replaced ∧
        keyText replaced (some fresh) = keyText heap (some source) ∧
        textTree replaced right = textTree heap right ∧
        readArg replaced (.cell (some source)) =
          .ok (keyText heap (some source)) := by
  obtain ⟨released, fresh, replaced, frees, duplicates, replacedOwns,
      sameGrants, agree, freshText⟩ :=
    replaceKey_kept owns granted (by simp [member] : source ∈ _)
  have newOwns : replaced.Owns (rightCells ++ (leftCells ++ fresh :: frame)) :=
    replacedOwns.perm
      (List.perm_middle.symm.trans (List.perm_middle.symm.append_left _))
  have sourceReads :
      readArg replaced (.cell (some source)) =
        .ok (keyText heap (some source)) := by
    rw [← keyText_congr agree (by simp [member])]
    exact readKey_eq newOwns (by simp [member])
  exact ⟨released, fresh, replaced, frees, duplicates, newOwns, sameGrants,
    agree, freshText,
    textTree_congr rightHolds
      (agree.mono (List.subset_append_left rightCells _)),
    sourceReads⟩

/--
`avl_delete_node` on a tree that owns its cells does what it does on the
strings, and the tree still owns its cells, provided the node that is unlinked
has no child.
-/
theorem avlDeleteNode_kept
    {α : Type}
    {tree : StoredTree α}
    {heap : KeyHeap}
    {cells frame : List Nat}
    (holds : HoldsCells tree cells)
    (owns : heap.Owns (cells ++ frame))
    {key : KeyArg}
    {string : CString}
    (reads : readArg heap key = .ok string)
    (increasing : Increasing (textTree heap tree).entries)
    (leaf : unlinksLeaf (textTree heap tree) string = true)
    (granted :
      duplicatesKey (textTree heap tree) string = true →
      heap.grants heap.requests = true)
    {after : Tree α}
    {written : Option (Option α)}
    (deletes :
      Avl.avlDeleteNode (textTree heap tree) string = .ok (after, written)) :
    ∃ root shrunk,
      avlDeleteNode heap tree key = .ok (root, shrunk, written) ∧
        Kept frame heap shrunk root after := by
  induction tree generalizing heap cells frame key string after written with
  | null =>
      cases deletes
      exact ⟨.null, heap, rfl, ⟨cells, holds, owns⟩, rfl,
        AgreeOn.refl frame heap, rfl⟩
  | node rootKey rootData rootHeight left right leftSpec rightSpec =>
      obtain ⟨leftCells, address, rightCells, rfl, rfl,
          leftHolds, rightHolds⟩ := holdsCells_node.mp holds
      have compared :
          compareKey heap key (some address) =
            .ok (strcmp string (keyText heap (some address))) :=
        compareKey_eq owns (by simp) reads
      obtain ⟨leftIncreasing, rightIncreasing, -, -⟩ :=
        increasing_pivot.mp increasing
      simp only [textTree, mapKeys, unlinksLeaf] at leaf
      simp only [textTree, mapKeys, duplicatesKey] at granted
      simp only [textTree, mapKeys, Avl.avlDeleteNode] at deletes
      simp only [avlDeleteNode, compared, Checked.ok_bind]
      split_ifs at leaf granted deletes ⊢ with below above
      · obtain ⟨⟨leftAfter, leftWritten⟩, leftDeletes, rest⟩ :=
          Checked.bind_eq_ok.mp deletes
        obtain ⟨rootAfter, rebalances, returns⟩ :=
          Checked.bind_eq_ok.mp rest
        cases returns
        have leftOwns :
            heap.Owns (leftCells ++ (address :: rightCells ++ frame)) := by
          simpa using owns
        obtain ⟨newLeft, shrunk, steps, kept⟩ :=
          leftSpec leftHolds leftOwns reads leftIncreasing leaf granted
            leftDeletes
        obtain ⟨root, rebalances, kept⟩ := kept.delete_left rightHolds rebalances
        refine ⟨root, shrunk, ?_, kept⟩
        simp [steps, rebalances]
      · obtain ⟨⟨rightAfter, rightWritten⟩, rightDeletes, rest⟩ :=
          Checked.bind_eq_ok.mp deletes
        obtain ⟨rootAfter, rebalances, returns⟩ :=
          Checked.bind_eq_ok.mp rest
        cases returns
        obtain ⟨newRight, shrunk, steps, kept⟩ :=
          rightSpec rightHolds (owns.perm (right_frame_perm _ _ _ _).symm)
            reads rightIncreasing leaf granted rightDeletes
        obtain ⟨root, rebalances, kept⟩ := kept.delete_right leftHolds rebalances
        refine ⟨root, shrunk, ?_, kept⟩
        simp [steps, rebalances]
      · have rootOwns :
            heap.Owns (address :: (rightCells ++ (leftCells ++ frame))) :=
          owns.perm (root_frame_perm _ _ _ _)
        cases left with
        | null =>
            cases right with
            | null =>
                cases deletes
                have noLeft : leftCells = [] :=
                  List.map_eq_nil_iff.mp leftHolds.symm
                have noRight : rightCells = [] :=
                  List.map_eq_nil_iff.mp rightHolds.symm
                subst noLeft noRight
                refine ⟨.null, heap.retire address, ?_,
                  ⟨[], rfl, rootOwns.retire⟩, rfl,
                  rootOwns.retire_agreeOn, rfl⟩
                simp [freeKey, rootOwns.release_eq]
            | node rKey rData rHeight rLeft rRight =>
                cases leaf
        | node lKey lData lHeight lLeft lRight =>
            cases right with
            | null =>
                cases leaf
            | node rKey rData rHeight rLeft rRight =>
                obtain ⟨source, sourceHeld, tempData, tempHeight, tempRight,
                    isMin, textMin⟩ :=
                  successor_held heap rightHolds (by simp)
                simp only [mapKeys] at textMin
                simp only [mapKeys, removesLeaf, textMin] at leaf
                have isGranted := granted rfl
                simp only [mapKeys, textMin] at deletes
                have minLeaf : tempRight = .null := by
                  cases tempRight with
                  | null =>
                      rfl
                  | node _ _ _ _ _ =>
                      cases leaf
                subst minLeaf
                obtain ⟨released, fresh, replaced, frees, duplicates, newOwns,
                    sameGrants, agree, freshText, rightText, sourceReads⟩ :=
                  successor_copied rootOwns rightHolds isGranted sourceHeld
                obtain ⟨⟨rightAfter, rightWritten⟩, rightDeletes, last⟩ :=
                  Checked.bind_eq_ok.mp deletes
                obtain ⟨rootAfter, rebalances, returns⟩ :=
                  Checked.bind_eq_ok.mp last
                cases returns
                obtain ⟨newRight, shrunk, steps, kept⟩ :=
                  rightSpec rightHolds newOwns sourceReads
                    (by rwa [rightText])
                    (by
                      rw [rightText]
                      exact unlinksLeaf_min rightIncreasing textMin)
                    (by
                      rw [rightText]
                      intro duplicates
                      cases (duplicatesKey_min rightIncreasing textMin).symm.trans
                        duplicates)
                    (by rwa [rightText])
                have leftText :=
                  textTree_congr leftHolds
                    (agree.mono fun cell member => by simp [member])
                obtain ⟨root, rebalances, kept⟩ :=
                  kept.delete_right leftHolds
                    (by
                      rw [freshText, leftText]
                      exact rebalances)
                refine ⟨root, shrunk, ?_, kept.trans sameGrants
                  (agree.mono fun cell member => by simp [member])⟩
                simp only [isMin, frees, duplicates, steps, rebalances,
                  Checked.ok_bind]

/-- `avl_destroy_node` releases exactly the cells of the tree. -/
theorem avlDestroyNode_kept
    {α : Type}
    {tree : StoredTree α}
    {heap : KeyHeap}
    {cells frame : List Nat}
    (holds : HoldsCells tree cells)
    (owns : heap.Owns (cells ++ frame)) :
    ∃ after,
      avlDestroyNode heap tree = .ok after ∧
        after.Owns frame := by
  induction tree generalizing heap cells frame with
  | null =>
      have isNil : cells = [] :=
        List.map_eq_nil_iff.mp holds.symm
      subst isNil
      exact ⟨heap, rfl, owns⟩
  | node nodeKey nodeData nodeHeight left right leftSpec rightSpec =>
      obtain ⟨leftCells, address, rightCells, rfl, rfl,
          leftHolds, rightHolds⟩ := holdsCells_node.mp holds
      have leftOwns :
          heap.Owns (leftCells ++ (rightCells ++ address :: frame)) := by
        rw [List.append_assoc] at owns
        exact owns.perm (List.perm_middle.symm.append_left _)
      obtain ⟨leftGone, leftSteps, leftGoneOwns⟩ :=
        leftSpec leftHolds leftOwns
      obtain ⟨rightGone, rightSteps, rightOwns⟩ :=
        rightSpec rightHolds leftGoneOwns
      refine ⟨rightGone.retire address, ?_, rightOwns.retire⟩
      simp only [avlDestroyNode, leftSteps, rightSteps, Checked.ok_bind,
        freeKey]
      exact rightOwns.release_eq (by simp)

/-- Make one call on a handle with storage. -/
def avlStep
    {α : Type}
    (store : AvlStore α) :
    AvlCall α → Checked (AvlStore α × AvlResult α)
  | .insert key data => do
      let (store, code) ← avlInsert store key data
      .ok (store, .status code)
  | .search key => do
      let pointer ← avlSearch store key
      .ok (store, .data pointer)
  | .del key => do
      let (store, pointer) ← avlDel store key
      .ok (store, .data pointer)

/-- The handle with the strings in place of the key pointers. -/
def AvlStore.text
    {α : Type}
    (store : AvlStore α) : AvlH α where
  root :=
    textTree store.heap store.root
  allocated :=
    1

/--
The nodes hold pairwise distinct key cells, and the allocated cells are exactly
these.
-/
def OwnsKeys
    {α : Type}
    (store : AvlStore α) : Prop :=
  ∃ cells, HoldsCells store.root cells ∧ store.heap.Owns cells

/-- A deletion that unlinks a node unlinks one without children. -/
def LeafDeletion
    {α : Type}
    (store : AvlStore α)
    (call : AvlCall α) : Prop :=
  ∀ key, call = .del key →
    unlinksLeaf (textTree store.heap store.root) key = true

/-- The requests for memory that a call makes are granted. -/
def Granted
    {α : Type}
    (store : AvlStore α) : AvlCall α → Prop
  | .insert key _ =>
      reachesNull (textTree store.heap store.root) key = true →
      store.heap.grants store.heap.requests = true ∧
        store.heap.grants (store.heap.requests + 1) = true
  | .search _ =>
      True
  | .del key =>
      duplicatesKey (textTree store.heap store.root) key = true →
      store.heap.grants store.heap.requests = true

/-- A heap that refuses nothing grants the requests of every call. -/
theorem granted_of_always
    {α : Type}
    {store : AvlStore α}
    (always : store.heap.AlwaysGrants)
    (call : AvlCall α) :
    Granted store call := by
  cases call with
  | insert key data =>
      exact fun _ => ⟨always _, always _⟩
  | search key =>
      trivial
  | del key =>
      exact fun _ => always _

/--
What holds of a handle as long as deletions unlink leaves only and no request
is refused.
-/
structure Sound
    {α : Type}
    (store : AvlStore α) : Prop where
  owned : OwnsKeys store
  ordered : ∃ map, Represents store.text map

/-- A handle after an operation on its tree, with nothing in the frame. -/
theorem Sound.of_kept
    {α : Type}
    {before heap : KeyHeap}
    {root : StoredTree α}
    {after : Tree α}
    {map : DataMap α}
    (kept : Kept [] before heap root after)
    (represents : Represents ⟨after, 1⟩ map) :
    Sound ⟨root, heap⟩ := by
  obtain ⟨cells, holds, owns⟩ := kept.owned
  refine ⟨⟨cells, holds, ?_⟩, map, ?_⟩
  · simpa using owns
  · simpa only [AvlStore.text, kept.text] using represents

/-- `avl_search` does not need its separate test for an empty tree. -/
theorem avlSearch_eq
    {α : Type}
    (store : AvlStore α)
    (key : CString) :
    avlSearch store key =
      avlSearchNode store.heap store.root (.caller key) := by
  unfold avlSearch
  cases store.root <;> rfl

/-- `avl_del` does not need its separate test for an empty tree. -/
theorem avlDel_eq
    {α : Type}
    (store : AvlStore α)
    (key : CString) :
    avlDel store key = (do
      let (root, heap, written) ←
        avlDeleteNode store.heap store.root (.caller key)
      .ok (⟨root, heap⟩, written.getD none)) := by
  obtain ⟨root, heap⟩ := store
  cases root <;> rfl

/-- A call on a sound handle returns, does what it does on the strings, and
leaves the handle sound. -/
theorem avlStep_sound
    {α : Type}
    {store : AvlStore α}
    (sound : Sound store)
    {call : AvlCall α}
    (leaf : LeafDeletion store call)
    (granted : Granted store call) :
    ∃ next result,
      avlStep store call = .ok (next, result) ∧
        Avl.avlStep store.text call = .ok (next.text, result) ∧
        Sound next ∧
        next.heap.grants = store.heap.grants := by
  obtain ⟨root, heap⟩ := store
  obtain ⟨⟨cells, holds, owns⟩, map, represents⟩ := sound
  obtain ⟨next, result, nextMap, steps, -, nextRepresents⟩ :=
    avlStep_refines represents call
  have ownsFramed : heap.Owns (cells ++ []) := by
    simpa using owns
  cases call with
  | insert key data =>
      obtain ⟨after, inserts, -⟩ :=
        avlInsertNode_spec represents.balanced represents.increasing key data
      obtain ⟨newRoot, grown, storedInserts, kept⟩ :=
        avlInsertNode_kept holds ownsFramed granted inserts
      have textSteps :
          Avl.avlStep (AvlStore.text ⟨root, heap⟩) (.insert key data) =
            .ok (⟨after, 1⟩, .status 0) := by
        simp only [Avl.avlStep, Avl.avlInsert, inserts, Checked.ok_bind]
        rfl
      cases textSteps.symm.trans steps
      refine ⟨⟨newRoot, grown⟩, .status 0, ?_, ?_,
        .of_kept kept nextRepresents, kept.sameGrants⟩
      · simp [avlStep, avlInsert, storedInserts]
      · rw [textSteps, AvlStore.text, kept.text]
  | search key =>
      refine ⟨⟨root, heap⟩,
        .data (Avl.avlSearchNode (textTree heap root) key), ?_, ?_,
        ⟨⟨cells, holds, owns⟩, map, represents⟩, rfl⟩
      · simp [avlStep, avlSearch_eq,
          avlSearchNode_kept holds owns (List.Subset.refl cells)]
      · simp [Avl.avlStep, Avl.avlSearch_eq, AvlStore.text]
  | del key =>
      obtain ⟨after, deletes, -⟩ :=
        avlDeleteNode_spec represents.balanced represents.increasing key
      obtain ⟨newRoot, shrunk, storedDeletes, kept⟩ :=
        avlDeleteNode_kept holds ownsFramed
          (rfl : readArg heap (.caller key) = .ok key)
          represents.increasing (leaf key rfl) granted deletes
      have textSteps :
          Avl.avlStep (AvlStore.text ⟨root, heap⟩) (.del key) =
            .ok (⟨after, 1⟩,
              .data ((find key (textTree heap root).entries).getD none)) := by
        simp only [Avl.avlStep, Avl.avlDel_eq, deletes, Checked.ok_bind]
        rfl
      cases textSteps.symm.trans steps
      refine ⟨⟨newRoot, shrunk⟩,
        .data ((find key (textTree heap root).entries).getD none), ?_, ?_,
        .of_kept kept nextRepresents, kept.sameGrants⟩
      · simp only [avlStep, avlDel_eq, storedDeletes, Checked.ok_bind]
        rfl
      · rw [textSteps, AvlStore.text, kept.text]

/-- The fresh handle is sound. -/
theorem sound_create
    {α : Type}
    (grants : Nat → Bool) :
    Sound (avlCreate grants : AvlStore α) where
  owned :=
    ⟨[], rfl, Owns.empty _⟩
  ordered :=
    ⟨fun _ => none, represents_create⟩

/--
After each of the calls the nodes hold distinct allocated cells and no other
cell is allocated, no call reads or releases a released cell, and destroying
the handle afterwards releases every cell that was ever allocated once.
-/
def KeysStayOwned
    {α : Type}
    (calls : List (AvlCall α)) : Prop :=
  ∀ done, done <+: calls →
    ∃ store results heap,
      runCalls avlStep (avlCreate fun _ => true) done =
          .ok (store, results) ∧
        OwnsKeys store ∧
        avlDestroy store = .ok heap ∧
        (∀ address, heap.cell address = none) ∧
        heap.freed.Perm (List.range heap.next)

/-- The deletions of a run from the empty tree only unlink leaves. -/
def UnlinksLeavesOnly
    {α : Type}
    (calls : List (AvlCall α)) : Prop :=
  AlwaysAllowed (StepOf avlStep) LeafDeletion (avlCreate fun _ => true) calls

/--
As long as no deletion unlinks a node with a child, every run keeps the keys
owned.
-/
theorem keys_owned_of_leaf_deletions
    {α : Type}
    (calls : List (AvlCall α))
    (leaves : UnlinksLeavesOnly calls) :
    KeysStayOwned calls := by
  rintro done ⟨rest, rfl⟩
  have stepSound :
      ∀ {store : AvlStore α} {call : AvlCall α},
        Sound store ∧ store.heap.AlwaysGrants →
        LeafDeletion store call →
        ∃ next result,
          avlStep store call = .ok (next, result) ∧
            Sound next ∧ next.heap.AlwaysGrants := by
    rintro store call ⟨sound, always⟩ leaf
    obtain ⟨next, result, steps, -, nextSound, sameGrants⟩ :=
      avlStep_sound sound leaf (granted_of_always always call)
    refine ⟨next, result, steps, nextSound, ?_⟩
    intro request
    rw [sameGrants]
    exact always request
  have created : Sound (avlCreate (fun _ => true) : AvlStore α) :=
    sound_create _
  obtain ⟨store, results, runs, sound, -⟩ :=
    runCalls_invariant stepSound ⟨created, fun _ => rfl⟩ leaves.of_append
  obtain ⟨cells, holds, owns⟩ := sound.owned
  have ownsFramed : store.heap.Owns (cells ++ []) := by
    simpa using owns
  obtain ⟨heap, destroys, ownsNothing⟩ :=
    avlDestroyNode_kept holds ownsFramed
  refine ⟨store, results, heap, runs, sound.owned, destroys, ?_,
    ownsNothing.freed_perm_range⟩
  intro address
  by_contra allocated
  simpa using (ownsNothing.allocated address).mp allocated

/-- The string `"a"`. -/
def keyA : CString :=
  ⟨[97], by decide⟩

/-- The string `"b"`. -/
def keyB : CString :=
  ⟨[98], by decide⟩

/-- The string `"c"`. -/
def keyC : CString :=
  ⟨[99], by decide⟩

/-- Deleting the root above two leaves unlinks one of the leaves. -/
theorem keys_owned_of_leaf_deletions_root :
    KeysStayOwned
      [.insert keyB (some 2), .insert keyA (some 1), .insert keyC (some 3),
        .del keyB, .search keyC] := by
  have notDel :
      ∀ (store : AvlStore Nat) (key : CString) (data : Option Nat),
        LeafDeletion store (.insert key data) := by
    intro store key data removed isDel
    cases isDel
  apply keys_owned_of_leaf_deletions
  apply AlwaysAllowed.step rfl (notDel _ _ _)
  apply AlwaysAllowed.step rfl (notDel _ _ _)
  apply AlwaysAllowed.step rfl (notDel _ _ _)
  refine AlwaysAllowed.step rfl ?_ ?_
  · intro key isDel
    cases isDel
    rfl
  · refine AlwaysAllowed.step rfl ?_ trivial
    intro key isDel
    cases isDel

/--
Deleting the root above one child leaves the released key of that child in the
tree, which a final destruction then releases a second time.
-/
theorem one_child_deletion_loses_key :
    ¬ KeysStayOwned
        [.insert keyA (some 1), .insert keyB (some 2), .del keyA] := by
  intro owned
  obtain ⟨store, results, heap, runs, -, destroys, -⟩ :=
    owned _ (List.prefix_refl _)
  have fails :
      (runCalls avlStep (avlCreate fun _ => true)
          [.insert keyA (some 1), .insert keyB (some 2), .del keyA] >>=
        fun outcome => avlDestroy outcome.1) = .error .doubleFree :=
    rfl
  rw [runs, Checked.ok_bind, destroys] at fails
  cases fails

end Clibs.Avl.Stored
