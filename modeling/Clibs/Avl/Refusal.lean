import Clibs.Avl.Ownership

namespace Clibs.Avl.Stored

/-!
# Calls whose requests for memory are refused

`avl_insert` asks for a node and for a copy of the key, `avl_del` for a copy of
the successor's key when the node has two children.  None of these requests is
tested.  A call survives when it returns as it reports and every node is left
with a key that can be read; on a handle on which all calls survived so far,
that is so exactly when its requests are granted and, as the sibling defect of
the deletion wants it, only a leaf is unlinked.
-/

open AvlNode SortedAssoc CellHeap

/-- Every node has a key that can be read: it is neither `NULL` nor released. -/
def NodesHaveKeys
    {α : Type}
    (store : AvlStore α) : Prop :=
  ∀ pointer ∈ store.root.keys,
    ∃ string, readKey store.heap pointer = .ok string

/-- Some node has the key. -/
def HasKey
    {α : Type}
    (store : AvlStore α)
    (key : CString) : Prop :=
  ∃ pointer ∈ store.root.keys, readKey store.heap pointer = .ok key

/-- The call returns, does what it reports, and leaves every node with a key. -/
def Survives
    {α : Type}
    (store : AvlStore α) : AvlCall α → Prop
  | .insert key data =>
      ∃ next code,
        avlInsert store key data = .ok (next, code) ∧
          (code = 0 → HasKey next key) ∧
          (code ≠ 0 →
            ∀ other, find other next.text.root.entries =
              find other store.text.root.entries) ∧
          NodesHaveKeys next
  | .search key =>
      ∃ pointer, avlSearch store key = .ok pointer
  | .del key =>
      ∃ next pointer,
        avlDel store key = .ok (next, pointer) ∧ NodesHaveKeys next

/-- The call's requests are granted, and a deletion unlinks no node with a child. -/
def Meets
    {α : Type}
    (store : AvlStore α)
    (call : AvlCall α) : Prop :=
  LeafDeletion store call ∧ Granted store call

/-- A key pointer that cannot be read. -/
def Unreadable
    (heap : KeyHeap)
    (pointer : KeyPtr) : Prop :=
  ∀ string, readKey heap pointer ≠ .ok string

section Unreadable

variable {α : Type} {heap : KeyHeap}

/-- `NULL` cannot be read. -/
theorem unreadable_null
    (heap : KeyHeap) :
    Unreadable heap none := by
  intro string reads
  cases reads

/-- A released key cannot be read. -/
theorem unreadable_retired
    (heap : KeyHeap)
    (address : Nat) :
    Unreadable (heap.retire address) (some address) := by
  intro string reads
  simp [readKey, CellHeap.read, CellHeap.retire] at reads

/-- A tree with a key that cannot be read has a node without a key. -/
theorem not_nodesHaveKeys
    {store : AvlStore α}
    (unreadable :
      ∃ pointer ∈ store.root.keys, Unreadable store.heap pointer) :
    ¬ NodesHaveKeys store := by
  obtain ⟨pointer, member, isUnreadable⟩ := unreadable
  intro haveKeys
  obtain ⟨string, reads⟩ := haveKeys pointer member
  exact isUnreadable string reads

/-- The keys of a node that was put together again from its parts. -/
theorem keys_of_entries
    {root : StoredTree α}
    {key : KeyPtr}
    {data : Option α}
    {height : Int}
    {left right : StoredTree α}
    (entries : root.entries = (node key data height left right).entries) :
    root.keys = left.keys ++ key :: right.keys := by
  rw [← keys_node key data height left right, AvlNode.keys, entries]
  rfl

end Unreadable

/--
An insertion that returns had both requests granted, or it has left a node
without a key.
-/
theorem avlInsertNode_returns
    {α : Type}
    {tree : StoredTree α}
    {heap : KeyHeap}
    {cells frame : List Nat}
    (holds : HoldsCells tree cells)
    (owns : heap.Owns (cells ++ frame))
    {key : CString}
    {data : Option α}
    (isNew : reachesNull (textTree heap tree) key = true)
    {root : StoredTree α}
    {grown : KeyHeap}
    (inserts : avlInsertNode heap tree (.caller key) data = .ok (root, grown)) :
    heap.grants heap.requests = true ∧
      (heap.grants (heap.requests + 1) = true ∨ none ∈ root.keys) := by
  induction tree generalizing cells frame root with
  | null =>
      cases nodeGranted : heap.grants heap.requests with
      | false =>
          simp [avlInsertNode, avlNewNode, CellHeap.request, nodeGranted]
            at inserts
      | true =>
          refine ⟨rfl, ?_⟩
          cases keyGranted : heap.grants (heap.requests + 1) with
          | true =>
              exact .inl rfl
          | false =>
              right
              simp [avlInsertNode, avlNewNode, CellHeap.request, nodeGranted,
                strdup, readArg, CellHeap.allocate, keyGranted] at inserts
              simp [← inserts.1]
  | node nodeKey nodeData nodeHeight left right leftReturns rightReturns =>
      obtain ⟨leftCells, address, rightCells, rfl, rfl,
          leftHolds, rightHolds⟩ := holdsCells_node.mp holds
      have compared :
          compareKey heap (.caller key) (some address) =
            .ok (strcmp key (keyText heap (some address))) :=
        compareKey_eq owns (by simp) rfl
      simp only [textTree, mapKeys, reachesNull] at isNew
      simp only [avlInsertNode, compared, Checked.ok_bind] at inserts
      split_ifs at isNew inserts with below above
      · obtain ⟨⟨newLeft, middle⟩, leftInserts, rest⟩ :=
          Checked.bind_eq_ok.mp inserts
        obtain ⟨node, rebalances, same⟩ := Checked.bind_eq_ok.mp rest
        cases same
        have leftOwns :
            heap.Owns (leftCells ++ (address :: rightCells ++ frame)) := by
          simpa using owns
        rw [keys_of_entries (avlInsertRebalance_entries rebalances)]
        exact (leftReturns leftHolds leftOwns isNew leftInserts).imp_right
          (Or.imp_right fun member => List.mem_append_left _ member)
      · obtain ⟨⟨newRight, middle⟩, rightInserts, rest⟩ :=
          Checked.bind_eq_ok.mp inserts
        obtain ⟨node, rebalances, same⟩ := Checked.bind_eq_ok.mp rest
        cases same
        have rightOwns :=
          owns.perm (right_frame_perm leftCells rightCells frame address).symm
        rw [keys_of_entries (avlInsertRebalance_entries rebalances)]
        exact (rightReturns rightHolds rightOwns isNew rightInserts).imp_right
          (Or.imp_right fun member =>
            List.mem_append_right _ (List.mem_cons_of_mem _ member))

/-- A node that was overwritten with its only child holds a released key. -/
theorem only_child_released
    {α : Type}
    {heap : KeyHeap}
    {cells : List Nat}
    (owns : heap.Owns cells)
    {address : Nat}
    (member : address ∈ cells)
    {data written : Option α}
    {height : Int}
    {left right root : StoredTree α}
    {shrunk : KeyHeap}
    {returned : Option (Option α)}
    (deletes :
      (do
        let heap ← freeKey heap (some address)
        let root ←
          avlDeleteRebalance (.node (some address) data height left right)
        .ok (root, heap, some written)) =
        .ok (root, shrunk, returned)) :
    ∃ pointer ∈ root.keys, Unreadable shrunk pointer := by
  simp only [freeKey, owns.release_eq member, Checked.ok_bind] at deletes
  obtain ⟨after, rebalances, same⟩ := Checked.bind_eq_ok.mp deletes
  cases same
  rw [keys_of_entries (avlDeleteRebalance_entries rebalances)]
  exact ⟨some address, by simp, unreadable_retired heap address⟩

/-- Duplicating a key of the tree may be refused, and gives `NULL` then. -/
theorem strdup_refused
    {heap : KeyHeap}
    {cells : List Nat}
    (owns : heap.Owns cells)
    (refused : heap.grants heap.requests = false)
    {source : Nat}
    (member : source ∈ cells) :
    strdup heap (.cell (some source)) = .ok (none, heap.request.2) := by
  simp only [strdup, readArg, readKey_eq owns member, Checked.ok_bind,
    CellHeap.allocate, refused]
  rfl

/--
A deletion that returns without having met the condition has left a node whose
key cannot be read.
-/
theorem avlDeleteNode_returns
    {α : Type}
    {tree : StoredTree α}
    {heap : KeyHeap}
    {cells frame : List Nat}
    (holds : HoldsCells tree cells)
    (owns : heap.Owns (cells ++ frame))
    {key : KeyArg}
    {string : CString}
    (reads : readArg heap key = .ok string)
    (increasing : Increasing (textTree heap tree).entries)
    (fails :
      unlinksLeaf (textTree heap tree) string = false ∨
        duplicatesKey (textTree heap tree) string = true ∧
          heap.grants heap.requests = false)
    {root : StoredTree α}
    {shrunk : KeyHeap}
    {written : Option (Option α)}
    (deletes : avlDeleteNode heap tree key = .ok (root, shrunk, written)) :
    ∃ pointer ∈ root.keys, Unreadable shrunk pointer := by
  induction tree generalizing heap cells frame key string root shrunk written with
  | null =>
      rcases fails with impossible | ⟨impossible, -⟩ <;> cases impossible
  | node rootKey rootData rootHeight left right leftFails rightFails =>
      obtain ⟨leftCells, address, rightCells, rfl, rfl,
          leftHolds, rightHolds⟩ := holdsCells_node.mp holds
      have compared :
          compareKey heap key (some address) =
            .ok (strcmp string (keyText heap (some address))) :=
        compareKey_eq owns (by simp) reads
      obtain ⟨leftIncreasing, rightIncreasing, -, -⟩ :=
        increasing_pivot.mp increasing
      simp only [textTree, mapKeys, unlinksLeaf, duplicatesKey] at fails
      simp only [avlDeleteNode, compared, Checked.ok_bind] at deletes
      split_ifs at fails deletes with below above
      · obtain ⟨⟨newLeft, middle, leftWritten⟩, leftDeletes, rest⟩ :=
          Checked.bind_eq_ok.mp deletes
        obtain ⟨after, rebalances, same⟩ := Checked.bind_eq_ok.mp rest
        cases same
        have leftOwns :
            heap.Owns (leftCells ++ (address :: rightCells ++ frame)) := by
          simpa using owns
        obtain ⟨pointer, member, isUnreadable⟩ :=
          leftFails leftHolds leftOwns reads leftIncreasing fails leftDeletes
        rw [keys_of_entries (avlDeleteRebalance_entries rebalances)]
        exact ⟨pointer, List.mem_append_left _ member, isUnreadable⟩
      · obtain ⟨⟨newRight, middle, rightWritten⟩, rightDeletes, rest⟩ :=
          Checked.bind_eq_ok.mp deletes
        obtain ⟨after, rebalances, same⟩ := Checked.bind_eq_ok.mp rest
        cases same
        obtain ⟨pointer, member, isUnreadable⟩ :=
          rightFails rightHolds
            (owns.perm (right_frame_perm _ _ _ _).symm) reads rightIncreasing
            fails rightDeletes
        rw [keys_of_entries (avlDeleteRebalance_entries rebalances)]
        exact ⟨pointer,
          List.mem_append_right _ (List.mem_cons_of_mem _ member),
          isUnreadable⟩
      · have rootOwns :
            heap.Owns (address :: (rightCells ++ (leftCells ++ frame))) :=
          owns.perm (root_frame_perm _ _ _ _)
        cases left with
        | null =>
            cases right with
            | null =>
                rcases fails with impossible | ⟨impossible, -⟩ <;>
                  cases impossible
            | node rKey rData rHeight rLeft rRight =>
                obtain ⟨beforeCells, released, afterCells, rfl, rfl, -, -⟩ :=
                  holdsCells_node.mp rightHolds
                exact only_child_released rootOwns (by simp) deletes
        | node lKey lData lHeight lLeft lRight =>
            cases right with
            | null =>
                obtain ⟨beforeCells, released, afterCells, rfl, rfl, -, -⟩ :=
                  holdsCells_node.mp leftHolds
                exact only_child_released rootOwns (by simp) deletes
            | node rKey rData rHeight rLeft rRight =>
                obtain ⟨source, sourceHeld, tempData, tempHeight, tempRight,
                    isMin, textMin⟩ :=
                  successor_held heap rightHolds (by simp)
                cases granted : heap.grants heap.requests with
                | false =>
                    have duplicates :=
                      strdup_refused rootOwns.retire granted
                        (by simp [sourceHeld] : source ∈ _)
                    simp only [isMin, freeKey,
                      rootOwns.release_eq (by simp : address ∈ _), duplicates,
                      Checked.ok_bind] at deletes
                    obtain ⟨⟨newRight, shrunken, rightWritten⟩, -, last⟩ :=
                      Checked.bind_eq_ok.mp deletes
                    obtain ⟨rootAfter, rebalances, returns⟩ :=
                      Checked.bind_eq_ok.mp last
                    cases returns
                    rw [keys_of_entries (avlDeleteRebalance_entries rebalances)]
                    exact ⟨none, by simp, unreadable_null _⟩
                | true =>
                    simp only [mapKeys] at textMin
                    simp only [mapKeys, removesLeaf, textMin, granted,
                      Bool.true_eq_false, and_false, or_false] at fails
                    obtain ⟨released, fresh, replaced, frees, duplicates,
                        newOwns, sameGrants, agree, freshText, rightText,
                        sourceReads⟩ :=
                      successor_copied rootOwns rightHolds granted sourceHeld
                    simp only [isMin, frees, duplicates, Checked.ok_bind]
                      at deletes
                    obtain ⟨⟨newRight, shrunken, rightWritten⟩,
                        rightDeletes, last⟩ :=
                      Checked.bind_eq_ok.mp deletes
                    obtain ⟨rootAfter, rebalances, returns⟩ :=
                      Checked.bind_eq_ok.mp last
                    cases returns
                    obtain ⟨pointer, member, isUnreadable⟩ :=
                      rightFails rightHolds newOwns sourceReads
                        (by rwa [rightText])
                        (by
                          rw [rightText]
                          left
                          rw [← fails]
                          exact unlinksLeaf_min rightIncreasing textMin)
                        rightDeletes
                    rw [keys_of_entries (avlDeleteRebalance_entries rebalances)]
                    exact ⟨pointer,
                      List.mem_append_right _
                        (List.mem_cons_of_mem _ member),
                      isUnreadable⟩

section Sound

variable {α : Type} {store : AvlStore α}

/-- A renaming of the keys renames the sequence of the keys. -/
theorem keys_mapKeys
    {κ κ' δ : Type}
    (rename : κ → κ')
    (tree : AvlNode κ δ) :
    (tree.mapKeys rename).keys = tree.keys.map rename := by
  induction tree with
  | null =>
      rfl
  | node key data height left right leftSame rightSame =>
      simp [mapKeys, leftSame, rightSame]

/-- In a sound handle the key of a node is its text. -/
theorem Sound.readKey_eq_text
    (sound : Sound store)
    {pointer : KeyPtr}
    (member : pointer ∈ store.root.keys) :
    readKey store.heap pointer = .ok (keyText store.heap pointer) := by
  obtain ⟨cells, holds, owns⟩ := sound.owned
  rw [holds] at member
  obtain ⟨address, held, rfl⟩ := List.mem_map.mp member
  exact readKey_eq owns held

/-- In a sound handle every node has a key. -/
theorem Sound.nodesHaveKeys
    (sound : Sound store) :
    NodesHaveKeys store :=
  fun _ member => ⟨_, sound.readKey_eq_text member⟩

/-- In a sound handle the keys of the map are keys of nodes. -/
theorem Sound.hasKey
    (sound : Sound store)
    {key : CString}
    {data : Option α}
    (bound : find key store.text.root.entries = some data) :
    HasKey store key := by
  obtain ⟨map, represents⟩ := sound.ordered
  have entry := (find_eq_some_iff represents.increasing).mp bound
  have isKey : key ∈ store.text.root.keys :=
    List.mem_map_of_mem entry
  rw [AvlStore.text, textTree, keys_mapKeys] at isKey
  obtain ⟨pointer, member, rfl⟩ := List.mem_map.mp isKey
  exact ⟨pointer, member, sound.readKey_eq_text member⟩

/-- A call that meets the condition survives. -/
theorem Sound.survives
    (sound : Sound store)
    {call : AvlCall α}
    (meets : Meets store call) :
    Survives store call := by
  obtain ⟨next, result, steps, textSteps, nextSound, -⟩ :=
    avlStep_sound sound meets.1 meets.2
  cases call with
  | insert key data =>
      obtain ⟨⟨after, code⟩, inserts, same⟩ := Checked.bind_eq_ok.mp steps
      cases same
      obtain ⟨map, represents⟩ := sound.ordered
      obtain ⟨grown, textInserts, -, entries, -⟩ :=
        avlInsertNode_spec represents.balanced represents.increasing key data
      simp only [Avl.avlStep, Avl.avlInsert, textInserts, Checked.ok_bind]
        at textSteps
      cases textSteps
      refine ⟨next, 0, inserts, fun _ => ?_, fun failed => (failed rfl).elim,
        nextSound.nodesHaveKeys⟩
      have isBound : find key next.text.root.entries ≠ none := by
        rw [AvlStore.text, entries, find_insertNew represents.increasing]
        split
        · exact Option.some_ne_none data
        · rename_i present
          exact fun absent => present ⟨rfl, absent⟩
      obtain ⟨bound, isData⟩ := Option.ne_none_iff_exists'.mp isBound
      exact nextSound.hasKey isData
  | search key =>
      obtain ⟨pointer, searches, -⟩ := Checked.bind_eq_ok.mp steps
      exact ⟨pointer, searches⟩
  | del key =>
      obtain ⟨⟨after, pointer⟩, deletes, same⟩ := Checked.bind_eq_ok.mp steps
      cases same
      exact ⟨next, pointer, deletes, nextSound.nodesHaveKeys⟩

/-- A call that survives met the condition. -/
theorem Sound.meets
    (sound : Sound store)
    {call : AvlCall α}
    (survives : Survives store call) :
    Meets store call := by
  obtain ⟨root, heap⟩ := store
  obtain ⟨⟨cells, holds, owns⟩, map, represents⟩ := sound
  have ownsFramed : heap.Owns (cells ++ []) := by
    simpa using owns
  cases call with
  | insert key data =>
      obtain ⟨next, code, inserts, -, -, haveKeys⟩ := survives
      obtain ⟨⟨newRoot, grown⟩, nodeInserts, same⟩ :=
        Checked.bind_eq_ok.mp inserts
      cases same
      refine ⟨nofun, fun isNew => ?_⟩
      obtain ⟨nodeGranted, keyGranted | noKey⟩ :=
        avlInsertNode_returns holds ownsFramed isNew nodeInserts
      · exact ⟨nodeGranted, keyGranted⟩
      · exact (not_nodesHaveKeys
          ⟨none, noKey, unreadable_null _⟩ haveKeys).elim
  | search key =>
      exact ⟨nofun, trivial⟩
  | del key =>
      obtain ⟨next, pointer, deletes, haveKeys⟩ := survives
      rw [avlDel_eq] at deletes
      obtain ⟨⟨newRoot, shrunk, written⟩, nodeDeletes, same⟩ :=
        Checked.bind_eq_ok.mp deletes
      cases same
      have neverFails :
          ¬ (unlinksLeaf (textTree heap root) key = false ∨
            duplicatesKey (textTree heap root) key = true ∧
              heap.grants heap.requests = false) :=
        fun fails =>
          not_nodesHaveKeys
            (avlDeleteNode_returns holds ownsFramed
              (rfl : readArg heap (.caller key) = .ok key)
              represents.increasing fails nodeDeletes)
            haveKeys
      simp only [not_or, not_and, Bool.not_eq_false] at neverFails
      obtain ⟨leaf, granted⟩ := neverFails
      refine ⟨fun removed isDel => ?_, granted⟩
      cases isDel
      exact leaf

end Sound

/--
In every state that a run reaches whose calls all met the condition, whatever
requests the allocator refuses, each node has a key, and a call survives exactly
when it meets the condition.
-/
theorem calls_survive_iff
    {α : Type}
    (grants : Nat → Bool)
    (calls : List (AvlCall α))
    (met :
      AlwaysAllowed (StepOf avlStep) Meets (avlCreate grants) calls) :
    ∃ store results,
      runCalls avlStep (avlCreate grants) calls = .ok (store, results) ∧
        NodesHaveKeys store ∧
        ∀ call, Survives store call ↔ Meets store call := by
  have stepSound :
      ∀ {store : AvlStore α} {call : AvlCall α},
        Sound store →
        Meets store call →
        ∃ next result,
          avlStep store call = .ok (next, result) ∧ Sound next := by
    intro store call sound meets
    obtain ⟨next, result, steps, -, nextSound, -⟩ :=
      avlStep_sound sound meets.1 meets.2
    exact ⟨next, result, steps, nextSound⟩
  obtain ⟨store, results, runs, sound⟩ :=
    runCalls_invariant stepSound (sound_create grants) met
  exact ⟨store, results, runs, sound.nodesHaveKeys,
    fun call => ⟨sound.meets, sound.survives⟩⟩

/-- Three insertions that use up the memory, and the deletion of a leaf. -/
theorem calls_survive_iff_three :
    ∃ (store : AvlStore Nat) (results : List (AvlResult Nat)),
      runCalls avlStep (avlCreate fun request => decide (request < 6))
          [.insert keyB (some 2), .insert keyA (some 1),
            .insert keyC (some 3), .del keyA] =
          .ok (store, results) ∧
        NodesHaveKeys store ∧
        ∀ call, Survives store call ↔ Meets store call := by
  apply calls_survive_iff
  apply AlwaysAllowed.step rfl ⟨nofun, fun _ => ⟨rfl, rfl⟩⟩
  apply AlwaysAllowed.step rfl ⟨nofun, fun _ => ⟨rfl, rfl⟩⟩
  apply AlwaysAllowed.step rfl ⟨nofun, fun _ => ⟨rfl, rfl⟩⟩
  refine AlwaysAllowed.step rfl ⟨?_, nofun⟩ trivial
  intro key isDel
  cases isDel
  rfl

/--
An insertion whose copy of the key is refused reports success and leaves a node
without a key.
-/
theorem refused_copy_leaves_no_key :
    ¬ ∀ (grants : Nat → Bool) (calls : List (AvlCall Nat))
        (store : AvlStore Nat) (results : List (AvlResult Nat)),
        runCalls avlStep (avlCreate grants) calls = .ok (store, results) →
          ∀ call, Survives store call := by
  intro survive
  obtain ⟨next, code, inserts, -, -, haveKeys⟩ :=
    survive (fun request => decide (request = 0)) [] _ _ rfl
      (.insert keyA (some 1))
  have isNext :
      avlInsert (avlCreate fun request => decide (request = 0)) keyA (some 1) =
        .ok (⟨.node none (some 1) 1 .null .null, _⟩, 0) :=
    rfl
  cases isNext.symm.trans inserts
  obtain ⟨string, reads⟩ := haveKeys none (by simp)
  cases reads

end Clibs.Avl.Stored
