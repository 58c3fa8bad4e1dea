import Clibs.Avl.Balance
import Clibs.Foundation.Run
import Mathlib.Logic.Function.Basic

namespace Clibs.Avl

/-!
# The AVL tree as a finite map

Runs of `avl_insert`, `avl_search` and `avl_del` on a tree that starts empty.
The abstract state is a map from keys to data pointers; the in-order sequence
of the tree is its graph.
-/

open AvlNode SortedAssoc

/-- A call on an AVL handle. -/
inductive AvlCall (α : Type) where
  | insert (key : CString) (data : Option α)
  | search (key : CString)
  | del (key : CString)
  deriving Repr, DecidableEq

/-- What a call returns: the status of an insertion, or a data pointer. -/
inductive AvlResult (α : Type) where
  | status (code : Int)
  | data (pointer : Option α)
  deriving Repr, DecidableEq

/-- Make one call. -/
def avlStep
    {α : Type}
    (ah : AvlH α) :
    AvlCall α → Checked (AvlH α × AvlResult α)
  | .insert key data => do
      let (ah, code) ← avlInsert ah key data
      .ok (ah, .status code)
  | .search key =>
      .ok (ah, .data (avlSearch ah key))
  | .del key => do
      let (ah, pointer) ← avlDel ah key
      .ok (ah, .data pointer)

/-- The keys that are bound, each with the data pointer it is bound to. -/
abbrev DataMap (α : Type) :=
  CString → Option (Option α)

/-- The finite map the tree stands for. -/
inductive DataMapStep
    {α : Type} :
    DataMap α → AvlCall α → AvlResult α → DataMap α → Prop where
  | insertNew
      {map : DataMap α}
      {key : CString}
      {data : Option α} :
      map key = none →
      DataMapStep map (.insert key data) (.status 0)
        (Function.update map key (some data))
  | insertBound
      {map : DataMap α}
      {key : CString}
      {data : Option α} :
      map key ≠ none →
      DataMapStep map (.insert key data) (.status 0) map
  | search
      {map : DataMap α}
      {key : CString} :
      DataMapStep map (.search key) (.data (map key).join) map
  | del
      {map : DataMap α}
      {key : CString} :
      DataMapStep map (.del key) (.data (map key).join)
        (Function.update map key none)

/-- What a key is bound to after a call, given what it was bound to before. -/
def bindingAfter
    {α : Type}
    (key : CString)
    (bound : Option (Option α)) :
    AvlCall α → Option (Option α)
  | .insert inserted data =>
      if inserted = key then
        match bound with
        | none =>
            some data
        | some kept =>
            some kept
      else
        bound
  | .search _ =>
      bound
  | .del removed =>
      if removed = key then none else bound

/--
The data of the first insertion of a key since its last removal, read off the
calls made so far.
-/
def firstInsertSinceDel
    {α : Type}
    (key : CString)
    (history : List (AvlCall α)) : Option (Option α) :=
  history.foldl (bindingAfter key) none

/-- One step of the map changes the binding of a key as the call says. -/
theorem DataMapStep.binding
    {α : Type}
    {map next : DataMap α}
    {call : AvlCall α}
    {result : AvlResult α}
    (step : DataMapStep map call result next)
    (key : CString) :
    next key = bindingAfter key (map key) call := by
  cases step with
  | @insertNew inserted data unbound =>
      by_cases same : inserted = key
      · subst same
        simp [bindingAfter, unbound]
      · simp [bindingAfter, same, Function.update_of_ne (Ne.symm same)]
  | @insertBound inserted data bound =>
      by_cases same : inserted = key
      · subst same
        obtain ⟨kept, isBound⟩ := Option.ne_none_iff_exists'.mp bound
        simp [bindingAfter, isBound]
      · simp [bindingAfter, same]
  | search =>
      rfl
  | @del removed =>
      by_cases same : removed = key
      · subst same
        simp [bindingAfter]
      · simp [bindingAfter, same, Function.update_of_ne (Ne.symm same)]

/-- The map reached by a run binds each key as the calls say. -/
theorem binding_of_run
    {α : Type}
    {initial final : DataMap α}
    {calls : List (AvlCall α)}
    {results : List (AvlResult α)}
    (run : SpecRun DataMapStep initial calls results final)
    (key : CString) :
    final key = calls.foldl (bindingAfter key) (initial key) := by
  induction run with
  | nil map =>
      rfl
  | cons step rest inductionHypothesis =>
      rw [inductionHypothesis, step.binding, List.foldl_cons]

/-- A handle whose tree is balanced, ordered, and holds exactly a map. -/
structure Represents
    {α : Type}
    (ah : AvlH α)
    (map : DataMap α) : Prop where
  balanced : ah.root.Balanced
  increasing : Increasing ah.root.entries
  bound : ∀ key, find key ah.root.entries = map key

/-- The fresh handle represents the empty map. -/
theorem represents_create
    {α : Type} :
    Represents (avlCreate : AvlH α) (fun _ => none) where
  balanced :=
    trivial
  increasing :=
    List.Pairwise.nil
  bound _ :=
    rfl

/-- `avl_search_node` finds the entry of the key. -/
theorem avlSearchNode_eq_find
    {α : Type}
    {tree : Tree α}
    (increasing : Increasing tree.entries)
    (key : CString) :
    avlSearchNode tree key = (find key tree.entries).join := by
  induction tree with
  | null =>
      rfl
  | node nodeKey nodeData nodeHeight left right leftFound rightFound =>
      obtain ⟨leftIncreasing, rightIncreasing, -, -⟩ :=
        increasing_pivot.mp increasing
      simp only [avlSearchNode, AvlNode.entries]
      rcases lt_trichotomy key nodeKey with below | same | above
      · rw [find_pivot_left increasing below,
          if_neg (mt strcmp_eq_zero.mp below.ne),
          if_pos (strcmp_neg.mpr below)]
        exact leftFound leftIncreasing
      · subst key
        rw [find_pivot_self increasing, if_pos (strcmp_eq_zero.mpr rfl)]
        rfl
      · rw [find_pivot_right increasing above,
          if_neg (mt strcmp_eq_zero.mp above.ne'),
          if_neg (mt strcmp_neg.mp above.not_gt)]
        exact rightFound rightIncreasing

/-- `avl_search` does not need its separate test for an empty tree. -/
theorem avlSearch_eq
    {α : Type}
    (ah : AvlH α)
    (key : CString) :
    avlSearch ah key = avlSearchNode ah.root key := by
  unfold avlSearch
  cases ah.root <;> rfl

/-- `avl_del` does not need its separate test for an empty tree. -/
theorem avlDel_eq
    {α : Type}
    (ah : AvlH α)
    (key : CString) :
    avlDel ah key = (do
      let (root, written) ← avlDeleteNode ah.root key
      .ok ({ ah with root }, written.getD none)) := by
  obtain ⟨root, allocated⟩ := ah
  cases root <;> rfl

/-- Every call on a represented map returns as the map says. -/
theorem avlStep_refines
    {α : Type}
    {ah : AvlH α}
    {map : DataMap α}
    (represents : Represents ah map)
    (call : AvlCall α) :
    ∃ next result nextMap,
      avlStep ah call = .ok (next, result) ∧
        DataMapStep map call result nextMap ∧
        Represents next nextMap := by
  obtain ⟨balanced, increasing, bound⟩ := represents
  cases call with
  | insert key data =>
      obtain ⟨after, inserts, afterBalanced, afterEntries, -⟩ :=
        avlInsertNode_spec balanced increasing key data
      have afterIncreasing : Increasing after.entries := by
        rw [afterEntries]
        exact increasing_insertNew increasing
      have steps :
          avlStep ah (.insert key data) =
            .ok ({ ah with root := after }, .status 0) := by
        simp [avlStep, avlInsert, inserts]
      by_cases unbound : map key = none
      · refine ⟨_, _, _, steps, .insertNew unbound,
          afterBalanced, afterIncreasing, ?_⟩
        intro query
        rw [afterEntries, find_insertNew increasing, bound, bound]
        by_cases same : query = key
        · subst query
          simp [unbound]
        · simp [same]
      · refine ⟨_, _, _, steps, .insertBound unbound,
          afterBalanced, afterIncreasing, ?_⟩
        intro query
        rw [afterEntries, find_insertNew increasing, bound, bound]
        simp [unbound]
  | search key =>
      refine ⟨ah, _, map, rfl, ?_, balanced, increasing, bound⟩
      rw [avlSearch_eq, avlSearchNode_eq_find increasing, bound]
      exact .search
  | del key =>
      obtain ⟨after, deletes, afterBalanced, afterEntries, -⟩ :=
        avlDeleteNode_spec balanced increasing key
      have steps :
          avlStep ah (.del key) =
            .ok ({ ah with root := after }, .data (map key).join) := by
        simp only [avlStep, avlDel_eq, deletes, Checked.ok_bind, bound]
        cases map key <;> rfl
      refine ⟨_, _, _, steps, .del, afterBalanced, ?_, ?_⟩
      · rw [afterEntries]
        exact increasing_erase increasing
      · intro query
        rw [afterEntries, find_erase, bound]
        by_cases same : query = key
        · simp [same]
        · simp [same]

/-- Every run from the empty tree returns and represents a map. -/
theorem avlRun_refines
    {α : Type}
    (calls : List (AvlCall α)) :
    ∃ ah results map,
      runCalls avlStep avlCreate calls = .ok (ah, results) ∧
        SpecRun DataMapStep (fun _ => none) calls results map ∧
        Represents ah map :=
  runCalls_refines
    (fun represents _ => avlStep_refines represents _)
    represents_create
    (alwaysAllowed_of_forall
      (fun (_ : AvlCall α) _ (_ : DataMap α) => trivial) _)

/--
Every run of insertions, searches and deletions returns with the results of a
finite map.  The in-order keys increase under `strcmp`, and a search afterwards
returns the data of the first insertion of its key since the last removal.
-/
theorem avl_refines_finite_map
    {α : Type}
    (calls : List (AvlCall α)) :
    ∃ ah results map,
      runCalls avlStep avlCreate calls = .ok (ah, results) ∧
        SpecRun DataMapStep (fun _ => none) calls results map ∧
        ah.root.entries.Pairwise
          (fun earlier later => strcmp earlier.1 later.1 < 0) ∧
        (∀ key,
          avlSearch ah key = (firstInsertSinceDel key calls).join) ∧
        (∀ key, map key = firstInsertSinceDel key calls) ∧
        (∀ key data,
          (key, data) ∈ ah.root.entries ↔ map key = some data) := by
  obtain ⟨ah, results, map, runs, accepted, represents⟩ :=
    avlRun_refines calls
  refine ⟨ah, results, map, runs, accepted, ?_, ?_, ?_, ?_⟩
  · exact represents.increasing.imp fun ordered => strcmp_neg.mpr ordered
  · intro key
    rw [avlSearch_eq, avlSearchNode_eq_find represents.increasing,
      represents.bound]
    exact congrArg Option.join (binding_of_run accepted key)
  · exact binding_of_run accepted
  · intro key data
    rw [← represents.bound]
    exact (find_eq_some_iff represents.increasing).symm

/-- A search compares the key with at most one node on each level. -/
theorem avlSearchVisits_le_depth
    {α : Type}
    (tree : Tree α)
    (key : CString) :
    avlSearchVisits tree key ≤ tree.depth := by
  induction tree with
  | null =>
      exact Nat.le_refl 0
  | node nodeKey nodeData nodeHeight left right leftVisits rightVisits =>
      simp only [avlSearchVisits, depth_node]
      split
      · omega
      · split <;> omega

/--
After every run the stored heights are exact and sibling heights differ by at
most one, so the tree has at least as many keys as the Fibonacci tree of its
height and a search visits a logarithmic number of nodes.
-/
theorem avl_stays_balanced
    {α : Type}
    (calls : List (AvlCall α)) :
    ∃ ah results,
      runCalls avlStep avlCreate calls = .ok (ah, results) ∧
        ah.root.Balanced ∧
        avlGetHeight ah.root = ah.root.depth ∧
        Nat.fib (ah.root.depth + 2) - 1 ≤ ah.root.entries.length ∧
        ∀ key,
          avlSearchVisits ah.root key ≤ ah.root.depth ∧
            avlSearchVisits ah.root key ≤
              2 * Nat.log 2 (ah.root.entries.length + 1) + 1 := by
  obtain ⟨ah, results, map, runs, -, represents⟩ :=
    avlRun_refines calls
  have shapeBalanced := represents.balanced.heightBalanced
  refine ⟨ah, results, runs, represents.balanced,
    represents.balanced.getHeight, ?_, ?_⟩
  · have sparse := shapeBalanced.fib_le_numNodes
    rw [length_entries]
    unfold size depth
    omega
  · intro key
    have visits := avlSearchVisits_le_depth ah.root key
    refine ⟨visits, visits.trans ?_⟩
    rw [length_entries]
    exact shapeBalanced.height_le_log

end Clibs.Avl
