import Mathlib.Data.Tree.Basic
import Mathlib.Data.Nat.Fib.Basic
import Mathlib.Data.Nat.Log
import Mathlib.Tactic.Linarith

namespace Clibs

/-!
# Height-balanced binary trees

A binary tree is height balanced when the heights of the two subtrees of every
node differ by at most one.  Such a tree of height `h` has at least
`fib (h + 2) - 1` nodes, so its height is logarithmic in its size.
-/

/-- Sibling heights differ by at most one at every node. -/
def HeightBalanced
    {α : Type} :
    BinaryTree α → Prop
  | .nil =>
      True
  | .node _ left right =>
      left.height ≤ right.height + 1 ∧
        right.height ≤ left.height + 1 ∧
        HeightBalanced left ∧
        HeightBalanced right

namespace HeightBalanced

/-- The sparsest balanced trees are the Fibonacci trees. -/
theorem fib_le_numNodes
    {α : Type}
    {tree : BinaryTree α}
    (balanced : HeightBalanced tree) :
    Nat.fib (tree.height + 2) ≤ tree.numNodes + 1 := by
  induction tree with
  | nil =>
      simp
  | node value left right leftBound rightBound =>
      obtain ⟨leftSmall, rightSmall, leftBalanced, rightBalanced⟩ :=
        balanced
      have leftFib := leftBound leftBalanced
      have rightFib := rightBound rightBalanced
      have unfoldFib :
          Nat.fib (max left.height right.height + 1 + 2) =
            Nat.fib (max left.height right.height + 1) +
              Nat.fib (max left.height right.height + 2) :=
        Nat.fib_add_two
      simp only [BinaryTree.height, BinaryTree.numNodes]
      rw [unfoldFib]
      rcases le_total left.height right.height with rightTaller | leftTaller
      · have shorter :
            Nat.fib (right.height + 1) ≤ Nat.fib (left.height + 2) :=
          Nat.fib_mono (by omega)
        rw [max_eq_right rightTaller]
        omega
      · have shorter :
            Nat.fib (left.height + 1) ≤ Nat.fib (right.height + 2) :=
          Nat.fib_mono (by omega)
        rw [max_eq_left leftTaller]
        omega

/-- Two Fibonacci steps at least double the value. -/
theorem two_pow_half_le_fib
    (height : Nat) :
    2 ^ (height / 2) ≤ Nat.fib (height + 2) := by
  induction height using Nat.twoStepInduction with
  | zero =>
      simp
  | one =>
      simp [Nat.fib_add_two]
  | more height smaller _ =>
      have halved : (height + 2) / 2 = height / 2 + 1 := by
        omega
      have grows : Nat.fib (height + 2) ≤ Nat.fib (height + 3) :=
        Nat.fib_le_fib_succ
      have unfoldFib :
          Nat.fib (height + 2 + 2) =
            Nat.fib (height + 2) + Nat.fib (height + 3) :=
        Nat.fib_add_two
      rw [halved, Nat.pow_succ, unfoldFib]
      omega

/-- The height of a balanced tree is logarithmic in its number of nodes. -/
theorem height_le_log
    {α : Type}
    {tree : BinaryTree α}
    (balanced : HeightBalanced tree) :
    tree.height ≤ 2 * Nat.log 2 (tree.numNodes + 1) + 1 := by
  have powerBound : 2 ^ (tree.height / 2) ≤ tree.numNodes + 1 :=
    (two_pow_half_le_fib tree.height).trans balanced.fib_le_numNodes
  have halfBound : tree.height / 2 ≤ Nat.log 2 (tree.numNodes + 1) :=
    Nat.le_log_of_pow_le (by omega) powerBound
  omega

end HeightBalanced

end Clibs
