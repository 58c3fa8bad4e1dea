import Mathlib.Data.List.Lex
import Mathlib.Tactic.Common
import Mathlib.Order.Lattice

namespace Clibs

/-!
# Null-terminated strings and `strcmp`

A C string is the sequence of its bytes before the terminator, so no byte of it
is zero.  `strcmp` compares the bytes as unsigned numbers from the left and the
terminator as zero.  Only the sign of its result is specified; the order it
induces is the lexicographic order of the byte sequences.
-/

/-- The bytes of a C string, without its terminator. -/
structure CString where
  bytes : List UInt8
  noTerminator : 0 ∉ bytes
  deriving Repr, DecidableEq

namespace CString

/-- The bytes of the empty string. -/
theorem noTerminator_nil :
    (0 : UInt8) ∉ [] :=
  List.not_mem_nil

@[ext] theorem ext
    {first second : CString}
    (sameBytes : first.bytes = second.bytes) :
    first = second := by
  cases first
  cases second
  cases sameBytes
  rfl

/-- The byte values of a string as numbers. -/
def codes (string : CString) : List Nat :=
  string.bytes.map UInt8.toNat

theorem codes_injective :
    Function.Injective codes := by
  intro first second sameCodes
  apply CString.ext
  exact (List.map_injective_iff.mpr fun _ _ => UInt8.toNat_inj.mp) sameCodes

/-- Strings are ordered as their byte sequences are. -/
instance : LinearOrder CString where
  __ := LinearOrder.lift' codes codes_injective
  toDecidableEq := inferInstance
  compare_eq_compareOfLessAndEq first second := by
    rw [LinearOrder.compare_eq_compareOfLessAndEq]
    congr

end CString

/-- The byte loop of `strcmp`; the end of a list stands for the terminator. -/
def strcmpBytes : List UInt8 → List UInt8 → Int
  | [], [] =>
      0
  | [], byte :: _ =>
      -byte.toNat
  | byte :: _, [] =>
      byte.toNat
  | first :: firstRest, second :: secondRest =>
      if first = second then
        strcmpBytes firstRest secondRest
      else
        (first.toNat : Int) - second.toNat

/-- The C library's string comparison. -/
def strcmp (first second : CString) : Int :=
  strcmpBytes first.bytes second.bytes

/-- The byte loop reports equality exactly on equal sequences. -/
theorem strcmpBytes_eq_zero
    {first second : List UInt8}
    (firstClean : 0 ∉ first)
    (secondClean : 0 ∉ second) :
    strcmpBytes first second = 0 ↔ first = second := by
  induction first generalizing second with
  | nil =>
      cases second with
      | nil =>
          simp [strcmpBytes]
      | cons byte rest =>
          have byteNonzero : byte.toNat ≠ 0 := by
            intro zero
            exact secondClean (by simp [UInt8.toNat_inj.mp (zero.trans UInt8.toNat_zero.symm)])
          simp [strcmpBytes, byteNonzero]
  | cons firstByte firstRest inductionHypothesis =>
      cases second with
      | nil =>
          have byteNonzero : firstByte.toNat ≠ 0 := by
            intro zero
            exact firstClean (by simp [UInt8.toNat_inj.mp (zero.trans UInt8.toNat_zero.symm)])
          simp [strcmpBytes, byteNonzero]
      | cons secondByte secondRest =>
          have restsAgree :=
            inductionHypothesis
              (fun member => firstClean (List.mem_cons_of_mem _ member))
              (fun member => secondClean (List.mem_cons_of_mem _ member))
          by_cases sameByte : firstByte = secondByte
          · simp [strcmpBytes, sameByte, restsAgree]
          · have codesDiffer : firstByte.toNat ≠ secondByte.toNat :=
              fun same => sameByte (UInt8.toNat_inj.mp same)
            simp only [strcmpBytes, sameByte, ↓reduceIte,
              List.cons.injEq, false_and, iff_false]
            omega

/-- The byte loop is negative exactly on lexicographically smaller sequences. -/
theorem strcmpBytes_neg
    {first second : List UInt8}
    (secondClean : 0 ∉ second) :
    strcmpBytes first second < 0 ↔
      first.map UInt8.toNat < second.map UInt8.toNat := by
  induction first generalizing second with
  | nil =>
      cases second with
      | nil =>
          simp [strcmpBytes]
      | cons byte rest =>
          have byteNonzero : byte.toNat ≠ 0 := by
            intro zero
            exact secondClean (by simp [UInt8.toNat_inj.mp (zero.trans UInt8.toNat_zero.symm)])
          simp [strcmpBytes]
          omega
  | cons firstByte firstRest inductionHypothesis =>
      cases second with
      | nil =>
          simp [strcmpBytes]
      | cons secondByte secondRest =>
          have restsAgree :=
            inductionHypothesis
              (fun member => secondClean (List.mem_cons_of_mem _ member))
          by_cases sameByte : firstByte = secondByte
          · simp [strcmpBytes, sameByte, restsAgree]
          · have codesDiffer : firstByte.toNat ≠ secondByte.toNat :=
              fun same => sameByte (UInt8.toNat_inj.mp same)
            simp only [strcmpBytes, sameByte, ↓reduceIte, List.map_cons,
              List.cons_lt_cons_iff, codesDiffer, false_and, or_false]
            omega

/-- `strcmp` returns zero exactly on equal strings. -/
theorem strcmp_eq_zero
    {first second : CString} :
    strcmp first second = 0 ↔ first = second := by
  unfold strcmp
  rw [strcmpBytes_eq_zero first.noTerminator second.noTerminator]
  exact ⟨CString.ext, congrArg CString.bytes⟩

/-- `strcmp` is negative exactly when the first string comes first. -/
theorem strcmp_neg
    {first second : CString} :
    strcmp first second < 0 ↔ first < second :=
  strcmpBytes_neg second.noTerminator

/-- `strcmp` is positive exactly when the second string comes first. -/
theorem strcmp_pos
    {first second : CString} :
    0 < strcmp first second ↔ second < first := by
  rcases lt_trichotomy first second with before | same | after
  · have negative := strcmp_neg.mpr before
    have notAfter := before.not_gt
    constructor
    · intro positive
      omega
    · intro after
      exact (notAfter after).elim
  · subst second
    have zero := strcmp_eq_zero.mpr (rfl : first = first)
    simp [zero]
  · have nonzero : strcmp first second ≠ 0 :=
      fun zero => after.ne' (strcmp_eq_zero.mp zero)
    have notNegative : ¬ strcmp first second < 0 :=
      fun negative => after.not_gt (strcmp_neg.mp negative)
    constructor
    · intro _
      exact after
    · intro _
      omega

end Clibs
