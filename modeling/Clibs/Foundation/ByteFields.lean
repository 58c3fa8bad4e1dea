import Mathlib.Algebra.Order.Ring.Nat
import Mathlib.Data.Nat.Bitwise
import Mathlib.Tactic.Common
import Mathlib.Tactic.Ring

namespace Clibs

/-!
# Arithmetic on all bytes of a word at once

A word operation that no carry crosses is an operation on each of its bytes.
`mapBytes f k x` applies `f` to the `k` low bytes of `x`; masks, sums and
differences of words are shown to be of that form, so that what a sequence of
such operations does is decided byte by byte.
-/

/-- The function applied to each of the low bytes of a number. -/
def mapBytes (f : Nat → Nat) : Nat → Nat → Nat
  | 0, _ =>
      0
  | count + 1, x =>
      f (x % 256) + 256 * mapBytes f count (x / 256)

/-- The byte repeated. -/
def repeatByte (byte count : Nat) : Nat :=
  mapBytes (fun _ => byte) count 0

/-- The sum of the function over the low bytes of a number. -/
def sumBytes (f : Nat → Nat) : Nat → Nat → Nat
  | 0, _ =>
      0
  | count + 1, x =>
      f (x % 256) + sumBytes f count (x / 256)

/-- The number of bits that are set among the low bits of a number. -/
def countBits : Nat → Nat → Nat
  | 0, _ =>
      0
  | count + 1, x =>
      x % 2 + countBits count (x / 2)

section Bytes

variable {f g : Nat → Nat}
  {byte count x : Nat}

@[simp] theorem mapBytes_succ
    (f : Nat → Nat)
    (count x : Nat) :
    mapBytes f (count + 1) x =
      f (x % 256) + 256 * mapBytes f count (x / 256) :=
  rfl

@[simp] theorem repeatByte_zero :
    repeatByte byte 0 = 0 :=
  rfl

@[simp] theorem repeatByte_succ :
    repeatByte byte (count + 1) = byte + 256 * repeatByte byte count := by
  have constant :
      ∀ count x, mapBytes (fun _ => byte) count x = repeatByte byte count := by
    intro count
    induction count with
    | zero =>
        exact fun _ => rfl
    | succ count inductionHypothesis =>
        intro x
        rw [repeatByte, mapBytes, mapBytes, inductionHypothesis,
          inductionHypothesis]
  rw [repeatByte, mapBytes, constant]

/-- The bits of two numbers in their last byte and in the others. -/
theorem and_byte
    {low other : Nat}
    (isByte : low < 256)
    (isOther : other < 256)
    (high rest : Nat) :
    (low + 256 * high) &&& (other + 256 * rest) =
      (low &&& other) + 256 * (high &&& rest) := by
  have whole :=
    Nat.mod_add_div ((low + 256 * high) &&& (other + 256 * rest)) (2 ^ 8)
  rw [Nat.and_mod_two_pow, Nat.and_div_two_pow] at whole
  rw [← whole]
  congr 2
  · omega
  · omega
  · congr 1
    · omega
    · omega

/-- Masking a word masks its bytes. -/
theorem and_repeatByte
    (isByte : byte < 256) :
    x &&& repeatByte byte count = mapBytes (fun low => low &&& byte) count x := by
  induction count generalizing x with
  | zero =>
      exact Nat.and_zero x
  | succ count inductionHypothesis =>
      rw [repeatByte_succ, mapBytes, ← inductionHypothesis,
        ← and_byte (Nat.mod_lt x (by decide)) isByte, Nat.mod_add_div]

/--
Shifting a word and masking it does so to its bytes, when the mask leaves out
what comes from the next byte.
-/
theorem shiftRight_and_repeatByte
    {shift : Nat}
    (isSmall : shift ≤ 8)
    (isMask : byte < 2 ^ (8 - shift)) :
    (x >>> shift) &&& repeatByte byte count =
      mapBytes (fun low => (low >>> shift) &&& byte) count x := by
  have isByte : byte < 256 :=
    isMask.trans_le (Nat.pow_le_pow_right (by decide) (Nat.sub_le 8 shift))
  rw [and_repeatByte isByte]
  induction count generalizing x with
  | zero =>
      rfl
  | succ count inductionHypothesis =>
      have next : (x >>> shift) / 256 = (x / 256) >>> shift := by
        rw [Nat.shiftRight_eq_div_pow, Nat.shiftRight_eq_div_pow,
          Nat.div_div_eq_div_mul, Nat.div_div_eq_div_mul, Nat.mul_comm]
      have here :
          (x >>> shift) % 256 &&& byte = ((x % 256) >>> shift) &&& byte := by
        have isPower : 256 = 2 ^ 8 := rfl
        apply Nat.eq_of_testBit_eq
        intro bit
        rw [Nat.testBit_and, Nat.testBit_and]
        by_cases isLow : bit < 8 - shift
        · have inByte : bit < 8 := isLow.trans_le (Nat.sub_le 8 shift)
          have shifted : shift + bit < 8 := by omega
          rw [isPower, Nat.testBit_mod_two_pow, Nat.testBit_shiftRight,
            Nat.testBit_shiftRight, Nat.testBit_mod_two_pow]
          simp [inByte, shifted]
        · have noBit : byte.testBit bit = false :=
            Nat.testBit_lt_two_pow
              (isMask.trans_le
                (Nat.pow_le_pow_right (by decide) (not_lt.mp isLow)))
          rw [noBit, Bool.and_false, Bool.and_false]
      rw [mapBytes, mapBytes, next, inductionHypothesis, here]

/-- Mapping after mapping is mapping the composition. -/
theorem mapBytes_mapBytes
    (isByte : ∀ low < 256, f low < 256) :
    mapBytes g count (mapBytes f count x) =
      mapBytes (fun low => g (f low)) count x := by
  induction count generalizing x with
  | zero =>
      rfl
  | succ count inductionHypothesis =>
      have small := isByte (x % 256) (Nat.mod_lt x (by decide))
      have low : (mapBytes f (count + 1) x) % 256 = f (x % 256) := by
        rw [mapBytes]
        omega
      have high :
          (mapBytes f (count + 1) x) / 256 = mapBytes f count (x / 256) := by
        rw [mapBytes]
        omega
      rw [mapBytes_succ g, low, high, inductionHypothesis, mapBytes_succ]

/-- A number with as many bytes is its bytes. -/
theorem mapBytes_id
    (isWord : x < 256 ^ count) :
    mapBytes (fun low => low) count x = x := by
  induction count generalizing x with
  | zero =>
      rw [mapBytes]
      omega
  | succ count inductionHypothesis =>
      rw [mapBytes, inductionHypothesis, Nat.mod_add_div]
      rw [Nat.pow_succ] at isWord
      omega

/-- Adding words adds their bytes. -/
theorem mapBytes_add :
    mapBytes f count x + mapBytes g count x =
      mapBytes (fun low => f low + g low) count x := by
  induction count generalizing x with
  | zero =>
      rfl
  | succ count inductionHypothesis =>
      rw [mapBytes, mapBytes, mapBytes, ← inductionHypothesis]
      omega

/-- Subtracting words subtracts their bytes, when none borrows. -/
theorem mapBytes_sub
    (count x : Nat)
    (noBorrow : ∀ low < 256, g low ≤ f low) :
    mapBytes f count x - mapBytes g count x =
        mapBytes (fun low => f low - g low) count x ∧
      mapBytes g count x ≤ mapBytes f count x := by
  induction count generalizing x with
  | zero =>
      exact ⟨rfl, Nat.le_refl 0⟩
  | succ count inductionHypothesis =>
      have here := noBorrow (x % 256) (Nat.mod_lt x (by decide))
      obtain ⟨same, above⟩ := inductionHypothesis (x / 256)
      rw [mapBytes, mapBytes, mapBytes, ← same]
      omega

/-- A word has as many bytes as were mapped. -/
theorem mapBytes_lt
    (isByte : ∀ low < 256, f low < 256) :
    mapBytes f count x < 256 ^ count := by
  induction count generalizing x with
  | zero =>
      exact Nat.one_pos
  | succ count inductionHypothesis =>
      have here := isByte (x % 256) (Nat.mod_lt x (by decide))
      have rest := inductionHypothesis (x := x / 256)
      rw [mapBytes, Nat.pow_succ]
      omega

/--
The halves of each byte are added by one shift and one sum of words: what comes
from the next byte stays above the mask, and no byte overflows.
-/
theorem add_halves
    (count x : Nat)
    (fits :
      ∀ low < 256, ∀ next < 256,
        f low + f low / 16 + 16 * (f next % 16) < 256)
    (small : ∀ low < 256, f low % 16 + f low / 16 < 16) :
    (mapBytes f count x + (mapBytes f count x) >>> 4) &&&
        repeatByte 15 count =
      mapBytes (fun low => f low % 16 + f low / 16) count x := by
  induction count generalizing x with
  | zero =>
      exact Nat.and_zero _
  | succ count inductionHypothesis =>
      have isLow := Nat.mod_lt x (show 256 > 0 by decide)
      have below :
          f (x % 256) + f (x % 256) / 16 +
              16 * (mapBytes f count (x / 256) % 16) <
            256 := by
        cases count with
        | zero =>
            have room := fits (x % 256) isLow (x % 256) isLow
            rw [mapBytes]
            omega
        | succ count =>
            have room :=
              fits (x % 256) isLow (x / 256 % 256) (Nat.mod_lt _ (by decide))
            rw [mapBytes_succ]
            omega
      have sum :
          mapBytes f (count + 1) x + (mapBytes f (count + 1) x) >>> 4 =
            (f (x % 256) + f (x % 256) / 16 +
                16 * (mapBytes f count (x / 256) % 16)) +
              256 *
                (mapBytes f count (x / 256) +
                  (mapBytes f count (x / 256)) >>> 4) := by
        rw [Nat.shiftRight_eq_div_pow, Nat.shiftRight_eq_div_pow,
          mapBytes_succ]
        omega
      have half := small (x % 256) isLow
      have low :
          (f (x % 256) + f (x % 256) / 16 +
                16 * (mapBytes f count (x / 256) % 16)) &&&
              15 =
            f (x % 256) % 16 + f (x % 256) / 16 := by
        rw [show (15 : Nat) = 2 ^ 4 - 1 by rfl, Nat.and_two_pow_sub_one_eq_mod]
        omega
      rw [sum, repeatByte_succ, and_byte below (by decide), low,
        inductionHypothesis, mapBytes_succ]

/-- The product of eight small bytes and a word of ones, in its low bytes. -/
theorem mul_ones
    (a b c d e f g h : Nat) :
    (a + 256 * (b + 256 * (c + 256 * (d + 256 * (e + 256 *
          (f + 256 * (g + 256 * h))))))) * 0x0101010101010101 =
      (a + 256 * ((a + b) + 256 * ((a + b + c) + 256 * ((a + b + c + d) +
        256 * ((a + b + c + d + e) + 256 * ((a + b + c + d + e + f) + 256 *
          ((a + b + c + d + e + f + g) + 256 *
            (a + b + c + d + e + f + g + h)))))))) +
        2 ^ 64 *
          ((b + c + d + e + f + g + h) + 256 * ((c + d + e + f + g + h) +
            256 * ((d + e + f + g + h) + 256 * ((e + f + g + h) + 256 *
              ((f + g + h) + 256 * ((g + h) + 256 * h)))))) := by
  ring

/--
Multiplying by the word whose bytes are all one adds the bytes up in the highest
byte.
-/
theorem mul_repeatByte_one
    (small : ∀ low < 256, f low ≤ 8)
    (x : Nat) :
    mapBytes f 8 x * 0x0101010101010101 % 2 ^ 64 / 2 ^ 56 =
      sumBytes f 8 x := by
  have bound :
      ∀ y, f (y % 256) ≤ 8 :=
    fun y => small _ (Nat.mod_lt y (by decide))
  have first := bound x
  have second := bound (x / 256)
  have third := bound (x / 256 / 256)
  have fourth := bound (x / 256 / 256 / 256)
  have fifth := bound (x / 256 / 256 / 256 / 256)
  have sixth := bound (x / 256 / 256 / 256 / 256 / 256)
  have seventh := bound (x / 256 / 256 / 256 / 256 / 256 / 256)
  have eighth := bound (x / 256 / 256 / 256 / 256 / 256 / 256 / 256)
  simp only [mapBytes, sumBytes, Nat.mul_zero, Nat.add_zero]
  rw [mul_ones, Nat.add_mul_mod_self_left, Nat.mod_eq_of_lt]
  · omega
  · omega

/-- The bits of a number are those of its bytes. -/
theorem countBits_bytes
    (count x : Nat) :
    countBits (8 * count) x = sumBytes (countBits 8) count x := by
  induction count generalizing x with
  | zero =>
      rfl
  | succ count inductionHypothesis =>
      rw [sumBytes, ← inductionHypothesis]
      have byte :
          ∀ rest,
            countBits (rest + 8) x =
              countBits 8 (x % 256) + countBits rest (x / 256) := by
        intro rest
        simp only [countBits, Nat.div_div_eq_div_mul]
        norm_num
        omega
      rw [← byte]
      rfl

/-- Only the values on bytes matter. -/
theorem sumBytes_congr
    (same : ∀ low < 256, f low = g low) :
    sumBytes f count x = sumBytes g count x := by
  induction count generalizing x with
  | zero =>
      rfl
  | succ count inductionHypothesis =>
      rw [sumBytes, sumBytes, inductionHypothesis,
        same _ (Nat.mod_lt x (by decide))]

end Bytes

end Clibs
