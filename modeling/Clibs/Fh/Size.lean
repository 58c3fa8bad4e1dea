import Clibs.Fh.Create

namespace Clibs.Fh

/-!
# The number of chains of a table

`fh_hash_size` doubles a 32-bit number until it reaches one and a half times the
wanted size.  Up to `2^30` the result is the smallest such power of two; up to
`2^31` it is one too, but negative as the `int` that `fh_create` keeps; and
beyond that the doubled bit is shifted out and the loop never ends.
-/

/-- The smallest power of two that is at least a number. -/
structure IsCeilPower
    (number size : Nat) : Prop where
  power : ∃ bits, size = 2 ^ bits
  reaches : number ≤ size
  smallest : ∀ bits, number ≤ 2 ^ bits → size ≤ 2 ^ bits

/-- The masked hashes are the indices of the chains. -/
def ChainsIndexed
    (chains : Nat) : Prop :=
  ∀ table : FhTable,
    table.hDim = chains →
    ∀ index, (∃ hash, table.hashindex hash = index) ↔ index < chains

/--
`fh_hash_size` ends, and the `int` that `fh_create` keeps is positive, the
smallest power of two that is at least `dim + dim / 2`, and the number of the
masked hashes.
-/
structure RoundsUp
    (dim : Int32)
    (size : UInt32) : Prop where
  returns : fhHashSize dim.toUInt32 = .ok size
  positive : 0 < size.toInt32.toInt
  rounds :
    IsCeilPower (dim.toInt + dim.toInt / 2).toNat size.toInt32.toInt.toNat
  indices : ChainsIndexed size.toInt32.toInt.toNat

section Loop

variable {s i : UInt32} {bits fuel : Nat}

/-- A power of two that the loop reached is doubled, if it does not overflow. -/
theorem shifted_power
    (isPower : i.toNat = 2 ^ bits)
    (small : bits < 31) :
    (i <<< 1).toNat = 2 ^ (bits + 1) := by
  rw [shifted_toNat, isPower, ← pow_succ]
  exact Nat.mod_eq_of_lt (Nat.pow_lt_pow_right (by decide) (by omega))

/-- The loop returns the first power of two that is large enough. -/
theorem fhHashSizeLoop_returns
    (isPower : i.toNat = 2 ^ bits)
    (notEarlier : ∀ earlier, earlier < bits → 2 ^ earlier < s.toNat)
    (inRange : bits ≤ 31)
    (enough : bits + fuel = 33)
    (small : s.toNat ≤ 2 ^ 31) :
    ∃ size,
      fhHashSizeLoop s fuel i = .ok size ∧ IsCeilPower s.toNat size.toNat := by
  induction fuel generalizing i bits with
  | zero =>
      omega
  | succ fuel inductionHypothesis =>
      rw [fhHashSizeLoop]
      by_cases goesOn : i < s
      · rw [if_pos goesOn]
        rw [UInt32.lt_iff_toNat_lt, isPower] at goesOn
        have notLast : bits < 31 := by
          by_contra isLast
          have bits31 : bits = 31 := by omega
          rw [bits31] at goesOn
          omega
        refine inductionHypothesis (shifted_power isPower notLast) ?_
          (by omega) (by omega)
        intro earlier isEarlier
        rcases Nat.lt_succ_iff_lt_or_eq.mp isEarlier with isBefore | rfl
        · exact notEarlier earlier isBefore
        · exact goesOn
      · rw [if_neg goesOn]
        rw [UInt32.lt_iff_toNat_lt, isPower, not_lt] at goesOn
        refine ⟨i, rfl, ⟨⟨bits, isPower⟩, ?_, ?_⟩⟩
        · rw [isPower]
          exact goesOn
        · intro other reaches
          rw [isPower]
          apply Nat.pow_le_pow_right (by decide)
          by_contra isEarlier
          have tooSmall := notEarlier other (by omega)
          omega

/-- Above `2^31` no turn of the loop is the last. -/
theorem fhHashSizeLoop_diverges
    (isPower : i = 0 ∨ ∃ bits, bits ≤ 31 ∧ i.toNat = 2 ^ bits)
    (large : 2 ^ 31 < s.toNat)
    (fuel : Nat) :
    fhHashSizeLoop s fuel i = .error .divergence := by
  induction fuel generalizing i with
  | zero =>
      rfl
  | succ fuel inductionHypothesis =>
      have goesOn : i < s := by
        rw [UInt32.lt_iff_toNat_lt]
        rcases isPower with rfl | ⟨bits, inRange, isPower⟩
        · exact Nat.zero_lt_of_lt large
        · rw [isPower]
          exact (Nat.pow_le_pow_right (by decide) inRange).trans_lt large
      rw [fhHashSizeLoop, if_pos goesOn]
      apply inductionHypothesis
      rcases isPower with rfl | ⟨bits, inRange, isPower⟩
      · exact .inl rfl
      · rcases Nat.lt_or_eq_of_le inRange with notLast | rfl
        · exact .inr ⟨bits + 1, notLast, shifted_power isPower notLast⟩
        · left
          apply UInt32.toNat_inj.mp
          rw [shifted_toNat, isPower]
          rfl

end Loop

section Size

variable {dim : Int32} {size : UInt32}

/-- A positive `int` is the same number as an `unsigned int`. -/
theorem toUInt32_toNat
    (nonnegative : 0 ≤ dim.toInt) :
    (dim.toUInt32.toNat : Int) = dim.toInt ∧ dim.toInt < 2 ^ 31 := by
  have same : dim.toUInt32.toInt32 = dim := rfl
  have value : dim.toUInt32.toInt32.toInt = dim.toUInt32.toNat :=
    toInt32_toInt (by rwa [same])
  rw [same] at value
  exact ⟨value.symm, Int32.toInt_lt dim⟩

/-- The argument of `fh_hash_size`, half more, does not overflow. -/
theorem wanted_toNat
    (nonnegative : 0 ≤ dim.toInt) :
    (dim.toUInt32 + dim.toUInt32 / 2).toNat =
      (dim.toInt + dim.toInt / 2).toNat := by
  obtain ⟨same, small⟩ := toUInt32_toNat nonnegative
  have half : (2 : UInt32).toNat = 2 := rfl
  rw [UInt32.toNat_add, UInt32.toNat_div, half]
  omega

/-- `fh_hash_size` of a size that one and a half times fits into `2^31`. -/
theorem fhHashSize_returns
    (positive : 1 ≤ dim.toInt)
    (small : dim.toInt + dim.toInt / 2 ≤ 2 ^ 31) :
    ∃ size,
      fhHashSize dim.toUInt32 = .ok size ∧
        IsCeilPower (dim.toInt + dim.toInt / 2).toNat size.toNat := by
  have nonnegative : 0 ≤ dim.toInt := by omega
  rw [← wanted_toNat nonnegative]
  have isOne : (1 : UInt32).toNat = 2 ^ 0 := rfl
  refine fhHashSizeLoop_returns isOne (fun _ isEarlier => ?_) (by decide) rfl
    ?_
  · cases isEarlier
  · rw [wanted_toNat nonnegative]
    omega

/-- A size below `2^31` is the same as an `int`. -/
theorem size_toInt
    (small : size.toNat < 2 ^ 31) :
    size.toInt32.toInt = size.toNat := by
  simp only [Int32.toInt, UInt32.toBitVec_toInt32, BitVec.toInt_eq_toNat_cond,
    UInt32.toNat_toBitVec]
  rw [if_pos (by omega)]

/-- The masked hashes are the numbers below a power of two. -/
theorem chainsIndexed_power
    {bits : Nat}
    (small : bits < 64) :
    ChainsIndexed (2 ^ bits) := by
  intro table isPower index
  constructor
  · rintro ⟨hash, rfl⟩
    rw [FhTable.hashindex_power small isPower]
    exact Nat.mod_lt _ (Nat.two_pow_pos bits)
  · intro isIndex
    have bound : 2 ^ bits < 2 ^ 64 := Nat.pow_lt_pow_right (by decide) small
    refine ⟨UInt64.ofNat index, ?_⟩
    rw [FhTable.hashindex_power small isPower,
      UInt64.toNat_ofNat_of_lt' (by exact isIndex.trans bound),
      Nat.mod_eq_of_lt isIndex]

end Size

/--
`fh_hash_size` rounds a positive `int` up, as `fh_create` needs it, exactly when
one and a half times the number is at most `2^30`.
-/
theorem fh_hash_size_rounds_up_iff
    (dim : Int32)
    (positive : 1 ≤ dim.toInt) :
    (∃ size, RoundsUp dim size) ↔ dim.toInt ≤ 715827883 := by
  constructor
  · rintro ⟨size, returns, nonnegative, rounds, -⟩
    by_contra large
    rw [toInt32_toInt (by omega), Int.toNat_natCast] at rounds
    have bound := Int32.toInt_lt size.toInt32
    rw [toInt32_toInt (by omega)] at bound
    obtain ⟨bits, isPower⟩ := rounds.power
    have reaches := rounds.reaches
    have notSmaller : ¬ bits ≤ 30 := by
      intro isSmaller
      have small : 2 ^ bits ≤ 2 ^ 30 :=
        Nat.pow_le_pow_right (by decide) isSmaller
      omega
    have atLeast : 2 ^ 31 ≤ 2 ^ bits :=
      Nat.pow_le_pow_right (by decide) (by omega)
    omega
  · intro small
    obtain ⟨size, returns, ceil⟩ := fhHashSize_returns positive (by omega)
    obtain ⟨bits, isPower⟩ := ceil.power
    have atMost : size.toNat ≤ 2 ^ 30 := ceil.smallest 30 (by omega)
    have isInt : size.toInt32.toInt = size.toNat := size_toInt (by omega)
    have someBits : 0 < 2 ^ bits := Nat.two_pow_pos bits
    refine ⟨size, returns, by omega, ?_, ?_⟩
    · rw [isInt, Int.toNat_natCast]
      exact ceil
    · rw [isInt, Int.toNat_natCast, isPower]
      apply chainsIndexed_power
      by_contra isLarge
      have grows : 2 ^ 64 ≤ 2 ^ bits :=
        Nat.pow_le_pow_right (by decide) (by omega)
      omega

/-- A table for a thousand elements. -/
theorem fh_hash_size_rounds_up_thousand :
    ∃ size, RoundsUp 1000 size :=
  (fh_hash_size_rounds_up_iff 1000 (by decide)).mpr (by decide)

/--
For the first number whose one and a half is above `2^31` the loop does not end,
however many turns it takes; for the first above `2^30` the size is negative as
an `int`.
-/
theorem fh_hash_size_overflows :
    (∀ fuel,
      fhHashSizeLoop ((1431655766 : Int32).toUInt32 +
        (1431655766 : Int32).toUInt32 / 2) fuel 1 = .error .divergence) ∧
      (¬ ∃ size, RoundsUp 1431655766 size) ∧
      fhHashSize (715827884 : Int32).toUInt32 = .ok 2147483648 ∧
      (2147483648 : UInt32).toInt32.toInt = -2147483648 ∧
      ¬ ∃ size, RoundsUp 715827884 size := by
  have diverges :
      ∀ fuel,
        fhHashSizeLoop ((1431655766 : Int32).toUInt32 +
          (1431655766 : Int32).toUInt32 / 2) fuel 1 = .error .divergence :=
    fhHashSizeLoop_diverges (.inr ⟨0, by decide, rfl⟩) (by decide)
  have negative :
      fhHashSize (715827884 : Int32).toUInt32 = .ok 2147483648 := by
    decide
  refine ⟨diverges, ?_, negative, by decide, ?_⟩
  · rintro ⟨size, returns, -⟩
    rw [fhHashSize, diverges] at returns
    cases returns
  · rintro ⟨size, returns, positive, -⟩
    cases negative.symm.trans returns
    exact absurd positive (by decide)

end Clibs.Fh
