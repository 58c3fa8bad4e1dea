import Clibs.Fh.Wyhash

namespace Clibs.Fh

/-!
# The hash on every target

The texts of the header for different compilers and byte orders compute the same
words: a product from four half products, a population count from three masks,
and a word whose bytes are swapped after it was loaded the wrong way round.
-/

/-! ## The product -/

/-- Four half products, added with their carries, are the product. -/
theorem halves_sum
    {rh q0 q1 r0 r1 rl t lo : Nat}
    (small0 : r0 < 0x100000000)
    (small1 : r1 < 0x100000000)
    (small : rl < 0x10000000000000000)
    (isT : t = (rl + r0 * 0x100000000) % 0x10000000000000000)
    (isLo : lo = (t + r1 * 0x100000000) % 0x10000000000000000)
    (product : Nat)
    (isProduct :
      product =
        rh * 0x10000000000000000 +
          ((q0 * 0x100000000 + r0) + (q1 * 0x100000000 + r1)) * 0x100000000 +
          rl) :
    lo = product % 0x10000000000000000 ∧
      rh + q0 + q1 + ((if t < rl then 1 else 0) + if lo < t then 1 else 0) =
        product / 0x10000000000000000 := by
  have split :
      product =
        (rh + q0 + q1) * 0x10000000000000000 +
          (rl + r0 * 0x100000000 + r1 * 0x100000000) := by
    rw [isProduct]
    ring
  rw [split]
  constructor
  · omega
  · by_cases carries : t < rl
    · by_cases carriesAgain : lo < t
      · rw [if_pos carries, if_pos carriesAgain]
        omega
      · rw [if_pos carries, if_neg carriesAgain]
        omega
    · by_cases carriesAgain : lo < t
      · rw [if_neg carries, if_pos carriesAgain]
        omega
      · rw [if_neg carries, if_neg carriesAgain]
        omega

/-- The high half of a word. -/
theorem toNat_highHalf
    (x : UInt64) :
    (x >>> 32).toNat = x.toNat / 0x100000000 := by
  rw [UInt64.toNat_shiftRight, Nat.shiftRight_eq_div_pow]
  rfl

/-- The low half of a word. -/
theorem toNat_lowHalf
    (x : UInt64) :
    x.toUInt32.toUInt64.toNat = x.toNat % 0x100000000 := by
  rw [UInt32.toNat_toUInt64, UInt64.toNat_toUInt32]

/-- A word moved up by half a word keeps its low half. -/
theorem toNat_shiftHalf
    (x : UInt64) :
    (x <<< 32).toNat = x.toNat % 0x100000000 * 0x100000000 := by
  rw [UInt64.toNat_shiftLeft, Nat.shiftLeft_eq]
  have isShift : (32 : UInt64).toNat % 64 = 32 := rfl
  rw [isShift]
  have small := x.toNat_lt
  omega

/-- The product of two half words is a word. -/
theorem toNat_mulHalves
    {x y : UInt64}
    (smallX : x.toNat < 0x100000000)
    (smallY : y.toNat < 0x100000000) :
    (x * y).toNat = x.toNat * y.toNat := by
  rw [UInt64.toNat_mul]
  apply Nat.mod_eq_of_lt
  calc
    x.toNat * y.toNat < 0x100000000 * 0x100000000 :=
      Nat.mul_lt_mul'' smallX smallY
    _ = 2 ^ 64 := by
      norm_num

/-- The carry out of a sum of words, as a word. -/
theorem toNat_carry
    (x y : UInt64) :
    (if x < y then (1 : UInt64) else 0).toNat =
      if x.toNat < y.toNat then 1 else 0 := by
  by_cases below : x < y
  · rw [if_pos below, if_pos (UInt64.lt_iff_toNat_lt.mp below)]
    rfl
  · rw [if_neg below, if_neg (fun less => below (UInt64.lt_iff_toNat_lt.mpr less))]
    rfl

/-- What is computed from the half products is the product of the words. -/
theorem sumHalves_eq
    (rh rm0 rm1 rl : UInt64)
    (product : Nat)
    (isProduct :
      product =
        rh.toNat * 0x10000000000000000 +
          (rm0.toNat + rm1.toNat) * 0x100000000 + rl.toNat) :
    let t := rl + (rm0 <<< 32)
    let lo := t + (rm1 <<< 32)
    (lo,
        rh + (rm0 >>> 32) + (rm1 >>> 32) +
          ((if t < rl then 1 else 0) + if lo < t then 1 else 0)) =
      (UInt64.ofNat product, UInt64.ofNat (product >>> 64)) := by
  intro t lo
  have isT :
      t.toNat =
        (rl.toNat + rm0.toNat % 0x100000000 * 0x100000000) %
          0x10000000000000000 := by
    rw [← toNat_shiftHalf]
    exact UInt64.toNat_add rl (rm0 <<< 32)
  have isLo :
      lo.toNat =
        (t.toNat + rm1.toNat % 0x100000000 * 0x100000000) %
          0x10000000000000000 := by
    rw [← toNat_shiftHalf]
    exact UInt64.toNat_add t (rm1 <<< 32)
  have split0 := Nat.div_add_mod' rm0.toNat 0x100000000
  have split1 := Nat.div_add_mod' rm1.toNat 0x100000000
  obtain ⟨low, high⟩ :=
    halves_sum (Nat.mod_lt _ (by decide)) (Nat.mod_lt _ (by decide))
      rl.toNat_lt isT isLo product (by rw [isProduct, split0, split1])
  rw [Prod.mk.injEq]
  constructor
  · rw [← UInt64.toNat_inj, UInt64.toNat_ofNat', low]
  · rw [← UInt64.toNat_inj, UInt64.toNat_ofNat', Nat.shiftRight_eq_div_pow,
      UInt64.toNat_add, UInt64.toNat_add, UInt64.toNat_add, UInt64.toNat_add,
      toNat_carry, toNat_carry, toNat_highHalf, toNat_highHalf,
      ← high]
    omega

/-- The product from half words is the product. -/
theorem wymumHalves_eq
    (a b : UInt64) :
    wymumHalves a b = wymum a b := by
  have boundA : a.toNat < 0x10000000000000000 := a.toNat_lt
  have boundB : b.toNat < 0x10000000000000000 := b.toNat_lt
  have ha := toNat_highHalf a
  have hb := toNat_highHalf b
  have la := toNat_lowHalf a
  have lb := toNat_lowHalf b
  have smallHa : (a >>> 32).toNat < 0x100000000 := by
    omega
  have smallHb : (b >>> 32).toNat < 0x100000000 := by
    omega
  have smallLa : a.toUInt32.toUInt64.toNat < 0x100000000 := by
    omega
  have smallLb : b.toUInt32.toUInt64.toNat < 0x100000000 := by
    omega
  have splitA :
      a.toNat =
        (a >>> 32).toNat * 0x100000000 + a.toUInt32.toUInt64.toNat := by
    omega
  have splitB :
      b.toNat =
        (b >>> 32).toNat * 0x100000000 + b.toUInt32.toUInt64.toNat := by
    omega
  apply sumHalves_eq ((a >>> 32) * (b >>> 32)) ((a >>> 32) * b.toUInt32.toUInt64)
    ((b >>> 32) * a.toUInt32.toUInt64)
    (a.toUInt32.toUInt64 * b.toUInt32.toUInt64) (a.toNat * b.toNat)
  rw [toNat_mulHalves smallHa smallHb, toNat_mulHalves smallHa smallLb,
    toNat_mulHalves smallHb smallLa, toNat_mulHalves smallLa smallLb,
    splitA, splitB]
  generalize (a >>> 32).toNat = highA
  generalize (b >>> 32).toNat = highB
  generalize a.toUInt32.toUInt64.toNat = lowA
  generalize b.toUInt32.toUInt64.toNat = lowB
  ring

/-! ## The population count -/

/-- The bits of a byte, after they were counted in pairs. -/
def countedPairs (low : Nat) : Nat :=
  low - ((low >>> 1) &&& 0x55)

/-- The bits of a byte, after they were counted in halves. -/
def countedHalves (low : Nat) : Nat :=
  (countedPairs low &&& 0x33) + ((countedPairs low >>> 2) &&& 0x33)

/-- The bits of a byte. -/
def countedByte (low : Nat) : Nat :=
  countedHalves low % 16 + countedHalves low / 16

/-- What the stages make of each byte. -/
theorem counted_bounds :
    ∀ low < 256,
      (low >>> 1) &&& 0x55 ≤ low ∧
        countedPairs low < 256 ∧
        countedHalves low < 256 ∧
        countedHalves low % 16 ≤ 4 ∧
        countedHalves low / 16 ≤ 4 ∧
        countedByte low ≤ 8 ∧
        countedByte low = countBits 8 low := by
  decide +kernel

/-- The first stage counts the bits of each byte in pairs. -/
theorem toNat_countedPairs
    (x : UInt64) :
    (x - ((x >>> 1) &&& (0x5555555555555555 : UInt64))).toNat =
      mapBytes countedPairs 8 x.toNat := by
  have isWord : x.toNat < 256 ^ 8 := x.toNat_lt
  have masked :
      ((x >>> 1) &&& (0x5555555555555555 : UInt64)).toNat =
        mapBytes (fun low => (low >>> 1) &&& 0x55) 8 x.toNat := by
    rw [← shiftRight_and_repeatByte (by decide) (by decide),
      UInt64.toNat_and, UInt64.toNat_shiftRight]
    rfl
  have noBorrow : ∀ low < 256, (low >>> 1) &&& 0x55 ≤ (fun low => low) low :=
    fun low isByte => (counted_bounds low isByte).1
  obtain ⟨difference, below⟩ := mapBytes_sub 8 x.toNat noBorrow
  rw [mapBytes_id isWord, ← masked] at difference below
  rw [UInt64.toNat_sub_of_le _ _ (UInt64.le_iff_toNat_le.mpr below), difference]
  rfl

/-- The second stage counts the bits of each byte in halves. -/
theorem toNat_countedHalves
    {x : UInt64}
    {word : Nat}
    (isPairs : x.toNat = mapBytes countedPairs 8 word) :
    ((x &&& (0x3333333333333333 : UInt64)) +
        ((x >>> 2) &&& (0x3333333333333333 : UInt64))).toNat =
      mapBytes countedHalves 8 word := by
  have isByte : ∀ low < 256, countedPairs low < 256 :=
    fun low small => (counted_bounds low small).2.1
  have lowPairs :
      (x &&& (0x3333333333333333 : UInt64)).toNat =
        mapBytes (fun low => countedPairs low &&& 0x33) 8 word := by
    rw [← mapBytes_mapBytes (g := fun low => low &&& 0x33) isByte, ← isPairs,
      ← and_repeatByte (by decide), UInt64.toNat_and]
    rfl
  have highPairs :
      ((x >>> 2) &&& (0x3333333333333333 : UInt64)).toNat =
        mapBytes (fun low => (countedPairs low >>> 2) &&& 0x33) 8 word := by
    rw [← mapBytes_mapBytes (g := fun low => (low >>> 2) &&& 0x33) isByte,
      ← isPairs, ← shiftRight_and_repeatByte (by decide) (by decide),
      UInt64.toNat_and, UInt64.toNat_shiftRight]
    rfl
  have small : mapBytes countedHalves 8 word < 256 ^ 8 :=
    mapBytes_lt (fun low isLow => (counted_bounds low isLow).2.2.1)
  rw [UInt64.toNat_add, lowPairs, highPairs, mapBytes_add]
  exact Nat.mod_eq_of_lt small

/-- The third stage counts the bits of each byte. -/
theorem toNat_countedByte
    {x : UInt64}
    {word : Nat}
    (isHalves : x.toNat = mapBytes countedHalves 8 word) :
    ((x + (x >>> 4)) &&& (0x0f0f0f0f0f0f0f0f : UInt64)).toNat =
      mapBytes countedByte 8 word := by
  have summed :=
    add_halves (f := countedHalves) 8 word
      (fun low isLow next isNext => by
        obtain ⟨-, -, -, lowHalf, highHalf, -⟩ := counted_bounds low isLow
        obtain ⟨-, -, -, nextHalf, -⟩ := counted_bounds next isNext
        omega)
      (fun low isLow => by
        obtain ⟨-, -, -, lowHalf, highHalf, -⟩ := counted_bounds low isLow
        omega)
  have small : mapBytes countedByte 8 word < 256 ^ 8 :=
    mapBytes_lt
      (fun low isLow => by
        obtain ⟨-, -, -, -, -, isCount, -⟩ := counted_bounds low isLow
        omega)
  calc
    ((x + (x >>> 4)) &&& (0x0f0f0f0f0f0f0f0f : UInt64)).toNat =
        (x.toNat + x.toNat >>> 4) % 2 ^ 64 &&& repeatByte 15 8 % 2 ^ 64 := by
      rw [UInt64.toNat_and, UInt64.toNat_add, UInt64.toNat_shiftRight]
      rfl
    _ = mapBytes countedByte 8 word % 2 ^ 64 := by
      rw [← Nat.and_mod_two_pow, isHalves, summed]
      rfl
    _ = mapBytes countedByte 8 word :=
      Nat.mod_eq_of_lt small

/-- The masks and the product count the bits. -/
theorem manualPopcount_eq
    (x : UInt64) :
    manualPopcount x = popcountll x := by
  have isBytes := toNat_countedByte (toNat_countedHalves (toNat_countedPairs x))
  have summed :=
    mul_repeatByte_one
      (fun low isLow => (counted_bounds low isLow).2.2.2.2.2.1) x.toNat
  have counted : sumBytes countedByte 8 x.toNat = countBits 64 x.toNat := by
    rw [countBits_bytes 8]
    exact sumBytes_congr (fun low isLow => (counted_bounds low isLow).2.2.2.2.2.2)
  have result : (manualPopcount x).toNat = countBits 64 x.toNat := by
    rw [manualPopcount, UInt64.toNat_shiftRight, UInt64.toNat_mul, isBytes,
      Nat.shiftRight_eq_div_pow, ← counted, ← summed]
    rfl
  rw [← UInt64.toNat_inj, popcountll, UInt64.toNat_ofNat', ← result]
  exact (Nat.mod_eq_of_lt (manualPopcount x).toNat_lt).symm

/-! ## The byte order -/

/-- One byte of a word, at its place. -/
theorem and_byteAt
    (x place : Nat) :
    x &&& (255 * 2 ^ place) = x / 2 ^ place % 256 * 2 ^ place := by
  apply Nat.eq_of_testBit_eq
  intro bit
  have isByte : 255 = 2 ^ 8 - 1 := rfl
  have isBase : 256 = 2 ^ 8 := rfl
  rw [Nat.testBit_and, Nat.testBit_mul_two_pow, Nat.testBit_mul_two_pow, isByte,
    isBase, Nat.testBit_two_pow_sub_one, Nat.testBit_mod_two_pow,
    Nat.testBit_div_two_pow]
  by_cases isHigh : bit < place
  · have isOut : ¬ place ≤ bit := not_le.mpr isHigh
    simp [isOut]
  · have isIn : place ≤ bit := not_lt.mp isHigh
    simp [isIn, Bool.and_comm]

/-- A byte that is moved down to a place. -/
theorem shiftRight_and_byteAt
    (x shift place : Nat) :
    (x >>> shift) &&& (255 * 2 ^ place) =
      x / 2 ^ (shift + place) % 256 * 2 ^ place := by
  rw [and_byteAt, Nat.shiftRight_eq_div_pow, Nat.div_div_eq_div_mul, ← Nat.pow_add]

/-- A byte that is moved up to a place. -/
theorem shiftLeft_and_byteAt
    (x shift place width : Nat)
    (isAbove : shift ≤ place)
    (fits : place + 8 ≤ width) :
    ((x <<< shift) % 2 ^ width) &&& (255 * 2 ^ place) =
      x / 2 ^ (place - shift) % 256 * 2 ^ place := by
  rw [and_byteAt]
  congr 1
  apply Nat.eq_of_testBit_eq
  intro bit
  have isBase : 256 = 2 ^ 8 := rfl
  rw [isBase, Nat.testBit_mod_two_pow, Nat.testBit_mod_two_pow,
    Nat.testBit_div_two_pow, Nat.testBit_div_two_pow, Nat.testBit_mod_two_pow,
    Nat.testBit_shiftLeft]
  by_cases inByte : bit < 8
  · have inWord : bit + place < width := by
      omega
    have isShifted : shift ≤ bit + place := by
      omega
    have isPlace : bit + place - shift = bit + (place - shift) := by
      omega
    simp [inByte, inWord, isShifted, isPlace]
  · simp [inByte]

/-- So many bytes make a number below the next power. -/
theorem fromBytes_lt
    (bytes : List UInt8) :
    fromBytes bytes < 2 ^ (8 * bytes.length) := by
  induction bytes with
  | nil =>
      exact Nat.one_pos
  | cons byte rest inductionHypothesis =>
      have isByte := byte.toNat_lt
      rw [fromBytes, List.length_cons, Nat.mul_succ, Nat.pow_add]
      omega

/-- The digits of a number are its bytes. -/
theorem fromBytes_digit
    (bytes : List UInt8)
    (index : Nat) :
    fromBytes bytes / 2 ^ (8 * index) % 256 = (bytes.getD index 0).toNat := by
  induction bytes generalizing index with
  | nil =>
      rw [fromBytes, Nat.zero_div]
      rfl
  | cons byte rest inductionHypothesis =>
      have isByte := byte.toNat_lt
      cases index with
      | zero =>
          rw [fromBytes, Nat.mul_zero, Nat.pow_zero, Nat.div_one,
            List.getD_cons_zero]
          omega
      | succ index =>
          have next : (byte.toNat + 256 * fromBytes rest) / 2 ^ 8 = fromBytes rest := by
            omega
          rw [fromBytes, Nat.mul_succ, Nat.pow_add, Nat.mul_comm (2 ^ (8 * index)),
            ← Nat.div_div_eq_div_mul, next, inductionHypothesis,
            List.getD_cons_succ]

/-- A byte above the others is added by `|`. -/
theorem fromBytes_or
    (bytes : List UInt8)
    (byte : UInt8) :
    fromBytes bytes ||| (byte.toNat * 2 ^ (8 * bytes.length)) =
      fromBytes (bytes ++ [byte]) := by
  rw [Nat.or_comm, Nat.mul_comm, ← Nat.two_pow_add_eq_or_of_lt (fromBytes_lt bytes)]
  induction bytes with
  | nil =>
      simp [fromBytes]
  | cons first rest inductionHypothesis =>
      rw [List.cons_append, fromBytes, fromBytes, ← inductionHypothesis,
        List.length_cons, Nat.mul_succ, Nat.pow_add]
      ring

/-- A word that is loaded has the value of its bytes. -/
theorem toNat_loadLittle
    (bytes : List UInt8)
    (fits : bytes.length ≤ 8) :
    (loadLittle bytes).toNat = fromBytes bytes := by
  rw [loadLittle, UInt64.toNat_ofNat']
  apply Nat.mod_eq_of_lt
  calc
    fromBytes bytes < 2 ^ (8 * bytes.length) :=
      fromBytes_lt bytes
    _ ≤ 2 ^ 64 :=
      Nat.pow_le_pow_right (by decide) (by omega)

/-- A byte of a word that was moved down to a place. -/
theorem toNat_byteDown
    {v shift mask : UInt64}
    {bytes : List UInt8}
    (isWord : v.toNat = fromBytes bytes)
    (s p index : Nat)
    (isShift : shift.toNat % 64 = s)
    (isMask : mask.toNat = 255 * 2 ^ p)
    (isIndex : s + p = 8 * index) :
    ((v >>> shift) &&& mask).toNat = (bytes.getD index 0).toNat * 2 ^ p := by
  rw [UInt64.toNat_and, UInt64.toNat_shiftRight, isShift, isMask, isWord,
    shiftRight_and_byteAt, isIndex, fromBytes_digit]

/-- A byte of a word that was moved up to a place. -/
theorem toNat_byteUp
    {v shift mask : UInt64}
    {bytes : List UInt8}
    (isWord : v.toNat = fromBytes bytes)
    (s p index : Nat)
    (isShift : shift.toNat % 64 = s)
    (isMask : mask.toNat = 255 * 2 ^ p)
    (isAbove : s ≤ p)
    (fits : p + 8 ≤ 64)
    (isIndex : p - s = 8 * index) :
    ((v <<< shift) &&& mask).toNat = (bytes.getD index 0).toNat * 2 ^ p := by
  rw [UInt64.toNat_and, UInt64.toNat_shiftLeft, isShift, isMask, isWord,
    shiftLeft_and_byteAt _ s p 64 isAbove fits, isIndex, fromBytes_digit]

/-- Swapping the eight bytes of a word that was loaded the wrong way round. -/
theorem swapWord8_loadBig
    (b0 b1 b2 b3 b4 b5 b6 b7 : UInt8) :
    swapWord8 (loadBig [b0, b1, b2, b3, b4, b5, b6, b7]) =
      loadLittle [b0, b1, b2, b3, b4, b5, b6, b7] := by
  have loaded :
      (loadBig [b0, b1, b2, b3, b4, b5, b6, b7]).toNat =
        fromBytes [b7, b6, b5, b4, b3, b2, b1, b0] :=
    toNat_loadLittle [b7, b6, b5, b4, b3, b2, b1, b0] (Nat.le_refl 8)
  have stored :
      (loadLittle [b0, b1, b2, b3, b4, b5, b6, b7]).toNat =
        fromBytes [b0, b1, b2, b3, b4, b5, b6, b7] :=
    toNat_loadLittle [b0, b1, b2, b3, b4, b5, b6, b7] (Nat.le_refl 8)
  rw [← UInt64.toNat_inj, swapWord8, stored]
  rw [UInt64.toNat_or, UInt64.toNat_or, UInt64.toNat_or, UInt64.toNat_or,
    UInt64.toNat_or, UInt64.toNat_or, UInt64.toNat_or]
  rw [toNat_byteDown loaded 56 0 7 rfl rfl rfl,
    toNat_byteDown loaded 40 8 6 rfl rfl rfl,
    toNat_byteDown loaded 24 16 5 rfl rfl rfl,
    toNat_byteDown loaded 8 24 4 rfl rfl rfl,
    toNat_byteUp loaded 8 32 3 rfl rfl (by decide) (by decide) rfl,
    toNat_byteUp loaded 24 40 2 rfl rfl (by decide) (by decide) rfl,
    toNat_byteUp loaded 40 48 1 rfl rfl (by decide) (by decide) rfl,
    toNat_byteUp loaded 56 56 0 rfl rfl (by decide) (by decide) rfl]
  have j0 : b0.toNat * 2 ^ 0 = fromBytes [b0] :=
    Nat.mul_one _
  have j1 : fromBytes [b0] ||| (b1.toNat * 2 ^ 8) = fromBytes [b0, b1] :=
    fromBytes_or [b0] b1
  have j2 :
      fromBytes [b0, b1] ||| (b2.toNat * 2 ^ 16) = fromBytes [b0, b1, b2] :=
    fromBytes_or [b0, b1] b2
  have j3 :
      fromBytes [b0, b1, b2] ||| (b3.toNat * 2 ^ 24) =
        fromBytes [b0, b1, b2, b3] :=
    fromBytes_or [b0, b1, b2] b3
  have j4 :
      fromBytes [b0, b1, b2, b3] ||| (b4.toNat * 2 ^ 32) =
        fromBytes [b0, b1, b2, b3, b4] :=
    fromBytes_or [b0, b1, b2, b3] b4
  have j5 :
      fromBytes [b0, b1, b2, b3, b4] ||| (b5.toNat * 2 ^ 40) =
        fromBytes [b0, b1, b2, b3, b4, b5] :=
    fromBytes_or [b0, b1, b2, b3, b4] b5
  have j6 :
      fromBytes [b0, b1, b2, b3, b4, b5] ||| (b6.toNat * 2 ^ 48) =
        fromBytes [b0, b1, b2, b3, b4, b5, b6] :=
    fromBytes_or [b0, b1, b2, b3, b4, b5] b6
  have j7 :
      fromBytes [b0, b1, b2, b3, b4, b5, b6] ||| (b7.toNat * 2 ^ 56) =
        fromBytes [b0, b1, b2, b3, b4, b5, b6, b7] :=
    fromBytes_or [b0, b1, b2, b3, b4, b5, b6] b7
  change
    b0.toNat * 2 ^ 0 ||| b1.toNat * 2 ^ 8 ||| b2.toNat * 2 ^ 16 |||
      b3.toNat * 2 ^ 24 ||| b4.toNat * 2 ^ 32 ||| b5.toNat * 2 ^ 40 |||
      b6.toNat * 2 ^ 48 ||| b7.toNat * 2 ^ 56 = _
  rw [j0, j1, j2, j3, j4, j5, j6, j7]

/-- Swapping the four bytes of a word that was loaded the wrong way round. -/
theorem swapWord4_loadBig
    (b0 b1 b2 b3 : UInt8) :
    (swapWord4 (loadBig [b0, b1, b2, b3]).toUInt32).toUInt64 =
      loadLittle [b0, b1, b2, b3] := by
  have whole :
      (loadBig [b0, b1, b2, b3]).toNat = fromBytes [b3, b2, b1, b0] :=
    toNat_loadLittle [b3, b2, b1, b0] (Nat.le_add_right 4 4)
  have loaded :
      (loadBig [b0, b1, b2, b3]).toUInt32.toNat = fromBytes [b3, b2, b1, b0] := by
    rw [UInt64.toNat_toUInt32, whole]
    exact Nat.mod_eq_of_lt (fromBytes_lt [b3, b2, b1, b0])
  have stored :
      (loadLittle [b0, b1, b2, b3]).toNat = fromBytes [b0, b1, b2, b3] :=
    toNat_loadLittle [b0, b1, b2, b3] (Nat.le_add_right 4 4)
  generalize (loadBig [b0, b1, b2, b3]).toUInt32 = v at loaded
  have t0 : ((v >>> 24) &&& (0xff : UInt32)).toNat = b0.toNat * 2 ^ 0 := by
    rw [UInt32.toNat_and, UInt32.toNat_shiftRight, loaded]
    exact (shiftRight_and_byteAt _ 24 0).trans
      (congrArg (· * 2 ^ 0) (fromBytes_digit [b3, b2, b1, b0] 3))
  have t1 : ((v >>> 8) &&& (0xff00 : UInt32)).toNat = b1.toNat * 2 ^ 8 := by
    rw [UInt32.toNat_and, UInt32.toNat_shiftRight, loaded]
    exact (shiftRight_and_byteAt _ 8 8).trans
      (congrArg (· * 2 ^ 8) (fromBytes_digit [b3, b2, b1, b0] 2))
  have t2 : ((v <<< 8) &&& (0xff0000 : UInt32)).toNat = b2.toNat * 2 ^ 16 := by
    rw [UInt32.toNat_and, UInt32.toNat_shiftLeft, loaded]
    exact (shiftLeft_and_byteAt _ 8 16 32 (by decide) (by decide)).trans
      (congrArg (· * 2 ^ 16) (fromBytes_digit [b3, b2, b1, b0] 1))
  have t3 : ((v <<< 24) &&& (0xff000000 : UInt32)).toNat = b3.toNat * 2 ^ 24 := by
    rw [UInt32.toNat_and, UInt32.toNat_shiftLeft, loaded]
    exact (shiftLeft_and_byteAt _ 24 24 32 (by decide) (by decide)).trans
      (congrArg (· * 2 ^ 24) (fromBytes_digit [b3, b2, b1, b0] 0))
  have j0 : b0.toNat * 2 ^ 0 = fromBytes [b0] :=
    Nat.mul_one _
  have j1 : fromBytes [b0] ||| (b1.toNat * 2 ^ 8) = fromBytes [b0, b1] :=
    fromBytes_or [b0] b1
  have j2 :
      fromBytes [b0, b1] ||| (b2.toNat * 2 ^ 16) = fromBytes [b0, b1, b2] :=
    fromBytes_or [b0, b1] b2
  have j3 :
      fromBytes [b0, b1, b2] ||| (b3.toNat * 2 ^ 24) =
        fromBytes [b0, b1, b2, b3] :=
    fromBytes_or [b0, b1, b2] b3
  rw [← UInt64.toNat_inj, stored, UInt32.toNat_toUInt64, swapWord4,
    UInt32.toNat_or, UInt32.toNat_or, UInt32.toNat_or, t0, t1, t2, t3, j0, j1,
    j2, j3]

/-! ## The targets -/

/-- A vector of eight bytes is a list of them. -/
theorem vector8_cases
    (bytes : List.Vector UInt8 8) :
    ∃ b0 b1 b2 b3 b4 b5 b6 b7, bytes.toList = [b0, b1, b2, b3, b4, b5, b6, b7] := by
  obtain ⟨list, isEight⟩ := bytes
  match list, isEight with
  | [b0, b1, b2, b3, b4, b5, b6, b7], _ =>
      exact ⟨b0, b1, b2, b3, b4, b5, b6, b7, rfl⟩

/-- A vector of four bytes is a list of them. -/
theorem vector4_cases
    (bytes : List.Vector UInt8 4) :
    ∃ b0 b1 b2 b3, bytes.toList = [b0, b1, b2, b3] := by
  obtain ⟨list, isFour⟩ := bytes
  match list, isFour with
  | [b0, b1, b2, b3], _ =>
      exact ⟨b0, b1, b2, b3, rfl⟩

/-- A machine without wide integers computes the same words. -/
theorem narrowTarget_eq :
    narrowTarget = wideTarget := by
  rw [narrowTarget, wideTarget, Target.mk.injEq]
  exact ⟨funext₂ wymumHalves_eq, funext manualPopcount_eq, rfl, rfl⟩

/-- A machine with the other byte order computes the same words. -/
theorem bigEndianTarget_eq :
    bigEndianTarget = wideTarget := by
  rw [bigEndianTarget, wideTarget, Target.mk.injEq]
  refine ⟨funext₂ wymumHalves_eq, funext manualPopcount_eq, ?_, ?_⟩
  · funext bytes
    obtain ⟨b0, b1, b2, b3, b4, b5, b6, b7, isList⟩ := vector8_cases bytes
    rw [isList, swapWord8_loadBig]
  · funext bytes
    obtain ⟨b0, b1, b2, b3, isList⟩ := vector4_cases bytes
    rw [isList, swapWord4_loadBig]

/-- The hash and the secrets are the same on every target. -/
theorem hash_same_on_targets :
    fhDefaultHash narrowTarget = fhDefaultHash wideTarget ∧
      fhDefaultHash bigEndianTarget = fhDefaultHash wideTarget ∧
      makeSecret narrowTarget = makeSecret wideTarget ∧
      makeSecret bigEndianTarget = makeSecret wideTarget := by
  rw [narrowTarget_eq, bigEndianTarget_eq]
  exact ⟨rfl, rfl, rfl, rfl⟩

end Clibs.Fh
