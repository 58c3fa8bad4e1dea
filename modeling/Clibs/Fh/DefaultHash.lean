import Clibs.Fh.WyhashTargets
import Mathlib.Order.Interval.Set.Basic

namespace Clibs.Fh

/-!
# What the default hash reads and what a secret is

The hash reads every byte of a key and none outside it, whatever its length, so
the hash of a key is a function of its bytes.  A secret is drawn until its words
are odd and differ from each other in half of their bits.
-/

/-! ## The bytes that are read -/

/-- Copying bytes reads them. -/
theorem loadBytes_reads
    (p count : Nat) :
    Reads (fun memory : Bytes => loadBytes memory p count)
      (Set.Ico p (p + count)) (fun _ => True) := by
  induction count generalizing p with
  | zero =>
      apply (Reads.ofValue trivial).congr
      intro address
      rw [Nat.add_zero, Set.Ico_self]
  | succ count inductionHypothesis =>
      have both :
          Reads (fun memory : Bytes => loadBytes memory p (count + 1)) _
            (fun _ => True) :=
        (Reads.ofCell p).bind fun _ _ =>
          (inductionHypothesis (p + 1)).map fun _ _ => trivial
      apply both.congr
      intro address
      rw [Set.mem_union, Set.mem_singleton_iff, Set.mem_Ico, Set.mem_Ico]
      omega

theorem wyr8_reads
    (target : Target)
    (p : Nat) :
    Reads (fun memory => wyr8 target memory p) (Set.Ico p (p + 8))
      (fun _ => True) :=
  (loadBytes_reads p 8).map fun _ _ => trivial

theorem wyr4_reads
    (target : Target)
    (p : Nat) :
    Reads (fun memory => wyr4 target memory p) (Set.Ico p (p + 4))
      (fun _ => True) :=
  (loadBytes_reads p 4).map fun _ _ => trivial

theorem wyr3_reads
    {k : Nat}
    (p : Nat)
    (isShort : k < 4)
    (isSome : 0 < k) :
    Reads (fun memory => wyr3 memory p k) (Set.Ico p (p + k))
      (fun _ => True) := by
  have reads :
      Reads (fun memory => wyr3 memory p k) _ (fun _ => True) :=
    (Reads.ofCell p).bind fun _ _ =>
      (Reads.ofCell (p + (k >>> 1))).bind fun _ _ =>
        (Reads.ofCell (p + k - 1)).map fun _ _ => trivial
  apply reads.congr
  intro address
  rw [Set.mem_union, Set.mem_union, Set.mem_singleton_iff,
    Set.mem_singleton_iff, Set.mem_singleton_iff, Set.mem_Ico,
    Nat.shiftRight_eq_div_pow]
  omega

/-- A key of up to 16 bytes is read whole. -/
theorem wyhashShort_reads
    (target : Target)
    {len : Nat}
    (isShort : len ≤ 16)
    (seed : UInt64) :
    Reads (fun memory => wyhashShort target memory 0 len seed)
      (Set.Ico 0 len) (fun _ => True) := by
  by_cases isFour : len ≥ 4
  · simp only [wyhashShort, if_pos isFour]
    apply
      ((wyr4_reads target 0).bind fun _ _ =>
        (wyr4_reads target (0 + ((len >>> 3) <<< 2))).bind fun _ _ =>
          (wyr4_reads target (0 + len - 4)).bind fun _ _ =>
            (wyr4_reads target (0 + len - 4 - ((len >>> 3) <<< 2))).map
              fun _ _ => trivial).congr
    intro address
    rw [Set.mem_union, Set.mem_union, Set.mem_union, Set.mem_Ico, Set.mem_Ico,
      Set.mem_Ico, Set.mem_Ico, Set.mem_Ico, Nat.shiftRight_eq_div_pow,
      Nat.shiftLeft_eq]
    omega
  · by_cases isSome : len > 0
    · simp only [wyhashShort, if_neg isFour, if_pos isSome]
      have reads := wyr3_reads 0 (not_le.mp isFour) isSome
      rw [Nat.zero_add] at reads
      exact reads.map fun _ _ => trivial
    · simp only [wyhashShort, if_neg isFour, if_neg isSome]
      apply (Reads.ofValue trivial).congr
      intro address
      rw [Nat.le_zero.mp (not_lt.mp isSome), Set.Ico_self]

/-- One round of the loop over 48 bytes reads its block. -/
theorem block_reads
    {α : Type}
    {next : UInt64 → UInt64 → UInt64 → UInt64 → UInt64 → UInt64 →
      Reader Nat UInt8 α}
    {rest : Set Nat}
    {Describes : α → Prop}
    (target : Target)
    (p : Nat)
    (continues :
      ∀ w0 w1 w2 w3 w4 w5, Reads (next w0 w1 w2 w3 w4 w5) rest Describes) :
    Reads
      (fun memory => do
        let w0 ← wyr8 target memory p
        let w1 ← wyr8 target memory (p + 8)
        let w2 ← wyr8 target memory (p + 16)
        let w3 ← wyr8 target memory (p + 24)
        let w4 ← wyr8 target memory (p + 32)
        let w5 ← wyr8 target memory (p + 40)
        next w0 w1 w2 w3 w4 w5 memory)
      (Set.Ico p (p + 48) ∪ rest) Describes := by
  apply
    ((wyr8_reads target p).bind fun w0 _ =>
      (wyr8_reads target (p + 8)).bind fun w1 _ =>
        (wyr8_reads target (p + 16)).bind fun w2 _ =>
          (wyr8_reads target (p + 24)).bind fun w3 _ =>
            (wyr8_reads target (p + 32)).bind fun w4 _ =>
              (wyr8_reads target (p + 40)).bind fun w5 _ =>
                continues w0 w1 w2 w3 w4 w5).congr
  intro address
  by_cases inRest : address ∈ rest
  · simp [inRest]
  · simp only [Set.mem_union, Set.mem_Ico, inRest, or_false]
    omega

/-- The loop over 48 bytes reads whole blocks and leaves one at most. -/
theorem wyhashLanes_reads
    (target : Target)
    (secret : Secret)
    {fuel i : Nat}
    (p : Nat)
    (isLong : 48 < i)
    (enough : i ≤ fuel)
    (seed see1 see2 : UInt64) :
    Reads
      (fun memory =>
        wyhashLanes target secret memory fuel p i seed see1 see2)
      (Set.Ico p (p + 48 * ((i - 1) / 48)))
      (fun left =>
        left.1 = p + 48 * ((i - 1) / 48) ∧
          left.2.1 = i - 48 * ((i - 1) / 48)) := by
  induction fuel generalizing p i seed see1 see2 with
  | zero =>
      omega
  | succ fuel inductionHypothesis =>
      by_cases isLonger : i - 48 > 48
      · have blocks : (i - 1) / 48 = (i - 48 - 1) / 48 + 1 := by
          omega
        simp only [wyhashLanes, if_pos isLonger]
        apply
          (block_reads target p fun w0 w1 w2 w3 w4 w5 =>
            (inductionHypothesis (p + 48) isLonger (by omega) _ _ _).weaken
              (fun left isLeft => ?_)).congr
        · intro address
          rw [Set.mem_union, Set.mem_Ico, Set.mem_Ico, Set.mem_Ico, blocks]
          omega
        · rw [isLeft.1, isLeft.2, blocks]
          omega
      · have oneBlock : (i - 1) / 48 = 1 := by
          omega
        simp only [wyhashLanes, if_neg isLonger]
        apply
          (block_reads target p fun w0 w1 w2 w3 w4 w5 => Reads.ofValue ?_).congr
        · intro address
          rw [Set.union_empty, oneBlock]
        · rw [oneBlock]
          exact ⟨rfl, rfl⟩

/-- The loop over 16 bytes reads whole blocks and leaves one at most. -/
theorem wyhashPairs_reads
    (target : Target)
    (secret : Secret)
    {fuel i : Nat}
    (p : Nat)
    (isSome : 0 < i)
    (enough : i ≤ fuel)
    (seed : UInt64) :
    Reads (fun memory => wyhashPairs target secret memory fuel p i seed)
      (Set.Ico p (p + 16 * ((i - 1) / 16)))
      (fun left =>
        left.1 = p + 16 * ((i - 1) / 16) ∧
          left.2.1 = i - 16 * ((i - 1) / 16)) := by
  induction fuel generalizing p i seed with
  | zero =>
      omega
  | succ fuel inductionHypothesis =>
      by_cases isLonger : i > 16
      · have blocks : (i - 1) / 16 = (i - 16 - 1) / 16 + 1 := by
          omega
        simp only [wyhashPairs, if_pos isLonger]
        apply
          ((wyr8_reads target p).bind fun w0 _ =>
            (wyr8_reads target (p + 8)).bind fun w1 _ =>
              (inductionHypothesis (p + 16) (by omega) (by omega) _).weaken
                (fun left isLeft => ?_)).congr
        · intro address
          rw [Set.mem_union, Set.mem_union, Set.mem_Ico, Set.mem_Ico,
            Set.mem_Ico, Set.mem_Ico, blocks]
          omega
        · rw [isLeft.1, isLeft.2, blocks]
          omega
      · have noBlock : (i - 1) / 16 = 0 := by
          omega
        simp only [wyhashPairs, if_neg isLonger]
        apply (Reads.ofValue ?_).congr
        · intro address
          rw [noBlock, Nat.mul_zero, Nat.add_zero, Set.Ico_self]
        · rw [noBlock]
          exact ⟨rfl, rfl⟩

/-- The rest of a key and its last 16 bytes are read. -/
theorem wyhashEnd_reads
    (target : Target)
    (secret : Secret)
    {len p i : Nat}
    (isLong : 16 < len)
    (isRest : p + i = len)
    (isSome : 0 < i)
    (seed : UInt64) :
    Reads (fun memory => wyhashEnd target secret memory len p i seed)
      (Set.Ico p len ∪ Set.Ico (len - 16) len) (fun _ => True) := by
  simp only [wyhashEnd]
  apply
    ((wyhashPairs_reads target secret p isSome (by omega) seed).bind
      fun left isLeft => (?_ : Reads _ (Set.Ico (len - 16) len) _)).congr
  · intro address
    simp only [Set.mem_union, Set.mem_Ico]
    omega
  · obtain ⟨p', i', seed'⟩ := left
    obtain ⟨isPlace, isLength⟩ := isLeft
    apply
      ((wyr8_reads target (p' + i' - 16)).bind fun _ _ =>
        (wyr8_reads target (p' + i' - 8)).map fun _ _ => trivial).congr
    intro address
    dsimp only at isPlace isLength
    simp only [Set.mem_union, Set.mem_Ico]
    omega

/-- A key of more than 16 bytes is read whole. -/
theorem wyhashLong_reads
    (target : Target)
    (secret : Secret)
    {len : Nat}
    (isLong : 16 < len)
    (seed : UInt64) :
    Reads (fun memory => wyhashLong target secret memory 0 len seed)
      (Set.Ico 0 len) (fun _ => True) := by
  by_cases isLonger : len > 48
  · simp only [wyhashLong, if_pos isLonger]
    apply
      ((wyhashLanes_reads target secret 0 isLonger (Nat.le_refl len) seed seed
          seed).bind
        fun left isLeft =>
          (?_ :
            Reads _
              (Set.Ico (48 * ((len - 1) / 48)) len ∪ Set.Ico (len - 16) len)
              _)).congr
    · intro address
      simp only [Set.mem_union, Set.mem_Ico]
      omega
    · obtain ⟨p', i', seed'⟩ := left
      obtain ⟨isPlace, isLength⟩ := isLeft
      dsimp only at isPlace isLength
      rw [Nat.zero_add] at isPlace
      subst isPlace
      have isRest : 48 * ((len - 1) / 48) + i' = len := by
        omega
      have isSome : 0 < i' := by
        omega
      exact wyhashEnd_reads target secret isLong isRest isSome seed'
  · simp only [wyhashLong, if_neg isLonger]
    apply
      (wyhashEnd_reads target secret isLong (Nat.zero_add len) (by omega)
        seed).congr
    intro address
    simp only [Set.mem_union, Set.mem_Ico]
    omega

/-- A key is read whole, and nothing else is. -/
theorem wyhash_reads
    (target : Target)
    (len seed : UInt64)
    (secret : Secret) :
    Reads (fun memory => wyhash target memory len seed secret)
      (Set.Ico 0 len.toNat) (fun _ => True) := by
  have isSixteen : len ≤ 16 ↔ len.toNat ≤ 16 :=
    UInt64.le_iff_toNat_le
  by_cases isShort : len ≤ 16
  · simp only [wyhash, if_pos isShort]
    exact (wyhashShort_reads target (isSixteen.mp isShort) _).map
      fun _ _ => trivial
  · simp only [wyhash, if_neg isShort]
    have isLong : 16 < len.toNat :=
      not_le.mp (fun below => isShort (isSixteen.mpr below))
    exact (wyhashLong_reads target secret isLong _).map fun _ _ => trivial

/--
The hash returns exactly when every byte of the key can be read, and depends on
those bytes alone.
-/
theorem wyhash_footprint
    (target : Target)
    (len seed : UInt64)
    (secret : Secret) :
    (∀ memory,
      (∃ hash, wyhash target memory len seed secret = .ok hash) ↔
        ∀ offset < len.toNat, memory offset ≠ none) ∧
    ∀ memory other,
      (∀ offset < len.toNat, memory offset = other offset) →
      wyhash target memory len seed secret =
        wyhash target other len seed secret := by
  have reads := wyhash_reads target len seed secret
  constructor
  · intro memory
    rw [reads.returns]
    exact
      ⟨fun mapped offset inside => mapped offset ⟨Nat.zero_le offset, inside⟩,
        fun mapped offset inside => mapped offset inside.2⟩
  · intro memory other same
    exact reads.dependsOnly memory other
      (fun offset inside => same offset inside.2)

/-! ## The hash of a string -/

/-- The memory holds the string and its terminator. -/
def Holds (memory : Bytes) (string : CString) : Prop :=
  ∀ offset ≤ string.bytes.length,
    memory offset = (string.bytes ++ [0])[offset]?

/-- A memory that holds a string and nothing else. -/
def stringMemory (string : CString) : Bytes :=
  fun offset => (string.bytes ++ [0])[offset]?

/-- The bytes of a string are not zero. -/
theorem Holds.byte
    {memory : Bytes}
    {string : CString}
    (holds : Holds memory string)
    {offset : Nat}
    (inside : offset < string.bytes.length) :
    ∃ byte, memory offset = some byte ∧ byte ≠ 0 := by
  refine ⟨string.bytes[offset], ?_, ?_⟩
  · rw [holds offset (Nat.le_of_lt inside), List.getElem?_append_left inside,
      List.getElem?_eq_getElem inside]
  · intro isZero
    apply string.noTerminator
    rw [← isZero]
    exact List.getElem_mem inside

/-- The byte after those of a string is zero. -/
theorem Holds.terminator
    {memory : Bytes}
    {string : CString}
    (holds : Holds memory string) :
    memory string.bytes.length = some 0 := by
  rw [holds _ (Nat.le_refl _), List.getElem?_append_right (Nat.le_refl _),
    Nat.sub_self]
  rfl

/-- The length of a string that is held. -/
theorem strlen_eq
    {memory : Bytes}
    {string : CString}
    (holds : Holds memory string)
    {fuel p : Nat}
    (isInside : p ≤ string.bytes.length)
    (enough : string.bytes.length - p < fuel) :
    strlen memory fuel p = .ok (UInt64.ofNat string.bytes.length) := by
  induction fuel generalizing p with
  | zero =>
      omega
  | succ fuel inductionHypothesis =>
      rcases Nat.lt_or_eq_of_le isInside with isByte | isEnd
      · obtain ⟨byte, isStored, isNonzero⟩ := holds.byte isByte
        simp only [strlen, Reads.cell, isStored, Checked.ok_bind, if_neg isNonzero]
        exact inductionHypothesis isByte (by omega)
      · subst isEnd
        simp only [strlen, Reads.cell, holds.terminator, Checked.ok_bind,
          ↓reduceIte]

/--
The default hash of a string that memory holds is a function of the string: it
does not depend on the place or on what surrounds it.
-/
theorem fhDefaultHash_function
    (target : Target)
    (seed : UInt64)
    (secret : Secret) :
    ∃ hashFunction : CString → UInt64,
      ∀ string : CString,
        string.bytes.length < 2 ^ 64 →
        ∀ memory fuel,
          Holds memory string →
          string.bytes.length < fuel →
          fhDefaultHash target seed secret memory fuel =
            .ok (hashFunction string) := by
  have single :
      ∀ string : CString,
        ∃ hash,
          string.bytes.length < 2 ^ 64 →
          ∀ memory fuel,
            Holds memory string →
            string.bytes.length < fuel →
            fhDefaultHash target seed secret memory fuel = .ok hash := by
    intro string
    by_cases isEmpty : string.bytes.length = 0
    · refine ⟨1, fun _ memory fuel holds enough => ?_⟩
      have isZero : memory 0 = some 0 := by
        rw [← isEmpty]
        exact holds.terminator
      simp only [fhDefaultHash, Reads.cell, isZero, Checked.ok_bind, ↓reduceIte]
    · by_cases fits : string.bytes.length < 2 ^ 64
      · obtain ⟨returns, dependsOnly⟩ :=
          wyhash_footprint target (UInt64.ofNat string.bytes.length) seed secret
        have isLength :
            (UInt64.ofNat string.bytes.length).toNat = string.bytes.length :=
          UInt64.toNat_ofNat_of_lt' fits
        rw [isLength] at returns dependsOnly
        have own : Holds (stringMemory string) string :=
          fun _ _ => rfl
        obtain ⟨hash, isHash⟩ :=
          (returns (stringMemory string)).mpr
            (fun offset inside => by
              obtain ⟨byte, isStored, -⟩ := own.byte inside
              rw [isStored]
              exact Option.some_ne_none byte)
        refine ⟨hash, fun _ memory fuel holds enough => ?_⟩
        obtain ⟨byte, isStored, isNonzero⟩ :=
          holds.byte (Nat.pos_of_ne_zero isEmpty)
        have hashed :=
          dependsOnly memory (stringMemory string)
            (fun offset inside => holds offset (Nat.le_of_lt inside))
        simp only [fhDefaultHash, Reads.cell, isStored, Checked.ok_bind,
          if_neg isNonzero, strlen_eq holds (Nat.zero_le _) enough]
        rw [hashed, isHash]
      · exact ⟨0, fun isBelow => (fits isBelow).elim⟩
  choose hashFunction isHash using single
  exact ⟨hashFunction, isHash⟩

/-! ## The secret -/

/-- The word is made of bytes of the table, from the lowest one on. -/
def MadeOf (value : UInt64) (bytes : List UInt8) : Prop :=
  value.toNat = fromBytes bytes ∧ ∀ byte ∈ bytes, byte ∈ secretBytes

/-- Every byte of the table has four bits set. -/
theorem secretBytes_balanced :
    ∀ byte ∈ secretBytes, countBits 8 byte.toNat = 4 := by
  decide +kernel

/-- A byte is drawn from the table. -/
theorem drawByte_madeOf
    (target : Target)
    {drawn : UInt64 × UInt64}
    {bytes : List UInt8}
    (isMade : MadeOf drawn.1 bytes)
    (room : bytes.length < 8) :
    ∃ byte,
      MadeOf (drawByte target drawn (UInt64.ofNat (8 * bytes.length))).1
        (bytes ++ [byte]) := by
  obtain ⟨value, seed⟩ := drawn
  obtain ⟨isValue, fromTable⟩ := isMade
  have inTable :
      ∀ index : UInt64,
        secretBytes.getD (index % 70).toNat 0 ∈ secretBytes := by
    intro index
    have below : (index % 70).toNat < secretBytes.length := by
      rw [UInt64.toNat_mod]
      exact Nat.mod_lt _ (by decide)
    rw [List.getD_eq_getElem _ _ below]
    exact List.getElem_mem below
  refine ⟨secretBytes.getD ((wyrand target seed).1 % 70).toNat 0, ?_, ?_⟩
  · generalize isByte : secretBytes.getD ((wyrand target seed).1 % 70).toNat 0 = byte
    have place :
        (UInt64.ofNat (8 * bytes.length)).toNat % 64 = 8 * bytes.length := by
      rw [UInt64.toNat_ofNat']
      omega
    have fits : byte.toNat * 2 ^ (8 * bytes.length) < 2 ^ 64 := by
      calc
        byte.toNat * 2 ^ (8 * bytes.length) < 2 ^ 8 * 2 ^ (8 * bytes.length) :=
          Nat.mul_lt_mul_of_pos_right byte.toNat_lt (Nat.two_pow_pos _)
        _ = 2 ^ (8 + 8 * bytes.length) :=
          (Nat.pow_add 2 8 _).symm
        _ ≤ 2 ^ 64 :=
          Nat.pow_le_pow_right (by decide) (by omega)
    have moved :
        (byte.toUInt64 <<< UInt64.ofNat (8 * bytes.length)).toNat =
          byte.toNat * 2 ^ (8 * bytes.length) := by
      rw [UInt64.toNat_shiftLeft, place, UInt8.toNat_toUInt64, Nat.shiftLeft_eq]
      exact Nat.mod_eq_of_lt fits
    simp only [drawByte, isByte]
    rw [UInt64.toNat_or, moved, isValue, fromBytes_or]
  · intro byte member
    rcases List.mem_append.mp member with isOld | isNew
    · exact fromTable byte isOld
    · rw [List.mem_singleton.mp isNew]
      exact inTable _

/-- After so many draws the word is made of so many bytes. -/
theorem drawBytes_madeOf
    (target : Target)
    (seed : UInt64)
    {count : Nat}
    (room : count ≤ 8) :
    ∃ bytes,
      bytes.length = count ∧
        MadeOf
          (((List.range count).map fun n => UInt64.ofNat (8 * n)).foldl
            (drawByte target) (0, seed)).1
          bytes := by
  induction count with
  | zero =>
      exact ⟨[], rfl, rfl, fun _ member => (List.not_mem_nil member).elim⟩
  | succ count inductionHypothesis =>
      obtain ⟨bytes, isLength, isMade⟩ := inductionHypothesis (by omega)
      obtain ⟨byte, isNext⟩ := drawByte_madeOf target isMade (by omega)
      refine ⟨bytes ++ [byte], by rw [List.length_append, isLength]; rfl, ?_⟩
      rw [List.range_succ, List.map_append, List.foldl_append]
      rw [isLength] at isNext
      exact isNext

/-- A word of a secret: odd, and with four bits set in every byte. -/
structure SecretWord (value : UInt64) : Prop where
  isOdd : value % 2 ≠ 0
  isBalanced :
    ∀ index < 8, countBits 8 (value.toNat / 2 ^ (8 * index) % 256) = 4

/-- A word that is made of eight bytes of the table is balanced. -/
theorem MadeOf.balanced
    {value : UInt64}
    {bytes : List UInt8}
    (isMade : MadeOf value bytes)
    (isWhole : bytes.length = 8)
    {index : Nat}
    (inside : index < 8) :
    countBits 8 (value.toNat / 2 ^ (8 * index) % 256) = 4 := by
  rw [isMade.1, fromBytes_digit,
    List.getD_eq_getElem _ _ (isWhole.symm ▸ inside)]
  exact secretBytes_balanced _ (isMade.2 _ (List.getElem_mem _))

/-- What the loop that draws one word leaves. -/
theorem drawSecret_spec
    {target : Target}
    {i : Fin 4}
    {fuel : Nat}
    {seed seed' : UInt64}
    {secret secret' : Secret}
    (drawn : drawSecret target i fuel seed secret = .ok (seed', secret')) :
    (∀ j ≠ i, secret' j = secret j) ∧
      SecretWord (secret' i) ∧
      ∀ j < i, target.popcount (secret' j ^^^ secret' i) = 32 := by
  induction fuel generalizing seed secret with
  | zero =>
      cases drawn
  | succ fuel inductionHypothesis =>
      have isPlaces :
          bytePlaces = (List.range 8).map fun n => UInt64.ofNat (8 * n) :=
        rfl
      obtain ⟨bytes, isWhole, isMade⟩ :=
        drawBytes_madeOf target seed (Nat.le_refl 8)
      rw [← isPlaces] at isMade
      rw [drawSecret] at drawn
      cases isDrawn : bytePlaces.foldl (drawByte target) (0, seed) with
      | mk value seed'' =>
          rw [isDrawn] at drawn isMade
          have others :
              ∀ j ≠ i, Function.update secret i value j = secret j :=
            fun j isOther => Function.update_of_ne isOther value secret
          have again :
              drawSecret target i fuel seed'' (Function.update secret i value) =
                .ok (seed', secret') →
              (∀ j ≠ i, secret' j = secret j) ∧
                SecretWord (secret' i) ∧
                ∀ j < i, target.popcount (secret' j ^^^ secret' i) = 32 := by
            intro repeated
            obtain ⟨kept, accepted⟩ := inductionHypothesis repeated
            exact
              ⟨fun j isOther => (kept j isOther).trans (others j isOther),
                accepted⟩
          dsimp only at drawn
          rw [Function.update_self] at drawn
          by_cases isEven : value % 2 = 0
          · rw [if_pos isEven] at drawn
            exact again drawn
          · rw [if_neg isEven] at drawn
            by_cases isNear :
                ((List.finRange 4).any fun j =>
                  j < i &&
                    target.popcount
                        (Function.update secret i value j ^^^ value) != 32) = true
            · rw [if_pos isNear] at drawn
              exact again drawn
            · rw [if_neg isNear] at drawn
              cases drawn
              refine ⟨others, ⟨?_, ?_⟩, ?_⟩
              · rw [Function.update_self]
                exact isEven
              · rw [Function.update_self]
                exact fun index inside => isMade.balanced isWhole inside
              · intro j isBefore
                rw [Function.update_self]
                by_contra isOff
                apply isNear
                rw [List.any_eq_true]
                exact ⟨j, List.mem_finRange j, by simp [isBefore, isOff]⟩

/-- The words before a place are finished. -/
structure SecretUpTo
    (target : Target)
    (count : Nat)
    (secret : Secret) : Prop where
  words : ∀ i : Fin 4, i.val < count → SecretWord (secret i)
  apart :
    ∀ i j : Fin 4, i.val < count → j < i →
      target.popcount (secret j ^^^ secret i) = 32

/-- Drawing the next word finishes it and leaves the words before it. -/
theorem SecretUpTo.drawSecret
    {target : Target}
    {i : Fin 4}
    {fuel : Nat}
    {drawn drawn' : UInt64 × Secret}
    (upTo : SecretUpTo target i.val drawn.2)
    (step : drawSecret target i fuel drawn.1 drawn.2 = .ok drawn') :
    SecretUpTo target (i.val + 1) drawn'.2 := by
  obtain ⟨seed', secret'⟩ := drawn'
  obtain ⟨kept, isWord, isApart⟩ := drawSecret_spec step
  constructor
  · intro k isBelow
    by_cases isNew : k = i
    · rw [isNew]
      exact isWord
    · have same : secret' k = drawn.2 k := kept k isNew
      change SecretWord (secret' k)
      rw [same]
      exact upTo.words k (by omega)
  · intro k j isBelow isBefore
    by_cases isNew : k = i
    · subst isNew
      exact isApart j isBefore
    · have isOld : j ≠ i := by
        intro same
        subst same
        omega
      have sameK : secret' k = drawn.2 k := kept k isNew
      have sameJ : secret' j = drawn.2 j := kept j isOld
      change target.popcount (secret' j ^^^ secret' k) = 32
      rw [sameK, sameJ]
      exact upTo.apart k j (by omega) isBefore

/-- The places of a secret, in the order of the loop. -/
theorem finRange_four :
    List.finRange 4 = [0, 1, 2, 3] :=
  rfl

/-- Bits are counted at most once each. -/
theorem countBits_le
    (count x : Nat) :
    countBits count x ≤ count := by
  induction count generalizing x with
  | zero =>
      exact Nat.le_refl 0
  | succ count inductionHypothesis =>
      have rest := inductionHypothesis (x / 2)
      rw [countBits]
      omega

/-- The compiler's population count counts the bits. -/
theorem toNat_popcountll
    (x : UInt64) :
    (popcountll x).toNat = countBits 64 x.toNat := by
  have atMost := countBits_le 64 x.toNat
  rw [popcountll, UInt64.toNat_ofNat']
  exact Nat.mod_eq_of_lt (by omega)

/-- Drawing a word reads no word of the secret that was not drawn before. -/
theorem drawSecret_agree
    (target : Target)
    (i : Fin 4)
    (fuel : Nat)
    (seed : UInt64)
    {secret other : Secret}
    (same : ∀ j < i, secret j = other j) :
    Checked.Agree
      (fun drawn drawn' => drawn.1 = drawn'.1 ∧ ∀ j ≤ i, drawn.2 j = drawn'.2 j)
      (drawSecret target i fuel seed secret)
      (drawSecret target i fuel seed other) := by
  induction fuel generalizing seed secret other with
  | zero =>
      exact .error .divergence
  | succ fuel inductionHypothesis =>
      rw [drawSecret, drawSecret]
      cases bytePlaces.foldl (drawByte target) (0, seed) with
      | mk value seed' =>
          have updated :
              ∀ j ≤ i,
                Function.update secret i value j =
                  Function.update other i value j := by
            intro j isBelow
            by_cases isHere : j = i
            · rw [isHere, Function.update_self, Function.update_self]
            · rw [Function.update_of_ne isHere, Function.update_of_ne isHere]
              exact same j
                (Nat.lt_of_le_of_ne isBelow fun isSame => isHere (Fin.ext isSame))
          have again :=
            inductionHypothesis seed' (fun j isBefore => updated j (Fin.le_of_lt isBefore))
          have sameTests :
              ∀ j : Fin 4,
                (j < i &&
                    target.popcount
                        (Function.update secret i value j ^^^ value) != 32) =
                  (j < i &&
                    target.popcount
                        (Function.update other i value j ^^^ value) != 32) := by
            intro j
            by_cases isBefore : j < i
            · rw [updated j (Fin.le_of_lt isBefore)]
            · simp [isBefore]
          dsimp only
          rw [Function.update_self, Function.update_self]
          by_cases isEven : value % 2 = 0
          · rw [if_pos isEven, if_pos isEven]
            exact again
          · rw [if_neg isEven, if_neg isEven, funext sameTests]
            by_cases isNear :
                ((List.finRange 4).any fun j =>
                  j < i &&
                    target.popcount
                        (Function.update other i value j ^^^ value) != 32) = true
            · rw [if_pos isNear, if_pos isNear]
              exact again
            · rw [if_neg isNear, if_neg isNear]
              exact .ok ⟨rfl, updated⟩

/-- What the array of a secret held before does not matter. -/
theorem makeSecret_initial
    (target : Target)
    (fuel : Nat)
    (seed : UInt64)
    (initial other : Secret) :
    makeSecret target fuel seed initial = makeSecret target fuel seed other := by
  have next :
      ∀ (i : Fin 4) (drawn drawn' : UInt64 × Secret),
        (drawn.1 = drawn'.1 ∧ ∀ j < i, drawn.2 j = drawn'.2 j) →
        Checked.Agree
          (fun after after' => after.1 = after'.1 ∧ ∀ j ≤ i, after.2 j = after'.2 j)
          (drawSecret target i fuel drawn.1 drawn.2)
          (drawSecret target i fuel drawn'.1 drawn'.2) := by
    rintro i ⟨seed, secret⟩ ⟨seed', other⟩ ⟨isSeed, isSame⟩
    cases isSeed
    exact drawSecret_agree target i fuel seed isSame
  have all :
      Checked.Agree
        (fun after after' => after.1 = after'.1 ∧ ∀ j ≤ 3, after.2 j = after'.2 j)
        ((List.finRange 4).foldlM
          (fun drawn i => drawSecret target i fuel drawn.1 drawn.2) (seed, initial))
        ((List.finRange 4).foldlM
          (fun drawn i => drawSecret target i fuel drawn.1 drawn.2)
          (seed, other)) := by
    rw [finRange_four]
    simp only [List.foldlM_cons, List.foldlM_nil]
    apply
      (next 0 (seed, initial) (seed, other)
        ⟨rfl, fun _ isBefore => absurd isBefore (Fin.not_lt_zero _)⟩).bind
    intro first first' isFirst
    apply (next 1 _ _ ⟨isFirst.1, fun j isBefore => isFirst.2 j (by omega)⟩).bind
    intro second second' isSecond
    apply (next 2 _ _ ⟨isSecond.1, fun j isBefore => isSecond.2 j (by omega)⟩).bind
    intro third third' isThird
    apply (next 3 _ _ ⟨isThird.1, fun j isBefore => isThird.2 j (by omega)⟩).bind
    intro fourth fourth' isFourth
    exact .ok isFourth
  rw [makeSecret, makeSecret]
  revert all
  generalize
    (List.finRange 4).foldlM
      (fun drawn i => drawSecret target i fuel drawn.1 drawn.2) (seed, initial) =
        looped
  generalize
    (List.finRange 4).foldlM
      (fun drawn i => drawSecret target i fuel drawn.1 drawn.2) (seed, other) =
        looped'
  intro all
  cases all with
  | error fault =>
      rfl
  | ok related =>
      exact congrArg Except.ok (funext fun j => related.2 j (by omega))

/--
Every word of a secret is odd and has four bits set in each of its bytes, two
words differ in 32 bits, and what the array held before does not matter.
-/
theorem makeSecret_words
    {fuel : Nat}
    {seed : UInt64}
    {initial secret : Secret}
    (made : makeSecret wideTarget fuel seed initial = .ok secret) :
    (∀ i, SecretWord (secret i)) ∧
      (∀ i j, i ≠ j → countBits 64 (secret i ^^^ secret j).toNat = 32) ∧
      ∀ other, makeSecret wideTarget fuel seed other = .ok secret := by
  have anyInitial :
      ∀ other, makeSecret wideTarget fuel seed other = .ok secret := by
    intro other
    rw [← made]
    exact makeSecret_initial wideTarget fuel seed other initial
  rw [makeSecret, finRange_four] at made
  obtain ⟨last, looped, isSecret⟩ := Checked.bind_eq_ok.mp made
  cases isSecret
  rw [List.foldlM_cons] at looped
  obtain ⟨first, isFirst, looped⟩ := Checked.bind_eq_ok.mp looped
  rw [List.foldlM_cons] at looped
  obtain ⟨second, isSecond, looped⟩ := Checked.bind_eq_ok.mp looped
  rw [List.foldlM_cons] at looped
  obtain ⟨third, isThird, looped⟩ := Checked.bind_eq_ok.mp looped
  rw [List.foldlM_cons] at looped
  obtain ⟨fourth, isFourth, looped⟩ := Checked.bind_eq_ok.mp looped
  cases looped
  have none : SecretUpTo wideTarget (0 : Fin 4).val (seed, initial).2 :=
    ⟨fun _ isBelow => absurd isBelow (Nat.not_lt_zero _),
      fun _ _ isBelow => absurd isBelow (Nat.not_lt_zero _)⟩
  have one := SecretUpTo.drawSecret none isFirst
  have two := SecretUpTo.drawSecret one isSecond
  have three := SecretUpTo.drawSecret two isThird
  have four := SecretUpTo.drawSecret three isFourth
  have isApart :
      ∀ i j : Fin 4, j < i → countBits 64 (last.2 j ^^^ last.2 i).toNat = 32 := by
    intro i j isBefore
    have counted := four.apart i j i.isLt isBefore
    rw [← toNat_popcountll]
    exact congrArg UInt64.toNat counted
  refine ⟨fun i => four.words i i.isLt, ?_, anyInitial⟩
  · intro i j isOther
    rcases Nat.lt_or_gt_of_ne (fun same => isOther (Fin.ext same)) with
      isBefore | isAfter
    · exact isApart j i isBefore
    · rw [UInt64.xor_comm]
      exact isApart i j isAfter

/-- A seed whose first draws are all accepted. -/
theorem makeSecret_words_accepted :
    ∃ secret,
      makeSecret wideTarget 1 11981 (fun _ => 0) = .ok secret ∧
        secret 0 = 0x630fe86a4be8d155 ∧
        (∀ i, SecretWord (secret i)) ∧
        (∀ i j, i ≠ j → countBits 64 (secret i ^^^ secret j).toNat = 32) ∧
        ∀ other, makeSecret wideTarget 1 11981 other = .ok secret := by
  have isFirst :
      (fun secret : Secret => secret 0) <$>
          makeSecret wideTarget 1 11981 (fun _ => 0) =
        .ok 0x630fe86a4be8d155 := by
    decide +kernel
  obtain ⟨secret, made, isWord⟩ := Checked.map_eq_ok.mp isFirst
  exact ⟨secret, made, isWord, makeSecret_words made⟩

end Clibs.Fh
