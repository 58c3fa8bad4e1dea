import Clibs.Fh.Table
import Mathlib.Data.List.Basic
import Mathlib.Data.List.TakeWhile
import Mathlib.Tactic.Common

namespace Clibs.Fh

/-!
# What `fh_search` writes into the caller's buffer

For a table of strings `fh_search` writes exactly as many bytes as the buffer
has, and leaves no room for the terminator of a string that fills it.  For a
table of objects of a fixed size it writes the whole object and does not look at
the size of the buffer.
-/

/-- A buffer reads as a terminated string that begins the string. -/
def ReadsAsPrefix
    (buffer string : List UInt8) : Prop :=
  0 ∈ buffer ∧ untilTerminator buffer <+: string

/--
The bytes written lie in a buffer of the given size, and leave there a prefix of
the string, if the object is one: the whole string when it is shorter.
-/
def RespectsBuffer
    (datalen : Int)
    (object : OpaqueObj)
    (blockSize : Int)
    (written : List UInt8) : Prop :=
  written.length ≤ blockSize ∧
    (datalen = fhDatalenString →
      ReadsAsPrefix written (untilTerminator object.bytes) ∧
        ((untilTerminator object.bytes).length < blockSize →
          untilTerminator written = untilTerminator object.bytes))

/-- The buffer has room for the object, or for the string and its terminator. -/
def FitsBuffer
    (datalen : Int)
    (object : OpaqueObj)
    (blockSize : Int) : Prop :=
  if datalen = fhDatalenString then
    (untilTerminator object.bytes).length < blockSize
  else
    datalen ≤ blockSize

section Bytes

variable {bytes : List UInt8} {count : Nat}

@[simp] theorem length_memcpy
    (count : Nat)
    (bytes : List UInt8) :
    (memcpy count bytes).length = count := by
  simp [memcpy]

/-- The bytes that are copied, and zeros behind the object. -/
theorem memcpy_eq
    (count : Nat)
    (bytes : List UInt8) :
    memcpy count bytes =
      bytes.take count ++ List.replicate (count - bytes.length) 0 := by
  apply List.ext_getElem
  · simp [memcpy]
    omega
  · intro position isBefore _
    rw [length_memcpy] at isBefore
    rw [List.getElem_append]
    split
    next inside =>
      simp only [List.length_take] at inside
      simp [memcpy, List.getElem?_eq_getElem (show position < bytes.length by omega)]
    next outside =>
      simp only [List.length_take] at outside
      simp [memcpy, List.getElem?_eq_none (show bytes.length ≤ position by omega)]

/-- No byte before the terminator is zero. -/
theorem terminator_notMem
    (bytes : List UInt8) :
    0 ∉ untilTerminator bytes := by
  intro member
  have notZero := List.mem_takeWhile_imp member
  simp at notZero

/-- A string and zeros behind it read as the string. -/
theorem untilTerminator_append_zeros
    (clean : 0 ∉ bytes)
    (zeros : Nat) :
    untilTerminator (bytes ++ List.replicate zeros 0) = bytes := by
  rw [untilTerminator, List.takeWhile_append_of_pos]
  · cases zeros with
    | zero =>
        simp
    | succ zeros =>
        simp [List.replicate_succ]
  · intro byte member
    simp only [decide_eq_true_eq]
    rintro rfl
    exact clean member

/-- `strncpy` of a string that is shorter than the buffer, and terminated. -/
theorem strncpy_short
    (short : (untilTerminator bytes).length < count) :
    0 ∈ strncpy bytes count ∧
      untilTerminator (strncpy bytes count) = untilTerminator bytes := by
  have copied :
      strncpy bytes count =
        untilTerminator bytes ++
          List.replicate (count - (untilTerminator bytes).length) 0 := by
    rw [strncpy, memcpy_eq, List.take_of_length_le (Nat.le_of_lt short)]
  rw [copied]
  constructor
  · apply List.mem_append_right
    rw [List.mem_replicate]
    exact ⟨by omega, rfl⟩
  · exact untilTerminator_append_zeros (terminator_notMem bytes) _

/-- `strncpy` of a string that fills the buffer leaves no terminator. -/
theorem strncpy_full
    (full : count ≤ (untilTerminator bytes).length) :
    0 ∉ strncpy bytes count := by
  have copied : strncpy bytes count = (untilTerminator bytes).take count := by
    rw [strncpy, memcpy_eq, Nat.sub_eq_zero_of_le full, List.replicate_zero,
      List.append_nil]
  rw [copied]
  exact fun member => terminator_notMem bytes (List.mem_of_mem_take member)

end Bytes

section Search

variable {fh : FhT}
  {key : CString}
  {blockSize : Int}

/-- The copying fails only for a negative size. -/
theorem copyOut_error
    {datalen : Int}
    {object : Option OpaqueObj}
    {code : Int}
    (fails : copyOut datalen object blockSize = .error code) :
    code = fhDimInvalid ∧ blockSize < 0 := by
  unfold copyOut at fails
  cases object with
  | none =>
      cases fails
  | some object =>
      simp only at fails
      split_ifs at fails with _ _ isNegative
      cases fails
      exact ⟨rfl, isNegative⟩

/-- A search that succeeds copies the object that `fh_get` returns. -/
theorem copyOut_of_search
    {next got : FhT}
    {code : Int}
    {written : List UInt8}
    {object : OpaqueObj}
    (searches :
      fhSearch fh (some key) true blockSize = .ok (next, code, written))
    (success : 0 ≤ code)
    (gets : fhGet fh (some key) = .ok (got, some object, fhOk)) :
    copyOut fh.table.hDatalen (some object) blockSize = .ok written := by
  unfold fhGet at gets
  unfold fhSearch at searches
  split at gets
  next =>
    cases gets
  next isMagic =>
    rw [if_neg isMagic] at searches
    simp only [Bool.true_eq_false, if_false] at searches
    obtain ⟨_, _, gets⟩ := Checked.bind_eq_ok.mp gets
    obtain ⟨found, finds, gets⟩ := Checked.bind_eq_ok.mp gets
    obtain ⟨_, _, gets⟩ := Checked.bind_eq_ok.mp gets
    split at searches
    next =>
      cases searches
      exact absurd success (by decide)
    next =>
      obtain ⟨_, _, searches⟩ := Checked.bind_eq_ok.mp searches
      obtain ⟨foundToo, findsToo, searches⟩ := Checked.bind_eq_ok.mp searches
      obtain ⟨_, _, searches⟩ := Checked.bind_eq_ok.mp searches
      cases finds.symm.trans findsToo
      cases found with
      | none =>
          cases gets
      | some slot =>
          have isObject : slot.opaqueObj = some object := by
            simp only [Except.ok.injEq, Prod.mk.injEq] at gets
            exact gets.2.1
          simp only [isObject] at searches
          cases copies : copyOut fh.table.hDatalen (some object) blockSize with
          | error failure =>
              simp only [copies] at searches
              cases searches
              rw [(copyOut_error copies).1] at success
              exact absurd success (by decide)
          | ok bytes =>
              simp only [copies] at searches
              cases searches
              rfl

end Search

/--
A search that succeeds respects the caller's buffer exactly when the buffer has
room for the object, or for the string and its terminator.
-/
theorem fh_search_respects_buffer_iff
    (fh : FhT)
    (key : CString)
    (blockSize : Int)
    (positive : 1 ≤ blockSize)
    (isMode : fh.table.hDatalen = fhDatalenString ∨ 0 < fh.table.hDatalen)
    (next got : FhT)
    (code : Int)
    (written : List UInt8)
    (object : OpaqueObj)
    (searches :
      fhSearch fh (some key) true blockSize = .ok (next, code, written))
    (success : 0 ≤ code)
    (gets : fhGet fh (some key) = .ok (got, some object, fhOk)) :
    RespectsBuffer fh.table.hDatalen object blockSize written ↔
      FitsBuffer fh.table.hDatalen object blockSize := by
  have copies := copyOut_of_search searches success gets
  rcases isMode with isString | isFixed
  · have notFixed : ¬ 0 < fh.table.hDatalen := by
      rw [isString]
      decide
    simp only [copyOut, if_neg notFixed, if_pos isString,
      if_neg (show ¬ blockSize < 0 by omega)] at copies
    cases copies
    rw [FitsBuffer, if_pos isString, RespectsBuffer]
    constructor
    · rintro ⟨-, respects⟩
      obtain ⟨⟨terminated, -⟩, -⟩ := respects isString
      by_contra full
      exact strncpy_full (by omega) terminated
    · intro short
      have hasRoom :
          (untilTerminator object.bytes).length < blockSize.toNat := by
        omega
      obtain ⟨terminated, reads⟩ := strncpy_short hasRoom
      refine ⟨?_, fun _ => ⟨⟨terminated, ?_⟩, fun _ => reads⟩⟩
      · rw [strncpy, length_memcpy]
        omega
      · rw [reads]
  · have notString : fh.table.hDatalen ≠ fhDatalenString := by
      intro isString
      rw [isString] at isFixed
      exact absurd isFixed (by decide)
    simp only [copyOut, if_pos isFixed] at copies
    cases copies
    rw [FitsBuffer, if_neg notString, RespectsBuffer, length_memcpy]
    constructor
    · rintro ⟨respects, -⟩
      omega
    · intro fits
      exact ⟨by omega, fun isString => (notString isString).elim⟩

/-- A buffer of three bytes takes the two bytes of a string and its terminator. -/
theorem fh_search_respects_buffer_string :
    ∃ created fh next,
      fhCreate 1 fhDatalenString (fun _ => 7) .all = .ok (some created) ∧
        fhInsert created (some ⟨[97], by decide⟩)
            (some
              { address := 1
                bytes := [98, 99, 0] })
            .all =
          .ok (fh, 0) ∧
        fhSearch fh (some ⟨[97], by decide⟩) true 3 =
          .ok (next, 0, [98, 99, 0]) ∧
        RespectsBuffer fh.table.hDatalen (.copy [98, 99]) 3 [98, 99, 0] := by
  refine ⟨_, _, _, rfl, rfl, rfl, ?_⟩
  exact
    (fh_search_respects_buffer_iff _ ⟨[97], by decide⟩ 3 (by decide) (.inl rfl)
      _ _ 0 _ (.copy [98, 99]) rfl (by decide) rfl).mpr
    (show (2 : Int) < 3 by decide)

/--
A string that fills the buffer is left without a terminator, and an object of
eight bytes is written over a buffer of four.
-/
theorem fh_search_overruns_buffer :
    (∃ created fh next got,
      fhCreate 1 fhDatalenString (fun _ => 7) .all = .ok (some created) ∧
        fhInsert created (some ⟨[97], by decide⟩)
            (some
              { address := 1
                bytes := [98, 99, 0] })
            .all =
          .ok (fh, 0) ∧
        fhGet fh (some ⟨[97], by decide⟩) =
          .ok (got, some (.copy [98, 99]), fhOk) ∧
        fhSearch fh (some ⟨[97], by decide⟩) true 2 =
          .ok (next, 0, [98, 99]) ∧
        ¬ RespectsBuffer fhDatalenString (.copy [98, 99]) 2 [98, 99]) ∧
      ∃ created fh next got,
        fhCreate 1 8 (fun _ => 7) .all = .ok (some created) ∧
          fhInsert created (some ⟨[97], by decide⟩)
              (some
                { address := 1
                  bytes := [1, 2, 3, 4, 5, 6, 7, 8] })
              .all =
            .ok (fh, 0) ∧
          fhGet fh (some ⟨[97], by decide⟩) =
            .ok (got, some (.copy [1, 2, 3, 4, 5, 6, 7, 8]), fhOk) ∧
          fhSearch fh (some ⟨[97], by decide⟩) true 4 =
            .ok (next, 0, [1, 2, 3, 4, 5, 6, 7, 8]) ∧
          ¬ RespectsBuffer 8 (.copy [1, 2, 3, 4, 5, 6, 7, 8]) 4
              [1, 2, 3, 4, 5, 6, 7, 8] := by
  constructor
  · refine ⟨_, _, _, _, rfl, rfl, rfl, rfl, ?_⟩
    rintro ⟨-, respects⟩
    obtain ⟨⟨terminated, -⟩, -⟩ := respects rfl
    simp at terminated
  · refine ⟨_, _, _, _, rfl, rfl, rfl, rfl, ?_⟩
    rintro ⟨respects, -⟩
    exact absurd respects (by decide)

end Clibs.Fh
