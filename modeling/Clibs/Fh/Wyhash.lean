import Clibs.Foundation.ByteFields
import Clibs.Foundation.CString
import Clibs.Foundation.Footprint
import Mathlib.Data.Vector.Basic

namespace Clibs.Fh

/-!
# The default hash

`fh_default_hash` is wyhash with a secret drawn from the time of creation.  The
header has one text for compilers with a 128-bit integer and a population count
and one without, and one text for each byte order; `Target` holds what differs.
-/

/-- The low and the high word of a product, where 128-bit integers exist. -/
def wymum (a b : UInt64) : UInt64 × UInt64 :=
  let r := a.toNat * b.toNat
  (UInt64.ofNat r, UInt64.ofNat (r >>> 64))

/-- The low and the high word of a product, from products of half words. -/
def wymumHalves (a b : UInt64) : UInt64 × UInt64 :=
  let ha := a >>> 32
  let hb := b >>> 32
  let la := a.toUInt32.toUInt64
  let lb := b.toUInt32.toUInt64
  let rh := ha * hb
  let rm0 := ha * lb
  let rm1 := hb * la
  let rl := la * lb
  let t := rl + (rm0 <<< 32)
  let c : UInt64 := if t < rl then 1 else 0
  let lo := t + (rm1 <<< 32)
  let c := c + if lo < t then 1 else 0
  let hi := rh + (rm0 >>> 32) + (rm1 >>> 32) + c
  (lo, hi)

/-- The compiler's population count. -/
def popcountll (x : UInt64) : UInt64 :=
  UInt64.ofNat (countBits 64 x.toNat)

/-- The population count by masks, shifts and one product. -/
def manualPopcount (x : UInt64) : UInt64 :=
  let ones : UInt64 := 0x5555555555555555
  let pairs : UInt64 := 0x3333333333333333
  let halves : UInt64 := 0x0f0f0f0f0f0f0f0f
  let x := x - ((x >>> 1) &&& ones)
  let x := (x &&& pairs) + ((x >>> 2) &&& pairs)
  let x := (x + (x >>> 4)) &&& halves
  (x * 0x0101010101010101) >>> 56

/-- The number whose digits in base 256 are the bytes, the least one first. -/
def fromBytes : List UInt8 → Nat
  | [] =>
      0
  | byte :: rest =>
      byte.toNat + 256 * fromBytes rest

/-- A word that little endian hardware loads. -/
def loadLittle (bytes : List UInt8) : UInt64 :=
  UInt64.ofNat (fromBytes bytes)

/-- A word that big endian hardware loads. -/
def loadBig (bytes : List UInt8) : UInt64 :=
  UInt64.ofNat (fromBytes bytes.reverse)

/-- The bytes of an eight byte word in reverse order. -/
def swapWord8 (v : UInt64) : UInt64 :=
  ((v >>> 56) &&& (0xff : UInt64)) |||
    ((v >>> 40) &&& (0xff00 : UInt64)) |||
    ((v >>> 24) &&& (0xff0000 : UInt64)) |||
    ((v >>> 8) &&& (0xff000000 : UInt64)) |||
    ((v <<< 8) &&& (0xff00000000 : UInt64)) |||
    ((v <<< 24) &&& (0xff0000000000 : UInt64)) |||
    ((v <<< 40) &&& (0xff000000000000 : UInt64)) |||
    ((v <<< 56) &&& (0xff00000000000000 : UInt64))

/-- The bytes of a four byte word in reverse order. -/
def swapWord4 (v : UInt32) : UInt32 :=
  ((v >>> 24) &&& (0xff : UInt32)) |||
    ((v >>> 8) &&& (0xff00 : UInt32)) |||
    ((v <<< 8) &&& (0xff0000 : UInt32)) |||
    ((v <<< 24) &&& (0xff000000 : UInt32))

/-- What the header's text depends on. -/
structure Target where
  mum : UInt64 → UInt64 → UInt64 × UInt64
  popcount : UInt64 → UInt64
  word8 : List.Vector UInt8 8 → UInt64
  word4 : List.Vector UInt8 4 → UInt64

/-- A little endian machine with 128-bit integers and a population count. -/
def wideTarget : Target where
  mum := wymum
  popcount := popcountll
  word8 bytes := loadLittle bytes.toList
  word4 bytes := loadLittle bytes.toList

/-- A little endian machine without them. -/
def narrowTarget : Target where
  mum := wymumHalves
  popcount := manualPopcount
  word8 bytes := loadLittle bytes.toList
  word4 bytes := loadLittle bytes.toList

/-- A big endian machine without them. -/
def bigEndianTarget : Target where
  mum := wymumHalves
  popcount := manualPopcount
  word8 bytes := swapWord8 (loadBig bytes.toList)
  word4 bytes := (swapWord4 (loadBig bytes.toList).toUInt32).toUInt64

/-- The bytes that can be read from a key on, by their distance from it. -/
abbrev Bytes :=
  Nat → Option UInt8

/-- `memcpy` of so many bytes. -/
def loadBytes (memory : Bytes) :
    Nat → (count : Nat) → Checked (List.Vector UInt8 count)
  | _, 0 =>
      .ok List.Vector.nil
  | p, count + 1 => do
      let byte ← Reads.cell p memory
      let rest ← loadBytes memory (p + 1) count
      .ok (List.Vector.cons byte rest)

def wyr8 (target : Target) (memory : Bytes) (p : Nat) : Checked UInt64 := do
  let v ← loadBytes memory p 8
  .ok (target.word8 v)

def wyr4 (target : Target) (memory : Bytes) (p : Nat) : Checked UInt64 := do
  let v ← loadBytes memory p 4
  .ok (target.word4 v)

def wyr3 (memory : Bytes) (p k : Nat) : Checked UInt64 := do
  let first ← Reads.cell p memory
  let middle ← Reads.cell (p + (k >>> 1)) memory
  let last ← Reads.cell (p + k - 1) memory
  .ok ((first.toUInt64 <<< 16) ||| (middle.toUInt64 <<< 8) ||| last.toUInt64)

/-- The multiply and xor mix function. -/
def wymix (target : Target) (a b : UInt64) : UInt64 :=
  let r := target.mum a b
  r.1 ^^^ r.2

/-- The four words of a secret. -/
abbrev Secret :=
  Fin 4 → UInt64

/-- The last two words that are hashed, and the seed, for up to 16 bytes. -/
def wyhashShort
    (target : Target)
    (memory : Bytes)
    (p len : Nat)
    (seed : UInt64) : Checked (UInt64 × UInt64 × UInt64) :=
  if len ≥ 4 then do
    let a0 ← wyr4 target memory p
    let a1 ← wyr4 target memory (p + ((len >>> 3) <<< 2))
    let b0 ← wyr4 target memory (p + len - 4)
    let b1 ← wyr4 target memory (p + len - 4 - ((len >>> 3) <<< 2))
    .ok ((a0 <<< 32) ||| a1, (b0 <<< 32) ||| b1, seed)
  else if len > 0 then do
    let a ← wyr3 memory p len
    .ok (a, 0, seed)
  else
    .ok (0, 0, seed)

/-- The loop over blocks of 48 bytes, which ends with the seeds joined. -/
def wyhashLanes
    (target : Target)
    (secret : Secret)
    (memory : Bytes) :
    Nat → Nat → Nat → UInt64 → UInt64 → UInt64 →
      Checked (Nat × Nat × UInt64)
  | 0, _, _, _, _, _ =>
      .error .divergence
  | fuel + 1, p, i, seed, see1, see2 => do
      let w0 ← wyr8 target memory p
      let w1 ← wyr8 target memory (p + 8)
      let w2 ← wyr8 target memory (p + 16)
      let w3 ← wyr8 target memory (p + 24)
      let w4 ← wyr8 target memory (p + 32)
      let w5 ← wyr8 target memory (p + 40)
      let seed := wymix target (w0 ^^^ secret 1) (w1 ^^^ seed)
      let see1 := wymix target (w2 ^^^ secret 2) (w3 ^^^ see1)
      let see2 := wymix target (w4 ^^^ secret 3) (w5 ^^^ see2)
      if i - 48 > 48 then
        wyhashLanes target secret memory fuel (p + 48) (i - 48) seed see1 see2
      else
        .ok (p + 48, i - 48, seed ^^^ (see1 ^^^ see2))

/-- The loop over blocks of 16 bytes. -/
def wyhashPairs
    (target : Target)
    (secret : Secret)
    (memory : Bytes) :
    Nat → Nat → Nat → UInt64 → Checked (Nat × Nat × UInt64)
  | 0, _, _, _ =>
      .error .divergence
  | fuel + 1, p, i, seed =>
      if i > 16 then do
        let w0 ← wyr8 target memory p
        let w1 ← wyr8 target memory (p + 8)
        let seed := wymix target (w0 ^^^ secret 1) (w1 ^^^ seed)
        wyhashPairs target secret memory fuel (p + 16) (i - 16) seed
      else
        .ok (p, i, seed)

/-- The loop over 16 bytes and the last two words that are hashed. -/
def wyhashEnd
    (target : Target)
    (secret : Secret)
    (memory : Bytes)
    (len p i : Nat)
    (seed : UInt64) : Checked (UInt64 × UInt64 × UInt64) := do
  let (p, i, seed) ← wyhashPairs target secret memory len p i seed
  let a ← wyr8 target memory (p + i - 16)
  let b ← wyr8 target memory (p + i - 8)
  .ok (a, b, seed)

/-- The last two words that are hashed, and the seed, for more than 16 bytes. -/
def wyhashLong
    (target : Target)
    (secret : Secret)
    (memory : Bytes)
    (p len : Nat)
    (seed : UInt64) : Checked (UInt64 × UInt64 × UInt64) := do
  let (p, i, seed) ←
    if len > 48 then
      wyhashLanes target secret memory len p len seed seed seed
    else
      .ok (p, len, seed)
  wyhashEnd target secret memory len p i seed

def wyhash
    (target : Target)
    (memory : Bytes)
    (len : UInt64)
    (seed : UInt64)
    (secret : Secret) : Checked UInt64 := do
  let seed := seed ^^^ wymix target (seed ^^^ secret 0) (secret 1)
  let (a, b, seed) ←
    if len ≤ 16 then
      wyhashShort target memory 0 len.toNat seed
    else
      wyhashLong target secret memory 0 len.toNat seed
  let a := a ^^^ secret 1
  let b := b ^^^ seed
  let (a, b) := target.mum a b
  .ok (wymix target (a ^^^ secret 0 ^^^ len) (b ^^^ secret 1))

/-- The next random word, and the seed for the one after it. -/
def wyrand (target : Target) (seed : UInt64) : UInt64 × UInt64 :=
  let seed := seed + 0xa0761d6478bd642f
  (wymix target seed (seed ^^^ 0xe7037ed1a0b428db), seed)

/-- The bytes that a secret is made of. -/
def secretBytes : List UInt8 :=
  [15, 23, 27, 29, 30, 39, 43, 45, 46, 51, 53, 54, 57, 58, 60, 71, 75, 77, 78,
    83, 85, 86, 89, 90, 92, 99, 101, 102, 105, 106, 108, 113, 114, 116, 120, 135,
    139, 141, 142, 147, 149, 150, 153, 154, 156, 163, 165, 166, 169, 170, 172,
    177, 178, 180, 184, 195, 197, 198, 201, 202, 204, 209, 210, 212, 216, 225,
    226, 228, 232, 240]

/-- The places of the bytes of a word. -/
def bytePlaces : List UInt64 :=
  [0, 8, 16, 24, 32, 40, 48, 56]

/-- One byte of a secret is drawn and put at its place. -/
def drawByte
    (target : Target)
    (drawn : UInt64 × UInt64)
    (j : UInt64) : UInt64 × UInt64 :=
  let (value, seed) := drawn
  let (random, seed) := wyrand target seed
  let byte := secretBytes.getD (random % 70).toNat 0
  (value ||| (byte.toUInt64 <<< j), seed)

/-- The loop that draws one word of a secret until it is accepted. -/
def drawSecret
    (target : Target)
    (i : Fin 4) :
    Nat → UInt64 → Secret → Checked (UInt64 × Secret)
  | 0, _, _ =>
      .error .divergence
  | fuel + 1, seed, secret =>
      let (value, seed) := bytePlaces.foldl (drawByte target) (0, seed)
      let secret := Function.update secret i value
      if secret i % 2 = 0 then
        drawSecret target i fuel seed secret
      else if
          (List.finRange 4).any fun j =>
            j < i && target.popcount (secret j ^^^ secret i) != 32 then
        drawSecret target i fuel seed secret
      else
        .ok (seed, secret)

/-- Every word of the secret is drawn, with at most so many attempts each. -/
def makeSecret
    (target : Target)
    (fuel : Nat)
    (seed : UInt64)
    (secret : Secret) : Checked Secret := do
  let (_, secret) ←
    (List.finRange 4).foldlM
      (fun drawn i => drawSecret target i fuel drawn.1 drawn.2) (seed, secret)
  .ok secret

/-- `strlen`, with at most so many steps. -/
def strlen (memory : Bytes) : Nat → Nat → Checked UInt64
  | 0, _ =>
      .error .divergence
  | fuel + 1, p => do
      let byte ← Reads.cell p memory
      if byte = 0 then
        .ok (UInt64.ofNat p)
      else
        strlen memory fuel (p + 1)

def fhDefaultHash
    (target : Target)
    (seed : UInt64)
    (secret : Secret)
    (memory : Bytes)
    (fuel : Nat) : Checked UInt64 := do
  let first ← Reads.cell 0 memory
  if first = 0 then
    .ok 1
  else do
    let len ← strlen memory fuel 0
    wyhash target memory len seed secret

end Clibs.Fh
