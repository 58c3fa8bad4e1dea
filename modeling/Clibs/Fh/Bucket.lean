import Clibs.Foundation.Checked
import Clibs.Foundation.CString
import Mathlib.Data.Fintype.Basic
import Mathlib.Data.List.FinRange
import Mathlib.Logic.Function.Basic

namespace Clibs.Fh

/-!
# Buckets of the hash table

The bucket chains of `fh.c`: eight slots a bucket, each with the one-byte mini
hash of its key, and the functions that look for a key, claim a free slot and
release an empty bucket.  A chain is the list of its buckets from the head on;
each bucket carries the address it was allocated at, and a pointer to a slot is
the address of its bucket with the slot's index.  The two parallel arrays
`mini_hashes` and `slot` of the source are kept as one array.
-/

/-- `BUCKET_SIZE`. -/
abbrev bucketSize : Nat :=
  8

/-- `MIN_MINIHASH`, the first value that stands for a used slot. -/
def minMinihash : UInt8 :=
  5

/-- `MAKE_MINIHASH`: the top byte of a hash, moved out of the reserved values. -/
def makeMinihash (hash : UInt64) : UInt8 :=
  let top := (hash >>> 56).toUInt8
  if top < minMinihash then top + minMinihash else top

/-- A `char *` in a slot: the string, and whether the table allocated it. -/
structure FhKey where
  string : CString
  copied : Bool
  deriving Repr, DecidableEq

/--
A `void *` argument: its value, and the bytes of the object it points to.  The
bytes after the listed ones read as zero.
-/
structure Block where
  address : Nat
  bytes : List UInt8
  deriving Repr, DecidableEq

/-- A `void *` in a slot: the caller's pointer, or a copy the table allocated. -/
inductive OpaqueObj where
  | pointer (block : Block)
  | copy (bytes : List UInt8)
  deriving Repr, DecidableEq

/-- The bytes an opaque object points to. -/
def OpaqueObj.bytes : OpaqueObj → List UInt8
  | .pointer block =>
      block.bytes
  | .copy bytes =>
      bytes

/-- `fh_slot`, with its entry of `mini_hashes`. -/
structure FhSlot where
  miniHash : UInt8
  key : Option FhKey
  opaqueObj : Option OpaqueObj
  deriving Repr, DecidableEq

/-- A slot as `_fh_allocate_bucket` clears it and `_fh_del` leaves it. -/
def FhSlot.cleared : FhSlot where
  miniHash := 0
  key := none
  opaqueObj := none

/-- `fh_bucket`, under its address. -/
structure FhBucket where
  address : Nat
  slot : Fin bucketSize → FhSlot

/-- A pointer to a slot: the address of its bucket and its index. -/
abbrev SlotAddress :=
  Nat × Fin bucketSize

/-- `_fh_allocate_bucket`, at the address that `malloc` returned. -/
def fhAllocateBucket (address : Nat) : FhBucket where
  address := address
  slot _ := .cleared

/-- Assign to a slot of a bucket. -/
def FhBucket.setSlot
    (bucket : FhBucket)
    (index : Fin bucketSize)
    (slot : FhSlot) : FhBucket where
  address := bucket.address
  slot := Function.update bucket.slot index slot

/-- The bucket of a chain with the given address. -/
def bucketAt
    (address : Nat)
    (chain : List FhBucket) : Option FhBucket :=
  chain.find? fun bucket => bucket.address = address

/-- Assign to the slot of a chain with the given address. -/
def writeSlot
    (address : SlotAddress)
    (slot : FhSlot) : List FhBucket → List FhBucket
  | [] =>
      []
  | bucket :: rest =>
      if bucket.address = address.1 then
        bucket.setSlot address.2 slot :: rest
      else
        bucket :: writeSlot address slot rest

/-- The loop of `_fh_find_slot_in_bucket` over the slots of one bucket. -/
def findInBucket
    (bucket : FhBucket)
    (key : CString)
    (miniHash : UInt8) :
    List (Fin bucketSize) → Checked (Option (Fin bucketSize))
  | [] =>
      .ok none
  | index :: rest =>
      if (bucket.slot index).miniHash = miniHash then
        match (bucket.slot index).key with
        | none =>
            .error .nullDereference
        | some stored =>
            if strcmp stored.string key = 0 then
              .ok (some index)
            else
              findInBucket bucket key miniHash rest
      else
        findInBucket bucket key miniHash rest

/-- `_fh_find_slot_in_bucket`; `none` is the result `-1`. -/
def fhFindSlotInBucket
    (key : CString)
    (miniHash : UInt8) :
    List FhBucket → Checked (Option SlotAddress)
  | [] =>
      .ok none
  | bucket :: rest => do
      match ← findInBucket bucket key miniHash (List.finRange bucketSize) with
      | some index =>
          .ok (some (bucket.address, index))
      | none =>
          fhFindSlotInBucket key miniHash rest

/-- The first slot of a bucket whose mini hash is zero. -/
def freeSlot (bucket : FhBucket) : Option (Fin bucketSize) :=
  (List.finRange bucketSize).find? fun index =>
    (bucket.slot index).miniHash = 0

/-- Set the mini hash of a slot of a bucket. -/
def FhBucket.setMiniHash
    (bucket : FhBucket)
    (index : Fin bucketSize)
    (miniHash : UInt8) : FhBucket :=
  bucket.setSlot index
    { bucket.slot index with
      miniHash := miniHash }

/--
`_fh_return_empty_slot_in_bucket`: the chain with the mini hash set in its first
free slot, and the address of that slot.  When all slots are used a bucket is
appended; `fresh` is the address that `malloc` returns for it, if any.
-/
def fhReturnEmptySlotInBucket
    (miniHash : UInt8)
    (fresh : Option Nat) :
    List FhBucket → List FhBucket × Option SlotAddress
  | [] =>
      ([], none)
  | bucket :: rest =>
      match freeSlot bucket, rest with
      | some index, rest =>
          (bucket.setMiniHash index miniHash :: rest,
            some (bucket.address, index))
      | none, [] =>
          match fresh.map fhAllocateBucket with
          | none =>
              ([bucket], none)
          | some next =>
              match freeSlot next with
              | some index =>
                  ([bucket, next.setMiniHash index miniHash],
                    some (next.address, index))
              | none =>
                  ([bucket, next], none)
      | none, rest =>
          let (rest, address) := fhReturnEmptySlotInBucket miniHash fresh rest
          (bucket :: rest, address)

/-- No slot of a bucket is used. -/
def FhBucket.isEmpty (bucket : FhBucket) : Bool :=
  (List.finRange bucketSize).all fun index =>
    (bucket.slot index).miniHash = 0

/-- Take the bucket with the given address out of a chain and free it. -/
def unlinkBucket
    (candidate : Nat) :
    List FhBucket → Checked (List FhBucket)
  | [] =>
      .error .assertionFailed
  | bucket :: rest =>
      if bucket.address = candidate then
        .ok rest
      else do
        let rest ← unlinkBucket candidate rest
        .ok (bucket :: rest)

/-- `_deallocate_bucket_if_empty`. -/
def deallocateBucketIfEmpty
    (candidate : FhBucket)
    (start : List FhBucket) : Checked (List FhBucket) :=
  if candidate.isEmpty then
    unlinkBucket candidate.address start
  else
    .ok start

end Clibs.Fh
