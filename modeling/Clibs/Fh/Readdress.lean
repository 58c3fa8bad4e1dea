import Clibs.Fh.Runs

namespace Clibs.Fh

/-!
# Tables whose buckets are at other addresses

No result of `fh_get`, `fh_insert` or `fh_del` depends on where the buckets
were allocated.  Two tables that differ in the addresses of their buckets, and
in the counter of collisions, return the same from every run of these calls,
whatever the outcome of their allocations.
-/

/-- A bucket at another address. -/
def FhBucket.readdress
    (move : Nat → Nat)
    (bucket : FhBucket) : FhBucket where
  address := move bucket.address
  slot := bucket.slot

/-- A pointer to a slot of a bucket at another address. -/
def moveAddress
    (move : Nat → Nat)
    (address : SlotAddress) : SlotAddress :=
  (move address.1, address.2)

@[simp] theorem moveAddress_bucket
    (move : Nat → Nat)
    (address : SlotAddress) :
    (moveAddress move address).1 = move address.1 :=
  rfl

section Chains

variable {move : Nat → Nat}

/-- The search in a bucket does not look at its address. -/
theorem findInBucket_readdress
    (bucket : FhBucket)
    (key : CString)
    (miniHash : UInt8)
    (indices : List (Fin bucketSize)) :
    findInBucket (bucket.readdress move) key miniHash indices =
      findInBucket bucket key miniHash indices := by
  induction indices with
  | nil =>
      rfl
  | cons index rest inductionHypothesis =>
      simp only [findInBucket, FhBucket.readdress] at inductionHypothesis ⊢
      rw [inductionHypothesis]
      rfl

/-- The search in a chain finds the slot at its other address. -/
theorem fhFindSlotInBucket_readdress
    (key : CString)
    (miniHash : UInt8)
    (chain : List FhBucket) :
    fhFindSlotInBucket key miniHash (chain.map (FhBucket.readdress move)) =
      Option.map (moveAddress move) <$>
        fhFindSlotInBucket key miniHash chain := by
  induction chain with
  | nil =>
      rfl
  | cons bucket rest inductionHypothesis =>
      rw [List.map_cons, fhFindSlotInBucket, fhFindSlotInBucket,
        findInBucket_readdress]
      cases findInBucket bucket key miniHash (List.finRange bucketSize) with
      | error fault =>
          rfl
      | ok found =>
          cases found with
          | none =>
              exact inductionHypothesis
          | some index =>
              rfl

/-- Claiming a slot claims it at its other address. -/
theorem fhReturnEmptySlotInBucket_readdress
    (miniHash : UInt8)
    (fresh : Option Nat)
    (chain : List FhBucket) :
    fhReturnEmptySlotInBucket miniHash (fresh.map move)
        (chain.map (FhBucket.readdress move)) =
      ((fhReturnEmptySlotInBucket miniHash fresh chain).1.map
          (FhBucket.readdress move),
        (fhReturnEmptySlotInBucket miniHash fresh chain).2.map
          (moveAddress move)) := by
  induction chain with
  | nil =>
      rfl
  | cons bucket rest inductionHypothesis =>
      have sameFree : freeSlot (bucket.readdress move) = freeSlot bucket :=
        rfl
      cases isFree : freeSlot bucket with
      | some index =>
          rw [List.map_cons, claim_hole _ _ (sameFree.trans isFree),
            claim_hole _ _ isFree]
          rfl
      | none =>
          cases rest with
          | nil =>
              rw [List.map_cons, List.map_nil]
              cases fresh with
              | none =>
                  rw [Option.map_none,
                    claim_refused _ (sameFree.trans isFree),
                    claim_refused _ isFree]
                  rfl
              | some address =>
                  rw [Option.map_some,
                    claim_appended _ (sameFree.trans isFree),
                    claim_appended _ isFree]
                  rfl
          | cons next others =>
              rw [List.map_cons, List.map_cons,
                claim_next _ _ (sameFree.trans isFree), ← List.map_cons,
                inductionHypothesis, claim_next _ _ isFree]
              rfl

variable (injective : Function.Injective move)

include injective

/-- The bucket at an address is at its other address. -/
theorem bucketAt_readdress
    (address : Nat)
    (chain : List FhBucket) :
    bucketAt (move address) (chain.map (FhBucket.readdress move)) =
      (bucketAt address chain).map (FhBucket.readdress move) := by
  have samePlace :
      (fun bucket : FhBucket => decide (bucket.address = move address)) ∘
          FhBucket.readdress move =
        fun bucket => decide (bucket.address = address) := by
    funext bucket
    simp [FhBucket.readdress, injective.eq_iff]
  rw [bucketAt, bucketAt, List.find?_map, samePlace]

/-- Assigning through a pointer assigns at the other address. -/
theorem writeSlot_readdress
    (address : SlotAddress)
    (slot : FhSlot)
    (chain : List FhBucket) :
    writeSlot (moveAddress move address) slot
        (chain.map (FhBucket.readdress move)) =
      (writeSlot address slot chain).map (FhBucket.readdress move) := by
  induction chain with
  | nil =>
      rfl
  | cons bucket rest inductionHypothesis =>
      by_cases isHere : bucket.address = address.1
      · simp [writeSlot, FhBucket.readdress, moveAddress, isHere,
          FhBucket.setSlot]
      · have notHere : move bucket.address ≠ move address.1 :=
          fun same => isHere (injective same)
        simp only [writeSlot, List.map_cons, FhBucket.readdress, moveAddress,
          isHere, notHere, if_false] at inductionHypothesis ⊢
        rw [← inductionHypothesis]

/-- Unlinking a bucket unlinks it at its other address. -/
theorem unlinkBucket_readdress
    (candidate : Nat)
    (chain : List FhBucket) :
    unlinkBucket (move candidate) (chain.map (FhBucket.readdress move)) =
      List.map (FhBucket.readdress move) <$>
        unlinkBucket candidate chain := by
  induction chain with
  | nil =>
      rfl
  | cons bucket rest inductionHypothesis =>
      by_cases isHere : bucket.address = candidate
      · simp [unlinkBucket, FhBucket.readdress, isHere]
      · have notHere : move bucket.address ≠ move candidate :=
          fun same => isHere (injective same)
        have step :
            unlinkBucket (move candidate)
                ((bucket :: rest).map (FhBucket.readdress move)) =
              (unlinkBucket (move candidate)
                  (rest.map (FhBucket.readdress move)) >>= fun others =>
                .ok (bucket.readdress move :: others)) := by
          simp [unlinkBucket, FhBucket.readdress, notHere]
        rw [step, inductionHypothesis, unlinkBucket, if_neg isHere]
        cases unlinkBucket candidate rest with
        | error fault =>
            rfl
        | ok others =>
            rfl

end Chains

/-- The buckets of a table, those still to be allocated too, at other addresses. -/
structure FhTable.Moved
    (move : Nat → Nat)
    (table other : FhTable) : Prop where
  same : other.SameSettings table
  chains :
    ∀ index,
      other.hashTable index =
        (table.hashTable index).map (FhBucket.readdress move)
  fresh :
    ∀ count, other.nextBucket + count = move (table.nextBucket + count)

namespace FhTable.Moved

variable {move : Nat → Nat}
  {table other : FhTable}

/-- Counting a collision leaves the buckets where they are. -/
theorem collision
    (moved : table.Moved move other) :
    FhTable.Moved move
      { table with
        hCollision := table.hCollision + 1 }
      { other with
        hCollision := other.hCollision + 1 } :=
  ⟨⟨moved.same.hDim, moved.same.hDatalen, moved.same.hAttr,
    moved.same.hashFunction⟩, moved.chains, moved.fresh⟩

/-- A chain is replaced in both tables. -/
theorem setChain
    (moved : table.Moved move other)
    (index : Nat)
    (chain : List FhBucket) :
    (table.setChain index chain).Moved move
      (other.setChain index (chain.map (FhBucket.readdress move))) where
  same := ⟨moved.same.hDim, moved.same.hDatalen, moved.same.hAttr,
    moved.same.hashFunction⟩
  chains position := by
    by_cases isHere : position = index
    · subst isHere
      simp [FhTable.setChain]
    · simp [FhTable.setChain, isHere, moved.chains]
  fresh := moved.fresh

/-- A chain is replaced in both tables and an address used up. -/
theorem growChain
    (moved : table.Moved move other)
    (index : Nat)
    (chain : List FhBucket) :
    (table.growChain index chain).Moved move
      (other.growChain index (chain.map (FhBucket.readdress move))) where
  same := ⟨moved.same.hDim, moved.same.hDatalen, moved.same.hAttr,
    moved.same.hashFunction⟩
  chains := (moved.setChain index chain).chains
  fresh count := by
    have later := moved.fresh (1 + count)
    simp only [FhTable.growChain]
    rw [Nat.add_assoc, later, Nat.add_assoc]

/-- Which chain a hash selects does not depend on addresses. -/
theorem hashindex
    (moved : table.Moved move other)
    (hash : UInt64) :
    other.hashindex hash = table.hashindex hash := by
  simp only [FhTable.hashindex, moved.same.hDim]

/-- The head bucket of a chain is there in both tables or in none. -/
theorem headBucket
    (moved : table.Moved move other)
    (index : Nat)
    (granted : Bool) :
    (headBucket table index granted).1.Moved move
        (headBucket other index granted).1 ∧
      (headBucket other index granted).2 =
        (headBucket table index granted).2 := by
  have isOther := moved.chains index
  cases isChain : table.hashTable index with
  | nil =>
      rw [isChain] at isOther
      cases granted with
      | false =>
          simpa [Fh.headBucket, isChain, isOther] using moved
      | true =>
          have isFresh := moved.fresh 0
          simp only [Nat.add_zero] at isFresh
          have grown :=
            moved.growChain index [fhAllocateBucket table.nextBucket]
          simp only [List.map_cons, List.map_nil, FhBucket.readdress,
            fhAllocateBucket, ← isFresh] at grown
          simpa [Fh.headBucket, isChain, isOther, fhAllocateBucket]
            using grown
  | cons first rest =>
      rw [isChain] at isOther
      simpa [Fh.headBucket, isChain, isOther] using moved.collision

/-- A slot is claimed in both tables or in none. -/
theorem claimSlot
    (moved : table.Moved move other)
    (index : Nat)
    (miniHash : UInt8)
    (granted : Bool) :
    (claimSlot table index miniHash granted).1.Moved move
        (claimSlot other index miniHash granted).1 ∧
      (claimSlot other index miniHash granted).2 =
        (claimSlot table index miniHash granted).2.map (moveAddress move) := by
  have isFresh :
      (if granted then some other.nextBucket else none) =
        Option.map move (if granted then some table.nextBucket else none) := by
    have first := moved.fresh 0
    simp only [Nat.add_zero] at first
    cases granted with
    | false =>
        rfl
    | true =>
        simp [first]
  simp only [Fh.claimSlot, isFresh, moved.chains,
    fhReturnEmptySlotInBucket_readdress]
  exact ⟨moved.growChain .., trivial⟩

/-- The key of a filled slot does not depend on addresses. -/
theorem slotKey
    (moved : table.Moved move other)
    (key : CString)
    (granted : Bool) :
    other.slotKey key granted = table.slotKey key granted := by
  simp only [FhTable.slotKey, moved.same.dontcopykey]

variable (injective : Function.Injective move)

include injective

/-- A slot is read at its other address. -/
theorem slotAt
    (moved : table.Moved move other)
    (index : Nat)
    (address : SlotAddress) :
    other.slotAt index (moveAddress move address) =
      table.slotAt index address := by
  simp only [FhTable.slotAt, moved.chains, moveAddress,
    bucketAt_readdress injective]
  cases bucketAt address.1 (table.hashTable index) with
  | none =>
      rfl
  | some bucket =>
      rfl

/-- A slot is assigned to at its other address. -/
theorem setSlot
    (moved : table.Moved move other)
    (index : Nat)
    (address : SlotAddress)
    (slot : FhSlot) :
    (table.setSlot index address slot).Moved move
      (other.setSlot index (moveAddress move address) slot) := by
  simp only [FhTable.setSlot, moved.chains, writeSlot_readdress injective]
  exact moved.setChain ..

/-- A claimed slot is filled in both tables. -/
theorem fillSlot
    (moved : table.Moved move other)
    (index : Nat)
    (address : SlotAddress)
    (key : CString)
    (block : Option Block)
    (grants : InsertGrants) :
    (fillSlot table index address key block grants).1.Moved move
        (fillSlot other index (moveAddress move address) key block
          grants).1 ∧
      (fillSlot other index (moveAddress move address) key block grants).2 =
        (fillSlot table index address key block grants).2.map
          (moveAddress move) := by
  have assigned := moved.setSlot injective index address
  simp only [Fh.fillSlot, moved.slotAt injective, moved.slotKey,
    moved.same.hDatalen]
  cases table.slotKey key grants.key with
  | none =>
      exact ⟨assigned _, rfl⟩
  | some stored =>
      cases block with
      | none =>
          exact ⟨assigned _, rfl⟩
      | some block =>
          dsimp only
          cases newOpaqueObj table.hDatalen block grants.opaqueObj with
          | error code =>
              exact ⟨assigned _, rfl⟩
          | ok object =>
              exact ⟨assigned _, rfl⟩

/-- The locked section of an insertion does the same in both tables. -/
theorem insertSlot
    (moved : table.Moved move other)
    (key : CString)
    (block : Option Block)
    (grants : InsertGrants) :
    Checked.Agree (fun done otherDone =>
        done.1.Moved move otherDone.1 ∧
          otherDone.2 = done.2.map (moveAddress move))
      (insertSlot table key block grants)
      (insertSlot other key block grants) := by
  simp only [Fh.insertSlot, moved.hashindex, moved.same.hDim,
    moved.same.hashFunction]
  split
  next =>
    exact .error _
  next =>
    obtain ⟨headMoved, sameHead⟩ :=
      moved.headBucket (table.hashindex (table.hashFunction key))
        grants.bucket
    revert headMoved sameHead
    generalize Fh.headBucket table _ grants.bucket = head
    generalize Fh.headBucket other _ grants.bucket = otherHead
    intro headMoved sameHead
    obtain ⟨counted, isHead⟩ := head
    obtain ⟨otherCounted, otherIsHead⟩ := otherHead
    cases sameHead
    cases isHead with
    | false =>
        exact .ok ⟨headMoved, rfl⟩
    | true =>
        dsimp only at headMoved ⊢
        rw [headMoved.chains, fhFindSlotInBucket_readdress]
        cases fhFindSlotInBucket key
            (makeMinihash (table.hashFunction key))
            (counted.hashTable
              (table.hashindex (table.hashFunction key))) with
        | error fault =>
            exact .error fault
        | ok found =>
            cases found with
            | some address =>
                exact .ok ⟨headMoved, rfl⟩
            | none =>
                obtain ⟨claimMoved, sameClaim⟩ :=
                  headMoved.claimSlot
                    (table.hashindex (table.hashFunction key))
                    (makeMinihash (table.hashFunction key)) grants.bucket
                simp only [Checked.map_ok, Option.map_none, Checked.ok_bind]
                revert claimMoved sameClaim
                generalize Fh.claimSlot counted _ _ grants.bucket = claimed
                generalize Fh.claimSlot otherCounted _ _ grants.bucket =
                  otherClaimed
                intro claimMoved sameClaim
                obtain ⟨claimedTable, address⟩ := claimed
                obtain ⟨otherTable, otherAddress⟩ := otherClaimed
                cases sameClaim
                cases address with
                | none =>
                    exact .ok ⟨claimMoved, rfl⟩
                | some address =>
                    exact .ok (claimMoved.fillSlot injective _ address key
                      block grants)

/-- The locked section of a deletion does the same in both tables. -/
theorem fhDelUnlocked
    (moved : table.Moved move other)
    (key : CString)
    (index : Nat)
    (miniHash : UInt8) :
    Checked.Agree (fun done otherDone =>
        done.1.Moved move otherDone.1 ∧ otherDone.2 = done.2)
      (fhDelUnlocked table key index miniHash)
      (fhDelUnlocked other key index miniHash) := by
  simp only [Fh.fhDelUnlocked, moved.same.hDim, moved.chains index,
    fhFindSlotInBucket_readdress]
  split
  next =>
    exact .error _
  next =>
    cases fhFindSlotInBucket key miniHash (table.hashTable index) with
    | error fault =>
        exact .error fault
    | ok found =>
        cases found with
        | none =>
            exact .ok ⟨moved, rfl⟩
        | some address =>
            have cleared := moved.setSlot injective index address .cleared
            simp only [Checked.map_ok, Option.map_some, Checked.ok_bind,
              cleared.chains index, moveAddress_bucket,
              bucketAt_readdress injective]
            cases bucketAt address.1
                ((table.setSlot index address .cleared).hashTable index) with
            | none =>
                exact .error .nullDereference
            | some candidate =>
                simp only [Option.map_some, deallocateBucketIfEmpty]
                have sameEmpty :
                    (candidate.readdress move).isEmpty = candidate.isEmpty :=
                  rfl
                rw [sameEmpty]
                cases candidate.isEmpty with
                | false =>
                    exact .ok ⟨cleared.setChain .., rfl⟩
                | true =>
                    have unlinked :=
                      unlinkBucket_readdress injective candidate.address
                        ((table.setSlot index address .cleared).hashTable
                          index)
                    simp only [if_true]
                    rw [FhBucket.readdress, unlinked]
                    cases unlinkBucket candidate.address
                        ((table.setSlot index address .cleared).hashTable
                          index) with
                    | error fault =>
                        exact .error fault
                    | ok chain =>
                        exact .ok ⟨cleared.setChain .., rfl⟩

/-- A search finds the same slot in both tables. -/
theorem findSlot
    (moved : table.Moved move other)
    (key : CString) :
    findSlot other key = findSlot table key := by
  simp only [Fh.findSlot, moved.hashindex, moved.same.hDim,
    moved.same.hashFunction, moved.chains, fhFindSlotInBucket_readdress]
  split
  next =>
    rfl
  next =>
    cases fhFindSlotInBucket key (makeMinihash (table.hashFunction key))
        (table.hashTable
          (table.hashindex (table.hashFunction key))) with
    | error fault =>
        rfl
    | ok found =>
        cases found with
        | none =>
            rfl
        | some address =>
            simp [moved.slotAt injective]

end FhTable.Moved

/-- Two tables in the same state but for the addresses of their buckets. -/
structure FhT.Moved
    (move : Nat → Nat)
    (fh other : FhT) : Prop where
  magic : other.hMagic = fh.hMagic
  elements : other.hElements = fh.hElements
  locks : other.locks = fh.locks
  table : fh.table.Moved move other.table

/-- A call of `fh_get`, `fh_insert` or `fh_del`. -/
def TableCall.IsPlain : TableCall → Prop
  | .get _ =>
      True
  | .insert _ _ _ =>
      True
  | .del _ =>
      True
  | _ =>
      False

section Calls

variable {move : Nat → Nat}
  {fh other : FhT}

/-- What two tables in the same state return for a call. -/
def SameCall
    {Result : Type}
    (move : Nat → Nat)
    (done otherDone : FhT × Result) : Prop :=
  done.1.Moved move otherDone.1 ∧ done.2 = otherDone.2

/-- Insertions return the same for both tables. -/
theorem FhT.Moved.insert
    (injective : Function.Injective move)
    (moved : fh.Moved move other)
    (key : Option CString)
    (block : Option Block)
    (grants : InsertGrants) :
    Checked.Agree (SameCall move) (fhInsert fh key block grants)
      (fhInsert other key block grants) := by
  simp only [fhInsert, moved.magic]
  split
  next =>
    exact .ok ⟨moved, rfl⟩
  next =>
    cases key with
    | none =>
        exact .ok ⟨moved, rfl⟩
    | some key =>
        simp only [moved.table.hashindex, moved.table.same.hashFunction,
          moved.locks]
        apply (Checked.Agree.refl _).bind
        rintro held _ rfl
        apply (moved.table.insertSlot injective key block grants).bind
        rintro ⟨table, outcome⟩ ⟨otherTable, _⟩ ⟨after, rfl⟩
        apply (Checked.Agree.refl _).bind
        rintro locks _ rfl
        cases outcome with
        | error code =>
            exact .ok ⟨⟨rfl, moved.elements, rfl, after⟩, rfl⟩
        | ok address =>
            exact .ok ⟨⟨rfl,
              congrArg (fun count => count + 1) moved.elements, rfl, after⟩,
              rfl⟩

/-- Deletions return the same for both tables. -/
theorem FhT.Moved.del
    (injective : Function.Injective move)
    (moved : fh.Moved move other)
    (key : Option CString) :
    Checked.Agree (SameCall move) (fhDel fh key) (fhDel other key) := by
  simp only [fhDel, moved.magic]
  split
  next =>
    exact .ok ⟨moved, rfl⟩
  next =>
    cases key with
    | none =>
        exact .ok ⟨moved, rfl⟩
    | some key =>
        simp only [moved.table.hashindex, moved.table.same.hashFunction,
          moved.locks]
        apply (Checked.Agree.refl _).bind
        rintro held _ rfl
        apply (moved.table.fhDelUnlocked injective key _ _).bind
        rintro ⟨table, code⟩ ⟨otherTable, _⟩ ⟨after, rfl⟩
        apply (Checked.Agree.refl _).bind
        rintro locks _ rfl
        unfold countDeletion
        split
        next =>
          exact .ok ⟨⟨rfl,
            congrArg (fun count => count - 1) moved.elements, rfl, after⟩,
            rfl⟩
        next =>
          exact .ok ⟨⟨rfl, moved.elements, rfl, after⟩, rfl⟩

/-- Reading returns the same for both tables. -/
theorem FhT.Moved.get
    (injective : Function.Injective move)
    (moved : fh.Moved move other)
    (key : Option CString) :
    Checked.Agree (SameCall move) (fhGet fh key) (fhGet other key) := by
  simp only [fhGet, moved.magic]
  split
  next =>
    exact .ok ⟨moved, rfl⟩
  next =>
    cases key with
    | none =>
        exact .ok ⟨moved, rfl⟩
    | some key =>
        simp only [moved.table.hashindex, moved.table.same.hashFunction,
          moved.locks, moved.table.findSlot injective]
        apply (Checked.Agree.refl _).bind
        rintro held _ rfl
        apply (Checked.Agree.refl _).bind
        rintro found _ rfl
        apply (Checked.Agree.refl _).bind
        rintro locks _ rfl
        cases found with
        | none =>
            exact .ok ⟨⟨rfl, moved.elements, rfl, moved.table⟩, rfl⟩
        | some slot =>
            exact .ok ⟨⟨rfl, moved.elements, rfl, moved.table⟩, rfl⟩

/-- Plain calls return the same for both tables. -/
theorem FhT.Moved.step
    (injective : Function.Injective move)
    (moved : fh.Moved move other)
    {call : TableCall}
    (plain : call.IsPlain) :
    Checked.Agree (SameCall move) (tableStep fh call)
      (tableStep other call) := by
  cases call with
  | insert key block grants =>
      exact (moved.insert injective key block grants).bind
        fun _ _ done => .ok ⟨done.1, congrArg TableResult.code done.2⟩
  | del key =>
      exact (moved.del injective key).bind
        fun _ _ done => .ok ⟨done.1, congrArg TableResult.code done.2⟩
  | get key =>
      apply (moved.get injective key).bind
      rintro ⟨next, object, error⟩ ⟨otherNext, _, _⟩ ⟨after, same⟩
      cases same
      exact .ok ⟨after, rfl⟩
  | _ =>
      exact plain.elim

/-- Runs of plain calls return the same for both tables. -/
theorem FhT.Moved.run
    (injective : Function.Injective move)
    (moved : fh.Moved move other)
    {calls : List TableCall}
    (plain : ∀ call ∈ calls, call.IsPlain) :
    Prod.snd <$> runCalls tableStep fh calls =
      Prod.snd <$> runCalls tableStep other calls := by
  have agrees :
      Checked.Agree (SameCall move) (runCalls tableStep fh calls)
        (runCalls tableStep other calls) :=
    runCalls_agree (fun alike isPlain => alike.step injective isPlain) moved
      plain
  exact agrees.map_eq fun _ _ same => same.2

end Calls

/-- Addresses from a bound on, moved up. -/
def moveFrom
    (bound distance address : Nat) : Nat :=
  if address < bound then address else address + distance

/-- Moving addresses up keeps them apart. -/
theorem moveFrom_injective
    (bound distance : Nat) :
    Function.Injective (moveFrom bound distance) := by
  intro first second same
  unfold moveFrom at same
  split at same
  next firstBelow =>
    split at same
    next =>
      exact same
    next secondAbove =>
      omega
  next firstAbove =>
    split at same
    next secondBelow =>
      omega
    next =>
      exact Nat.add_right_cancel same

/-- A table that used up more addresses is the same but for new buckets. -/
theorem FhTable.Moved.of_grown
    {keyOk : FhKey → Prop}
    {table next : FhTable}
    (ok : table.OkFor keyOk)
    (same : next.SameSettings table)
    (chains : next.hashTable = table.hashTable)
    (grows : table.nextBucket ≤ next.nextBucket) :
    table.Moved
      (moveFrom table.nextBucket (next.nextBucket - table.nextBucket))
      next where
  same := same
  chains index := by
    have stays :
        ∀ bucket ∈ table.hashTable index,
          bucket.readdress
              (moveFrom table.nextBucket
                (next.nextBucket - table.nextBucket)) =
            id bucket := by
      intro bucket isBucket
      simp [FhBucket.readdress, moveFrom, ok.below index bucket isBucket]
    rw [chains, List.map_congr_left stays, List.map_id]
  fresh count := by
    rw [moveFrom, if_neg (by omega)]
    omega

end Clibs.Fh
