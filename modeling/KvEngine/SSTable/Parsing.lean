/-
  KvEngine.SSTable.Parsing
  ────────────────────────
  The parsers of `SSTableReader`, read by read.

  Lengths, restart points and their number come from the file, and only the
  footer has a checksum.  An offset below the start of a block, a read outside
  it and a loop that does not end are faults, told apart here.
-/
import KvEngine.Lib.Rounds
import KvEngine.SSTable.Reader

namespace KvEngine

open Lib

namespace SSTableReader

/-! ## §1. Reads. -/

/-- What may go wrong in a parser. -/
inductive Fault where
  /-- An offset before the block. -/
  | below
  /-- A read outside the block. -/
  | outside
  /-- A loop that does not end. -/
  | endless
  deriving DecidableEq, Repr

def inside {α : Type} : Option α → Except Fault α
  | some value => .ok value
  | none => .error .outside

def read32 (data : Bytes) (pos : Nat) : Except Fault UInt32 := inside (load32 data pos)

def read64 (data : Bytes) (pos : Nat) : Except Fault UInt64 := inside (load64 data pos)

/-- The `n` bytes at `pos`. -/
def readBytes (data : Bytes) (pos n : Nat) : Except Fault Bytes :=
  if pos + n ≤ data.length then .ok ((data.drop pos).take n) else .error .outside

/-- `size - 4 - num_restarts * 4`; the product is taken in 32 bits. -/
def restartsAt (size : Nat) (numRestarts : UInt32) : Except Fault Nat :=
  if size < 4 + (numRestarts * 4).toNat then .error .below
  else .ok (size - 4 - (numRestarts * 4).toNat)

/-- `std::vector<uint32_t> restarts(num_restarts)` and the `memcpy` into it. -/
def readRestarts (data : Bytes) (numRestarts : UInt32) : Except Fault (List UInt32) := do
  let start ← restartsAt data.length numRestarts
  let bytes ← readBytes data start (numRestarts * 4).toNat
  return (List.range numRestarts.toNat).map fun i => (load32 bytes (4 * i)).getD 0

/-! ## §2. `ParseIndexBlock`. -/

/-- The members of `SSTableReader::Impl` that the parsers set. -/
structure Impl where
  numEntries : Nat := 0
  minSeq : UInt64 := 0
  maxSeq : UInt64 := 0
  smallestKey : Bytes := []
  largestKey : Bytes := []
  indexEntries : List (Bytes × BlockHandle) := []
  bloomFilter : Bytes := []
  bloomK : Nat := 0
  bloomBits : Nat := 0
  deriving DecidableEq, Repr

/-- The state of the loop over index entries: `pos`, `last_key` and the entries
found so far. -/
abbrev IndexState := Nat × Bytes × List (Bytes × BlockHandle)

/-- One round of the loop between two restart points. -/
def indexRound (data : Bytes) (nextRestart : Nat) :
    IndexState → Except Fault (IndexState ⊕ List (Bytes × BlockHandle))
  | (pos, lastKey, entries) =>
      if pos < nextRestart ∧ pos + 12 ≤ data.length then do
        let shared ← read32 data pos
        let unshared ← read32 data (pos + 4)
        let handleSize ← read32 data (pos + 8)
        let pos := pos + 12
        if pos + shared.toNat + unshared.toNat + handleSize.toNat > data.length then
          return .inr entries
        else
          let rest ← readBytes data pos unshared.toNat
          let key := lastKey.take shared.toNat ++ rest
          let pos := pos + unshared.toNat
          let input ← readBytes data pos handleSize.toNat
          match BlockHandle.decode input with
          | .error _ => return .inr entries
          | .ok handle => return .inl (pos + handleSize.toNat, key, entries ++ [(key, handle)])
      else return .inr entries

/-- The entries between two restart points, put behind `entries`. -/
def indexRun (data : Bytes) (entries : List (Bytes × BlockHandle)) (run : UInt32 × Nat) :
    Except Fault (List (Bytes × BlockHandle)) :=
  loop (indexRound data run.2) .endless (data.length + 1) (run.1.toNat, [], entries)

/-- Every restart point with the end of its run: the next one, or `last`. -/
def runsOf (restarts : List UInt32) (last : Nat) : List (UInt32 × Nat) :=
  restarts.zip (restarts.tail.map UInt32.toNat ++ [last])

/-- `ParseIndexBlock`. -/
def Impl.parseIndexBlock (s : Impl) (data : Bytes) : Except Fault Impl :=
  let size := data.length
  if size < 4 then return s
  else do
    let numRestarts ← read32 data (size - 4)
    if numRestarts = 0 ∨ numRestarts.toNat > size / 4 then return s
    else
      let restarts ← readRestarts data numRestarts
      let last ← restartsAt size numRestarts
      let indexEntries ← (runsOf restarts last).foldlM (indexRun data) s.indexEntries
      let s := { s with indexEntries, numEntries := indexEntries.length }
      match indexEntries.head?, indexEntries.getLast? with
      | some front, some back => return { s with smallestKey := front.1, largestKey := back.1 }
      | _, _ => return s

/-! ## §3. The filter and the meta block. -/

/-- `ParseFilterBlock`.  The `memcpy` sets the lower half of `bloom_k`; the upper
half stays as it was. -/
def Impl.parseFilterBlock (s : Impl) (data : Bytes) : Except Fault Impl :=
  let size := data.length
  if size < 4 then return s
  else do
    let bloomK ← read32 data (size - 4)
    let bloomFilter ← readBytes data 0 (size - 4)
    return { s with
      bloomK := s.bloomK / 2 ^ 32 * 2 ^ 32 + bloomK.toNat
      bloomBits := (size - 4) * 8
      bloomFilter }

/-- `BloomFilterCheck`; the first bit that is not set ends the loop. -/
def Impl.bloomFilterCheck (s : Impl) (key : Bytes) : Bool :=
  if s.bloomFilter.isEmpty || s.bloomK == 0 then true
  else
    let hash : UInt64 := key.foldl (fun hash b => hash * 31 + b.toUInt64) 0
    (List.range s.bloomK).all fun i =>
      let bit := (hash + UInt64.ofNat i * 0x9e3779b97f4a7c15) % UInt64.ofNat s.bloomBits
      (s.bloomFilter.getD (bit / 8).toNat 0 &&& (1 <<< (bit % 8).toUInt8)) != 0

/-- `MightContain`. -/
def mightContain (s : Impl) (key : Bytes) : Bool := s.bloomFilterCheck key

/-- `ParseMetaBlock`. -/
def Impl.parseMetaBlock (s : Impl) (data : Bytes) : Except Fault Impl :=
  let size := data.length
  if size < 24 then return s
  else do
    let minSeq ← read64 data 0
    let maxSeq ← read64 data 8
    let smallestLen ← read32 data 16
    let s := { s with minSeq, maxSeq }
    let (s, pos) ←
      if 20 + smallestLen.toNat ≤ size then do
        let smallestKey ← readBytes data 20 smallestLen.toNat
        pure ({ s with smallestKey }, 20 + smallestLen.toNat)
      else pure (s, 20)
    let largestLen ← read32 data pos
    if pos + 4 + largestLen.toNat ≤ size then
      let largestKey ← readBytes data (pos + 4) largestLen.toNat
      return { s with largestKey }
    else return s

/-! ## §4. `GetFromBlock` and `ParseFirstEntry`. -/

/-- One round of the loop over data entries. -/
def entryRound (options : SSTableReaderOptions) (data : Bytes) (searchEnd : Nat) (key : Bytes) :
    Nat × Bytes → Except Fault ((Nat × Bytes) ⊕ (Status × Option Found))
  | (pos, lastKey) =>
      if pos < searchEnd ∧ pos + 12 ≤ data.length then do
        let shared ← read32 data pos
        let unshared ← read32 data (pos + 4)
        let valueLen ← read32 data (pos + 8)
        let seq ← read32 data (pos + 12)
        let deleted ← inside data[pos + 16]?
        let pos := pos + 17
        if pos + shared.toNat + unshared.toNat + valueLen.toNat > data.length then
          return .inr (.notFound "Key not found in block", none)
        else
          let rest ← readBytes data pos unshared.toNat
          let curKey := lastKey.take shared.toNat ++ rest
          let pos := pos + unshared.toNat
          let keyCmp := compareKeys options.comparator curKey key
          if keyCmp = 0 then
            let value ← readBytes data pos valueLen.toNat
            return .inr (.okStatus, some ⟨value, seq.toUInt64, deleted != 0⟩)
          else if keyCmp > 0 then return .inr (.notFound "Key not found in block", none)
          else return .inl (pos + valueLen.toNat, curKey)
      else return .inr (.notFound "Key not found in block", none)

/-- `GetFromBlock` once the block is read; `searchBlock`, read by read. -/
def readFromBlock (options : SSTableReaderOptions) (data key : Bytes) :
    Except Fault (Status × Option Found) :=
  let size := data.length
  if size < 4 then return (.notFound "Empty block", none)
  else do
    let numRestarts ← read32 data (size - 4)
    if numRestarts = 0 ∨ numRestarts.toNat > size / 4 then
      return (.corruption "Invalid restart count", none)
    else
      let restarts ← readRestarts data numRestarts
      let left := restartSearch numRestarts.toNat 0 numRestarts.toNat
      let searchStart ← if left > 0 then inside restarts[left - 1]? else pure 0
      let searchEnd ←
        if left < numRestarts.toNat then UInt32.toNat <$> inside restarts[left]?
        else restartsAt size numRestarts
      loop (entryRound options data searchEnd key) .endless (size + 1) (searchStart.toNat, [])

/-- `ParseFirstEntry` of the iterator: the key and the rest of the entry, or
`none` where the iterator becomes invalid. -/
def parseFirstEntry (data : Bytes) : Except Fault (Option (Bytes × Found)) :=
  let size := data.length
  if size < 4 then return none
  else do
    let numRestarts ← read32 data (size - 4)
    if numRestarts = 0 then return none
    else
      let restarts ← readRestarts data numRestarts
      let first ← inside restarts[0]?
      let pos := first.toNat
      if pos + 17 ≤ size then
        let shared ← read32 data pos
        let unshared ← read32 data (pos + 4)
        let valueLen ← read32 data (pos + 8)
        let seq ← read32 data (pos + 12)
        let deleted ← inside data[pos + 16]?
        let pos := pos + 17
        if pos + shared.toNat + unshared.toNat + valueLen.toNat ≤ size then
          let key ← readBytes data pos unshared.toNat
          let value ← readBytes data (pos + unshared.toNat) valueLen.toNat
          -- `last_key` is empty: the shared bytes are not there
          return some (key, ⟨value, seq.toUInt64, deleted != 0⟩)
        else return none
      else return none

end SSTableReader

end KvEngine
