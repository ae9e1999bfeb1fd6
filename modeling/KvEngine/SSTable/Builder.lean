/-
  KvEngine.SSTable.Builder
  ────────────────────────
  `SSTableBuilder`: `Add`, which fills data blocks, and `Finish`, which
  writes the blocks and the footer to a file.

  A data block is a run of entries, the restart points and their number.  An
  entry is a header of 17 bytes, the part of the key it does not share with
  the key before it, and the value.  `FlushBlock` may run before any file is
  open; the write then fails and nothing is kept of it.

  Headers are written through pointers taken before the buffer grows, and the
  index inserts a handle from between two temporaries.  Where such a write
  leaves the storage of the buffer, or such a range is none, there is no
  result: `none`.  `addMeant` and `indexBytes` are what the code is after,
  every header at the end of its buffer.
-/
import KvEngine.Lib.FrontCoding
import KvEngine.SSTable.Format

namespace KvEngine

open Lib

/-! ## §1. Files. -/

namespace SSTable

/-- The outcome of one request on a file: success, and how many bytes a
write handed over, or a close that failed. -/
structure Answer where
  ok : Bool := true
  moved : Nat := 0

/-- The answers to all requests to come. -/
abbrev Env := Nat → Answer

/-- An `std::ofstream`, the bytes it has not handed over yet, and the file
it was last opened on. -/
structure OFStream where
  isOpen : Bool := false
  good : Bool := true
  pending : Bytes := []
  content : Option Bytes := none
  requests : Nat := 0

namespace OFStream

/-- `open(…, std::ios::trunc)`. -/
def openTrunc (env : Env) (s : OFStream) : OFStream :=
  if s.isOpen then { s with good := false }
  else if (env s.requests).ok then
    { isOpen := true, good := true, pending := [], content := some []
      requests := s.requests + 1 }
  else { s with good := false, requests := s.requests + 1 }

/-- `write`: nothing happens on a stream that is not good.  One that fails
keeps in its buffer what was there, and none of the new bytes. -/
def write (env : Env) (s : OFStream) (bytes : Bytes) : OFStream :=
  if !s.good then s
  else if !s.isOpen then { s with good := false }
  else
    let a := env s.requests
    let data := s.pending ++ bytes
    { s with
      good := a.ok
      pending := if a.ok then data.drop a.moved else s.pending
      content := s.content.map (· ++ data.take a.moved)
      requests := s.requests + 1 }

/-- `close`: whatever cannot be handed over is lost. -/
def close (env : Env) (s : OFStream) : OFStream :=
  if !s.isOpen then { s with good := false }
  else
    let a := env s.requests
    let data := if a.ok then s.pending else s.pending.take a.moved
    { isOpen := false
      good := s.good && a.ok
      pending := []
      content := s.content.map (· ++ data)
      requests := s.requests + 1 }

end OFStream

end SSTable

open SSTable

/-! ## §2. State. -/

structure SSTableOptions where
  blockSize : Nat := 4096
  blockRestartInterval : Nat := 16
  comparator : Option Comparator := none
  enableBloomFilter : Bool := true
  bloomFilterBitsPerKey : Nat := 10
  /-- What the floating-point product `bits_per_key * 0.69` is cut down to. -/
  bloomHashes : Nat := 6

namespace SSTableBuilder

/-- `SSTableBuilder::Impl`. -/
structure Impl where
  options : SSTableOptions
  file : OFStream := {}
  filename : String := ""
  indexBuffer : Bytes := []
  filterBuffer : Bytes := []
  filterKeysHash : List UInt64 := []
  currentBlock : Bytes := []
  restartPoints : List UInt32 := []
  lastKey : Bytes := []
  entriesInBlock : Nat := 0
  blockOffset : UInt64 := 0
  indexEntries : List (Bytes × BlockHandle) := []
  minSeq : UInt64 := 0xFFFFFFFFFFFFFFFF
  maxSeq : UInt64 := 0
  smallestKey : Bytes := []
  largestKey : Bytes := []
  numEntries : Nat := 0

/-- `shared`, as `AddToBlock` and `WriteIndexBlock` count it. -/
def shared (key lastKey : Bytes) : Nat := commonPrefix key lastKey

def sizeOf (b : Bytes) : UInt64 := UInt64.ofNat b.length

/-- The hash of the bloom filter. -/
def bloomHash (key : Bytes) : UInt64 :=
  key.foldl (fun hash b => hash * 31 + b.toUInt64) 0

/-- Restart points and their number, as they end a block. -/
def restartBytes (restarts : List UInt32) : Bytes :=
  restarts.flatMap store32 ++ store32 (UInt32.ofNat restarts.length)

namespace Impl

/-! ## §3. Data blocks. -/

def resetBlock (s : Impl) : Impl :=
  { s with currentBlock := [], restartPoints := [0], lastKey := [], entriesInBlock := 0 }

/-- The bytes `FlushBlock` writes. -/
def sealed (s : Impl) : Bytes := s.currentBlock ++ restartBytes s.restartPoints

def flushBlock (env : Env) (s : Impl) : Impl :=
  if s.entriesInBlock = 0 then s
  else
    let block := s.sealed
    let handle : BlockHandle := ⟨s.blockOffset, sizeOf block⟩
    let indexEntries := s.indexEntries ++ [(s.lastKey, handle)]
    resetBlock { s with
      file := s.file.write env block
      blockOffset := s.blockOffset + sizeOf block
      indexEntries
      filterKeysHash :=
        if s.options.enableBloomFilter then
          s.filterKeysHash ++ indexEntries.map (fun entry => bloomHash entry.1)
        else s.filterKeysHash }

/-- An entry as `AddToBlock` writes it; `n` bytes of the key are shared. -/
def entryBytes (n : Nat) (key value : Bytes) (seq : UInt64) (deleted : Bool) : Bytes :=
  store32 (UInt32.ofNat n) ++ store32 (UInt32.ofNat (key.length - n))
    ++ store32 (UInt32.ofNat value.length) ++ store32 seq.toUInt32
    ++ [if deleted then 1 else 0] ++ key.drop n ++ value

/-- Cuts the block if the entry does not fit behind the others. -/
def makeRoom (env : Env) (s : Impl) (key value : Bytes) : Impl :=
  let needed := 4 + 4 + 4 + 4 + 1 + (key.length - shared key s.lastKey) + value.length
  if s.currentBlock.length + needed > s.options.blockSize ∧ s.entriesInBlock > 0 then
    s.flushBlock env
  else s

/-- Puts an entry behind the others; `n` bytes of its key are shared. -/
def appendEntry (s : Impl) (n : Nat) (key value : Bytes) (seq : UInt64) (deleted : Bool) : Impl :=
  let start := s.currentBlock.length
  let entriesInBlock := s.entriesInBlock + 1
  { s with
    currentBlock := s.currentBlock ++ entryBytes n key value seq deleted
    entriesInBlock
    restartPoints :=
      if entriesInBlock % s.options.blockRestartInterval = 0 then
        s.restartPoints ++ [UInt32.ofNat start]
      else s.restartPoints
    lastKey := key }

/-- `AddToBlock` with the header at the end of the block, whatever storage the
block has; `shared` is counted before a full block is cut. -/
def addToBlockMeant (env : Env) (s : Impl) (key value : Bytes) (seq : UInt64) (deleted : Bool) :
    Impl :=
  (s.makeRoom env key value).appendEntry (shared key s.lastKey) key value seq deleted

/-- `AddToBlock`.  The pointer for the header is taken before the block grows,
so the 17 bytes have to lie in the storage reserved for `block_size` bytes;
the number of entries is taken modulo the restart interval. -/
def addToBlock (env : Env) (s : Impl) (key value : Bytes) (seq : UInt64) (deleted : Bool) :
    Option Impl :=
  let n := shared key s.lastKey
  let s := s.makeRoom env key value
  if s.options.blockSize < s.currentBlock.length + 17 then none
  else if s.options.blockRestartInterval = 0 then none
  else some (s.appendEntry n key value seq deleted)

/-! ## §4. The other blocks. -/

/-- One entry of the index block as it is meant, put behind `data`. -/
def addToIndex (interval : Nat) : Bytes × Bytes × List UInt32 × Nat → Bytes × BlockHandle →
    Bytes × Bytes × List UInt32 × Nat
  | (data, lastKey, restarts, count), (key, handle) =>
      let n := shared key lastKey
      let entry := store32 (UInt32.ofNat n) ++ store32 (UInt32.ofNat (key.length - n))
        ++ store32 (UInt32.ofNat handle.encode.length) ++ key.drop n ++ handle.encode
      let count := count + 1
      (data ++ entry, key,
        if count % interval = 0 then restarts ++ [UInt32.ofNat data.length] else restarts, count)

/-- The bytes the index block is meant to have. -/
def indexBytes (s : Impl) : Bytes :=
  let (data, _, restarts, _) :=
    s.indexEntries.foldl (addToIndex s.options.blockRestartInterval) ([], [], [0], 0)
  data ++ restartBytes restarts

/-- Writes a block at the end of the file. -/
def writeBlock (env : Env) (s : Impl) (bytes : Bytes) : Impl :=
  { s with file := s.file.write env bytes, blockOffset := s.blockOffset + sizeOf bytes }

/-- The bytes `WriteIndexBlock` builds when every header goes to the end of the
buffer.  The handle is inserted from the beginning of one `Encode()` to the end
of another, which is no range of either: `insert` throws in the first round. -/
def indexData (s : Impl) : Option Bytes :=
  match s.indexEntries with
  | [] => some (restartBytes [0])
  | _ :: _ => none

/-- `WriteIndexBlock`.  The first header goes to where `&index_data[0]` of the
empty buffer points, which is nowhere, so the loop does not get to its `insert`. -/
def writeIndexBlock (env : Env) (s : Impl) : Option Impl :=
  match s.indexEntries with
  | [] => some { s.writeBlock env (restartBytes [0]) with indexBuffer := restartBytes [0] }
  | _ :: _ => none

/-- Sets the bits of one hash. -/
def setBits (bits : UInt64) (hashes : Nat) (filter : Bytes) (hash : UInt64) : Bytes :=
  (List.range hashes).foldl (fun filter i =>
    let bit := (hash + UInt64.ofNat i * 0x9e3779b97f4a7c15) % bits
    filter.modify (bit / 8).toNat (fun b => b ||| (1 <<< (bit % 8).toUInt8))) filter

/-- The bytes of the filter block. -/
def filterBytes (s : Impl) : Bytes :=
  let bits := s.filterKeysHash.length * s.options.bloomFilterBitsPerKey
  s.filterKeysHash.foldl (setBits (UInt64.ofNat bits) s.options.bloomHashes)
      (List.replicate ((bits + 7) / 8) 0)
    ++ store32 (UInt32.ofNat s.options.bloomHashes)

/-- The filter block, if there is one. -/
def filterBlock (s : Impl) : List Bytes :=
  if !s.options.enableBloomFilter || s.filterKeysHash.isEmpty then [] else [s.filterBytes]

def writeFilterBlock (env : Env) (s : Impl) : Impl :=
  if !s.options.enableBloomFilter || s.filterKeysHash.isEmpty then s
  else { s.writeBlock env s.filterBytes with filterBuffer := s.filterBytes }

/-- The bytes of the meta block. -/
def metaBytes (s : Impl) : Bytes :=
  store64 s.minSeq ++ store64 s.maxSeq
    ++ store32 (UInt32.ofNat s.smallestKey.length) ++ s.smallestKey
    ++ store32 (UInt32.ofNat s.largestKey.length) ++ s.largestKey

def writeMetaBlock (env : Env) (s : Impl) : Impl := s.writeBlock env s.metaBytes

end Impl

end SSTableBuilder

/-! ## §5. `Add` and `Finish`. -/

structure SSTableBuilder where
  impl : SSTableBuilder.Impl
  options : SSTableOptions
  numEntries : Nat := 0
  fileSize : UInt64 := 0
  finished : Bool := false
  abandoned : Bool := false

namespace SSTableBuilder

def new (options : SSTableOptions) : SSTableBuilder := { impl := { options }, options }

/-- `Add`. -/
def add (env : Env) (b : SSTableBuilder) (key value : Bytes) (seq : UInt64) (deleted : Bool) :
    Option (Status × SSTableBuilder) :=
  if b.finished || b.abandoned then
    some (.invalidArgument "Builder already finished or abandoned", b)
  else if b.impl.numEntries > 0 ∧ compareKeys b.options.comparator key b.impl.lastKey ≤ 0 then
    some (.invalidArgument "Keys must be added in strictly increasing order", b)
  else do
    let impl := { b.impl with minSeq := min b.impl.minSeq seq, maxSeq := max b.impl.maxSeq seq }
    let impl ← impl.addToBlock env key value seq deleted
    return (.okStatus, { b with impl := { impl with numEntries := impl.numEntries + 1 } })

/-- `Add` with every header at the end of its block. -/
def addMeant (env : Env) (b : SSTableBuilder) (key value : Bytes) (seq : UInt64)
    (deleted : Bool) : Status × SSTableBuilder :=
  if b.finished || b.abandoned then
    (.invalidArgument "Builder already finished or abandoned", b)
  else if b.impl.numEntries > 0 ∧ compareKeys b.options.comparator key b.impl.lastKey ≤ 0 then
    (.invalidArgument "Keys must be added in strictly increasing order", b)
  else
    let impl := { b.impl with minSeq := min b.impl.minSeq seq, maxSeq := max b.impl.maxSeq seq }
    let impl := impl.addToBlockMeant env key value seq deleted
    (.okStatus, { b with impl := { impl with numEntries := impl.numEntries + 1 } })

/-- The state of `Finish` once all blocks are written, and the footer it has
filled in but for the checksum. -/
def finishBlocks (env : Env) (b : SSTableBuilder) (impl : Impl) :
    Option (Impl × SSTableFooter) := do
  let impl := impl.flushBlock env
  let impl ← impl.writeIndexBlock env
  let indexHandle : BlockHandle :=
    ⟨impl.blockOffset - sizeOf impl.indexBuffer, sizeOf impl.indexBuffer⟩
  let (impl, filterHandle) :=
    if b.options.enableBloomFilter then
      let filterStart := impl.blockOffset
      let impl := impl.writeFilterBlock env
      (impl, (⟨filterStart, sizeOf impl.filterBuffer⟩ : BlockHandle))
    else (impl, ⟨0, 0⟩)
  let metaStart := impl.blockOffset
  let impl := impl.writeMetaBlock env
  let metaHandle : BlockHandle := ⟨metaStart, impl.blockOffset - metaStart⟩
  return (impl, { indexBlock := indexHandle, filterBlock := filterHandle, metaBlock := metaHandle })

/-- `Finish`.  The checksum goes into the footer after the footer has been
encoded, and the encoding is what is written. -/
def finish (env : Env) (b : SSTableBuilder) (filename : String) :
    Option (Status × SSTableBuilder) :=
  if b.finished || b.abandoned then
    some (.invalidArgument "Builder already finished or abandoned", b)
  else
    let impl := { b.impl with filename, file := b.impl.file.openTrunc env }
    if !impl.file.isOpen then
      some (.ioError ("Failed to open file: " ++ filename), { b with impl })
    else do
      let (impl, footer) ← b.finishBlocks env impl
      let footerData := footer.encode
      let _footer :=
        { footer with crc32 := computeCRC32 (footerData.take (footerData.length - 4)) }
      let impl := { impl with file := (impl.file.write env footerData).close env }
      if !impl.file.good then return (.ioError "Error writing SSTable file", { b with impl })
      else
        return (.okStatus, { b with
          impl
          fileSize := impl.blockOffset + sizeOf footerData
          numEntries := impl.numEntries
          finished := true })

/-- `Abandon`; what is done to the file is left out. -/
def abandon (b : SSTableBuilder) : SSTableBuilder := { b with abandoned := true }

end SSTableBuilder

end KvEngine
