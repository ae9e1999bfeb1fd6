/-
  KvEngine.SSTable.Table
  ──────────────────────
  `SSTableReader`: `Open`, `Get`, and the iterator.

  A file is what opening its name gives at that moment.  `Get` and the
  iterator open it again for every block; `Open` reads all its blocks through
  one stream, and a stream that has come to the end of the file reads nothing
  any more.
-/
import KvEngine.SSTable.Parsing

namespace KvEngine

open Lib

/-! ## §1. `Open`. -/

structure SSTableReader where
  options : SSTableReaderOptions := {}
  impl : SSTableReader.Impl := {}
  filename : String := ""
  indexBlockData : Bytes := []
  filterBlockData : Bytes := []
  metaBlockData : Bytes := []
  fileSize : Nat := 0
  numEntries : Nat := 0
  minSequence : UInt64 := 0
  maxSequence : UInt64 := 0
  smallestKey : Bytes := []
  largestKey : Bytes := []

namespace SSTableReader

/-- `resize(handle.size)`, `seekg(handle.offset)` and `read`, into a buffer that
holds `old`: the stream behind it and what the buffer then holds. -/
def readInto (content : Bytes) (good : Bool) (old : Bytes) (handle : BlockHandle) :
    Bool × Bytes :=
  let size := handle.size.toNat
  let buffer := old.take size ++ List.replicate (size - old.length) 0
  if good then
    let bytes := (content.drop handle.offset.toNat).take size
    (decide (handle.offset.toNat + size ≤ content.length), bytes ++ buffer.drop bytes.length)
  else (false, buffer)

/-- A block of the file, if the footer tells of one, and its parser: the stream
behind it, the buffer and what the parser has set. -/
def readAndParse (content : Bytes) (good : Bool) (old : Bytes) (handle : BlockHandle)
    (parse : Impl → Bytes → Except Fault Impl) (impl : Impl) :
    Except Fault (Bool × Bytes × Impl) :=
  if handle.size > 0 then do
    let (good, data) := readInto content good old handle
    let impl ← parse impl data
    return (good, data, impl)
  else return (good, old, impl)

/-- `LoadFile`. -/
def loadFile (r : SSTableReader) (fname : String) (file : Option Bytes) :
    Except Fault (Status × SSTableReader) :=
  let r := { r with filename := fname }
  match loadFooter fname file with
  | .error s => return (s, r)
  | .ok footer => do
      let content := file.getD []
      let (good, indexBlockData, impl) ←
        readAndParse content true r.indexBlockData footer.indexBlock Impl.parseIndexBlock r.impl
      let (good, filterBlockData, impl) ←
        readAndParse content good r.filterBlockData footer.filterBlock Impl.parseFilterBlock impl
      let (_, metaBlockData, impl) ←
        readAndParse content good r.metaBlockData footer.metaBlock Impl.parseMetaBlock impl
      return (.okStatus, { r with indexBlockData, filterBlockData, metaBlockData, impl })

/-- `Open`. -/
def openFile (r : SSTableReader) (filename : String) (file : Option Bytes) :
    Except Fault (Status × SSTableReader) := do
  let (s, r) ← r.loadFile filename file
  if !s.ok then return (s, r)
  else
    return (.okStatus, { r with
      fileSize := r.indexBlockData.length + r.filterBlockData.length + r.metaBlockData.length
        + SSTableFooter.kEncodedSize
      numEntries := r.impl.numEntries
      minSequence := r.impl.minSeq
      maxSequence := r.impl.maxSeq
      smallestKey := r.impl.smallestKey
      largestKey := r.impl.largestKey })

/-! ## §2. `Get`. -/

/-- The value of an `int`; outside its range there is none. -/
def toInt (n : Int) : Except Fault Int :=
  if -2 ^ 31 ≤ n ∧ n < 2 ^ 31 then .ok n else .error .outside

/-- One round of the search over the index: `left`, `right`, and the last entry
found not to be below the key. -/
def searchRound (options : SSTableReaderOptions) (entries : List (Bytes × BlockHandle))
    (key : Bytes) : Int × Int × Int → Except Fault ((Int × Int × Int) ⊕ Int)
  | (left, right, found) =>
      if left ≤ right then do
        let sum ← toInt (left + right)
        let mid := sum.tdiv 2
        let entry ← inside (if 0 ≤ mid then entries[mid.toNat]? else none)
        if compareKeys options.comparator key entry.1 ≤ 0 then
          return .inl (left, mid - 1, mid)
        else return .inl (mid + 1, right, found)
      else return .inr found

/-- The search over the index; `missing` is what it finds where every entry is below
the key. -/
def searchIndex (options : SSTableReaderOptions) (entries : List (Bytes × BlockHandle))
    (key : Bytes) (missing : Int) : Except Fault Int := do
  let right ← toInt ((entries.length : Int) - 1)
  loop (searchRound options entries key) .endless (entries.length + 1) (0, right, missing)

/-- `Get`. -/
def get (r : SSTableReader) (file : Option Bytes) (key : Bytes) :
    Except Fault (Status × Option Found) :=
  if !r.impl.bloomFilterCheck key then
    return (.notFound "Key not found (bloom filter)", none)
  else do
    let entries := r.impl.indexEntries
    let foundBlock ← searchIndex r.options entries key (-1)
    -- a key above all entries is looked for in the last block
    let foundBlock := if foundBlock = -1 then (entries.length : Int) - 1 else foundBlock
    if 0 ≤ foundBlock ∧ foundBlock < entries.length then do
      let entry ← inside entries[foundBlock.toNat]?
      match file with
      | none => return (.ioError "Failed to open file", none)
      | some content => readFromBlock r.options (readBlock content entry.2) key
    else return (.notFound "Key not found", none)

/-! ## §3. The iterator. -/

/-- `SSTableReader::Iterator`. -/
structure Iterator where
  currentBlockIdx : Nat := 0
  currentBlockData : Bytes := []
  currentKey : Bytes := []
  /-- `current_value`, `current_seq` and `current_deleted`. -/
  current : Found := ⟨[], 0, false⟩
  status : Status := .okStatus
  valid : Bool := false

namespace Iterator

/-- `Valid`. -/
def isValid (it : Iterator) : Bool := it.valid && it.status.ok

/-- `LoadBlock`. -/
def loadBlock (r : SSTableReader) (file : Option Bytes) (it : Iterator) (blockIdx : Nat) :
    Except Fault Iterator :=
  match r.impl.indexEntries[blockIdx]? with
  | none => return { it with valid := false }
  | some (_, handle) =>
      match file with
      | none => return { it with status := .ioError "Failed to open file", valid := false }
      | some content => do
          let (_, data) := readInto content true it.currentBlockData handle
          let it := { it with currentBlockIdx := blockIdx, currentBlockData := data }
          match ← parseFirstEntry data with
          | none => return { it with valid := false }
          | some (key, found) =>
              return { it with currentKey := key, current := found, valid := true }

/-- `NextEntry`, which reads the restart points and no entry. -/
def nextEntry (it : Iterator) : Except Fault Iterator :=
  let data := it.currentBlockData
  if data.length < 4 then return { it with valid := false }
  else do
    let numRestarts ← read32 data (data.length - 4)
    let _restarts ← readRestarts data numRestarts
    return { it with valid := false }

/-- `SeekToFirst`. -/
def seekToFirst (r : SSTableReader) (file : Option Bytes) (it : Iterator) :
    Except Fault Iterator := it.loadBlock r file 0

/-- `SeekToLast`. -/
def seekToLast (r : SSTableReader) (file : Option Bytes) (it : Iterator) :
    Except Fault Iterator :=
  if r.impl.indexEntries.isEmpty then return { it with valid := false }
  else do
    let it ← it.loadBlock r file (r.impl.indexEntries.length - 1)
    return { it with valid := false }

/-- `Seek`. -/
def seek (r : SSTableReader) (file : Option Bytes) (it : Iterator) (target : Bytes) :
    Except Fault Iterator := do
  let found ← searchIndex r.options r.impl.indexEntries target 0
  it.loadBlock r file found.toNat

/-- `Next`. -/
def next (r : SSTableReader) (file : Option Bytes) (it : Iterator) : Except Fault Iterator := do
  let it ← it.nextEntry
  if !it.valid then
    if it.currentBlockIdx + 1 < r.impl.indexEntries.length then
      it.loadBlock r file (it.currentBlockIdx + 1)
    else return it
  else return it

/-- `Prev`. -/
def prev (it : Iterator) : Iterator :=
  { it with status := .notSupported "Prev not implemented" }

end Iterator

end SSTableReader

end KvEngine
