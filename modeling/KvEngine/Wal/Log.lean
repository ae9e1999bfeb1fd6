/-
  KvEngine.Wal.Log
  ────────────────
  `WriteAheadLog`: the constructor and destructor, `OpenNewLogFile`,
  `WriteRecord`, `FlushBuffer`, `Sync`, `RotateLog`, and `Recover`.

  A copy that would end outside the write buffer has no defined result; the
  functions that copy into the buffer return `none` there.
-/
import KvEngine.Wal.Disk
import KvEngine.Wal.Record

namespace KvEngine

open Lib

structure WalOptions where
  walDir : String := "./wal"
  maxFileSize : Nat := 64 * 1024 * 1024
  bufferSize : Nat := 4 * 1024 * 1024
  syncOnWrite : Bool := true
  deriving DecidableEq, Repr

/-- `WriteAheadLog::Stats`. -/
structure WalStats where
  totalWrites : Nat
  totalBytesWritten : Nat
  totalSyncs : Nat
  currentFileNumber : Nat
  currentFileSize : Nat
  deriving DecidableEq, Repr

/-- The members of `WriteAheadLog::Impl`, and the disk they act on.
`buffer` is what `write_buffer` holds before `buffer_offset`.
`current_file_number` is a `uint64_t`; here it does not wrap. -/
structure WriteAheadLog where
  options : WalOptions
  currentFile : OFStream := {}
  currentFileNumber : Nat
  currentFileSize : Nat := 0
  buffer : Bytes := []
  totalWrites : Nat := 0
  totalBytesWritten : Nat := 0
  totalSyncs : Nat := 0
  disk : Disk

namespace WriteAheadLog

/-! ## §1. Buffer, files, syncing. -/

/-- `write_buffer.size()`. -/
def bufferCapacity (w : WriteAheadLog) : Nat := max 1 w.options.bufferSize

/-- `std::memcpy` to the end of what the buffer holds. -/
def copyToBuffer (w : WriteAheadLog) (bytes : Bytes) : Option WriteAheadLog :=
  if w.buffer.length + bytes.length ≤ w.bufferCapacity then
    some { w with buffer := w.buffer ++ bytes }
  else none

def flushBuffer (env : Env) (w : WriteAheadLog) : WriteAheadLog :=
  if w.buffer.length > 0 ∧ w.currentFile.isOpen then
    let (file, disk) := w.currentFile.write env w.buffer w.disk
    { w with currentFile := file, disk, buffer := [] }
  else w

/-- Closes the current file, if it is open. -/
def closeFile (env : Env) (w : WriteAheadLog) : WriteAheadLog :=
  if w.currentFile.isOpen then
    let (file, disk) := w.currentFile.close env w.disk
    { w with currentFile := file, disk }
  else w

def openNewLogFile (env : Env) (w : WriteAheadLog) : WriteAheadLog :=
  let w := w.closeFile env
  let (file, disk) := OFStream.openAppend env w.currentFileNumber w.disk
  { w with
    currentFile := file
    disk
    currentFileSize :=
      if file.isOpen then ((disk.file w.currentFileNumber).map (·.content.length)).getD 0 else 0 }

/-- Each step that fails ends the call: the stream's flush, opening the file
a second time, and `fsync`, which covers all the file holds by then. -/
def sync (env : Env) (w : WriteAheadLog) : Status × WriteAheadLog :=
  if !w.currentFile.isOpen then (.ioError "WAL file is not open", w)
  else
    let w := w.flushBuffer env
    let (file, disk) := w.currentFile.flush env w.disk
    let w := { w with currentFile := file, disk }
    if !file.good then (.ioError "Failed to flush WAL", w)
    else
      let (a, disk) := w.disk.ask env
      let w := { w with disk }
      match a.ok, disk.file w.currentFileNumber with
      | true, some f =>
          let (a, disk) := disk.ask env
          if a.ok then
            (.okStatus, { w with
              disk := disk.setFile w.currentFileNumber { f with synced := f.content.length }
              totalSyncs := w.totalSyncs + 1 })
          else (.ioError "Failed to sync WAL to disk", { w with disk })
      | _, _ => (.ioError "Failed to open WAL for durable sync", w)

/-- The number counts on here where the source's `uint64_t` starts at 0 again; what is
said of later files holds up to there (`NumbersFile`). -/
def rotateLog (env : Env) (w : WriteAheadLog) : Status × WriteAheadLog :=
  let w := w.flushBuffer env
  let w := w.closeFile env
  let w := { w with currentFileNumber := w.currentFileNumber + 1 }
  (.okStatus, w.openNewLogFile env)

/-! ## §2. `WriteRecord`. -/

/-- Makes room for `bytes` if the buffer is too full, then copies them;
`memcpy` is not called for no bytes. -/
def bufferField (env : Env) (w : WriteAheadLog) (bytes : Bytes) : Option WriteAheadLog :=
  let w := if w.buffer.length + bytes.length > w.bufferCapacity then w.flushBuffer env else w
  if bytes.isEmpty then some w else w.copyToBuffer bytes

/-- Header, key and value go to the buffer one after the other. -/
def bufferRecord (env : Env) (w : WriteAheadLog) (r : WalRecord) : Option WriteAheadLog := do
  let w ← w.bufferField env r.header.encode
  let w ← w.bufferField env r.key
  w.bufferField env r.value

/-- `std::numeric_limits<uint32_t>::max()`. -/
def uint32Max : Nat := 2 ^ 32 - 1

def writeRecord (env : Env) (w : WriteAheadLog) (type : WalRecordType) (key value : Bytes)
    (seq : UInt64) : Option (Status × WriteAheadLog) :=
  if key.length > uint32Max ∨ value.length > uint32Max then
    some (.invalidArgument "WAL key/value is too large", w)
  else do
    let recordSize := kHeaderSize + key.length + value.length
    let (s, w) :=
      if w.currentFileSize + recordSize > w.options.maxFileSize then w.rotateLog env
      else (.okStatus, w)
    if !s.ok then some (s, w)
    else
      let (a, disk) := w.disk.ask env
      let record := WalRecord.make env.crc32 type seq a.time key value
      let w ← { w with disk }.bufferRecord env record
      let w := { w with
        currentFileSize := w.currentFileSize + recordSize
        totalWrites := w.totalWrites + 1
        totalBytesWritten := w.totalBytesWritten + recordSize }
      -- the status of `Sync` is not looked at
      let w := if w.options.syncOnWrite then ((w.flushBuffer env).sync env).2 else w
      some (.okStatus, w)

def put (env : Env) (w : WriteAheadLog) (key value : Bytes) (seq : UInt64) :
    Option (Status × WriteAheadLog) :=
  w.writeRecord env .kPut key value seq

def delete (env : Env) (w : WriteAheadLog) (key : Bytes) (seq : UInt64) :
    Option (Status × WriteAheadLog) :=
  w.writeRecord env .kDelete key [] seq

def beginTransaction (env : Env) (w : WriteAheadLog) (seq : UInt64) :
    Option (Status × WriteAheadLog) :=
  w.writeRecord env .kBeginTransaction [] [] seq

def commitTransaction (env : Env) (w : WriteAheadLog) (seq : UInt64) :
    Option (Status × WriteAheadLog) :=
  w.writeRecord env .kCommitTransaction [] [] seq

def rollbackTransaction (env : Env) (w : WriteAheadLog) (seq : UInt64) :
    Option (Status × WriteAheadLog) :=
  w.writeRecord env .kRollbackTransaction [] [] seq

def flush (env : Env) (w : WriteAheadLog) : Status × WriteAheadLog :=
  (.okStatus, w.flushBuffer env)

def getStats (w : WriteAheadLog) : WalStats :=
  ⟨w.totalWrites, w.totalBytesWritten, w.totalSyncs, w.currentFileNumber, w.currentFileSize⟩

/-! ## §3. Opening and closing. -/

/-- The highest file number in the directory. -/
def highestNumber (d : Disk) : Option Nat := (d.files.entries.map Prod.fst).max?

/-- The constructor: a restart continues the highest-numbered file. -/
def new (env : Env) (options : WalOptions) (d : Disk) : WriteAheadLog :=
  openNewLogFile env {
    options
    currentFileNumber := (highestNumber d).getD 0
    disk := d }

/-- The destructor leaves the disk. -/
def destroy (env : Env) (w : WriteAheadLog) : Disk :=
  if w.currentFile.isOpen then ((w.flushBuffer env).closeFile env).disk else w.disk

/-! ## §4. `Recover`. -/

section Recover

variable {σ : Type} (env : Env) (callback : σ → WalRecordHeader → Bytes → Bytes → Option σ)

/-- The loop over the records of one file. -/
def recoverFile (path : String) : Nat → Bytes → UInt64 → σ → Option (Status × UInt64 × σ)
  | 0, _, _, _ => none
  | fuel + 1, file, maxSeq, s =>
      match readRecord env.crc32 path file with
      | .stop => some (.okStatus, maxSeq, s)
      | .bad status => some (status, maxSeq, s)
      | .frame r rest => do
          let s ← callback s r.header r.key r.value
          let maxSeq := if r.header.sequenceNumber > maxSeq then r.header.sequenceNumber else maxSeq
          recoverFile path fuel rest maxSeq s

/-- The path of a log file. -/
def filePath (options : WalOptions) (n : Nat) : String :=
  options.walDir ++ "/wal_" ++ toString n ++ ".log"

/-- The loop over the files; one that does not open is skipped. -/
def recoverFiles (options : WalOptions) :
    List (Nat × File) → Disk → UInt64 → σ → Option (Status × UInt64 × σ × Disk)
  | [], d, maxSeq, s => some (.okStatus, maxSeq, s, d)
  | (n, f) :: files, d, maxSeq, s => do
      let (a, d) := d.ask env
      if !a.ok then recoverFiles options files d maxSeq s
      else
        let (status, maxSeq, s) ← recoverFile env callback (filePath options n)
          (f.content.length + 1) f.content maxSeq s
        if !status.ok then some (status, maxSeq, s, d)
        else recoverFiles options files d maxSeq s

/-- The status, `*max_sequence` where it is assigned, and what the callback
made of the records. -/
def recover (w : WriteAheadLog) (s : σ) : Option (Status × Option UInt64 × σ × WriteAheadLog) := do
  let (status, maxSeq, s, disk) ←
    recoverFiles env callback w.options w.disk.files.entries w.disk 0 s
  let maxSequence := if status.ok then some maxSeq else none
  some (status, maxSequence, s, { w with disk })

end Recover

end WriteAheadLog

end KvEngine
