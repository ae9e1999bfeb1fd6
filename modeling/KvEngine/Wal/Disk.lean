/-
  KvEngine.Wal.Disk
  ─────────────────
  The directory of log files, and the output stream the log writes through.

  Of each file `wal_<n>.log` the directory holds the contents and how many of
  its bytes the last successful `fsync` covered; only these are certain to
  survive a power loss.  A directory is kept in ascending order of `n`, the
  order in which `Recover` visits the files whatever order the iterator
  yields them in.

  An `std::ofstream` keeps bytes in a buffer of its own.  A write may hand
  any part of them to the file; a successful flush or close hands over all
  of them.  A write or flush that fails may still have handed over some; it
  leaves the stream unusable until a file is opened again, and the buffer as
  it was, so that a close hands the same bytes over once more.
-/
import KvEngine.Slice
import KvEngine.Lib.SortedEntries

namespace KvEngine

open Lib

/-! ## §1. What lies outside the repository. -/

/-- The outcome of one request to the operating system. -/
structure Answer where
  ok : Bool := true
  /-- Bytes handed to the file by a write, or by a flush or close that fails. -/
  moved : Nat := 0
  /-- The clock, in microseconds. -/
  time : UInt64 := 0

/-- zlib's `crc32`, and the answers to all requests to come. -/
structure Env where
  crc32 : Bytes → UInt32
  answer : Nat → Answer

/-! ## §2. Files. -/

structure File where
  content : Bytes := []
  synced : Nat := 0
  deriving DecidableEq, Repr

/-- The log files by number. -/
structure Directory where
  entries : List (Nat × File) := []
  sorted : Sorted TotalCompare.nat entries := by exact List.Pairwise.nil

/-- The directory, and how many requests have been made. -/
structure Disk where
  files : Directory := {}
  requests : Nat := 0

namespace Disk

def file (d : Disk) (n : Nat) : Option File := find TotalCompare.nat d.files.entries n

def setFile (d : Disk) (n : Nat) (f : File) : Disk :=
  { d with files :=
      ⟨insertEntry TotalCompare.nat n f d.files.entries, sorted_insertEntry d.files.sorted⟩ }

def ask (env : Env) (d : Disk) : Answer × Disk :=
  (env.answer d.requests, { d with requests := d.requests + 1 })

/-- Appends to a file that exists. -/
def append (d : Disk) (n : Nat) (bytes : Bytes) : Disk :=
  match d.file n with
  | none => d
  | some f => d.setFile n { f with content := f.content ++ bytes }

end Disk

/-! ## §3. Output streams. -/

/-- An `std::ofstream`; `file` is the number of the open file. -/
structure OFStream where
  file : Option Nat := none
  good : Bool := true
  pending : Bytes := []
  deriving DecidableEq, Repr

namespace OFStream

def isOpen (s : OFStream) : Bool := s.file.isSome

/-- Hands `bytes` to the open file. -/
def deliver (s : OFStream) (bytes : Bytes) (d : Disk) : Disk :=
  match s.file with
  | none => d
  | some n => d.append n bytes

/-- `open(…, std::ios::app)` on a closed stream: creates the file if there
is none. -/
def openAppend (env : Env) (n : Nat) (d : Disk) : OFStream × Disk :=
  let (a, d) := d.ask env
  if a.ok then
    let d := if (d.file n).isNone then d.setFile n {} else d
    ({ file := some n }, d)
  else ({ good := false }, d)

/-- `write`: nothing happens on a stream that is not good.  One that fails
keeps in its buffer what was there, and none of the new bytes. -/
def write (env : Env) (s : OFStream) (bytes : Bytes) (d : Disk) : OFStream × Disk :=
  if s.good then
    let (a, d) := d.ask env
    let data := s.pending ++ bytes
    ({ s with pending := if a.ok then data.drop a.moved else s.pending, good := a.ok },
      s.deliver (data.take a.moved) d)
  else (s, d)

/-- `flush`: one that fails keeps its whole buffer. -/
def flush (env : Env) (s : OFStream) (d : Disk) : OFStream × Disk :=
  if s.good then
    let (a, d) := d.ask env
    if a.ok then ({ s with pending := [] }, s.deliver s.pending d)
    else ({ s with good := false }, s.deliver (s.pending.take a.moved) d)
  else (s, d)

/-- `close` hands the buffer over also when the stream is not good; whatever
cannot be handed over is lost. -/
def close (env : Env) (s : OFStream) (d : Disk) : OFStream × Disk :=
  let (a, d) := d.ask env
  ({ good := s.good && a.ok },
    s.deliver (if a.ok then s.pending else s.pending.take a.moved) d)

end OFStream

end KvEngine
