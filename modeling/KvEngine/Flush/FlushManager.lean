/-
  KvEngine.Flush.FlushManager
  ───────────────────────────
  What `ScheduleFlush` decides about a memtable and what `PerformFlush` does
  with it: one pass of the iterator, every node handed to `SSTableBuilder`.

  The threads that run `PerformFlush` are in `Flush.Workers`.  Next to what
  the source computes, the entries handed to `Add` are recorded.  Where the
  builder has no result, neither has the flush.
-/
import KvEngine.MemTable.MemTable
import KvEngine.SSTable.Filling

namespace KvEngine

open SSTable

namespace FlushManager

/-! ## §1. Options and results. -/

structure Options where
  maxBackgroundFlushes : Int := 4
  dbPath : String := ""
  sstableOptions : SSTableOptions := {}

structure FlushResult where
  sstableFile : String
  minSequence : UInt64
  maxSequence : UInt64
  numEntries : Nat
  fileSize : UInt64
  smallestKey : Bytes
  largestKey : Bytes

/-- What a flush takes from outside: the clock in milliseconds, the random
number of the file name, and the answers of the file. -/
structure Setting where
  timestamp : Int
  draw : Nat
  env : Env

/-- What a flush leaves.  The fields of the result are indeterminate, `none`,
unless `PerformFlush` reached its end. -/
structure Flushed where
  status : Status
  result : Option FlushResult := none
  /-- The entries handed to `Add`, in order. -/
  handed : List Entry := []

/-- Where a flush comes to no result. -/
inductive Fault where
  | memtable (fault : MemTable.Fault)
  | builder
  deriving DecidableEq, Repr

def ofMemTable {α : Type} (x : Except MemTable.Fault α) : Except Fault α := x.mapError .memtable

def ofBuilder {α : Type} : Option α → Except Fault α
  | some a => .ok a
  | none => .error .builder

/-! ## §2. `PerformFlush`. -/

def tableFile (options : Options) (setting : Setting) : String :=
  options.dbPath ++ "/sst_" ++ toString setting.timestamp ++ "_" ++ toString setting.draw ++ ".sst"

/-- The arguments of the `Add` call for a node. -/
def entryOf (n : MemTable.Node) : Entry := ⟨n.key, n.value, n.sequenceNumber, n.isDeleted⟩

/-- Where the loop of `PerformFlush` ends. -/
structure Loop where
  status : Status
  builder : SSTableBuilder
  handed : List Entry

/-- `for (; iter->Valid(); iter->Next())`, at most one round for every node
there is. -/
def addFrom (env : Env) (t : MemTable) :
    Nat → MemTable.Iterator → SSTableBuilder → Except Fault Loop
  | steps, it, builder =>
      if !it.valid then .ok ⟨it.status, builder, []⟩
      else
        match steps with
        | 0 => .error (.memtable .endless)
        | steps + 1 => do
            let node ← ofMemTable (t.impl.node it.current)
            let e := entryOf node
            let added ← ofBuilder (builder.add env e.key e.value e.seq e.deleted)
            -- the first refusal ends the flush
            if !added.1.ok then .ok ⟨added.1, added.2, [e]⟩
            else
              let rest ← addFrom env t steps (← ofMemTable (it.next t)) added.2
              .ok { rest with handed := e :: rest.handed }

/-- `PerformFlush`. -/
def performFlush (options : Options) (setting : Setting) (memtable : Option MemTable) :
    Except Fault Flushed :=
  match memtable with
  | none => .ok { status := .okStatus }
  | some t =>
      if t.size = 0 then .ok { status := .okStatus }
      else do
        let it ← ofMemTable (MemTable.Iterator.new t)
        let it ← ofMemTable (it.seekToFirst t)
        let loop ← addFrom setting.env t t.impl.nodes.length it
          (SSTableBuilder.new options.sstableOptions)
        if !loop.status.ok then .ok { status := loop.status, handed := loop.handed }
        else
          let filename := tableFile options setting
          let finished ← ofBuilder (loop.builder.finish setting.env filename)
          if !finished.1.ok then .ok { status := finished.1, handed := loop.handed }
          else
            .ok {
              status := .okStatus
              handed := loop.handed
              result := some {
                sstableFile := filename
                minSequence := finished.2.impl.minSeq
                maxSequence := finished.2.impl.maxSeq
                numEntries := finished.2.impl.numEntries
                fileSize := finished.2.fileSize
                smallestKey := finished.2.impl.smallestKey
                largestKey := finished.2.impl.largestKey } }

/-! ## §3. `ScheduleFlush`. -/

/-- What `ScheduleFlush` does with a memtable: it refuses, calls back at once
with OK, or makes a job of it. -/
inductive Admission where
  | refused (status : Status)
  | skipped
  | queued (memtable : MemTable)

/-- `ScheduleFlush`, up to the job. -/
def scheduleFlush (running : Bool) (memtable : Option MemTable) : Admission :=
  if !running then .refused (.invalidArgument "FlushManager not started")
  else
    match memtable with
    | none => .skipped
    | some t => if t.size = 0 then .skipped else .queued t

/-- A memtable through `ScheduleFlush` and, if a job is made of it, through
`PerformFlush`. -/
def flush (options : Options) (running : Bool) (setting : Setting) (memtable : Option MemTable) :
    Except Fault Flushed :=
  match scheduleFlush running memtable with
  | .refused status => .ok { status }
  | .skipped => .ok { status := .okStatus }
  | .queued t => performFlush options setting (some t)

end FlushManager

end KvEngine
