/-
  KvEngine.Engine.KVEngine
  ────────────────────────
  `KVEngine`: the B+ tree behind a write-ahead log.  `Put` and `Delete` log
  the operation, then sync if asked to, then change the tree; the
  constructor replays the log into an empty tree.
-/
import KvEngine.BTree.Tree
import KvEngine.Wal.Log

namespace KvEngine

open Lib

/-- `KVEngineOptions`, with the defaults of the header. -/
structure KVEngineOptions where
  btreeOptions : BTreeOptions := {}
  walOptions : WalOptions := {}
  enableWal : Bool := true
  syncOnWrite : Bool := false

/-- `KVEngine`: there is a log if `enable_wal` is set. -/
structure KVEngine where
  options : KVEngineOptions
  tree : BPlusTree
  wal : Option WriteAheadLog := none
  sequenceNumber : UInt64 := 1

namespace KVEngine

/-- The common body of `Put` and `Delete`: log with the next sequence number,
sync, then change the tree; the first step that fails ends the call. -/
def logged (env : Env) (e : KVEngine)
    (log : WriteAheadLog → UInt64 → Option (Status × WriteAheadLog))
    (change : BPlusTree → Option (Status × BPlusTree)) : Option (Status × KVEngine) := do
  let seq := e.sequenceNumber
  let e := { e with sequenceNumber := seq + 1 }
  match e.wal with
  | none =>
      let (s, tree) ← change e.tree
      some (s, { e with tree })
  | some w =>
      let (s, w) ← log w seq
      if !s.ok then some (s, { e with wal := some w })
      else
        let (s, w) := if e.options.syncOnWrite then w.sync env else (.okStatus, w)
        if !s.ok then some (s, { e with wal := some w })
        else
          let (s, tree) ← change e.tree
          some (s, { e with tree, wal := some w })

/-- `Put`: the record is written before the tree changes. -/
def put (env : Env) (e : KVEngine) (key value : Bytes) : Option (Status × KVEngine) :=
  e.logged env (fun w seq => w.put env key value seq) (·.put key value)

/-- `Delete`; the record of a key that is not there is written as well. -/
def delete (env : Env) (e : KVEngine) (key : Bytes) : Option (Status × KVEngine) :=
  e.logged env (fun w seq => w.delete env key seq) (·.delete key)

/-- `Get` asks the tree alone. -/
def get (e : KVEngine) (key : Bytes) : Option (Status × Option Bytes) := e.tree.get key

/-- `RecoveryCallback`; transaction markers change nothing. -/
def recoveryCallback (t : BPlusTree) (header : WalRecordHeader) (key value : Bytes) :
    Option BPlusTree :=
  if header.type = .kPut then (t.put key value).map Prod.snd
  else if header.type = .kDelete then (t.delete key).map Prod.snd
  else some t

/-- `Recover`: the log replayed into the tree; the next sequence number is behind the
last one read. -/
def recover (env : Env) (e : KVEngine) : Option (Status × KVEngine) :=
  match e.wal with
  | none => some (.okStatus, e)
  | some w => do
      let (s, maxSequence, tree, w) ← w.recover env recoveryCallback e.tree
      let e := { e with tree, wal := some w }
      let maxSequence := maxSequence.getD 0
      let e := if s.ok && maxSequence > 0 then { e with sequenceNumber := maxSequence + 1 } else e
      some (s, e)

/-- `Flush`: the buffer of the log goes to its stream. -/
def flush (env : Env) (e : KVEngine) : Status × KVEngine :=
  match e.wal with
  | none => (.okStatus, e)
  | some w => ((w.flush env).1, { e with wal := some (w.flush env).2 })

/-- `Sync`: `Flush` and an `fsync`. -/
def sync (env : Env) (e : KVEngine) : Status × KVEngine :=
  match e.wal with
  | none => (.okStatus, e)
  | some w => ((w.sync env).1, { e with wal := some (w.sync env).2 })

/-- `GetWalStats`. -/
def getWalStats (e : KVEngine) : WalStats :=
  match e.wal with
  | none => ⟨0, 0, 0, 0, 0⟩
  | some w => w.getStats

/-- The constructor on the directory `d`; a recovery that fails is only
warned about. -/
def new (env : Env) (options : KVEngineOptions) (d : Disk) : Option KVEngine := do
  let e : KVEngine := { options, tree := BPlusTree.new options.btreeOptions }
  if options.enableWal then
    let (_, e) ← { e with wal := some (WriteAheadLog.new env options.walOptions d) }.recover env
    some e
  else some e

/-- The destructor leaves the disk; without a log there is none. -/
def destroy (env : Env) (e : KVEngine) : Option Disk := e.wal.map (·.destroy env)

end KVEngine

end KvEngine
