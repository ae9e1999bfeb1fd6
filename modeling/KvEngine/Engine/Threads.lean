/-
  KvEngine.Engine.Threads
  ───────────────────────
  Threads that share one `KVEngine`.

  A call takes several steps, and between any two of them other threads may
  run.  Two readers–writer locks keep them apart: `KVEngine::mutex_`, held
  for the whole call, alone by `Put`, `Delete`, `Flush` and `Sync`; and
  `BPlusTree::mutex_`, held while a function of the tree runs, and by an
  iterator from its creation to its destruction, long after `NewIterator` has
  released the first.

  A thread makes one call at a time.  What it does with one iterator counts
  as a call, so that it has no other while an iterator of its own is open.
-/
import KvEngine.BTree.Seek
import KvEngine.BTree.Verify
import KvEngine.Engine.KVEngine
import KvEngine.Lib.Linear
import KvEngine.Lib.SharedMutex

namespace KvEngine

open Lib

/-! ## §1. Calls, and what each does when it runs alone. -/

/-- What an iterator shows: `status()`, `Valid()`, `key()` and `value()`. -/
structure View where
  status : Status
  valid : Bool
  key : Bytes
  value : Bytes
  deriving DecidableEq, Repr

def Iterator.view (tree : BPlusTree) (it : Iterator) : Option View := do
  let valid ← it.valid tree
  let (key, value) ← it.entry tree
  some ⟨it.status, valid, key, value⟩

/-- What an iterator shows at first and after each of the calls. -/
def Iterator.views (tree : BPlusTree) : Iterator → List IteratorCall → Option (List View)
  | it, [] => (it.view tree).map ([·])
  | it, move :: moves => do
      let view ← it.view tree
      let it ← it.call tree move
      let rest ← Iterator.views tree it moves
      some (view :: rest)

/-- An iterator from its creation to its destruction. -/
def Iterator.session (tree : BPlusTree) (start limit : Option Bytes)
    (moves : List IteratorCall) : Option (List View) :=
  (Iterator.new tree start limit).bind (fun it => it.views tree moves)

inductive EngineCall where
  | put (key value : Bytes)
  | delete (key : Bytes)
  | get (key : Bytes)
  | flush
  | sync
  | getWalStats
  | verify
  /-- `NewIterator`, some calls on the iterator, and its destruction. -/
  | iterate (start limit : Option Bytes) (moves : List IteratorCall)
  deriving DecidableEq, Repr

inductive EngineReply where
  | status (s : Status)
  | value (s : Status) (value : Option Bytes)
  | stats (stats : WalStats)
  | verified (ok : Bool)
  | views (views : List View)
  deriving DecidableEq, Repr

def KVEngine.call (env : Env) (e : KVEngine) : EngineCall → Option (EngineReply × KVEngine)
  | .put key value => (e.put env key value).map (fun r => (.status r.1, r.2))
  | .delete key => (e.delete env key).map (fun r => (.status r.1, r.2))
  | .get key => (e.get key).map (fun r => (.value r.1 r.2, e))
  | .flush => some (.status (e.flush env).1, (e.flush env).2)
  | .sync => some (.status (e.sync env).1, (e.sync env).2)
  | .getWalStats => some (.stats e.getWalStats, e)
  | .verify => e.tree.verify.map (fun ok => (.verified ok, e))
  | .iterate start limit moves =>
      (Iterator.session e.tree start limit moves).map (fun views => (.views views, e))

/-- How the call holds `KVEngine::mutex_`. -/
def EngineCall.hold : EngineCall → Hold
  | .put _ _ | .delete _ | .flush | .sync => .unique
  | .get _ | .getWalStats | .verify | .iterate _ _ _ => .shared

/-- How the tree's function holds `BPlusTree::mutex_`. -/
def EngineCall.treeHold : EngineCall → Hold
  | .put _ _ | .delete _ => .unique
  | .get _ | .verify | .iterate _ _ _ => .shared
  | .flush | .sync | .getWalStats => .none

/-- The record that `Put` and `Delete` write. -/
def EngineCall.log (env : Env) (w : WriteAheadLog) (seq : UInt64) :
    EngineCall → Option (Status × WriteAheadLog)
  | .put key value => w.put env key value seq
  | .delete key => w.delete env key seq
  | _ => none

/-- What `Put` and `Delete` do to the tree. -/
def EngineCall.change (t : BPlusTree) : EngineCall → Option (Status × BPlusTree)
  | .put key value => t.put key value
  | .delete key => t.delete key
  | _ => none

/-! ## §2. A thread. -/

inductive Thread where
  | idle
  /-- The call is made; its lock on `mutex_` is not yet taken. -/
  | waiting (c : EngineCall)
  | inEngine (c : EngineCall)
  /-- `Put` or `Delete` has its sequence number. -/
  | numbered (c : EngineCall) (seq : UInt64)
  /-- Its record is in the log. -/
  | written (c : EngineCall)
  /-- The log is done with; the tree's lock is not yet taken. -/
  | logged (c : EngineCall)
  | inTree (c : EngineCall)
  /-- The iterator is there, `NewIterator` has not yet returned. -/
  | opened (it : Iterator) (moves : List IteratorCall)
  | iterating (it : Iterator) (moves : List IteratorCall) (seen : List View)
  /-- The iterator is about to be destroyed. -/
  | closing (reply : EngineReply)
  /-- The function of the tree is done. -/
  | leavingTree (c : EngineCall) (reply : EngineReply)
  | leaving (c : EngineCall) (reply : EngineReply)

namespace Thread

/-- How the thread holds `KVEngine::mutex_`. -/
def hold : Thread → Hold
  | idle | waiting _ | iterating _ _ _ | closing _ => .none
  | numbered _ _ | written _ | logged _ => .unique
  | opened _ _ => .shared
  | inEngine c | inTree c | leavingTree c _ | leaving c _ => c.hold

/-- How the thread holds `BPlusTree::mutex_`. -/
def treeHold : Thread → Hold
  | inTree c | leavingTree c _ => c.treeHold
  | opened _ _ | iterating _ _ _ | closing _ => .shared
  | _ => .none

/-- The next step of a thread, without the locks: where it is after it, and
the engine it leaves. -/
def next (env : Env) (e : KVEngine) : Thread → Option (Thread × KVEngine)
  | idle => none
  | waiting c => some (inEngine c, e)
  | inEngine c =>
      match c with
      | .put _ _ | .delete _ =>
          some (numbered c e.sequenceNumber, { e with sequenceNumber := e.sequenceNumber + 1 })
      | .flush => some (leaving c (.status (e.flush env).1), (e.flush env).2)
      | .sync => some (leaving c (.status (e.sync env).1), (e.sync env).2)
      | .getWalStats => some (leaving c (.stats e.getWalStats), e)
      | .get _ | .verify | .iterate _ _ _ => some (inTree c, e)
  | numbered c seq =>
      match e.wal with
      | none => some (logged c, e)
      | some w => do
          let (s, w) ← c.log env w seq
          let e := { e with wal := some w }
          if !s.ok then some (leaving c (.status s), e) else some (written c, e)
  | written c => do
      let w ← e.wal
      let (s, w) := if e.options.syncOnWrite then w.sync env else (.okStatus, w)
      let e := { e with wal := some w }
      if !s.ok then some (leaving c (.status s), e) else some (logged c, e)
  | logged c =>
      match c with
      -- `BPlusTree::Put` refuses an empty key before it locks
      | .put [] _ => some (leaving c (.status (.invalidArgument "Key cannot be empty")), e)
      | _ => some (inTree c, e)
  | inTree c =>
      match c with
      | .get key => (e.tree.get key).map (fun r => (leavingTree c (.value r.1 r.2), e))
      | .verify => e.tree.verify.map (fun ok => (leavingTree c (.verified ok), e))
      | .iterate start limit moves =>
          (Iterator.new e.tree start limit).map (fun it => (opened it moves, e))
      | _ => (c.change e.tree).map (fun r =>
          (leavingTree c (.status r.1), { e with tree := r.2 }))
  | opened it moves => some (iterating it moves [], e)
  | iterating it moves seen => do
      let view ← it.view e.tree
      match moves with
      | [] => some (closing (.views (seen ++ [view])), e)
      | move :: moves => do
          let it ← it.call e.tree move
          some (iterating it moves (seen ++ [view]), e)
  | leavingTree c reply => some (leaving c reply, e)
  | leaving _ _ => some (idle, e)
  | closing _ => some (idle, e)

/-- The answer a thread is about to return. -/
def answer : Thread → Option EngineReply
  | leaving _ reply | closing reply => some reply
  | _ => none

end Thread

/-! ## §3. The threads together. -/

/-- The engine, its two locks, the threads, and the calls and answers so far. -/
structure SharedEngine where
  engine : KVEngine
  mutex : SharedMutex := {}
  treeMutex : SharedMutex := {}
  threads : List Thread
  history : List (Event Nat EngineCall EngineReply) := []

inductive ThreadStep where
  /-- Thread `i` makes a call. -/
  | call (i : Nat) (c : EngineCall)
  /-- Thread `i` does its next step. -/
  | run (i : Nat)
  deriving DecidableEq, Repr

namespace SharedEngine

/-- `n` threads, none of them in a call. -/
def start (e : KVEngine) (n : Nat) : SharedEngine where
  engine := e
  threads := List.replicate n .idle

/-- One step of one thread; undefined where the thread has to wait for a lock. -/
def step (env : Env) (s : SharedEngine) : ThreadStep → Option SharedEngine
  | .call i c =>
      match s.threads[i]? with
      | some .idle =>
          some { s with
            threads := s.threads.set i (.waiting c)
            history := s.history ++ [.call i c] }
      | _ => none
  | .run i => do
      let t ← s.threads[i]?
      let (t', engine) ← t.next env s.engine
      let mutex ← s.mutex.move t.hold t'.hold
      let treeMutex ← s.treeMutex.move t.treeHold t'.treeHold
      some {
        engine, mutex, treeMutex
        threads := s.threads.set i t'
        history := s.history ++ (t.answer.map (Event.ret i)).toList }

end SharedEngine

end KvEngine
