/-
  KvEngine.MemTable.MemTable
  ──────────────────────────
  `MemTable`: `Put`, `Get`, `Delete`, `Contains`, the counters, and the
  iterator.

  A call takes the coins `RandomLevel` throws if the call inserts a node.
  The counters are 64-bit unsigned and wrap.
-/
import KvEngine.MemTable.SkipList

namespace KvEngine

namespace MemTable

/-- `sizeof(Node)` and `sizeof(void*)` on a 64-bit platform: two strings of
32 bytes, a vector of 24, a 64-bit number and a flag. -/
def sizeofNode : UInt64 := 104

/-- A forward pointer, as `EstimateMemory` counts it. -/
def sizeofPointer : UInt64 := 8

/-- `MemTableOptions`. -/
structure Options where
  maxSize : UInt64 := 64 * 1024 * 1024
  maxLevel : Nat := 12
  comparator : Option Comparator := none

end MemTable

/-- `MemTable` and the counters of its `Impl`. -/
structure MemTable where
  impl : MemTable.Impl
  options : MemTable.Options
  size : UInt64
  memoryUsage : UInt64
  maxSequence : UInt64

namespace MemTable

/-- `size()` of a string, a `size_t`. -/
def sizeOf (b : Bytes) : UInt64 := UInt64.ofNat b.length

/-! ## §1. Operations. -/

/-- The constructor: an empty list, and the counters at 0. -/
def new (options : Options) : MemTable :=
  ⟨Impl.new options.maxLevel options.comparator, options, 0, 0, 0⟩

/-- `Put`: changes the node of the key, or links a new one in. -/
def put (t : MemTable) (key value : Bytes) (sequenceNumber : UInt64) (coins : List Bool) :
    Except Fault (Status × MemTable) := do
  let (existing, prev) ← t.impl.findGreaterOrEqual key
  match ← t.impl.matching existing key with
  | some (id, node) =>
      .ok (.okStatus, { t with
        impl := t.impl.setNode id { node with value, sequenceNumber, isDeleted := false }
        memoryUsage := t.memoryUsage + (sizeOf value - sizeOf node.value)
        maxSequence := max t.maxSequence sequenceNumber })
  | none =>
      let level := Impl.randomLevel t.impl.maxLevel coins
      let node : Node := ⟨key, value, List.replicate level none, sequenceNumber, false⟩
      let impl ← t.impl.insertNode node prev
      .ok (.okStatus, { t with
        impl
        size := t.size + 1
        memoryUsage := t.memoryUsage +
          (sizeOf key + sizeOf value + sizeofNode + UInt64.ofNat level * sizeofPointer)
        maxSequence := max t.maxSequence sequenceNumber })

/-- `Get`; the value and the sequence number where it finds a live key. -/
def get (t : MemTable) (key : Bytes) : Except Fault (Status × Option (Bytes × UInt64)) := do
  let (existing, _) ← t.impl.findGreaterOrEqual key
  match ← t.impl.matching existing key with
  | some (_, node) =>
      if node.isDeleted then .ok (.notFound "Key deleted", none)
      else .ok (.okStatus, some (node.value, node.sequenceNumber))
  | none => .ok (.notFound "Key not found", none)

/-- `Delete`: leaves a tombstone. -/
def delete (t : MemTable) (key : Bytes) (sequenceNumber : UInt64) (coins : List Bool) :
    Except Fault (Status × MemTable) := do
  let (existing, prev) ← t.impl.findGreaterOrEqual key
  match ← t.impl.matching existing key with
  | some (id, node) =>
      let (size, memoryUsage, value) :=
        if !node.isDeleted then (t.size - 1, t.memoryUsage - sizeOf node.value, [])
        else (t.size, t.memoryUsage, node.value)
      .ok (.okStatus, { t with
        impl := t.impl.setNode id { node with value, sequenceNumber, isDeleted := true }
        size
        memoryUsage
        maxSequence := max t.maxSequence sequenceNumber })
  | none =>
      let level := Impl.randomLevel t.impl.maxLevel coins
      let node : Node := ⟨key, [], List.replicate level none, sequenceNumber, true⟩
      let impl ← t.impl.insertNode node prev
      .ok (.okStatus, { t with
        impl
        memoryUsage := t.memoryUsage +
          (sizeOf key + sizeofNode + UInt64.ofNat level * sizeofPointer)
        maxSequence := max t.maxSequence sequenceNumber })

/-- `Contains`: a tombstone is contained as well. -/
def contains (t : MemTable) (key : Bytes) : Except Fault Bool := do
  let (existing, _) ← t.impl.findGreaterOrEqual key
  return (← t.impl.matching existing key).isSome

/-- `IsFull`. -/
def isFull (t : MemTable) : Bool := t.memoryUsage ≥ t.options.maxSize

/-! ## §2. The iterator. -/

/-- `MemTableIterator::Impl`. -/
structure Iterator where
  current : Option NodeId
  status : Status := .okStatus

namespace Iterator

/-- `Valid`. -/
def valid (it : Iterator) : Bool := it.current.isSome && it.status.ok

/-- `SeekToFirst`: to the node behind the head. -/
def seekToFirst (t : MemTable) (it : Iterator) : Except Fault Iterator := do
  return { it with current := ← t.impl.forward (some 0) 0 }

/-- `SeekToLast`: the last node, unless that is the head. -/
def seekToLast (t : MemTable) (it : Iterator) : Except Fault Iterator := do
  let last ← t.impl.findLast
  return { it with current := if last = 0 then none else some last }

/-- `Seek`: to the first node not before the target. -/
def seek (t : MemTable) (it : Iterator) (target : Bytes) : Except Fault Iterator := do
  return { it with current := (← t.impl.findGreaterOrEqual target).1 }

/-- `Next`; a cursor at the end stays there. -/
def next (t : MemTable) (it : Iterator) : Except Fault Iterator :=
  match it.current with
  | none => .ok it
  | some id => do return { it with current := ← t.impl.forward (some id) 0 }

/-- `Prev` only sets the status. -/
def prev (it : Iterator) : Iterator :=
  { it with status := .notSupported "Prev not implemented for skip list iterator" }

/-- `NewIterator`. -/
def new (t : MemTable) : Except Fault Iterator := seekToFirst t { current := none }

end Iterator

/-- `while (it.Valid()) { …; it.Next(); }`: the nodes seen, at most one
for every node there is. -/
def scanFrom (t : MemTable) : Nat → Iterator → Except Fault (List Node)
  | steps, it =>
      if !it.valid then .ok []
      else
        match steps with
        | 0 => .error .endless
        | steps + 1 => do
            let node ← t.impl.node it.current
            let nodes ← t.scanFrom steps (← it.next t)
            return node :: nodes

/-- In-order iteration, from `SeekToFirst` on. -/
def scan (t : MemTable) : Except Fault (List Node) := do
  t.scanFrom t.impl.nodes.length (← (← Iterator.new t).seekToFirst t)

end MemTable

end KvEngine
