/-
  KvEngine.MemTable.SkipList
  ──────────────────────────
  `MemTable::Impl`: the skip list under the memtable.

  Nodes live in `nodes`, a pointer is an index there or null, and the head is
  node 0.  A step that has no defined result ends in a `Fault`, which says
  what went wrong: a null pointer was followed, a vector was indexed outside
  its range, or the search went on for more steps than there are nodes and
  levels.
-/
import KvEngine.Slice
import KvEngine.Status

namespace KvEngine

namespace MemTable

/-! ## §1. Nodes and pointers. -/

abbrev NodeId := Nat

structure Node where
  key : Bytes
  value : Bytes
  forward : List (Option NodeId)
  sequenceNumber : UInt64
  isDeleted : Bool
  deriving DecidableEq

/-- What leaves an operation without a result. -/
inductive Fault where
  | nullPointer
  | outOfRange
  | endless
  deriving DecidableEq, Repr

/-- `MemTable::Impl`. -/
structure Impl where
  nodes : List Node
  maxLevel : Nat
  comparator : Option Comparator
  currentMaxLevel : Nat

namespace Impl

/-- The constructor: a head with `max_level + 1` forward pointers. -/
def new (maxLevel : Nat) (comparator : Option Comparator) : Impl :=
  let head : Node := ⟨[], [], List.replicate (maxLevel + 1) none, 0, false⟩
  ⟨[head], maxLevel, comparator, 1⟩

/-- The order the list is kept in. -/
def order (t : Impl) : Comparator := keyOrder t.comparator

/-- `*p`. -/
def node (t : Impl) (p : Option NodeId) : Except Fault Node :=
  match p with
  | none => .error .nullPointer
  | some id =>
      match t.nodes[id]? with
      | none => .error .outOfRange
      | some n => .ok n

/-- `p->forward[level]`. -/
def forward (t : Impl) (p : Option NodeId) (level : Nat) : Except Fault (Option NodeId) := do
  let n ← t.node p
  match n.forward[level]? with
  | none => .error .outOfRange
  | some q => .ok q

def setNode (t : Impl) (id : NodeId) (n : Node) : Impl :=
  { t with nodes := t.nodes.set id n }

/-- `p->forward[level] = q`. -/
def setForward (t : Impl) (p : Option NodeId) (level : Nat) (q : Option NodeId) :
    Except Fault Impl := do
  let n ← t.node p
  let id := p.getD 0
  if level < n.forward.length then
    .ok (t.setNode id { n with forward := n.forward.set level q })
  else .error .outOfRange

/-! ## §2. Searching. -/

/-- `next && CompareKeys(next->key, key) < 0`: the node the search moves on
to, if it does. -/
def before (t : Impl) (next : Option NodeId) (key : Bytes) : Except Fault (Option NodeId) :=
  match next with
  | none => .ok none
  | some id => do
      let n ← t.node (some id)
      .ok (if compareKeys t.comparator n.key key < 0 then some id else none)

/-- The loop of `FindGreaterOrEqual`: on each level go right while the keys
are smaller, note the node where the level is left, and go down. -/
def findLoop (t : Impl) (key : Bytes) :
    Nat → NodeId → Nat → List (Option NodeId) →
      Except Fault (Option NodeId × List (Option NodeId))
  | 0, _, _, _ => .error .endless
  | steps + 1, current, level, prev => do
      let next ← t.forward (some current) level
      match ← t.before next key with
      | some id => t.findLoop key steps id level prev
      | none =>
          let prev := prev.set level (some current)
          match level with
          | 0 => .ok (next, prev)
          | level + 1 => t.findLoop key steps current level prev

/-- `FindGreaterOrEqual`: the first node whose key is not below `key`, and
the nodes before it on the levels in use.  `prev` is null on all others. -/
def findGreaterOrEqual (t : Impl) (key : Bytes) :
    Except Fault (Option NodeId × List (Option NodeId)) :=
  t.findLoop key (t.nodes.length + t.currentMaxLevel) 0 (t.currentMaxLevel - 1)
    (List.replicate (t.maxLevel + 1) none)

/-- `existing && CompareKeys(existing->key, key) == 0`. -/
def matching (t : Impl) (existing : Option NodeId) (key : Bytes) :
    Except Fault (Option (NodeId × Node)) :=
  match existing with
  | none => .ok none
  | some id => do
      let n ← t.node (some id)
      .ok (if compareKeys t.comparator n.key key = 0 then some (id, n) else none)

/-- The loop of `FindLast`. -/
def findLastLoop (t : Impl) : Nat → NodeId → Nat → Except Fault NodeId
  | 0, _, _ => .error .endless
  | steps + 1, current, level => do
      match ← t.forward (some current) level with
      | some id => t.findLastLoop steps id level
      | none =>
          match level with
          | 0 => .ok current
          | level + 1 => t.findLastLoop steps current level

/-- `FindLast`: the last node, or the head if there is none. -/
def findLast (t : Impl) : Except Fault NodeId :=
  t.findLastLoop (t.nodes.length + t.currentMaxLevel) 0 (t.currentMaxLevel - 1)

/-! ## §3. Inserting. -/

/-- The loop of `RandomLevel`: one level more for every coin that falls below
`probability`, until one does not or `max_level` is reached. -/
def raiseLevel (maxLevel : Nat) : List Bool → Nat → Nat
  | true :: coins, level =>
      if level < maxLevel then raiseLevel maxLevel coins (level + 1) else level
  | _, level => level

/-- `RandomLevel`. -/
def randomLevel (maxLevel : Nat) (coins : List Bool) : Nat := raiseLevel maxLevel coins 1

/-- One round of the loop of `InsertNode`:
`node->forward[i] = prev[i]->forward[i]; prev[i]->forward[i] = node`. -/
def linkAt (id : NodeId) (prev : List (Option NodeId)) (t : Impl) (i : Nat) :
    Except Fault Impl :=
  match prev[i]? with
  | none => .error .outOfRange
  | some p => do
      let q ← t.forward p i
      let t ← t.setForward (some id) i q
      t.setForward p i (some id)

/-- `InsertNode`, with the `new Node` before it. -/
def insertNode (t : Impl) (node : Node) (prev : List (Option NodeId)) : Except Fault Impl := do
  let id := t.nodes.length
  let t := { t with nodes := t.nodes ++ [node] }
  let t ← (List.range node.forward.length).foldlM (linkAt id prev) t
  .ok (if node.forward.length > t.currentMaxLevel then
    { t with currentMaxLevel := node.forward.length } else t)

end Impl

end MemTable

end KvEngine
