/-
  KvEngine.BTree.Iterator
  ───────────────────────
  `BPlusTree::Iterator`: a position in the leaf chain with optional bounds.

  The iterator holds a read lock on the tree from its creation, so the tree
  is an argument that stays the same.  The loops follow child ids or
  `next_leaf` links; as in `BPlusTree` their fuel is one round more than the
  store has slots, and `none` is a walk that does not end or a node used as
  the wrong kind.
-/
import KvEngine.BTree.Tree

namespace KvEngine

open Lib

/-- `BPlusTree::Iterator::Impl`.  A bound is absent when its `has_…` flag is
false in the source. -/
structure Iterator where
  currentLeaf : Nat := 0
  currentIdx : Nat := 0
  start : Option Bytes := none
  limit : Option Bytes := none
  status : Status := .okStatus

namespace Iterator

variable (tree : BPlusTree)

/-- The key at the position is not excluded by the limit. -/
def belowLimit (it : Iterator) (key : Bytes) : Bool :=
  it.limit.all (fun limit => decide (compareKeys tree.options.comparator key limit < 0))

/-- `static_cast<const LeafNode*>(GetNode(id))`: null, a leaf, or not a leaf. -/
def leafPtr (id : Nat) : Option (Option LeafNode) :=
  match tree.getNode id with
  | none => some none
  | some (.leaf n) => some (some n)
  | some (.internal _) => none

/-- The descent to the leftmost leaf in `FindFirst`: where it stops, and
whether the node there exists (0 is no node and no error). -/
def leftmostLeaf : Nat → Nat → Option (Nat × Bool)
  | 0, _ => none
  | fuel + 1, current =>
      if current = 0 then some (0, true)
      else
        match tree.getNode current with
        | none => some (current, false)
        | some (.leaf _) => some (current, true)
        | some (.internal internal) => leftmostLeaf fuel (internal.children.headD 0)

/-- The descent to the rightmost leaf in `SeekToLast`. -/
def rightmostLeaf : Nat → Nat → Option (Nat × Bool)
  | 0, _ => none
  | fuel + 1, current =>
      if current = 0 then some (0, true)
      else
        match tree.getNode current with
        | none => some (current, false)
        | some (.leaf _) => some (current, true)
        | some (.internal internal) => rightmostLeaf fuel (internal.children.getLast?.getD 0)

/-- `SkipEmptyOrPastLimit`. -/
def skipLoop : Nat → Iterator → Option Iterator
  | 0, _ => none
  | fuel + 1, it =>
      if it.currentLeaf = 0 then some it
      else do
        match ← leafPtr tree it.currentLeaf with
        | none => some { it with status := .internalError "Leaf not found" }
        | some leaf =>
            if leaf.keys[it.currentIdx]?.any (it.belowLimit tree) then some it
            else skipLoop fuel { it with currentLeaf := leaf.nextLeaf, currentIdx := 0 }

def skipEmptyOrPastLimit (it : Iterator) : Option Iterator :=
  skipLoop tree (tree.fuel + 1) it

/-- `FindFirst`. -/
def findFirst (it : Iterator) : Option Iterator := do
  let (leafId, found) ← match it.start with
    | some start => (tree.findLeaf start).map (·, true)
    | none => leftmostLeaf tree (tree.fuel + 1) tree.rootId
  let it := { it with currentLeaf := leafId }
  if ¬ found then some { it with status := .internalError "Invalid root" }
  else
    match ← leafPtr tree leafId with
    | none => some { it with currentLeaf := 0, currentIdx := 0 }
    | some leaf =>
        let idx := match it.start with
          | some start => lowerBound leaf.keys start tree.options.comparator
          | none => 0
        skipEmptyOrPastLimit tree { it with currentIdx := idx }

/-- `AtEnd`. -/
def atEnd (it : Iterator) : Option Bool :=
  if it.currentLeaf = 0 then some true
  else do
    match ← leafPtr tree it.currentLeaf with
    | none => some true
    | some leaf =>
        match leaf.keys[it.currentIdx]? with
        | none => some true
        | some key => some (!it.belowLimit tree key)

def valid (it : Iterator) : Option Bool :=
  if it.status.ok then (it.atEnd tree).map (!·) else some false

/-- `Iterator(tree, start, limit)`. -/
def new (start limit : Option Bytes) : Option Iterator :=
  findFirst tree { start, limit }

def seekToFirst (it : Iterator) : Option Iterator := it.findFirst tree

/-- `SeekToLast`: the bounds play no part. -/
def seekToLast (it : Iterator) : Option Iterator := do
  let (leafId, found) ← rightmostLeaf tree (tree.fuel + 1) tree.rootId
  if ¬ found then some { it with status := .internalError "Invalid node" }
  else if leafId = 0 then some { it with currentLeaf := 0 }
  else
    match ← leafPtr tree leafId with
    | none => some { it with currentLeaf := leafId, currentIdx := 0 }
    | some leaf =>
        let idx := if leaf.keys.isEmpty then 0 else leaf.keys.length - 1
        some { it with currentLeaf := leafId, currentIdx := idx }

/-- `Seek`: the start bound plays no part. -/
def seek (it : Iterator) (target : Bytes) : Option Iterator := do
  let leafId ← tree.findLeaf target
  let idx := match ← leafPtr tree leafId with
    | none => 0
    | some leaf => lowerBound leaf.keys target tree.options.comparator
  skipEmptyOrPastLimit tree { it with currentLeaf := leafId, currentIdx := idx }

def next (it : Iterator) : Option Iterator := do
  if ← it.valid tree then
    match ← leafPtr tree it.currentLeaf with
    | none => some { it with status := .internalError "Leaf not found" }
    | some leaf =>
        let idx := it.currentIdx + 1
        let it :=
          if idx ≥ leaf.keys.length then
            { it with currentLeaf := leaf.nextLeaf, currentIdx := 0 }
          else { it with currentIdx := idx }
        it.skipEmptyOrPastLimit tree
  else some it

/-- `key()` and `value()`; both empty when the iterator is not valid. -/
def entry (it : Iterator) : Option (Bytes × Bytes) := do
  if ← it.valid tree then
    let leaf ← tree.leafAt it.currentLeaf
    let key ← leaf.keys[it.currentIdx]?
    let value ← leaf.values[it.currentIdx]?
    some (key, value)
  else some ([], [])

/-- The loop `for (; it.Valid(); it.Next())`: the status, key and value seen in
each round, and the status after the last one. -/
def scan : Nat → Iterator → Option (List (Status × Bytes × Bytes) × Status)
  | 0, _ => none
  | fuel + 1, it => do
      if ← it.valid tree then
        let entry ← it.entry tree
        let it' ← it.next tree
        let (seen, last) ← scan fuel it'
        some ((it.status, entry) :: seen, last)
      else some ([], it.status)

end Iterator

end KvEngine
