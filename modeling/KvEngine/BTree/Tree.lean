/-
  KvEngine.BTree.Tree
  ───────────────────
  `BPlusTree`: construction, `Put`, `Get` and `Delete`.

  The recursive lambdas of the source (`insert`, `erase`,
  `first_key_of_subtree`) take a fuel argument.  They descend through child
  ids and change nothing on the way down, so a descent that visits more
  nodes than the store has slots has met a node twice and would go round for
  ever; `fuel` is the number of slots.  `none` stands for a call without a
  defined result: that endless descent, an access outside a vector, or a
  node used as the wrong kind.
-/
import KvEngine.BTree.Store

namespace KvEngine

open Lib

/-! ## §1. State, node management, search. -/

structure BTreeOptions where
  maxKeysPerNode : Nat := 128
  comparator : Option Comparator := none

/-- The members of `BPlusTree`. -/
structure BPlusTree where
  impl : Impl
  rootId : Nat
  rootIsLeaf : Bool
  options : BTreeOptions
  size : Nat
  nodeCount : Nat
  height : Nat

/-- `LowerBound`: the first index whose key is not below `key`. -/
def lowerBound (keys : List Bytes) (key : Bytes) (comparator : Option Comparator) : Nat :=
  bisect (fun k => decide (compareKeys comparator k key < 0)) keys

/-- `UpperBound`: the first index whose key is above `key`.  Separators are
the first key of the right child, so an exact match descends to the right. -/
def upperBound (keys : List Bytes) (key : Bytes) (comparator : Option Comparator) : Nat :=
  bisect (fun k => decide (compareKeys comparator k key ≤ 0)) keys

/-- `pos < keys.size() && Compare(keys[pos], key) == 0`. -/
def keyAt (keys : List Bytes) (pos : Nat) (key : Bytes) (comparator : Option Comparator) : Bool :=
  keys[pos]?.any (fun k => decide (compareKeys comparator k key = 0))

namespace BPlusTree

def new (options : BTreeOptions) : BPlusTree :=
  let options :=
    if options.maxKeysPerNode < 3 then { options with maxKeysPerNode := 3 } else options
  let (rootId, impl) := Impl.initial.allocateNode true
  { impl, rootId, rootIsLeaf := true, options, size := 0, nodeCount := 1, height := 1 }

def getNode (t : BPlusTree) (id : Nat) : Option BTreeNode := t.impl.getNode id

def setNode (t : BPlusTree) (id : Nat) (n : BTreeNode) : BPlusTree :=
  { t with impl := t.impl.setNode id n }

def allocateNode (t : BPlusTree) (isLeaf : Bool) : Nat × BPlusTree :=
  let (id, impl) := t.impl.allocateNode isLeaf
  (id, { t with impl, nodeCount := t.nodeCount + 1 })

def freeNode (t : BPlusTree) (id : Nat) : BPlusTree :=
  if (t.getNode id).isSome then
    { t with
      impl := t.impl.freeNode id
      nodeCount := if t.nodeCount > 0 then t.nodeCount - 1 else t.nodeCount }
  else t

/-- `static_cast<LeafNode*>(GetNode(id))`, dereferenced. -/
def leafAt (t : BPlusTree) (id : Nat) : Option LeafNode :=
  match t.getNode id with
  | some (.leaf n) => some n
  | _ => none

/-- `static_cast<InternalNode*>(GetNode(id))`, dereferenced. -/
def internalAt (t : BPlusTree) (id : Nat) : Option InternalNode :=
  match t.getNode id with
  | some (.internal n) => some n
  | _ => none

/-- Slots of the store: no descent without a repeated node is longer. -/
def fuel (t : BPlusTree) : Nat := t.impl.nodes.length

/-- The descent of `FindLeaf` from `current`; 0 when there is no leaf. -/
def findLeafFrom (t : BPlusTree) (key : Bytes) : Nat → Nat → Option Nat
  | 0, _ => none
  | fuel + 1, current =>
      match t.getNode current with
      | none => some 0
      | some (.leaf _) => some current
      | some (.internal internal) =>
          match internal.children[upperBound internal.keys key t.options.comparator]? with
          | none => some 0
          | some child => findLeafFrom t key fuel child

def findLeaf (t : BPlusTree) (key : Bytes) : Option Nat :=
  findLeafFrom t key t.fuel t.rootId

/-! ## §2. `Put`. -/

structure SplitResult where
  split : Bool := false
  separator : Bytes := []
  right : Nat := 0

/-- What `insert` returns and leaves behind: the status, its `result`
argument, the captured `inserted` flag, the tree. -/
structure InsertResult where
  status : Status := .okStatus
  result : SplitResult := {}
  inserted : Bool := false
  tree : BPlusTree

/-- The leaf branch of `insert`: overwrite in place, or insert and split an
overfull leaf in the middle, linking the new right half after it. -/
def insertAtLeaf (t : BPlusTree) (key value : Bytes) (nodeId : Nat) (leaf : LeafNode) :
    Option InsertResult :=
  let pos := lowerBound leaf.keys key t.options.comparator
  if keyAt leaf.keys pos key t.options.comparator then do
    let values ← setAt? leaf.values pos value
    some { tree := t.setNode nodeId (.leaf { leaf with values }) }
  else do
    let keys ← insertAt? leaf.keys pos key
    let values ← insertAt? leaf.values pos value
    let t := t.setNode nodeId (.leaf { leaf with keys, values })
    if keys.length ≤ t.options.maxKeysPerNode then
      some { inserted := true, tree := t }
    else do
      let (rightId, t) := t.allocateNode true
      let mid := keys.length / 2
      let (leftKeys, rightKeys) ← splitAt? keys mid
      let (leftValues, rightValues) ← splitAt? values mid
      let t := t.setNode rightId
        (.leaf { keys := rightKeys, values := rightValues, nextLeaf := leaf.nextLeaf })
      let t := t.setNode nodeId
        (.leaf { keys := leftKeys, values := leftValues, nextLeaf := rightId })
      let separator ← rightKeys.head?
      some { result := ⟨true, separator, rightId⟩, inserted := true, tree := t }

/-- The end of the internal branch of `insert`: take in the separator and the
right half of a child that was split, and split an overfull node around its
middle key, which moves up. -/
def insertSeparator (t : BPlusTree) (nodeId : Nat) (inserted : Bool) (child : SplitResult) :
    Option InsertResult := do
  let internal ← t.internalAt nodeId
  let pos := lowerBound internal.keys child.separator t.options.comparator
  let keys ← insertAt? internal.keys pos child.separator
  let children ← insertAt? internal.children (pos + 1) child.right
  let t := t.setNode nodeId (.internal { keys, children })
  if keys.length ≤ t.options.maxKeysPerNode then
    some { inserted, tree := t }
  else do
    let (rightId, t) := t.allocateNode false
    let mid := keys.length / 2
    let separator ← keys[mid]?
    let (_, rightKeys) ← splitAt? keys (mid + 1)
    let (leftKeys, _) ← splitAt? keys mid
    let (leftChildren, rightChildren) ← splitAt? children (mid + 1)
    let t := t.setNode rightId (.internal { keys := rightKeys, children := rightChildren })
    let t := t.setNode nodeId (.internal { keys := leftKeys, children := leftChildren })
    some { result := ⟨true, separator, rightId⟩, inserted, tree := t }

/-- The recursive lambda `insert` of `Put`. -/
def insert (key value : Bytes) : Nat → BPlusTree → Nat → Option InsertResult
  | 0, _, _ => none
  | fuel + 1, t, nodeId =>
      match t.getNode nodeId with
      | none => some { status := .internalError "Invalid node during insert", tree := t }
      | some (.leaf leaf) => insertAtLeaf t key value nodeId leaf
      | some (.internal internal) =>
          match internal.children[upperBound internal.keys key t.options.comparator]? with
          | none => some { status := .internalError "Invalid child index", tree := t }
          | some child => do
              let r ← insert key value fuel t child
              if !r.status.ok then
                some { status := r.status, inserted := r.inserted, tree := r.tree }
              else if !r.result.split then
                some { inserted := r.inserted, tree := r.tree }
              else
                insertSeparator r.tree nodeId r.inserted r.result

/-- The end of `Put`: a split root gets a new root above both halves. -/
def growRoot (t : BPlusTree) (result : SplitResult) : BPlusTree :=
  if result.split then
    let (newRootId, t) := t.allocateNode false
    let t := t.setNode newRootId
      (.internal { keys := [result.separator], children := [t.rootId, result.right] })
    { t with rootId := newRootId, rootIsLeaf := false, height := t.height + 1 }
  else t

def put (t : BPlusTree) (key value : Bytes) : Option (Status × BPlusTree) :=
  if key.isEmpty then some (.invalidArgument "Key cannot be empty", t)
  else do
    let r ← insert key value t.fuel t t.rootId
    if !r.status.ok then some (r.status, r.tree)
    else
      let t := if r.inserted then { r.tree with size := r.tree.size + 1 } else r.tree
      some (.okStatus, t.growRoot r.result)

/-! ## §3. `Get`. -/

/-- `Get` with a non-null output; the second component is what it wrote. -/
def get (t : BPlusTree) (key : Bytes) : Option (Status × Option Bytes) := do
  let leafId ← t.findLeaf key
  if leafId = 0 then some (.internalError "Leaf not found", none)
  else do
    let leaf ← t.leafAt leafId
    let pos := lowerBound leaf.keys key t.options.comparator
    if keyAt leaf.keys pos key t.options.comparator then do
      let value ← leaf.values[pos]?
      some (.okStatus, some value)
    else some (.notFound "Key not found", none)

/-! ## §4. `Delete`. -/

structure DeleteResult where
  removed : Bool := false
  underflow : Bool := false
  firstKey : Bytes := []

/-- What `erase` returns and leaves behind. -/
structure EraseResult where
  status : Status := .okStatus
  out : DeleteResult := {}
  tree : BPlusTree

/-- `max_keys / 2`. -/
def minKeys (t : BPlusTree) : Nat := t.options.maxKeysPerNode / 2

/-- The leaf branch of `erase`. -/
def eraseAtLeaf (t : BPlusTree) (key : Bytes) (nodeId : Nat) (isRoot : Bool) (leaf : LeafNode) :
    Option EraseResult :=
  let pos := lowerBound leaf.keys key t.options.comparator
  if keyAt leaf.keys pos key t.options.comparator then do
    let keys ← eraseAt? leaf.keys pos
    let values ← eraseAt? leaf.values pos
    some {
      out := {
        removed := true
        firstKey := keys.headD []
        underflow := !isRoot && decide (keys.length < t.minKeys) }
      tree := t.setNode nodeId (.leaf { leaf with keys, values }) }
  else some { status := .notFound "Key not found", tree := t }

/-- The lambda `first_key_of_subtree`. -/
def firstKeyFrom (t : BPlusTree) : Nat → Nat → Option Bytes
  | 0, _ => none
  | fuel + 1, id =>
      match t.getNode id with
      | none => some []
      | some (.leaf leaf) => some (leaf.keys.headD [])
      | some (.internal internal) =>
          match internal.children with
          | [] => some []
          | child :: _ => firstKeyFrom t fuel child

def firstKeyOfSubtree (t : BPlusTree) (id : Nat) : Option Bytes :=
  t.firstKeyFrom t.fuel id

/-- `internal->keys[i] = key`. -/
def setKey (t : BPlusTree) (nodeId i : Nat) (key : Bytes) : Option BPlusTree := do
  let internal ← t.internalAt nodeId
  let keys ← setAt? internal.keys i key
  some (t.setNode nodeId (.internal { internal with keys }))

/-- Set separator `i - 1` to the first key under child `i`, unless that
subtree has none. -/
def refreshSeparator (t : BPlusTree) (nodeId i : Nat) : Option BPlusTree := do
  let internal ← t.internalAt nodeId
  let child ← internal.children[i]?
  let first ← t.firstKeyOfSubtree child
  if first.isEmpty then some t else t.setKey nodeId (i - 1) first

/-- The lambda `update_separator`. -/
def updateSeparator (t : BPlusTree) (nodeId i : Nat) : Option BPlusTree := do
  let internal ← t.internalAt nodeId
  if i > 0 ∧ i - 1 < internal.keys.length then t.refreshSeparator nodeId i else some t

/-- The loop that recomputes every separator of a node. -/
def recomputeSeparators (t : BPlusTree) (nodeId : Nat) : Option BPlusTree := do
  let internal ← t.internalAt nodeId
  (List.range' 1 (internal.children.length - 1)).foldlM
    (fun t i => t.refreshSeparator nodeId i) t

/-- Move the last item of the left sibling to the front of the child. -/
def moveFromLeft (t : BPlusTree) (nodeId idx leftId childId : Nat) : Option BPlusTree := do
  match t.getNode childId with
  | none => none
  | some (.leaf r) =>
      let l ← t.leafAt leftId
      let key ← l.keys.getLast?
      let value ← l.values.getLast?
      let t := t.setNode childId
        (.leaf { r with keys := key :: r.keys, values := value :: r.values })
      let l ← t.leafAt leftId
      some (t.setNode leftId
        (.leaf { l with keys := l.keys.dropLast, values := l.values.dropLast }))
  | some (.internal r) =>
      let l ← t.internalAt leftId
      let lastChild ← l.children.getLast?
      let lastKey ← l.keys.getLast?
      let internal ← t.internalAt nodeId
      let separator ← internal.keys[idx - 1]?
      let t := t.setNode childId
        (.internal { keys := separator :: r.keys, children := lastChild :: r.children })
      let t ← t.setKey nodeId (idx - 1) lastKey
      let l ← t.internalAt leftId
      some (t.setNode leftId
        (.internal { keys := l.keys.dropLast, children := l.children.dropLast }))

/-- Borrow from the left sibling if it can spare an item.  The flag says
whether the child still underflows. -/
def borrowLeft (t : BPlusTree) (nodeId idx childId : Nat) : Option (Bool × BPlusTree) := do
  if idx > 0 then
    let internal ← t.internalAt nodeId
    let leftId ← internal.children[idx - 1]?
    match t.getNode leftId with
    | some left =>
        if left.size > t.minKeys then do
          let t ← t.moveFromLeft nodeId idx leftId childId
          let t ← t.updateSeparator nodeId idx
          some (false, t)
        else some (true, t)
    | none => some (true, t)
  else some (true, t)

/-- Move the first item of the right sibling to the back of the child. -/
def moveFromRight (t : BPlusTree) (nodeId idx childId rightId : Nat) : Option BPlusTree := do
  match t.getNode childId with
  | none => none
  | some (.leaf l) =>
      let r ← t.leafAt rightId
      let key ← r.keys.head?
      let value ← r.values.head?
      let t := t.setNode childId
        (.leaf { l with keys := l.keys ++ [key], values := l.values ++ [value] })
      let r ← t.leafAt rightId
      let t := t.setNode rightId
        (.leaf { r with keys := r.keys.tail, values := r.values.tail })
      let first ← r.keys.tail.head?
      t.setKey nodeId idx first
  | some (.internal l) =>
      let r ← t.internalAt rightId
      let internal ← t.internalAt nodeId
      let separator ← internal.keys[idx]?
      let firstChild ← r.children.head?
      let firstKey ← r.keys.head?
      let t := t.setNode childId
        (.internal { keys := l.keys ++ [separator], children := l.children ++ [firstChild] })
      let t ← t.setKey nodeId idx firstKey
      let r ← t.internalAt rightId
      some (t.setNode rightId (.internal { keys := r.keys.tail, children := r.children.tail }))

/-- Borrow from the right sibling if it can spare an item. -/
def borrowRight (t : BPlusTree) (nodeId idx childId : Nat) : Option (Bool × BPlusTree) := do
  let internal ← t.internalAt nodeId
  if idx + 1 < internal.children.length then
    let rightId ← internal.children[idx + 1]?
    match t.getNode rightId with
    | some right =>
        if right.size > t.minKeys then do
          let t ← t.moveFromRight nodeId idx childId rightId
          some (false, t)
        else some (true, t)
    | none => some (true, t)
  else some (true, t)

/-- Append the right node of a sibling pair to the left one, drop the
separator between them and the right child, and free the right node.  Both
merge branches of `erase` do this; `sep` is the index of the separator and
of the left node. -/
def mergeSiblings (t : BPlusTree) (nodeId sep leftId rightId childId : Nat) :
    Option BPlusTree := do
  let t ← match t.getNode childId with
    | none => none
    | some (.leaf _) => do
        let l ← t.leafAt leftId
        let r ← t.leafAt rightId
        some (t.setNode leftId (.leaf {
          keys := l.keys ++ r.keys
          values := l.values ++ r.values
          nextLeaf := r.nextLeaf }))
    | some (.internal _) => do
        let l ← t.internalAt leftId
        let r ← t.internalAt rightId
        let internal ← t.internalAt nodeId
        let separator ← internal.keys[sep]?
        some (t.setNode leftId (.internal {
          keys := l.keys ++ [separator] ++ r.keys
          children := l.children ++ r.children }))
  let internal ← t.internalAt nodeId
  let keys ← eraseAt? internal.keys sep
  let children ← eraseAt? internal.children (sep + 1)
  let t := t.setNode nodeId (.internal { keys, children })
  some (t.freeNode rightId)

/-- Merge with the left sibling, or with the right one for a first child. -/
def merge (t : BPlusTree) (nodeId idx childId : Nat) : Option BPlusTree := do
  let internal ← t.internalAt nodeId
  if idx > 0 then
    let leftId ← internal.children[idx - 1]?
    match t.getNode leftId with
    | some _ => t.mergeSiblings nodeId (idx - 1) leftId childId childId
    | none => some t
  else if idx + 1 < internal.children.length then
    let rightId ← internal.children[idx + 1]?
    match t.getNode rightId with
    | some _ => t.mergeSiblings nodeId idx childId rightId childId
    | none => some t
  else some t

/-- Repair of an underflowing child: left sibling, right sibling, merge. -/
def rebalance (t : BPlusTree) (nodeId idx childId : Nat) : Option BPlusTree := do
  let (underflow, t) ← t.borrowLeft nodeId idx childId
  let (underflow, t) ←
    if underflow then t.borrowRight nodeId idx childId else some (underflow, t)
  if underflow then t.merge nodeId idx childId else some t

/-- Store the first key that child `idx` reported as the separator before it. -/
def setFirstKey (t : BPlusTree) (nodeId idx : Nat) (firstKey : Bytes) : Option BPlusTree :=
  if idx > 0 ∧ ¬ firstKey.isEmpty then t.setKey nodeId (idx - 1) firstKey else some t

/-- Rebalance child `idx` if it reported an underflow. -/
def repairChild (t : BPlusTree) (nodeId idx childId : Nat) (underflow : Bool) :
    Option BPlusTree :=
  if underflow then t.rebalance nodeId idx childId else some t

/-- The end of the internal branch of `erase`, after child `idx` has lost
the key. -/
def eraseFinish (t : BPlusTree) (nodeId idx : Nat) (isRoot : Bool) (child : DeleteResult) :
    Option EraseResult := do
  let internal ← t.internalAt nodeId
  let childId ← internal.children[idx]?
  match t.getNode childId with
  | none => some { status := .internalError "Deleted child missing", tree := t }
  | some _ =>
      let t ← t.setFirstKey nodeId idx child.firstKey
      let t ← t.repairChild nodeId idx childId child.underflow
      let t ← t.recomputeSeparators nodeId
      let internal ← t.internalAt nodeId
      let firstKey ← match internal.children with
        | [] => some []
        | first :: _ => t.firstKeyOfSubtree first
      some {
        out := {
          removed := true
          firstKey
          underflow := !isRoot && decide (internal.keys.length < t.minKeys) }
        tree := t }

/-- The recursive lambda `erase` of `Delete`. -/
def erase (key : Bytes) : Nat → BPlusTree → Nat → Bool → Option EraseResult
  | 0, _, _, _ => none
  | fuel + 1, t, nodeId, isRoot =>
      match t.getNode nodeId with
      | none => some { status := .internalError "Invalid node during delete", tree := t }
      | some (.leaf leaf) => eraseAtLeaf t key nodeId isRoot leaf
      | some (.internal internal) =>
          let idx := upperBound internal.keys key t.options.comparator
          match internal.children[idx]? with
          | none => some { status := .internalError "Invalid child index", tree := t }
          | some child => do
              let r ← erase key fuel t child false
              if !r.status.ok then some { status := r.status, tree := r.tree }
              else if !r.out.removed then
                some { status := .notFound "Key not found", tree := r.tree }
              else r.tree.eraseFinish nodeId idx isRoot r.out

/-- Root collapse: an internal root with one child gives way to it. -/
def collapseRoot (t : BPlusTree) : Option BPlusTree :=
  if t.rootIsLeaf then some t
  else
    match t.getNode t.rootId with
    | none => some t
    | some (.leaf _) => none
    | some (.internal root) =>
        match root.children with
        | [] =>
            let (rootId, t) := (t.freeNode t.rootId).allocateNode true
            some { t with rootId, rootIsLeaf := true, height := 1 }
        | [child] =>
            let oldRoot := t.rootId
            let t := { t with
              rootId := child
              rootIsLeaf := (t.getNode child).any BTreeNode.isLeaf
              height := if t.height > 1 then t.height - 1 else t.height }
            some (t.freeNode oldRoot)
        | _ => some t

def delete (t : BPlusTree) (key : Bytes) : Option (Status × BPlusTree) :=
  if t.size = 0 then some (.notFound "Key not found", t)
  else do
    let r ← erase key t.fuel t t.rootId true
    if !r.status.ok then some (r.status, r.tree)
    else if !r.out.removed then some (.notFound "Key not found", r.tree)
    else do
      let t ← { r.tree with size := r.tree.size - 1 }.collapseRoot
      some (.okStatus, t)

end BPlusTree

end KvEngine
