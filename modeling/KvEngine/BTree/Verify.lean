/-
  KvEngine.BTree.Verify
  ─────────────────────
  `BPlusTree::Verify`: the recursive walk `verify_node` that checks every
  node and collects the leaves, then the walk along the `next_leaf` chain.
-/
import KvEngine.BTree.Tree

namespace KvEngine

open Lib

/-- `KeysStrictlyIncreasing`: no key is at or above its successor. -/
def keysStrictlyIncreasing (comparator : Option Comparator) : List Bytes → Bool
  | [] => true
  | [_] => true
  | a :: b :: keys =>
      !decide (compareKeys comparator a b ≥ 0) && keysStrictlyIncreasing comparator (b :: keys)

/-- The variables `verify_node` captures. -/
structure VerifyState where
  leaves : List Nat := []
  counted : Nat := 0
  expectedLeafDepth : Int := -1
  ok : Bool := true
  deriving DecidableEq, Repr

/-- `if (!cond) ok = false`. -/
def VerifyState.check (v : VerifyState) (cond : Bool) : VerifyState :=
  { v with ok := v.ok && cond }

namespace BPlusTree

/-- The loop comparing separator `i - 1` with the first key under child `i`;
`firsts` and `keys` start at child 1 and separator 0.  Reading a separator
that does not exist is outside the vector. -/
def checkSeparators (comparator : Option Comparator) :
    List Bytes → List Bytes → VerifyState → Option VerifyState
  | [], _, v => some v
  | first :: firsts, keys, v =>
      if first.isEmpty then checkSeparators comparator firsts keys.tail v
      else
        match keys with
        | [] => none
        | key :: keys =>
            checkSeparators comparator firsts keys
              (v.check (compareKeys comparator key first == 0))

/-- The recursive lambda `verify_node`: the first key under `id`. -/
def verifyNode (t : BPlusTree) : Nat → Nat → Int → Bool → VerifyState →
    Option (Bytes × VerifyState)
  | 0, _, _, _, _ => none
  | fuel + 1, id, depth, isRoot, v =>
      match t.getNode id with
      | none => some ([], { v with ok := false })
      | some (.leaf leaf) =>
          let v := v.check (keysStrictlyIncreasing t.options.comparator leaf.keys)
          let v := v.check (isRoot || !decide (leaf.keys.length < t.options.maxKeysPerNode / 2))
          let v :=
            if v.expectedLeafDepth < 0 then { v with expectedLeafDepth := depth }
            else v.check (v.expectedLeafDepth == depth)
          some (leaf.keys.headD [],
            { v with counted := v.counted + leaf.keys.length, leaves := v.leaves ++ [id] })
      | some (.internal internal) => do
          let v := v.check (internal.children.length == internal.keys.length + 1
            && !internal.children.isEmpty)
          let v := v.check
            (isRoot || !decide (internal.keys.length < t.options.maxKeysPerNode / 2))
          let v := v.check (keysStrictlyIncreasing t.options.comparator internal.keys)
          let (firsts, v) ← internal.children.foldlM
            (fun (acc : List Bytes × VerifyState) child => do
              let (first, v) ← verifyNode t fuel child (depth + 1) false acc.2
              some (acc.1 ++ [first], v))
            ([], v)
          let v ← checkSeparators t.options.comparator firsts.tail internal.keys v
          some (firsts.headD [], v)

/-- The walk along `next_leaf`: `leaves` are those not yet visited.  It
stops at 0, at a missing node, or where the chain leaves the list. -/
def verifyChain (t : BPlusTree) : Nat → List Nat → Option Bool
  | id, [] => some (decide (id = 0))
  | id, leaf :: leaves =>
      if id = 0 then some false
      else
        match t.getNode id with
        | none => some false
        | some node =>
            if leaf ≠ id then some false
            else
              match node with
              | .leaf n => verifyChain t n.nextLeaf leaves
              | .internal _ => none

def verify (t : BPlusTree) : Option Bool :=
  if t.rootId = 0 ∨ (t.getNode t.rootId).isNone then some false
  else do
    let (_, v) ← t.verifyNode t.fuel t.rootId 0 true {}
    let v := v.check (v.counted == t.size)
    match v.leaves with
    | first :: _ :: _ =>
        let chained ← t.verifyChain first v.leaves
        some (v.ok && chained)
    | _ => some v.ok

end BPlusTree

end KvEngine
