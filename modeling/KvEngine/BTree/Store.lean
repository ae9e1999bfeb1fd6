/-
  KvEngine.BTree.Store
  ────────────────────
  The node store of `BPlusTree`: leaf and internal nodes held in a vector
  under numeric ids, with a free list of ids to reuse.

  A node pointer of the source is a node id here; reading through it is
  `getNode` and writing through it is `setNode`.  `Impl.Ok` is what every
  operation keeps of the bookkeeping vectors, and the three `getNode_…`
  lemmas (after a write, an allocation, a release) are all the rest of the
  development needs to know about them.
-/
import KvEngine.Slice
import KvEngine.Status
import KvEngine.Lib.Vector

namespace KvEngine

open Lib

/-! ## §1. Nodes. -/

/-- `LeafNode`: the value of a key is at the same index; `nextLeaf` is 0 at the end of
the chain. -/
structure LeafNode where
  keys : List Bytes := []
  values : List Bytes := []
  nextLeaf : Nat := 0
  deriving DecidableEq, Repr

/-- `InternalNode`: one child more than there are keys. -/
structure InternalNode where
  keys : List Bytes := []
  children : List Nat := []
  deriving DecidableEq, Repr

/-- `BTreeNode` with its two subclasses as constructors. -/
inductive BTreeNode where
  | leaf (n : LeafNode)
  | internal (n : InternalNode)
  deriving DecidableEq, Repr

namespace BTreeNode

/-- `IsLeaf()`. -/
def isLeaf : BTreeNode → Bool
  | leaf _ => true
  | internal _ => false

/-- `Size()`: the number of keys. -/
def size : BTreeNode → Nat
  | leaf n => n.keys.length
  | internal n => n.keys.length

end BTreeNode

/-! ## §2. The store. -/

/-- `BPlusTree::Impl`.  The back of `freeList` is its last element. -/
structure Impl where
  nodes : List (Option BTreeNode)
  nodeFree : List Bool
  freeList : List Nat
  nextNodeId : Nat
  deriving Repr

namespace Impl

/-- Id 0 is invalid. -/
def initial : Impl :=
  { nodes := [none], nodeFree := [true], freeList := [], nextNodeId := 1 }

/-- What `AllocateNode` makes: a node without keys. -/
def newNode (isLeaf : Bool) : BTreeNode :=
  if isLeaf then .leaf {} else .internal {}

/-- Reuse the last freed id, or append a slot. -/
def allocateNode (s : Impl) (isLeaf : Bool) : Nat × Impl :=
  match s.freeList.getLast? with
  | some id =>
      (id, { s with
        freeList := s.freeList.dropLast
        nodes := s.nodes.set id (some (newNode isLeaf))
        nodeFree := s.nodeFree.set id false })
  | none =>
      (s.nextNodeId, { s with
        nextNodeId := s.nextNodeId + 1
        nodes := s.nodes ++ [some (newNode isLeaf)]
        nodeFree := s.nodeFree ++ [false] })

/-- The guard of `FreeNode` and `GetNode`: a valid id that is not free. -/
def inUse (s : Impl) (id : Nat) : Bool :=
  id != 0 && decide (id < s.nodes.length) && !(s.nodeFree.getD id true)

/-- `FreeNode`; an id that is not in use is ignored. -/
def freeNode (s : Impl) (id : Nat) : Impl :=
  if s.inUse id then
    { s with
      nodes := s.nodes.set id none
      nodeFree := s.nodeFree.set id true
      freeList := s.freeList ++ [id] }
  else s

/-- `GetNode`; null is `none`. -/
def getNode (s : Impl) (id : Nat) : Option BTreeNode :=
  if s.inUse id then (s.nodes[id]?).join else none

/-- Write through the pointer `getNode` returned. -/
def setNode (s : Impl) (id : Nat) (n : BTreeNode) : Impl :=
  { s with nodes := s.nodes.set id (some n) }

/-! ## §3. What the bookkeeping vectors agree on. -/

/-- The vectors have one slot per id handed out, slot 0 is free, a slot in
use holds a node, and the free list holds each freed id once. -/
structure Ok (s : Impl) : Prop where
  free_length : s.nodeFree.length = s.nodes.length
  next_eq : s.nextNodeId = s.nodes.length
  nodes_pos : 0 < s.nodes.length
  used_some : ∀ id, s.inUse id = true → ∃ n, s.nodes[id]? = some (some n)
  free_nodup : s.freeList.Nodup
  mem_free : ∀ id, id ∈ s.freeList ↔ id ≠ 0 ∧ id < s.nodes.length ∧ s.inUse id = false

/-- The constructor's vectors agree. -/
theorem ok_initial : initial.Ok where
  free_length := rfl
  next_eq := rfl
  nodes_pos := by decide
  used_some := by
    intro id h
    cases id <;> simp [inUse, initial] at h
  free_nodup := List.nodup_nil
  mem_free := by
    intro id
    simp only [initial, List.not_mem_nil, List.length_singleton, false_iff, not_and]
    omega

/-- Id 0 is never in use. -/
theorem inUse_zero (s : Impl) : s.inUse 0 = false := by
  simp [inUse]

/-- There is no node behind id 0. -/
theorem getNode_zero (s : Impl) : s.getNode 0 = none := by
  simp [getNode, inUse_zero]

/-- Id 0 stands for no node. -/
theorem ne_zero_of_getNode {s : Impl} {id : Nat} {n : BTreeNode} (h : s.getNode id = some n) :
    id ≠ 0 := by
  rintro rfl
  rw [getNode_zero] at h
  cases h

/-- An id in use has a slot. -/
theorem inUse_lt {s : Impl} {id : Nat} (h : s.inUse id = true) : id < s.nodes.length := by
  simp only [inUse, Bool.and_eq_true, decide_eq_true_eq] at h
  exact h.1.2

/-- A node is found under an id in use only. -/
theorem inUse_of_getNode {s : Impl} {id : Nat} {n : BTreeNode}
    (h : s.getNode id = some n) : s.inUse id = true := by
  unfold getNode at h
  split at h
  · assumption
  · exact absurd h (by simp)

/-- Under an id in use there is a node, since `Ok` puts one into its slot. -/
theorem getNode_isSome_iff {s : Impl} (hs : s.Ok) (id : Nat) :
    (s.getNode id).isSome ↔ s.inUse id = true := by
  unfold getNode
  split
  next h =>
    obtain ⟨n, hn⟩ := hs.used_some id h
    simp [hn, h]
  next h => simp [h]

/-- Under any other id there is none. -/
theorem getNode_eq_none_iff {s : Impl} (hs : s.Ok) (id : Nat) :
    s.getNode id = none ↔ s.inUse id = false := by
  rw [← Option.not_isSome_iff_eq_none, getNode_isSome_iff hs, Bool.not_eq_true]

/-! ### After a write -/

/-- A write changes no node's id. -/
theorem inUse_setNode (s : Impl) (id j : Nat) (n : BTreeNode) :
    (s.setNode id n).inUse j = s.inUse j := by
  simp [inUse, setNode]

/-- **After a write** the node is there, and the others are as before. -/
theorem getNode_setNode {s : Impl} {id : Nat} (hid : s.inUse id = true) (n : BTreeNode)
    (j : Nat) : (s.setNode id n).getNode j = if j = id then some n else s.getNode j := by
  simp only [getNode, inUse_setNode]
  by_cases hj : j = id
  · subst hj
    simp [hid, setNode, inUse_lt hid]
  · simp [setNode, hj, List.getElem?_set_ne (Ne.symm hj)]

/-- A write leaves the bookkeeping alone. -/
theorem Ok.setNode {s : Impl} (hs : s.Ok) {id : Nat} (n : BTreeNode) :
    (s.setNode id n).Ok where
  free_length := by simpa [Impl.setNode] using hs.free_length
  next_eq := by simpa [Impl.setNode] using hs.next_eq
  nodes_pos := by simpa [Impl.setNode] using hs.nodes_pos
  used_some := by
    intro j hj
    rw [inUse_setNode] at hj
    by_cases hji : j = id
    · subst hji
      exact ⟨n, by simp [Impl.setNode, inUse_lt hj]⟩
    · obtain ⟨m, hm⟩ := hs.used_some j hj
      exact ⟨m, by simp [Impl.setNode, List.getElem?_set_ne (Ne.symm hji), hm]⟩
  free_nodup := hs.free_nodup
  mem_free := by
    intro j
    rw [inUse_setNode]
    simpa [Impl.setNode] using hs.mem_free j

/-! ### After an allocation -/

/-- The new id is valid and was not in use, be it a freed one or the next. -/
theorem allocateNode_fresh {s : Impl} (hs : s.Ok) (isLeaf : Bool) :
    (s.allocateNode isLeaf).1 ≠ 0 ∧ s.inUse (s.allocateNode isLeaf).1 = false := by
  unfold allocateNode
  cases hl : s.freeList.getLast? with
  | some id =>
      have hmem : id ∈ s.freeList := List.mem_of_getLast? hl
      obtain ⟨h0, _, hfree⟩ := (hs.mem_free id).mp hmem
      exact ⟨h0, hfree⟩
  | none =>
      show s.nextNodeId ≠ 0 ∧ s.inUse s.nextNodeId = false
      have hpos := hs.nodes_pos
      refine ⟨by rw [hs.next_eq]; omega, ?_⟩
      simp [inUse, hs.next_eq]

/-- One id more is in use. -/
theorem inUse_allocateNode {s : Impl} (hs : s.Ok) (isLeaf : Bool) (j : Nat) :
    (s.allocateNode isLeaf).2.inUse j
      = (decide (j = (s.allocateNode isLeaf).1) || s.inUse j) := by
  unfold allocateNode
  cases hl : s.freeList.getLast? with
  | some id =>
      have hmem : id ∈ s.freeList := List.mem_of_getLast? hl
      obtain ⟨h0, hlt, _⟩ := (hs.mem_free id).mp hmem
      by_cases hj : j = id
      · subst hj
        simp [inUse, h0, hlt, hs.free_length]
      · simp [inUse, hj, List.getElem?_set_ne (Ne.symm hj), List.getD_eq_getElem?_getD]
  | none =>
      have hpos := hs.nodes_pos
      have hlen := hs.free_length
      simp only [inUse, List.length_append, List.length_singleton, hs.next_eq]
      by_cases hj : j = s.nodes.length
      · subst hj
        have h0 : s.nodes.length ≠ 0 := by omega
        have hlast : (s.nodeFree ++ [false])[s.nodes.length]? = some false := by
          rw [← hlen]
          simp
        simp [h0, List.getD_eq_getElem?_getD, hlast]
      · by_cases hlt : j < s.nodes.length
        · have hlt' : j < s.nodeFree.length := by omega
          simp [hj, hlt, Nat.lt_succ_of_lt hlt, List.getD_eq_getElem?_getD,
            List.getElem?_append_left hlt']
        · have hge : ¬ j < s.nodes.length + 1 := by omega
          simp [hj, hlt, hge]

/-- **After an allocation** there is an empty node under the new id. -/
theorem getNode_allocateNode {s : Impl} (hs : s.Ok) (isLeaf : Bool) (j : Nat) :
    (s.allocateNode isLeaf).2.getNode j
      = if j = (s.allocateNode isLeaf).1 then some (newNode isLeaf) else s.getNode j := by
  simp only [getNode, inUse_allocateNode hs]
  unfold allocateNode
  cases hl : s.freeList.getLast? with
  | some id =>
      have hmem : id ∈ s.freeList := List.mem_of_getLast? hl
      obtain ⟨_, hlt, _⟩ := (hs.mem_free id).mp hmem
      by_cases hj : j = id
      · subst hj
        simp [hlt]
      · simp [hj, List.getElem?_set_ne (Ne.symm hj)]
  | none =>
      by_cases hj : j = s.nextNodeId
      · subst hj
        simp [hs.next_eq]
      · simp only [hj, decide_false, Bool.false_or, if_false]
        split
        next hu => rw [List.getElem?_append_left (inUse_lt hu)]
        next => rfl

/-- An allocation keeps the vectors in step. -/
theorem Ok.allocateNode {s : Impl} (hs : s.Ok) (isLeaf : Bool) :
    (s.allocateNode isLeaf).2.Ok := by
  have huse := inUse_allocateNode hs isLeaf
  have hget := getNode_allocateNode hs isLeaf
  -- Every id in use has a node: the new one has just been written, the others had theirs.
  have hsome : ∀ id, (s.allocateNode isLeaf).2.inUse id = true →
      ∃ n, (s.allocateNode isLeaf).2.nodes[id]? = some (some n) := by
    intro id hid
    have hg := hget id
    rw [Impl.getNode, if_pos hid] at hg
    have hgs : ∃ n, (s.allocateNode isLeaf).2.nodes[id]?.join = some n := by
      rw [hg]
      split
      · exact ⟨_, rfl⟩
      next hne =>
        rw [huse id, decide_eq_false hne, Bool.false_or] at hid
        exact Option.isSome_iff_exists.mp ((getNode_isSome_iff hs id).mpr hid)
    obtain ⟨n, hn⟩ := hgs
    exact ⟨n, Option.join_eq_some_iff.mp hn⟩
  revert huse hsome
  unfold Impl.allocateNode
  cases hl : s.freeList.getLast? with
  -- A recycled id leaves the free list, which keeps its other ids.
  | some id =>
      intro huse hsome
      have hmem : id ∈ s.freeList := List.mem_of_getLast? hl
      obtain ⟨_, hlt, _⟩ := (hs.mem_free id).mp hmem
      have hsplit : s.freeList = s.freeList.dropLast ++ [id] :=
        (List.dropLast_append_getLast? id (by simpa using hl)).symm
      have hnd : (s.freeList.dropLast ++ [id]).Nodup := hsplit ▸ hs.free_nodup
      refine ⟨by simpa using hs.free_length, by simpa using hs.next_eq,
        by simpa using hs.nodes_pos, hsome, hs.free_nodup.sublist (List.dropLast_sublist _), ?_⟩
      intro j
      rw [huse j]
      simp only [List.length_set, Bool.or_eq_false_iff, decide_eq_false_iff_not]
      have hold := hs.mem_free j
      rw [hsplit, List.mem_append, List.mem_singleton] at hold
      have hnot : id ∉ s.freeList.dropLast := by
        intro h
        exact (List.nodup_append.mp hnd).2.2 id h id (by simp) rfl
      constructor
      · intro h
        obtain ⟨h0, hl', hu⟩ := hold.mp (Or.inl h)
        exact ⟨h0, hl', fun he => hnot (he ▸ h), hu⟩
      · rintro ⟨h0, hl', hne, hu⟩
        rcases hold.mpr ⟨h0, hl', hu⟩ with h | h
        · exact h
        · exact absurd h hne
  -- No free id: the id space grows by one at its end.
  | none =>
      intro huse hsome
      have hnil : s.freeList = [] := List.getLast?_eq_none_iff.mp hl
      refine ⟨by simp [hs.free_length], by simp [hs.next_eq], by simp, hsome,
        hs.free_nodup, ?_⟩
      intro j
      rw [huse j]
      simp only [List.length_append, List.length_singleton, Bool.or_eq_false_iff,
        decide_eq_false_iff_not, hs.next_eq]
      rw [hs.mem_free j]
      constructor
      · rintro ⟨h0, hl', hu⟩
        exact ⟨h0, by omega, by omega, hu⟩
      · rintro ⟨h0, hl', hne, hu⟩
        exact ⟨h0, by omega, hu⟩

/-! ### After a release -/

/-- The branch of `freeNode` that releases. -/
theorem freeNode_eq {s : Impl} {id : Nat} (hid : s.inUse id = true) :
    s.freeNode id = { s with
      nodes := s.nodes.set id none
      nodeFree := s.nodeFree.set id true
      freeList := s.freeList ++ [id] } :=
  if_pos hid

/-- One id less is in use. -/
theorem inUse_freeNode {s : Impl} (hs : s.Ok) {id : Nat} (hid : s.inUse id = true) (j : Nat) :
    (s.freeNode id).inUse j = (decide (j ≠ id) && s.inUse j) := by
  have hlt := inUse_lt hid
  rw [freeNode_eq hid]
  by_cases hj : j = id
  · subst hj
    simp [inUse, List.getD_eq_getElem?_getD, hs.free_length, hlt]
  · simp [inUse, hj, List.getD_eq_getElem?_getD, List.getElem?_set_ne (Ne.symm hj)]

/-- **After a release** there is no node under the id. -/
theorem getNode_freeNode {s : Impl} (hs : s.Ok) {id : Nat} (hid : s.inUse id = true) (j : Nat) :
    (s.freeNode id).getNode j = if j = id then none else s.getNode j := by
  simp only [getNode, inUse_freeNode hs hid]
  by_cases hj : j = id
  · simp [hj]
  · simp [freeNode_eq hid, hj, List.getElem?_set_ne (Ne.symm hj)]

/-- A release puts an id on the free list that was not there. -/
theorem Ok.freeNode {s : Impl} (hs : s.Ok) {id : Nat} (hid : s.inUse id = true) :
    (s.freeNode id).Ok := by
  have huse := inUse_freeNode hs hid
  have hlt := inUse_lt hid
  have hnot : id ∉ s.freeList := by
    intro h
    have := ((hs.mem_free id).mp h).2.2
    rw [hid] at this
    exact absurd this (by simp)
  -- Id 0 is never in use, so it never gets onto the free list.
  have h0 : id ≠ 0 := by
    rintro rfl
    rw [inUse_zero] at hid
    exact absurd hid (by simp)
  rw [freeNode_eq hid] at huse ⊢
  refine ⟨by simpa using hs.free_length, by simpa using hs.next_eq,
    by simpa using hs.nodes_pos, ?_, ?_, ?_⟩
  · intro j hj
    rw [huse j, Bool.and_eq_true, decide_eq_true_eq] at hj
    obtain ⟨m, hm⟩ := hs.used_some j hj.2
    exact ⟨m, by simp [List.getElem?_set_ne (Ne.symm hj.1), hm]⟩
  · rw [List.nodup_append]
    exact ⟨hs.free_nodup, by simp, by
      intro a ha b hb
      rw [List.mem_singleton] at hb
      rintro rfl
      exact hnot (hb ▸ ha)⟩
  · intro j
    rw [huse j, List.mem_append, List.mem_singleton, hs.mem_free j]
    simp only [List.length_set, Bool.and_eq_false_iff, decide_eq_false_iff_not, not_not]
    constructor
    · rintro (⟨hj0, hl, hu⟩ | rfl)
      · exact ⟨hj0, hl, Or.inr hu⟩
      · exact ⟨h0, hlt, Or.inl rfl⟩
    · rintro ⟨hj0, hl, rfl | hu⟩
      · exact Or.inr rfl
      · exact Or.inl ⟨hj0, hl, hu⟩

end Impl

end KvEngine
