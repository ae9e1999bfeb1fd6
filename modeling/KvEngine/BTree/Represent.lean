/-
  KvEngine.BTree.Represent
  ────────────────────────
  **When the node store holds a shape, and what one step does to the store.**

  `Stored h n i` says that the heap `h` holds, for every node of the shape
  `i`, exactly the cell the shape describes: a leaf its keys, values and
  link, an internal node its children's ids and, as separators, the first
  key of every child but the first.  Exact separators are thereby part of
  the representation.

  `Step t t' xs ys` is the effect of a piece of code that owns the node ids
  `xs` before and `ys` after: nothing else in the tree changes.
-/
import KvEngine.BTree.Tree
import KvEngine.Lib.Footprint
import KvEngine.Lib.Shape

namespace KvEngine

open Lib

/-! ## §1. Shapes in the store. -/

/-- The node a shape's root describes. -/
def cell : (n : Nat) → Tree Bytes Bytes n → BTreeNode
  | 0, t => .leaf {
      keys := t.items.map Prod.fst
      values := t.items.map Prod.snd
      nextLeaf := t.next }
  | n + 1, t => .internal {
      keys := t.items.tail.map (itemKey (n + 1))
      children := t.items.map Node.id }

/-- Every node of the shape is in the heap as described. -/
def Stored (h : Nat → Option BTreeNode) : (n : Nat) → Item Bytes Bytes n → Prop
  | 0, _ => True
  | n + 1, t =>
      h (t : Node _).id = some (cell n t) ∧ ∀ i ∈ (t : Node _).items, Stored h n i

theorem Stored.get {h : Nat → Option BTreeNode} {n : Nat} {t : Tree Bytes Bytes n}
    (hs : Stored h (n + 1) t) : h t.id = some (cell n t) := hs.1

/-- Only the cells of the shape's own ids matter. -/
theorem Stored.congr {h h' : Nat → Option BTreeNode} :
    ∀ {n : Nat} {i : Item Bytes Bytes n}, Stored h n i →
      (∀ j ∈ itemIds n i, h' j = h j) → Stored h' n i := by
  intro n
  induction n with
  | zero => intro i _ _; trivial
  | succ n ih =>
      intro t hs heq
      refine ⟨(heq _ (id_mem_itemIds n t)).trans hs.1, ?_⟩
      intro i hi
      refine ih (hs.2 i hi) (fun j hj => heq j ?_)
      rw [itemIds_succ]
      exact List.mem_cons_of_mem _ (List.mem_flatMap.mpr ⟨i, hi, hj⟩)

/-- Every id of a stored shape is in use. -/
theorem Stored.used {h : Nat → Option BTreeNode} :
    ∀ {n : Nat} {i : Item Bytes Bytes n}, Stored h n i →
      ∀ j ∈ itemIds n i, ∃ x, h j = some x := by
  intro n
  induction n with
  | zero => intro i _ j hj; exact absurd hj (by simp [itemIds])
  | succ n ih =>
      intro t hs j hj
      rw [itemIds_succ] at hj
      rcases List.mem_cons.mp hj with rfl | hj
      · exact ⟨_, hs.1⟩
      · obtain ⟨i, hi, hji⟩ := List.mem_flatMap.mp hj
        exact ih (hs.2 i hi) j hji

/-- The ids of a list of stored shapes are in use. -/
theorem used_of_stored {h : Nat → Option BTreeNode} {n : Nat} {is : List (Item Bytes Bytes n)}
    (hs : ∀ i ∈ is, Stored h n i) : ∀ j ∈ is.flatMap (itemIds n), ∃ x, h j = some x := by
  intro j hj
  obtain ⟨i, hi, hji⟩ := List.mem_flatMap.mp hj
  exact (hs i hi).used j hji

/-- Shapes whose ids a footprint does not own stay stored. -/
theorem Stored.footprint {h h' : Nat → Option BTreeNode} {xs ys : List Nat} {n : Nat}
    {i : Item Bytes Bytes n} (hs : Stored h n i) (f : Footprint h h' xs ys)
    (hx : ∀ j ∈ itemIds n i, j ∉ xs) : Stored h' n i := by
  refine hs.congr (fun j hj => ?_)
  obtain ⟨x, hjx⟩ := hs.used j hj
  rw [hjx, f.get_of_used hjx (hx j hj)]

/-- A write outside a shape leaves it stored. -/
theorem Stored.update {h : Nat → Option BTreeNode} {n : Nat} {i : Item Bytes Bytes n}
    (hs : Stored h n i) {id : Nat} (hid : id ∉ itemIds n i) (x : Option BTreeNode) :
    Stored (Function.update h id x) n i :=
  hs.congr (fun _ hj => Function.update_of_ne (ne_of_mem_of_not_mem hj hid) _ _)

/-- A node lies on each level, so a shape has more ids than levels. -/
theorem levels_le_length_ids {lo d m : Nat} :
    ∀ {n : Nat} {t : Tree Bytes Bytes n}, Sized lo d m t → n + 1 ≤ (itemIds (n + 1) t).length := by
  intro n
  induction n generalizing lo with
  | zero => intro t _; rw [itemIds_succ, List.length_cons]; omega
  | succ n ih =>
      intro t ht
      rw [itemIds_succ, List.length_cons]
      cases hi : t.items with
      | nil =>
          have := ht.lower
          rw [hi, List.length_nil] at this
          simp [slack] at this
      | cons i is =>
          have hfill : Filled d m (n + 1) i := ht.below i (by rw [hi]; exact List.mem_cons_self)
          have := ih hfill.sized
          rw [List.flatMap_cons, List.length_append]
          omega

namespace BPlusTree

/-! ## §2. The heap under single updates. -/

theorem inUse_of_getNode {t : BPlusTree} {id : Nat} {x : BTreeNode}
    (h : t.getNode id = some x) : t.impl.inUse id = true :=
  Impl.inUse_of_getNode h

theorem getNode_setNode {t : BPlusTree} {id : Nat} {x : BTreeNode} (h : t.getNode id = some x)
    (n : BTreeNode) : (t.setNode id n).getNode = Function.update t.getNode id (some n) := by
  funext j
  rw [Function.update_apply]
  exact Impl.getNode_setNode (inUse_of_getNode h) n j

theorem getNode_allocateNode {t : BPlusTree} (ht : t.impl.Ok) (isLeaf : Bool) :
    (t.allocateNode isLeaf).2.getNode
      = Function.update t.getNode (t.allocateNode isLeaf).1 (some (Impl.newNode isLeaf)) := by
  funext j
  rw [Function.update_apply]
  exact Impl.getNode_allocateNode ht isLeaf j

theorem getNode_allocated {t : BPlusTree} (ht : t.impl.Ok) (isLeaf : Bool) :
    t.getNode (t.allocateNode isLeaf).1 = none :=
  (Impl.getNode_eq_none_iff ht _).mpr (Impl.allocateNode_fresh ht isLeaf).2

theorem getNode_freeNode {t : BPlusTree} (ht : t.impl.Ok) {id : Nat} {x : BTreeNode}
    (h : t.getNode id = some x) :
    (t.freeNode id).getNode = Function.update t.getNode id none := by
  funext j
  have hform : (t.freeNode id).impl = t.impl.freeNode id := by
    simp [freeNode, h]
  rw [Function.update_apply]
  show (t.freeNode id).impl.getNode j = _
  rw [hform]
  exact Impl.getNode_freeNode ht (inUse_of_getNode h) j

@[simp] theorem leafAt_eq {t : BPlusTree} {id : Nat} {n : LeafNode}
    (h : t.getNode id = some (.leaf n)) : t.leafAt id = some n := by
  simp [leafAt, h]

@[simp] theorem internalAt_eq {t : BPlusTree} {id : Nat} {n : InternalNode}
    (h : t.getNode id = some (.internal n)) : t.internalAt id = some n := by
  simp [internalAt, h]

/-! ## §3. Steps. -/

/-- The parts of the tree no step inside a subtree touches. -/
structure SameRoot (t t' : BPlusTree) : Prop where
  rootId : t'.rootId = t.rootId
  rootIsLeaf : t'.rootIsLeaf = t.rootIsLeaf
  options : t'.options = t.options
  size : t'.size = t.size
  height : t'.height = t.height

theorem SameRoot.refl (t : BPlusTree) : SameRoot t t := ⟨rfl, rfl, rfl, rfl, rfl⟩

theorem SameRoot.trans {t t' t'' : BPlusTree} (h : SameRoot t t') (h' : SameRoot t' t'') :
    SameRoot t t'' :=
  ⟨h'.rootId.trans h.rootId, h'.rootIsLeaf.trans h.rootIsLeaf, h'.options.trans h.options,
    h'.size.trans h.size, h'.height.trans h.height⟩

/-- Code owning the nodes `xs` before and `ys` after turned `t` into `t'`. -/
structure Step (t t' : BPlusTree) (xs ys : List Nat) : Prop where
  footprint : Footprint t.getNode t'.getNode xs ys
  ok : t'.impl.Ok
  count : t'.nodeCount + xs.length = t.nodeCount + ys.length
  same : SameRoot t t'
  fuel : t.fuel ≤ t'.fuel

theorem Step.refl {t : BPlusTree} (ht : t.impl.Ok) (xs : List Nat) : Step t t xs xs :=
  ⟨Footprint.refl _ _, ht, rfl, SameRoot.refl t, Nat.le_refl _⟩

theorem Step.trans {t t' t'' : BPlusTree} {xs ys zs : List Nat} (s : Step t t' xs ys)
    (s' : Step t' t'' ys zs) : Step t t'' xs zs where
  footprint := s.footprint.trans s'.footprint
  ok := s'.ok
  count := by
    have h := s.count
    have h' := s'.count
    omega
  same := s.same.trans s'.same
  fuel := Nat.le_trans s.fuel s'.fuel

theorem Step.widen {t t' : BPlusTree} {xs ys : List Nat} (s : Step t t' xs ys)
    (us vs : List Nat) : Step t t' (us ++ xs ++ vs) (us ++ ys ++ vs) where
  footprint := s.footprint.widen us vs
  ok := s.ok
  count := by
    have h := s.count
    simp only [List.length_append]
    omega
  same := s.same
  fuel := s.fuel

theorem Step.perm {t t' : BPlusTree} {xs ys xs' ys' : List Nat} (s : Step t t' xs ys)
    (hx : xs'.Perm xs) (hy : ys'.Perm ys) : Step t t' xs' ys' where
  footprint := s.footprint.congr (fun _ => hx.mem_iff) (fun _ => hy.mem_iff)
  ok := s.ok
  count := by rw [hx.length_eq, hy.length_eq]; exact s.count
  same := s.same
  fuel := s.fuel

theorem Step.write {t : BPlusTree} (ht : t.impl.Ok) {id : Nat} {x : BTreeNode}
    (h : t.getNode id = some x) {xs : List Nat} (hid : id ∈ xs) (n : BTreeNode) :
    Step t (t.setNode id n) xs xs where
  footprint := by rw [getNode_setNode h]; exact Footprint.write hid _
  ok := ht.setNode n
  count := rfl
  same := ⟨rfl, rfl, rfl, rfl, rfl⟩
  fuel := by simp [BPlusTree.fuel, BPlusTree.setNode, Impl.setNode]

theorem Step.alloc {t : BPlusTree} (ht : t.impl.Ok) (isLeaf : Bool) (xs : List Nat) :
    Step t (t.allocateNode isLeaf).2 xs ((t.allocateNode isLeaf).1 :: xs) where
  footprint := by
    rw [getNode_allocateNode ht]
    exact Footprint.alloc (getNode_allocated ht isLeaf) _ _
  ok := ht.allocateNode isLeaf
  count := by
    simp only [allocateNode, List.length_cons]
    omega
  same := ⟨rfl, rfl, rfl, rfl, rfl⟩
  fuel := by
    simp only [BPlusTree.fuel, allocateNode, Impl.allocateNode]
    cases t.impl.freeList.getLast? <;> simp

theorem Step.free {t : BPlusTree} (ht : t.impl.Ok) {id : Nat} {x : BTreeNode}
    (h : t.getNode id = some x) (hcount : 0 < t.nodeCount) (xs : List Nat) :
    Step t (t.freeNode id) (id :: xs) xs where
  footprint := by rw [getNode_freeNode ht h]; exact Footprint.release _
  ok := by
    simp only [freeNode, h, Option.isSome_some, if_true]
    exact ht.freeNode (inUse_of_getNode h)
  count := by
    simp only [freeNode, h, Option.isSome_some, if_true, List.length_cons, if_pos hcount]
    omega
  same := by
    simp only [freeNode, h, Option.isSome_some, if_true]
    exact ⟨rfl, rfl, rfl, rfl, rfl⟩
  fuel := by
    simp only [freeNode, h, Option.isSome_some, if_true, BPlusTree.fuel,
      Impl.freeNode_eq (inUse_of_getNode h), List.length_set, Nat.le_refl]

/-- Distinct nodes in use fit into the store. -/
theorem length_le_fuel {t : BPlusTree} {xs : List Nat} (hnd : xs.Nodup)
    (hused : ∀ j ∈ xs, ∃ x, t.getNode j = some x) : xs.length ≤ t.fuel := by
  have hsub : xs.Subperm (List.range t.fuel) := by
    refine hnd.subperm (fun j hj => ?_)
    obtain ⟨x, hx⟩ := hused j hj
    exact List.mem_range.mpr (Impl.inUse_lt (inUse_of_getNode hx))
  simpa using hsub.length_le

/-! ## §4. Searching a stored node. -/

/-- `max_keys` of the tree. -/
abbrev maxKeys (t : BPlusTree) : Nat := t.options.maxKeysPerNode

/-- The order of the tree's comparator. -/
abbrev order (t : BPlusTree) : Comparator := keyOrder t.options.comparator

/-- **Searching a leaf**: either the key is there, or the position is where
it belongs. -/
theorem search_leaf {cmp : Option Comparator} {es : List (Bytes × Bytes)} (key : Bytes)
    (hs : Sorted (keyOrder cmp) es) :
    (∃ xs v ys, es = xs ++ (key, v) :: ys ∧
        lowerBound (es.map Prod.fst) key cmp = xs.length ∧
        keyAt (es.map Prod.fst) xs.length key cmp = true ∧
        (∀ x ∈ xs, (keyOrder cmp).lt x.1 key) ∧ ∀ y ∈ ys, (keyOrder cmp).lt key y.1) ∨
    (∃ xs ys, es = xs ++ ys ∧
        lowerBound (es.map Prod.fst) key cmp = xs.length ∧
        keyAt (es.map Prod.fst) xs.length key cmp = false ∧
        (∀ x ∈ xs, (keyOrder cmp).lt x.1 key) ∧ ∀ y ∈ ys, (keyOrder cmp).lt key y.1) := by
  obtain ⟨xs, ys, rfl, hx, hy⟩ := exists_prefix_of_pairwise
    (fun e : Bytes × Bytes => decide ((keyOrder cmp).lt e.1 key))
    (fun a b hab hr => by
      rw [decide_eq_true_eq] at hr ⊢
      exact (keyOrder cmp).lt_trans hab hr) es hs
  simp only [decide_eq_true_eq, decide_eq_false_iff_not] at hx hy
  -- The bisection ends where the keys stop being below `key`.
  have hpos : lowerBound ((xs ++ ys).map Prod.fst) key cmp = xs.length := by
    unfold lowerBound
    rw [List.map_append, bisect_append, List.length_map]
    · intro y hy'
      obtain ⟨e, he, rfl⟩ := List.mem_map.mp hy'
      simpa [(keyOrder cmp).compare_lt_zero_iff] using hx e he
    · intro z hz
      obtain ⟨e, he, rfl⟩ := List.mem_map.mp hz
      simpa using (keyOrder cmp).compare_nonneg_iff.mpr (hy e he)
  have hat : ((xs ++ ys).map Prod.fst)[xs.length]? = (ys.map Prod.fst)[0]? := by
    rw [List.map_append, List.getElem?_append_right (by simp), List.length_map, Nat.sub_self]
  cases ys with
  | nil =>
      refine Or.inr ⟨xs, [], rfl, hpos, ?_, hx, by simp⟩
      simp [keyAt]
  | cons e ys =>
      obtain ⟨_, hsy, _⟩ := sorted_append.mp hs
      have hey := (sorted_cons.mp hsy).1
      have hne := hy e List.mem_cons_self
      by_cases hk : e.1 = key
      · refine Or.inl ⟨xs, e.2, ys, by rw [← hk], hpos, ?_, hx, fun y h => hk ▸ hey y h⟩
        rw [keyAt, hat]
        simp [hk, (keyOrder cmp).compare_self]
      -- The entry there is not below `key` and not `key`: it is above, and so are those after it.
      · have hgt : (keyOrder cmp).lt key e.1 := by
          rcases (keyOrder cmp).lt_trichotomy e.1 key with h | h | h
          · exact absurd h hne
          · exact absurd h hk
          · exact h
        refine Or.inr ⟨xs, e :: ys, rfl, hpos, ?_, hx, ?_⟩
        · rw [keyAt, hat]
          simp [(keyOrder cmp).compare_eq_zero_iff, hk]
        · intro y h
          rcases List.mem_cons.mp h with rfl | h
          · exact hgt
          · exact (keyOrder cmp).lt_trans hgt (hey y h)

/-- **Searching an internal node**: the child a key belongs to, and the
entries on its two sides. -/
theorem search_internal {cmp : Option Comparator} {n lo d m : Nat}
    {s : Tree Bytes Bytes (n + 1)} (key : Bytes) (hd : 1 ≤ d) (hsize : Sized lo d m s)
    (hsort : Sorted (keyOrder cmp) (s.items.flatMap (itemEntries (n + 1)))) :
    ∃ xs c ys, s.items = xs ++ c :: ys ∧ c ∈ s.items ∧
      upperBound (s.items.tail.map (itemKey (n + 1))) key cmp = xs.length ∧
      (s.items.map Node.id)[xs.length]? = some c.id ∧
      Sorted (keyOrder cmp) (itemEntries (n + 1) c) ∧
      (∀ e ∈ xs.flatMap (itemEntries (n + 1)), (keyOrder cmp).lt e.1 key) ∧
      (∀ e ∈ ys.flatMap (itemEntries (n + 1)), (keyOrder cmp).lt key e.1) ∧
      (xs ≠ [] → ¬ (keyOrder cmp).lt key (itemKey (n + 1) c)) := by
  have hlow := hsize.lower
  have hne : s.items ≠ [] := by
    intro h
    rw [h] at hlow
    simp [slack] at hlow
  have hhead : ∀ i ∈ s.items, Headed (n + 1) i := fun i hi => (hsize.below i hi).headed hd
  obtain ⟨xs, c, ys, hitems, hpos, hx, hy, hroute⟩ := route_spec hne hhead hsort key
  refine ⟨xs, c, ys, hitems, by simp [hitems], ?_, ?_, ?_, hx, hy, hroute⟩
  · unfold upperBound
    simp only [compareKeys_eq]
    exact hpos
  · rw [hitems]
    exact getElem?_map_append_cons _ xs c ys
  · rw [hitems, List.flatMap_append, List.flatMap_cons, sorted_append, sorted_append] at hsort
    exact hsort.2.1.1

end BPlusTree

end KvEngine
