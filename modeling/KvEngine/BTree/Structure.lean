/-
  KvEngine.BTree.Structure
  ────────────────────────
  **The structure of a reachable tree, read off its node store.**

  `WellFormed t` speaks about node ids and cells only: depth, occupancy,
  child counts, key order, separators and the leaf chain of whatever can be
  reached from the root.  `wellFormed_of_represents` derives it from the
  represented shape, and `reachable_wellFormed` states it, together with the
  verdict of `Verify`, for every tree that calls can lead to.
-/
import KvEngine.BTree.Scan
import KvEngine.BTree.VerifyRun

namespace KvEngine

open Lib

/-! ## §1. Reachable nodes. -/

/-- Nodes reachable from the root, with their depth. -/
inductive At (t : BPlusTree) : Nat → Nat → Prop
  | root : At t t.rootId 0
  | child {id d c : Nat} {x : InternalNode} (parent : At t id d)
      (node : t.getNode id = some (.internal x)) (mem : c ∈ x.children) : At t c (d + 1)

/-- `key` is stored in a leaf under `id`. -/
inductive KeyUnder (t : BPlusTree) : Nat → Bytes → Prop
  | leaf {id : Nat} {x : LeafNode} {key : Bytes} (node : t.getNode id = some (.leaf x))
      (mem : key ∈ x.keys) : KeyUnder t id key
  | child {id c : Nat} {x : InternalNode} {key : Bytes}
      (node : t.getNode id = some (.internal x)) (mem : c ∈ x.children)
      (below : KeyUnder t c key) : KeyUnder t id key

/-- `l` is the leaf reached from `id` by always taking the first child. -/
inductive Leftmost (t : BPlusTree) : Nat → Nat → Prop
  | leaf {id : Nat} {x : LeafNode} (node : t.getNode id = some (.leaf x)) : Leftmost t id id
  | child {id c l : Nat} {cs : List Nat} {x : InternalNode}
      (node : t.getNode id = some (.internal x)) (first : x.children = c :: cs)
      (below : Leftmost t c l) : Leftmost t id l

/-- Following `next_leaf` from `id` visits the leaves `ls` and ends in 0. -/
inductive Chained (t : BPlusTree) : Nat → List (Nat × LeafNode) → Prop
  | nil : Chained t 0 []
  | cons {id : Nat} {x : LeafNode} {ls : List (Nat × LeafNode)}
      (node : t.getNode id = some (.leaf x)) (rest : Chained t x.nextLeaf ls) :
      Chained t id ((id, x) :: ls)

def BTreeNode.keys : BTreeNode → List Bytes
  | leaf x => x.keys
  | internal x => x.keys

/-- What a B+ tree must look like. -/
structure WellFormed (t : BPlusTree) : Prop where
  present : ∀ id d, At t id d → ∃ x, t.getNode id = some x
  sameDepth : ∃ depth, ∀ id d x, At t id d → t.getNode id = some (.leaf x) → d = depth
  upper : ∀ id d x, At t id d → t.getNode id = some x → x.size ≤ t.maxKeys
  lower : ∀ id d x, At t id d → t.getNode id = some x → id ≠ t.rootId →
    t.maxKeys / 2 ≤ x.size
  rootChildren : ∀ x, t.getNode t.rootId = some (.internal x) → 2 ≤ x.children.length
  children : ∀ id d x, At t id d → t.getNode id = some (.internal x) →
    x.children.length = x.keys.length + 1
  increasing : ∀ id d x, At t id d → t.getNode id = some x → x.keys.Pairwise t.order.lt
  /-- A separator is the smallest key to its right and above all to its left. -/
  separators : ∀ id d x, At t id d → t.getNode id = some (.internal x) →
    ∀ i key left right, x.keys[i]? = some key → x.children[i]? = some left →
      x.children[i + 1]? = some right →
      KeyUnder t right key ∧ (∀ k, KeyUnder t right k → ¬ t.order.lt k key) ∧
        ∀ k, KeyUnder t left k → t.order.lt k key
  /-- The chain from the leftmost leaf visits each leaf once, in key order. -/
  chain : ∃ first ls, Leftmost t t.rootId first ∧ Chained t first ls ∧
    (ls.map Prod.fst).Nodup ∧
    (∀ id, id ∈ ls.map Prod.fst ↔ ∃ d x, At t id d ∧ t.getNode id = some (.leaf x)) ∧
    (ls.flatMap (fun l => l.2.keys)).Pairwise t.order.lt

/-! ## §2. Reachable nodes are the nodes of the shape. -/

namespace BPlusTree

variable {t : BPlusTree}

/-- A node of the shape `s` at depth `d`. -/
structure Sub (t : BPlusTree) {n : Nat} (s : Tree Bytes Bytes n) (d : Nat) {k : Nat}
    (u : Tree Bytes Bytes k) : Prop where
  level : d + k = n
  stored : Stored t.getNode (k + 1) u
  sorted : Sorted t.order (itemEntries (k + 1) u)
  sized : Sized (if d = 0 then slack k else t.maxKeys / 2) (t.maxKeys / 2) t.maxKeys u
  root : d = 0 → u.id = s.id
  leaves : ∀ l ∈ leafNodes k u, l ∈ leafNodes n s

theorem sub_of_at {n : Nat} {s : Tree Bytes Bytes n} (h : Represents t s) {id d : Nat}
    (hat : At t id d) : ∃ (k : Nat) (u : Tree Bytes Bytes k), u.id = id ∧ Sub t s d u := by
  induction hat with
  | root =>
      exact ⟨n, s, h.rootId.symm, Nat.zero_add n, h.stored, h.sorted, h.sized, fun _ => rfl,
        fun _ hl => hl⟩
  | child parent node mem ih =>
      obtain ⟨k, u, rfl, hu⟩ := ih
      cases k with
      | zero =>
          rw [hu.stored.get] at node
          exact absurd (Option.some.inj node) (by simp [cell])
      | succ k =>
          rw [hu.stored.get] at node
          obtain rfl := BTreeNode.internal.inj (Option.some.inj node)
          obtain ⟨c, hc, rfl⟩ := List.mem_map.mp mem
          refine ⟨k, c, rfl, ?_, hu.stored.2 c hc, ?_, ?_, fun h0 => absurd h0 (Nat.succ_ne_zero _),
            fun l hl => hu.leaves l (List.mem_flatMap.mpr ⟨c, hc, hl⟩)⟩
          · have := hu.level
            omega
          · obtain ⟨xs, ys, hitems⟩ := List.append_of_mem hc
            have hsort := hu.sorted
            rw [itemEntries_succ (k + 1), hitems, List.flatMap_append, List.flatMap_cons,
              sorted_append, sorted_append] at hsort
            exact hsort.2.1.1
          · rw [if_neg (Nat.succ_ne_zero _)]
            exact (hu.sized.below c hc).sized

theorem keyUnder_iff :
    ∀ {k : Nat} {u : Tree Bytes Bytes k}, Stored t.getNode (k + 1) u → ∀ key,
      KeyUnder t u.id key ↔ ∃ value, (key, value) ∈ itemEntries (k + 1) u := by
  intro k
  induction k with
  | zero =>
      intro u hu key
      rw [itemEntries_leaf]
      -- Down: the node stored under the id decides which constructor of `KeyUnder` applies.
      constructor
      · intro h
        cases h with
        | leaf node mem =>
            rw [hu.get] at node
            obtain rfl := BTreeNode.leaf.inj (Option.some.inj node)
            obtain ⟨e, he, rfl⟩ := List.mem_map.mp mem
            exact ⟨e.2, he⟩
        | child node mem below =>
            rw [hu.get] at node
            exact absurd (Option.some.inj node) (by simp [cell])
      · rintro ⟨value, hmem⟩
        exact .leaf hu.get (List.mem_map.mpr ⟨_, hmem, rfl⟩)
  | succ k ih =>
      intro u hu key
      rw [itemEntries_succ (k + 1)]
      constructor
      · intro h
        cases h with
        | leaf node mem =>
            rw [hu.get] at node
            exact absurd (Option.some.inj node) (by simp [cell])
        | child node mem below =>
            rw [hu.get] at node
            obtain rfl := BTreeNode.internal.inj (Option.some.inj node)
            obtain ⟨c, hc, rfl⟩ := List.mem_map.mp mem
            obtain ⟨value, hv⟩ := (ih (hu.2 c hc) key).mp below
            exact ⟨value, List.mem_flatMap.mpr ⟨c, hc, hv⟩⟩
      · rintro ⟨value, hmem⟩
        obtain ⟨c, hc, hv⟩ := List.mem_flatMap.mp hmem
        exact .child hu.get (List.mem_map.mpr ⟨c, hc, rfl⟩) ((ih (hu.2 c hc) key).mpr ⟨value, hv⟩)

/-! ## §3. The leaf chain. -/

theorem leftmost_leafNodes :
    ∀ {k lo d m : Nat} {u : Tree Bytes Bytes k}, Stored t.getNode (k + 1) u → Sized lo d m u →
      ∃ l ls, leafNodes k u = l :: ls ∧ Leftmost t u.id l.id := by
  intro k
  induction k with
  | zero => exact fun {_ _ _ u} hu _ => ⟨u, [], rfl, .leaf hu.get⟩
  | succ k ih =>
      intro lo d m u hu hsize
      have hlow := hsize.lower
      cases hi : u.items with
      | nil =>
          rw [hi] at hlow
          simp [slack] at hlow
      | cons c is =>
          have hc : c ∈ u.items := by rw [hi]; exact List.mem_cons_self
          obtain ⟨l, ls, hleaves, hleft⟩ := ih (hu.2 c hc) (hsize.below c hc).sized
          have hfirst : u.items.map Node.id = c.id :: is.map Node.id := by
            rw [hi, List.map_cons]
          refine ⟨l, ls ++ is.flatMap (leafNodes k), ?_, .child hu.get hfirst hleft⟩
          rw [leafNodes_succ, hi, List.flatMap_cons, hleaves]
          rfl

/-- The node record of a leaf. -/
def leafNode (l : Tree Bytes Bytes 0) : LeafNode :=
  ⟨l.items.map Prod.fst, l.items.map Prod.snd, l.next⟩

theorem chained_of_chain : ∀ {ls : List (Tree Bytes Bytes 0)}, Iterator.Chain t ls →
    Chained t (Iterator.firstId ls) (ls.map (fun l => (l.id, leafNode l))) := by
  intro ls
  induction ls with
  | nil => exact fun _ => .nil
  | cons l ls ih =>
      intro h
      have hrest := ih h.tail
      rw [← h.next_eq] at hrest
      exact .cons (h.stored l List.mem_cons_self) hrest

theorem at_leafNodes : ∀ {k d : Nat} {u : Tree Bytes Bytes k}, Stored t.getNode (k + 1) u →
    At t u.id d → ∀ l ∈ leafNodes k u, ∃ d', At t l.id d' := by
  intro k
  induction k with
  | zero =>
      intro d u _ hat l hl
      rw [List.mem_singleton.mp hl]
      exact ⟨d, hat⟩
  | succ k ih =>
      intro d u hu hat l hl
      obtain ⟨c, hc, hlc⟩ := List.mem_flatMap.mp hl
      exact ih (hu.2 c hc) (.child hat hu.get (List.mem_map.mpr ⟨c, hc, rfl⟩)) l hlc

/-- The chain of a represented tree. -/
theorem chain_of_represents {n : Nat} {s : Tree Bytes Bytes n} (h : Represents t s) :
    ∃ first ls, Leftmost t t.rootId first ∧ Chained t first ls ∧ (ls.map Prod.fst).Nodup ∧
      (∀ id, id ∈ ls.map Prod.fst ↔ ∃ d x, At t id d ∧ t.getNode id = some (.leaf x)) ∧
      (ls.flatMap (fun l => l.2.keys)).Pairwise t.order.lt := by
  have hchain := Iterator.chain_leafNodes h
  obtain ⟨l, ls, hleaves, hleft⟩ := leftmost_leafNodes h.stored h.sized
  rw [← h.rootId] at hleft
  have hids : ((leafNodes n s).map (fun l => (l.id, leafNode l))).map Prod.fst
      = (leafNodes n s).map Node.id := by
    rw [List.map_map]
    rfl
  refine ⟨l.id, (leafNodes n s).map (fun l => (l.id, leafNode l)), hleft, ?_, ?_, ?_, ?_⟩
  · have hc := chained_of_chain hchain
    rw [hleaves] at hc ⊢
    exact hc
  · rw [hids]
    exact hchain.nodup
  -- The leaves of the chain are the leaf nodes below the root, no others.
  · intro id
    rw [hids]
    constructor
    · intro hid
      obtain ⟨l, hl, rfl⟩ := List.mem_map.mp hid
      have hroot : At t s.id 0 := h.rootId ▸ At.root
      obtain ⟨d, hat⟩ := at_leafNodes h.stored hroot l hl
      exact ⟨d, leafNode l, hat, stored_leafNodes h.stored l hl⟩
    · rintro ⟨d, x, hat, hx⟩
      obtain ⟨k, u, rfl, hu⟩ := sub_of_at h hat
      cases k with
      | zero => exact List.mem_map.mpr ⟨u, hu.leaves u (List.mem_singleton.mpr rfl), rfl⟩
      | succ k =>
          rw [hu.stored.get] at hx
          exact absurd (Option.some.inj hx) (by simp [cell])
  · have hkeys : ((leafNodes n s).map (fun l => (l.id, leafNode l))).flatMap (fun l => l.2.keys)
        = ((leafNodes n s).flatMap Node.items).map Prod.fst := by
      rw [List.flatMap_map, List.map_flatMap]
      rfl
    rw [hkeys]
    exact hchain.sorted.keys_pairwise

/-! ## §4. Keys and separators. -/

theorem Sub.headed {n d k : Nat} {s : Tree Bytes Bytes n} {u : Tree Bytes Bytes (k + 1)}
    (hm : 3 ≤ t.maxKeys) (hu : Sub t s d u) : ∀ i ∈ u.items, Headed (k + 1) i :=
  fun i hi => (hu.sized.below i hi).headed (by omega)

theorem increasing_of_sub {n d k : Nat} {s : Tree Bytes Bytes n} {u : Tree Bytes Bytes k}
    (hm : 3 ≤ t.maxKeys) (hu : Sub t s d u) : (cell k u).keys.Pairwise t.order.lt := by
  have hsort := hu.sorted
  cases k with
  | zero =>
      rw [itemEntries_leaf] at hsort
      exact hsort.keys_pairwise
  | succ k =>
      rw [itemEntries_succ (k + 1)] at hsort
      have hkeys := pairwise_itemKey (hu.headed hm) hsort
      exact List.pairwise_map.mpr (hkeys.sublist (List.tail_sublist _))

/-- Separators are exact. -/
theorem separators_of_sub {n d k : Nat} {s : Tree Bytes Bytes n} {u : Tree Bytes Bytes (k + 1)}
    (hm : 3 ≤ t.maxKeys) (hu : Sub t s d u) {i : Nat} {key : Bytes} {left right : Nat}
    (hkey : (u.items.tail.map (itemKey (k + 1)))[i]? = some key)
    (hleft : (u.items.map Node.id)[i]? = some left)
    (hright : (u.items.map Node.id)[i + 1]? = some right) :
    KeyUnder t right key ∧ (∀ q, KeyUnder t right q → ¬ t.order.lt q key) ∧
      ∀ q, KeyUnder t left q → t.order.lt q key := by
  rw [List.getElem?_map, Option.map_eq_some_iff] at hkey hleft hright
  obtain ⟨b, hb, rfl⟩ := hkey
  obtain ⟨a, ha, rfl⟩ := hleft
  obtain ⟨b', hb', rfl⟩ := hright
  have hsame : b' = b := by
    rw [List.getElem?_tail] at hb
    exact Option.some.inj (hb'.symm.trans hb)
  subst hsame
  -- the two children stand next to each other
  obtain ⟨hi, ha⟩ := List.getElem?_eq_some_iff.mp ha
  obtain ⟨hj, hb'⟩ := List.getElem?_eq_some_iff.mp hb'
  have hsplit : u.items = u.items.take i ++ a :: b' :: u.items.drop (i + 2) := by
    rw [← ha, ← hb', ← List.drop_eq_getElem_cons hj, ← List.drop_eq_getElem_cons hi,
      List.take_append_drop]
  have hma : a ∈ u.items := by rw [← ha]; exact List.getElem_mem hi
  have hmb : b' ∈ u.items := by rw [← hb']; exact List.getElem_mem hj
  have hsort := hu.sorted
  rw [itemEntries_succ (k + 1), hsplit, List.flatMap_append, List.flatMap_cons, List.flatMap_cons,
    sorted_append, sorted_append, sorted_append] at hsort
  obtain ⟨-, ⟨-, ⟨hsb, -⟩, hab⟩, -⟩ := hsort
  obtain ⟨value, hvalue⟩ := (hu.headed hm b' hmb).key_mem
  refine ⟨(keyUnder_iff (hu.stored.2 b' hmb) _).mpr ⟨value, hvalue⟩, ?_, ?_⟩
  · intro q hq
    obtain ⟨v, hv⟩ := (keyUnder_iff (hu.stored.2 b' hmb) q).mp hq
    exact not_lt_itemKey (hu.headed hm b' hmb) hsb (q, v) hv
  · intro q hq
    obtain ⟨v, hv⟩ := (keyUnder_iff (hu.stored.2 a hma) q).mp hq
    exact hab (q, v) hv _ (List.mem_append_left _ hvalue)

/-! ## §5. Represented trees are well formed. -/

theorem wellFormed_of_represents {n : Nat} {s : Tree Bytes Bytes n} (h : Represents t s) :
    WellFormed t where
  present id d hat := by
    obtain ⟨k, u, rfl, hu⟩ := sub_of_at h hat
    exact ⟨_, hu.stored.get⟩
  sameDepth := by
    refine ⟨n, fun id d x hat hx => ?_⟩
    obtain ⟨k, u, rfl, hu⟩ := sub_of_at h hat
    cases k with
    | zero => exact hu.level
    | succ k =>
        rw [hu.stored.get] at hx
        exact absurd (Option.some.inj hx) (by simp [cell])
  upper id d x hat hx := by
    obtain ⟨k, u, rfl, hu⟩ := sub_of_at h hat
    rw [hu.stored.get] at hx
    rw [← Option.some.inj hx, size_cell]
    have := hu.sized.upper
    omega
  -- A node at depth 0 is the root, which has no lower bound here.
  lower id d x hat hx hid := by
    obtain ⟨k, u, rfl, hu⟩ := sub_of_at h hat
    rw [hu.stored.get] at hx
    rw [← Option.some.inj hx, size_cell]
    have hd : d ≠ 0 := fun h0 => hid ((hu.root h0).trans h.rootId.symm)
    have := hu.sized.lower
    rw [if_neg hd] at this
    omega
  rootChildren x hx := by
    obtain ⟨k, u, hid, hu⟩ := sub_of_at h .root
    rw [← hid, hu.stored.get] at hx
    have hx' := Option.some.inj hx
    cases k with
    | zero => exact absurd hx' (by simp [cell])
    | succ k =>
        rw [← BTreeNode.internal.inj hx', List.length_map]
        exact hu.sized.lower
  children id d x hat hx := by
    obtain ⟨k, u, rfl, hu⟩ := sub_of_at h hat
    rw [hu.stored.get] at hx
    have hx' := Option.some.inj hx
    cases k with
    | zero => exact absurd hx' (by simp [cell])
    | succ k =>
        have hlow := hu.sized.lower
        simp only [slack] at hlow
        rw [← BTreeNode.internal.inj hx', List.length_map, List.length_map, List.length_tail]
        omega
  increasing id d x hat hx := by
    obtain ⟨k, u, rfl, hu⟩ := sub_of_at h hat
    rw [hu.stored.get] at hx
    rw [← Option.some.inj hx]
    exact increasing_of_sub h.three hu
  -- A leaf has no separators; the bounds of an internal node come from the sorted entries.
  separators id d x hat hx i key left right hkey hleft hright := by
    obtain ⟨k, u, rfl, hu⟩ := sub_of_at h hat
    rw [hu.stored.get] at hx
    have hx' := Option.some.inj hx
    cases k with
    | zero => exact absurd hx' (by simp [cell])
    | succ k =>
        rw [← BTreeNode.internal.inj hx'] at hkey hleft hright
        exact separators_of_sub h.three hu hkey hleft hright
  chain := chain_of_represents h

/-- **Every tree that calls can lead to is well formed and passes `Verify`.** -/
theorem reachable_wellFormed (options : BTreeOptions) (ops : List TreeOp) :
    ∃ outs t, run? BPlusTree.apply (new options) ops = some (outs, t) ∧
      t.maxKeys = max 3 options.maxKeysPerNode ∧ t.order = keyOrder options.comparator ∧
      WellFormed t ∧ t.verify = some true := by
  obtain ⟨t, hrun, n, s, hrep, hoptions, -⟩ := runs_model options ops
  refine ⟨_, t, hrun, ?_, ?_, wellFormed_of_represents hrep, verify_of_represents hrep⟩
  · rw [← new_maxKeys, maxKeys, hoptions]
  · rw [order, hoptions, new_comparator]

end BPlusTree

end KvEngine
