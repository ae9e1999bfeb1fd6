/-
  KvEngine.BTree.Insert
  ─────────────────────
  **`insert` on a stored subtree.**

  `insert_spec`: on a stored, sorted subtree within its occupancy bounds the
  recursion ends, reports success, and leaves one subtree (or two, when it
  reports a split) holding the bindings with the key inserted.  The leaf case
  is `insertAtLeaf_spec`, the return from a split child `insertSeparator_spec`.
-/
import KvEngine.BTree.Replace

namespace KvEngine

open Lib

namespace BPlusTree

/-- What became of a subtree, as its `SplitResult` tells the parent. -/
inductive Grown (lo m : Nat) {n : Nat} (s : Tree Bytes Bytes n) :
    SplitResult → List (Item Bytes Bytes (n + 1)) → Prop
  | one {u : Tree Bytes Bytes n} (hid : u.id = s.id) (hsize : Sized lo (m / 2) m u) :
      Grown lo m s {} [u]
  | two {u w : Tree Bytes Bytes n} (hid : u.id = s.id) (hu : Sized (m / 2) (m / 2) m u)
      (hw : Sized (m / 2) (m / 2) m w) :
      Grown lo m s ⟨true, itemKey (n + 1) w, w.id⟩ [u, w]

/-- The outcome of `insert` on the subtree `s`. -/
structure Insertion (t : BPlusTree) (key value : Bytes) (lo : Nat) {n : Nat}
    (s : Tree Bytes Bytes n) (r : InsertResult) (us : List (Item Bytes Bytes (n + 1))) :
    Prop where
  status : r.status = .okStatus
  inserted : r.inserted = decide (find t.order (itemEntries (n + 1) s) key = none)
  grown : Grown lo t.maxKeys s r.result us
  replaced : Replaced t r.tree (n + 1) [s] us
  entries : us.flatMap (itemEntries (n + 1))
    = insertEntry t.order key value (itemEntries (n + 1) s)

/-! ## §1. The leaf. -/

/-- A node in use over bindings. -/
theorem leaf_kids {t : BPlusTree} (hok : t.impl.Ok) {id : Nat} {x : BTreeNode}
    (h : t.getNode id = some x) (es : List (Item Bytes Bytes 0)) : Kids t id 0 es :=
  ⟨hok, ⟨x, h⟩, fun _ _ => trivial, by rw [flatMap_itemIds_zero]; simp⟩

/-- A leaf rewritten with other bindings. -/
theorem replaced_leaf {t : BPlusTree} (hok : t.impl.Ok) {s u : Tree Bytes Bytes 0}
    (hs : Stored t.getNode 1 s) (hid : u.id = s.id) (hnext : u.next = s.next) :
    Replaced t (t.setNode s.id (cell 0 u)) 1 [s] [u] := by
  obtain ⟨hstep, hu, hnd⟩ := (leaf_kids hok hs.get u.items).write hid rfl
  rw [flatMap_itemIds_zero, show itemIds (0 + 1) u = [u.id] from itemIds_leaf u] at hstep
  refine ⟨?_, ?_, ?_, ?_⟩
  · simpa only [List.flatMap_singleton, itemIds_leaf] using hstep
  · intro v hv
    rw [List.mem_singleton.mp hv]
    exact hu
  · simpa only [List.flatMap_singleton] using hnd
  · rw [List.flatMap_singleton, List.flatMap_singleton, itemLeaves_leaf, itemLeaves_leaf, hid,
      hnext]
    exact Relinked.refl _

/-- An overfull leaf cut in two, the right half linked in after the left. -/
theorem replaced_leaf_split {t : BPlusTree} (hok : t.impl.Ok) {s : Tree Bytes Bytes 0}
    (hs : Stored t.getNode 1 s) (y : BTreeNode) (u w : Tree Bytes Bytes 0) (hid : u.id = s.id)
    (hw : w.id = ((t.setNode s.id y).allocateNode true).1) (hun : u.next = w.id)
    (hwn : w.next = s.next) :
    Replaced t ((((t.setNode s.id y).allocateNode true).2.setNode w.id (cell 0 w)).setNode s.id
      (cell 0 u)) 1 [s] [u, w] := by
  have k := leaf_kids hok hs.get (u.items ++ w.items)
  obtain ⟨hstep, hu, hw', hnd⟩ := (k.setParent y).split true hid hw rfl
  have hfirst := k.step_setParent y ((u.items ++ w.items).flatMap (itemIds 0))
  have hboth := hfirst.trans hstep
  rw [flatMap_itemIds_zero, show itemIds (0 + 1) u = [u.id] from itemIds_leaf u,
    show itemIds (0 + 1) w = [w.id] from itemIds_leaf w] at hboth
  refine ⟨?_, ?_, ?_, ?_⟩
  · simpa only [List.flatMap_cons, List.flatMap_nil, List.append_nil, itemIds_leaf] using hboth
  · intro v hv
    rcases List.mem_cons.mp hv with rfl | hv
    · exact hu
    · rw [List.mem_singleton.mp hv]
      exact hw'
  · simpa only [List.flatMap_cons, List.flatMap_nil, List.append_nil] using hnd
  · simp only [List.flatMap_cons, List.flatMap_nil, List.append_nil, itemLeaves_leaf, hid, hun,
      hwn]
    exact ⟨fun _ => rfl, fun _ h => ⟨rfl, h.1, trivial⟩⟩

/-- The leaf `s`, as `insertAtLeaf` gets it. -/
def leafOf (s : Tree Bytes Bytes 0) : LeafNode :=
  { keys := s.items.map Prod.fst, values := s.items.map Prod.snd, nextLeaf := s.next }

section Leaf

variable {t : BPlusTree} {s : Tree Bytes Bytes 0} {lo : Nat} {key value v : Bytes}
  {xs ys es : List (Item Bytes Bytes 0)}

/-- A key that is there: its value is overwritten. -/
theorem insertAtLeaf_present (hok : t.impl.Ok) (hs : Stored t.getNode 1 s)
    (hsize : Sized lo (t.maxKeys / 2) t.maxKeys s) (hes : s.items = xs ++ (key, v) :: ys)
    (hpos : lowerBound (leafOf s).keys key t.options.comparator = xs.length)
    (hat : keyAt (leafOf s).keys xs.length key t.options.comparator = true)
    (hx : ∀ e ∈ xs, t.order.lt e.1 key) :
    ∃ r us, insertAtLeaf t key value s.id (leafOf s) = some r ∧
      Insertion t key value lo s r us := by
  let u : Tree Bytes Bytes 0 := { s with items := xs ++ (key, value) :: ys }
  have hlen : u.items.length = s.items.length := by simp [u, hes]
  refine ⟨{ tree := t.setNode s.id (cell 0 u) }, [u], ?_, rfl, ?_, ?_,
    replaced_leaf hok hs rfl rfl, ?_⟩
  · have hset : setAt? (s.items.map Prod.snd) xs.length value
        = some ((xs ++ (key, value) :: ys).map Prod.snd) := by
      rw [hes]
      exact setAt?_map Prod.snd xs (key, v) (key, value) ys
    have hkeys : s.items.map Prod.fst = (xs ++ (key, value) :: ys).map Prod.fst := by
      simp [hes]
    simp only [insertAtLeaf, hpos, hat, if_true]
    simp only [leafOf, hset]
    simp only [hkeys]
    rfl
  · have hfind : find t.order s.items key ≠ none := by
      rw [Ne, find_eq_none_iff, hes]
      exact fun h => h (key, v) (by simp) rfl
    rw [itemEntries_leaf, decide_eq_false hfind]
  · exact .one rfl ⟨by rw [hlen]; exact hsize.lower, by rw [hlen]; exact hsize.upper,
      fun _ _ => trivial⟩
  · rw [List.flatMap_singleton, itemEntries_leaf, itemEntries_leaf, hes, insertEntry_present hx]

/-- A new key is put where it belongs, and the leaf holds `es` with it. -/
structure PutInto (t : BPlusTree) (s : Tree Bytes Bytes 0) (key value : Bytes) (i : Nat)
    (es : List (Item Bytes Bytes 0)) : Prop where
  pos : lowerBound (leafOf s).keys key t.options.comparator = i
  absent : keyAt (leafOf s).keys i key t.options.comparator = false
  keys : insertAt? (leafOf s).keys i key = some (es.map Prod.fst)
  values : insertAt? (leafOf s).values i value = some (es.map Prod.snd)

/-- A new key for which there is room. -/
theorem insertAtLeaf_fits (hok : t.impl.Ok) (hs : Stored t.getNode 1 s)
    (h : PutInto t s key value xs.length es) (hlow : lo ≤ es.length)
    (hfit : es.length ≤ t.maxKeys) :
    ∃ result t' us, insertAtLeaf t key value s.id (leafOf s)
        = some { result, inserted := true, tree := t' } ∧
      Grown lo t.maxKeys s result us ∧ Replaced t t' 1 [s] us ∧
      us.flatMap (itemEntries 1) = es := by
  let u : Tree Bytes Bytes 0 := { s with items := es }
  refine ⟨{}, t.setNode s.id (cell 0 u), [u], ?_, .one rfl ⟨hlow, hfit, fun _ _ => trivial⟩,
    replaced_leaf hok hs rfl rfl, by rw [List.flatMap_singleton, itemEntries_leaf]⟩
  have hfit' : (es.map Prod.fst).length ≤ (t.setNode s.id (.leaf
      ⟨es.map Prod.fst, es.map Prod.snd, s.next⟩)).options.maxKeysPerNode := by
    rw [List.length_map]
    exact hfit
  simp only [insertAtLeaf, h.pos, h.absent, h.keys, h.values, Option.bind_eq_bind,
    Option.bind_some, Bool.false_eq_true, if_false]
  exact if_pos hfit'

/-- **A leaf that becomes overfull** is cut in the middle. -/
theorem insertAtLeaf_splits (hm : 3 ≤ t.maxKeys) (hok : t.impl.Ok) (hs : Stored t.getNode 1 s)
    (h : PutInto t s key value xs.length es) (hlong : t.maxKeys < es.length)
    (hupp : es.length ≤ t.maxKeys + 1) :
    ∃ result t' us, insertAtLeaf t key value s.id (leafOf s)
        = some { result, inserted := true, tree := t' } ∧
      Grown lo t.maxKeys s result us ∧ Replaced t t' 1 [s] us ∧
      us.flatMap (itemEntries 1) = es := by
  let mid := es.length / 2
  let y : BTreeNode := .leaf ⟨es.map Prod.fst, es.map Prod.snd, s.next⟩
  let rightId := ((t.setNode s.id y).allocateNode true).1
  let u : Tree Bytes Bytes 0 := ⟨s.id, rightId, es.take mid⟩
  let w : Tree Bytes Bytes 0 := ⟨rightId, s.next, es.drop mid⟩
  have hmid : mid < es.length := by omega
  obtain ⟨e, fs, hdrop⟩ : ∃ e fs, es.drop mid = e :: fs := ⟨_, _, List.drop_eq_getElem_cons hmid⟩
  have hsep : itemKey 1 w = e.1 := itemKey_cons (t := w) hdrop
  let t' := (((t.setNode s.id y).allocateNode true).2.setNode rightId (cell 0 w)).setNode s.id
    (cell 0 u)
  refine ⟨⟨true, e.1, rightId⟩, t', [u, w], ?_, ?_,
    replaced_leaf_split hok hs y u w rfl rfl rfl rfl, ?_⟩
  · have hfit : ¬ (es.map Prod.fst).length ≤ (t.setNode s.id y).options.maxKeysPerNode := by
      rw [List.length_map]
      exact Nat.not_le_of_lt hlong
    have hk : splitAt? (es.map Prod.fst) ((es.map Prod.fst).length / 2)
        = some ((es.take mid).map Prod.fst, (es.drop mid).map Prod.fst) := by
      rw [List.length_map]
      exact splitAt?_map _ (Nat.div_le_self _ 2)
    have hv : splitAt? (es.map Prod.snd) ((es.map Prod.fst).length / 2)
        = some ((es.take mid).map Prod.snd, (es.drop mid).map Prod.snd) := by
      rw [List.length_map]
      exact splitAt?_map _ (Nat.div_le_self _ 2)
    have hhead : ((es.drop mid).map Prod.fst).head? = some e.1 := by
      rw [hdrop]
      rfl
    simp only [insertAtLeaf, h.pos, h.absent, h.keys, h.values, Option.bind_eq_bind,
      Option.bind_some, Bool.false_eq_true, if_false]
    refine (if_neg hfit).trans ?_
    simp only [hk, hv, hhead, Option.bind_some]
    rfl
  · rw [← hsep]
    have hu : u.items.length = mid := by
      show (es.take mid).length = mid
      rw [List.length_take]
      omega
    have hw : w.items.length = es.length - mid := List.length_drop
    exact .two rfl
      ⟨by rw [hu]; show _ + 0 ≤ _; omega, by rw [hu]; show _ ≤ _ + 0; omega,
        fun _ _ => trivial⟩
      ⟨by rw [hw]; show _ + 0 ≤ _; omega, by rw [hw]; show _ ≤ _ + 0; omega,
        fun _ _ => trivial⟩
  · rw [List.flatMap_cons, List.flatMap_singleton, itemEntries_leaf, itemEntries_leaf]
    exact List.take_append_drop mid es

/-- **`insert` on a leaf**: the key is there, or it fits, or the leaf is cut. -/
theorem insertAtLeaf_spec (key value : Bytes) (hm : 3 ≤ t.maxKeys) (hok : t.impl.Ok)
    (hs : Stored t.getNode 1 s) (hsize : Sized lo (t.maxKeys / 2) t.maxKeys s)
    (hsort : Sorted t.order (itemEntries 1 s)) :
    ∃ r us, insertAtLeaf t key value s.id (leafOf s) = some r ∧
      Insertion t key value lo s r us := by
  rw [itemEntries_leaf] at hsort
  have hlow := hsize.lower
  have hupp := hsize.upper
  simp only [slack, Nat.add_zero] at hlow hupp
  rcases search_leaf key hsort with ⟨xs, v, ys, hes, hpos, hat, hx, hy⟩ |
    ⟨xs, ys, hes, hpos, hat, hx, hy⟩
  · exact insertAtLeaf_present hok hs hsize hes hpos hat hx
  have hfind : find t.order (itemEntries 1 s) key = none := by
    rw [itemEntries_leaf, hes]
    exact find_between hx hy
  have hins : insertEntry t.order key value s.items = xs ++ (key, value) :: ys := by
    rw [hes, insertEntry_absent hx hy]
  have hput : PutInto t s key value xs.length (xs ++ (key, value) :: ys) := by
    refine ⟨hpos, hat, ?_, ?_⟩
    · rw [leafOf, hes]
      exact insertAt?_map Prod.fst xs ys (key, value)
    · rw [leafOf, hes]
      exact insertAt?_map Prod.snd xs ys (key, value)
  have hlen : (xs ++ (key, value) :: ys).length = s.items.length + 1 := by
    simp only [hes, List.length_append, List.length_cons]
    omega
  obtain ⟨result, t', us, hrun, hgrown, hrep, hent⟩ : ∃ result t' us,
      insertAtLeaf t key value s.id (leafOf s) = some { result, inserted := true, tree := t' } ∧
        Grown lo t.maxKeys s result us ∧ Replaced t t' 1 [s] us ∧
        us.flatMap (itemEntries 1) = xs ++ (key, value) :: ys := by
    by_cases hfit : (xs ++ (key, value) :: ys).length ≤ t.maxKeys
    · exact insertAtLeaf_fits hok hs hput (by omega) hfit
    · exact insertAtLeaf_splits hm hok hs hput (Nat.lt_of_not_le hfit) (by omega)
  refine ⟨_, us, hrun, rfl, (decide_eq_true hfind).symm, hgrown, hrep, ?_⟩
  rw [hent, itemEntries_leaf, hins]

end Leaf

/-! ## §2. The return from a split child. -/

/-- The separator of a split child belongs right after the child. -/
theorem lowerBound_separator {cmp : Option Comparator} {n : Nat}
    {xs ys : List (Item Bytes Bytes n)} {u w : Item Bytes Bytes n}
    (hp : (xs ++ u :: w :: ys).Pairwise
      (fun i j => (keyOrder cmp).lt (itemKey n i) (itemKey n j))) :
    lowerBound ((xs ++ u :: ys).tail.map (itemKey n)) (itemKey n w) cmp = xs.length := by
  unfold lowerBound
  rw [tail_append_cons, List.map_append, bisect_append, List.length_map,
    length_tail_append_singleton]
  · intro q hq
    obtain ⟨i, hi, rfl⟩ := List.mem_map.mp hq
    have hmem : i ∈ xs ++ [u] := List.mem_of_mem_tail hi
    have hsplit : xs ++ u :: w :: ys = (xs ++ [u]) ++ w :: ys := by simp
    rw [hsplit, List.pairwise_append] at hp
    simpa [(keyOrder cmp).compare_lt_zero_iff] using hp.2.2 i hmem w List.mem_cons_self
  · intro q hq
    obtain ⟨i, hi, rfl⟩ := List.mem_map.mp hq
    rw [List.pairwise_append, List.pairwise_cons, List.pairwise_cons] at hp
    have hlt := hp.2.1.2.1 i hi
    simpa using (keyOrder cmp).compare_nonneg_iff.mpr ((keyOrder cmp).lt_asymm hlt)

/-- The outcome of `insertSeparator` on the node `s`, whose children are to be `es`. -/
structure Separation (t : BPlusTree) (lo : Nat) (inserted : Bool) {n : Nat}
    (s : Tree Bytes Bytes (n + 1)) (es : List (Item Bytes Bytes (n + 1))) (r : InsertResult)
    (us : List (Item Bytes Bytes (n + 2))) : Prop where
  status : r.status = .okStatus
  inserted : r.inserted = inserted
  grown : Grown lo t.maxKeys s r.result us
  step : Step t r.tree (s.id :: es.flatMap (itemIds (n + 1))) (us.flatMap (itemIds (n + 2)))
  stored : ∀ v ∈ us, Stored r.tree.getNode (n + 2) v
  nodup : (us.flatMap (itemIds (n + 2))).Nodup
  leaves : us.flatMap (itemLeaves (n + 2)) = es.flatMap (itemLeaves (n + 1))
  entries : us.flatMap (itemEntries (n + 2)) = es.flatMap (itemEntries (n + 1))

section Separator

variable {t : BPlusTree} {n lo : Nat} {s : Tree Bytes Bytes (n + 1)}
  {xs ys es : List (Item Bytes Bytes (n + 1))} {a u w : Item Bytes Bytes (n + 1)}

/-- The separator and the right half are put in, and the node holds `es` with them. -/
structure TakenIn (t : BPlusTree) (s : Tree Bytes Bytes (n + 1))
    (w : Item Bytes Bytes (n + 1)) (i : Nat) (es : List (Item Bytes Bytes (n + 1))) : Prop where
  node : t.getNode s.id = some (cell (n + 1) s)
  pos : lowerBound (s.items.tail.map (itemKey (n + 1))) (itemKey (n + 1) w) t.options.comparator = i
  keys : insertAt? (s.items.tail.map (itemKey (n + 1))) i (itemKey (n + 1) w)
    = some (es.tail.map (itemKey (n + 1)))
  children : insertAt? (s.items.map Node.id) (i + 1) w.id = some (es.map Node.id)
  kids : Kids t s.id (n + 1) es
  filled : ∀ i ∈ es, Filled (t.maxKeys / 2) t.maxKeys (n + 1) i

/-- A node with room for one child more. -/
theorem insertSeparator_fits (inserted : Bool) (h : TakenIn t s w xs.length es)
    (hlow : lo + 1 ≤ es.length) (hfit : es.length ≤ t.maxKeys + 1) :
    ∃ r us, insertSeparator t s.id inserted ⟨true, itemKey (n + 1) w, w.id⟩ = some r ∧
      Separation t lo inserted s es r us := by
  let v : Tree Bytes Bytes (n + 1) := { s with items := es }
  obtain ⟨hstep, hv, hnd⟩ := h.kids.write (u := v) rfl rfl
  refine ⟨{ inserted, tree := t.setNode s.id (cell (n + 1) v) }, [v], ?_, rfl, rfl,
    .one rfl ⟨hlow, hfit, h.filled⟩, ?_, ?_, ?_, ?_, ?_⟩
  · have hfit' : (es.tail.map (itemKey (n + 1))).length
        ≤ (t.setNode s.id (cell (n + 1) v)).options.maxKeysPerNode := by
      rw [List.length_map, List.length_tail]
      exact Nat.sub_le_of_le_add hfit
    simp only [insertSeparator, internalAt_eq h.node, Option.bind_eq_bind, Option.bind_some,
      h.pos, h.keys, h.children]
    exact if_pos hfit'
  · simpa only [List.flatMap_singleton] using hstep
  · intro x hx
    rw [List.mem_singleton.mp hx]
    exact hv
  · simpa only [List.flatMap_singleton] using hnd
  · rw [List.flatMap_singleton]
    rfl
  · rw [List.flatMap_singleton]
    rfl

/-- **A node that becomes overfull**: its middle key moves up, not into either half. -/
theorem insertSeparator_splits (inserted : Bool) (hm : 3 ≤ t.maxKeys)
    (h : TakenIn t s w xs.length es) (hlong : t.maxKeys + 1 < es.length)
    (hupp : es.length ≤ t.maxKeys + 2) :
    ∃ r us, insertSeparator t s.id inserted ⟨true, itemKey (n + 1) w, w.id⟩ = some r ∧
      Separation t lo inserted s es r us := by
  let mid := (es.length - 1) / 2
  let y : BTreeNode := .internal ⟨es.tail.map (itemKey (n + 1)), es.map Node.id⟩
  let rightId := ((t.setNode s.id y).allocateNode false).1
  let v : Tree Bytes Bytes (n + 1) := ⟨s.id, s.next, es.take (mid + 1)⟩
  let x : Tree Bytes Bytes (n + 1) := ⟨rightId, 0, es.drop (mid + 1)⟩
  have hsplit : v.items ++ x.items = es := List.take_append_drop (mid + 1) es
  obtain ⟨hstep, hv, hx, hnd⟩ := (h.kids.setParent y).split false (u := v) (w := x) rfl rfl hsplit
  have hboth := (h.kids.step_setParent y (es.flatMap (itemIds (n + 1)))).trans hstep
  have hmid : mid + 1 < es.length := by omega
  obtain ⟨e, fs, hdrop⟩ : ∃ e fs, es.drop (mid + 1) = e :: fs :=
    ⟨_, _, List.drop_eq_getElem_cons hmid⟩
  have hsep : itemKey (n + 2) x = itemKey (n + 1) e := itemKey_cons (t := x) hdrop
  let t' := (((t.setNode s.id y).allocateNode false).2.setNode rightId
    (cell (n + 1) x)).setNode s.id (cell (n + 1) v)
  refine ⟨{ result := ⟨true, itemKey (n + 2) x, rightId⟩, inserted, tree := t' }, [v, x], ?_,
    rfl, rfl, ?_, ?_, ?_, ?_, ?_, ?_⟩
  rotate_left
  · have hvl : v.items.length = mid + 1 := by
      show (es.take (mid + 1)).length = mid + 1
      rw [List.length_take]
      omega
    have hxl : x.items.length = es.length - (mid + 1) := List.length_drop
    exact .two rfl
      ⟨by rw [hvl]; show _ + 1 ≤ _; omega, by rw [hvl]; show _ ≤ _ + 1; omega,
        fun i hi => h.filled i (List.mem_of_mem_take hi)⟩
      ⟨by rw [hxl]; show _ + 1 ≤ _; omega, by rw [hxl]; show _ ≤ _ + 1; omega,
        fun i hi => h.filled i (List.mem_of_mem_drop hi)⟩
  · simpa only [List.flatMap_cons, List.flatMap_nil, List.append_nil] using hboth
  · intro z hz
    rcases List.mem_cons.mp hz with rfl | hz
    · exact hv
    · rw [List.mem_singleton.mp hz]
      exact hx
  · simpa only [List.flatMap_cons, List.flatMap_nil, List.append_nil] using hnd
  · rw [← hsplit, List.flatMap_append, List.flatMap_cons, List.flatMap_singleton]
    rfl
  · rw [← hsplit, List.flatMap_append, List.flatMap_cons, List.flatMap_singleton]
    rfl
  -- the run itself
  · have hklen : (es.tail.map (itemKey (n + 1))).length = es.length - 1 := by
      rw [List.length_map, List.length_tail]
    have hfit : ¬ (es.tail.map (itemKey (n + 1))).length
        ≤ (t.setNode s.id y).options.maxKeysPerNode := by
      rw [hklen]
      exact fun hle => Nat.not_le_of_lt hlong (Nat.le_add_of_sub_le hle)
    have hmidkey : (es.tail.map (itemKey (n + 1)))[mid]? = some (itemKey (n + 2) x) := by
      have hhead : es[mid + 1]? = some e := by
        rw [← List.head?_drop, hdrop]
        rfl
      rw [List.getElem?_map, List.getElem?_tail, hhead, hsep]
      rfl
    have hright : splitAt? (es.tail.map (itemKey (n + 1))) (mid + 1)
        = some ((es.tail.map (itemKey (n + 1))).take (mid + 1),
            x.items.tail.map (itemKey (n + 1))) := by
      rw [splitAt?_of_le (by rw [hklen]; omega), ← List.map_drop, drop_tail]
    have hleft : splitAt? (es.tail.map (itemKey (n + 1))) mid
        = some (v.items.tail.map (itemKey (n + 1)),
            (es.tail.map (itemKey (n + 1))).drop mid) := by
      rw [splitAt?_of_le (by rw [hklen]; omega), ← List.map_take, take_tail]
    have hids : splitAt? (es.map Node.id) (mid + 1)
        = some (v.items.map Node.id, x.items.map Node.id) :=
      splitAt?_map _ hmid.le
    simp only [insertSeparator, internalAt_eq h.node, Option.bind_eq_bind, Option.bind_some,
      h.pos, h.keys, h.children]
    rw [if_neg hfit, hklen, show (es.length - 1) / 2 = mid from rfl]
    simp only [hmidkey, hright, hleft, hids, Option.bind_some]
    rfl

/-- **The return from a split child `a`**, whose halves are `u` and `w`. -/
theorem insertSeparator_spec (lo : Nat) (inserted : Bool) (hm : 3 ≤ t.maxKeys)
    (hitems : s.items = xs ++ a :: ys) (hcell : t.getNode s.id = some (cell (n + 1) s))
    (hid : u.id = a.id) (hkey : xs ≠ [] → itemKey (n + 1) u = itemKey (n + 1) a)
    (k : Kids t s.id (n + 1) (xs ++ u :: w :: ys))
    (hfill : ∀ i ∈ xs ++ u :: w :: ys, Filled (t.maxKeys / 2) t.maxKeys (n + 1) i)
    (hsort : Sorted t.order ((xs ++ u :: w :: ys).flatMap (itemEntries (n + 1))))
    (hlow : lo + 1 ≤ s.items.length) (hupp : s.items.length ≤ t.maxKeys + 1) :
    ∃ r us, insertSeparator t s.id inserted ⟨true, itemKey (n + 1) w, w.id⟩ = some r ∧
      Separation t lo inserted s (xs ++ u :: w :: ys) r us := by
  have hheaded : ∀ i ∈ xs ++ u :: w :: ys, Headed (n + 1) i :=
    fun i hi => (hfill i hi).headed (by omega)
  -- the child kept its first key, so the node's separators still fit
  have hold : s.items.tail.map (itemKey (n + 1))
      = (xs ++ [u]).tail.map (itemKey (n + 1)) ++ ys.map (itemKey (n + 1)) := by
    rw [hitems, tail_append_cons, List.map_append, map_tail_congr hkey]
  have htaken : TakenIn t s w xs.length (xs ++ u :: w :: ys) := by
    refine ⟨hcell, ?_, ?_, ?_, k, hfill⟩
    · rw [hold, ← List.map_append, ← tail_append_cons]
      exact lowerBound_separator (pairwise_itemKey hheaded hsort)
    · rw [hold, insertAt?_append _ _ _ (by rw [List.length_map, length_tail_append_singleton]),
        tail_append_cons xs u (w :: ys), List.map_append]
      rfl
    · have hsplit : s.items.map Node.id = (xs ++ [a]).map Node.id ++ ys.map Node.id := by
        simp [hitems]
      rw [hsplit, insertAt?_append _ _ _ (by simp)]
      simp [hid]
  have hlen : (xs ++ u :: w :: ys).length = s.items.length + 1 := by
    rw [hitems]
    simp only [List.length_append, List.length_cons]
    omega
  by_cases hfit : (xs ++ u :: w :: ys).length ≤ t.maxKeys + 1
  · exact insertSeparator_fits inserted htaken (by omega) hfit
  · exact insertSeparator_splits inserted hm htaken (Nat.lt_of_not_le hfit) (by omega)

end Separator

/-! ## §3. The recursion. -/

/-- A child that took a key not below its own first key kept that first key. -/
theorem itemKey_insertEntry {o : TotalCompare Bytes} {n : Nat} {c u : Item Bytes Bytes n}
    {us : List (Item Bytes Bytes n)} {key value : Bytes} (hc : Headed n c) (hu : Headed n u)
    (hkey : ¬ o.lt key (itemKey n c))
    (he : (u :: us).flatMap (itemEntries n) = insertEntry o key value (itemEntries n c)) :
    itemKey n u = itemKey n c := by
  obtain ⟨v, es, hce⟩ := hc
  obtain ⟨w, fs, hue⟩ := hu
  obtain ⟨x, gs, hins⟩ := head_insertEntry value v es hkey
  rw [List.flatMap_cons, hue, hce, hins, List.cons_append] at he
  injection he with hhead
  exact congrArg Prod.fst hhead

section Recursion

variable {t t' : BPlusTree} {key value : Bytes} {n lo : Nat} {s : Tree Bytes Bytes (n + 1)}
  {xs ys us : List (Item Bytes Bytes (n + 1))} {c u w : Item Bytes Bytes (n + 1)}
  {inserted : Bool}

/-- The recursion into the child `c` of `s` has come back, with `us` in its place. -/
structure Returned (t : BPlusTree) (key value : Bytes) (s : Tree Bytes Bytes (n + 1))
    (xs : List (Item Bytes Bytes (n + 1))) (c : Item Bytes Bytes (n + 1))
    (ys us : List (Item Bytes Bytes (n + 1))) (t' : BPlusTree) (inserted : Bool) : Prop where
  items : s.items = xs ++ c :: ys
  node : t'.getNode s.id = some (cell (n + 1) s)
  step : Step t t' (s.id :: s.items.flatMap (itemIds (n + 1)))
    (s.id :: (xs ++ us ++ ys).flatMap (itemIds (n + 1)))
  kids : Kids t' s.id (n + 1) (xs ++ us ++ ys)
  leaves : Relinked (s.items.flatMap (itemLeaves (n + 1)))
    ((xs ++ us ++ ys).flatMap (itemLeaves (n + 1)))
  entries : (xs ++ us ++ ys).flatMap (itemEntries (n + 1))
    = insertEntry t.order key value (s.items.flatMap (itemEntries (n + 1)))
  inserted : inserted = decide (find t.order (itemEntries (n + 2) s) key = none)
  firstKey : ∀ {u us'}, us = u :: us' → Headed (n + 1) u → xs ≠ [] →
    itemKey (n + 1) u = itemKey (n + 1) c

/-- What an insertion into a child is to its parent. -/
theorem Insertion.returned {lo' : Nat} {r : InsertResult} (h : Insertion t key value lo' c r us)
    (hitems : s.items = xs ++ c :: ys) (hcell : t.getNode s.id = some (cell (n + 1) s))
    (k : Kids t s.id (n + 1) s.items) (hc : Headed (n + 1) c)
    (hx : ∀ e ∈ xs.flatMap (itemEntries (n + 1)), t.order.lt e.1 key)
    (hy : ∀ e ∈ ys.flatMap (itemEntries (n + 1)), t.order.lt key e.1)
    (hroute : xs ≠ [] → ¬ t.order.lt key (itemKey (n + 1) c)) :
    Returned t key value s xs c ys us r.tree r.inserted := by
  have hcut : xs ++ [c] ++ ys = s.items := by rw [hitems, List.append_assoc]; rfl
  obtain ⟨hstep, k', hget⟩ := h.replaced.window (hcut.symm ▸ k)
  rw [hcut] at hstep
  refine ⟨hitems, hget.trans hcell, hstep, k', ?_, ?_, ?_, ?_⟩
  · rw [← hcut]
    exact h.replaced.leaves.window
  · rw [← hcut]
    simp only [List.flatMap_append, h.entries, List.flatMap_singleton]
    exact (insertEntry_window hx hy).symm
  · rw [h.inserted, itemEntries_succ (n + 1), ← hcut]
    simp only [List.flatMap_append, List.flatMap_singleton]
    rw [find_window hx hy]
  · rintro u us' rfl hu hxs
    exact itemKey_insertEntry hc hu (hroute hxs) h.entries

/-- The children on both sides of `c` are as they were. -/
theorem Returned.filled (h : Returned t key value s xs c ys us t' inserted)
    (hsize : Sized lo (t.maxKeys / 2) t.maxKeys s)
    (hus : ∀ i ∈ us, Filled (t.maxKeys / 2) t.maxKeys (n + 1) i) :
    ∀ i ∈ xs ++ us ++ ys, Filled (t.maxKeys / 2) t.maxKeys (n + 1) i := by
  intro i hi
  rcases mem_window.mp hi with hi | hi
  · refine hsize.below i ?_
    rw [h.items]
    rcases List.mem_append.mp hi with hi | hi <;> simp [hi]
  · exact hus i hi

/-- **The child has not been split**: the node's cell describes the new items as well. -/
theorem Returned.one (h : Returned t key value s xs c ys [u] t' inserted) (hm : 3 ≤ t.maxKeys)
    (hsize : Sized lo (t.maxKeys / 2) t.maxKeys s) (hid : u.id = c.id)
    (hu : Sized (t.maxKeys / 2) (t.maxKeys / 2) t.maxKeys u) :
    ∃ us, Insertion t key value lo s { inserted, tree := t' } us := by
  have hkey := h.firstKey rfl (hu.filled.headed (by omega))
  let v : Tree Bytes Bytes (n + 1) := { s with items := xs ++ [u] ++ ys }
  have hv : cell (n + 1) v = cell (n + 1) s := by
    simp only [cell, v, h.items, List.append_assoc, List.singleton_append,
      map_tail_replace hkey, List.map_append, List.map_cons, hid]
  have hlen : v.items.length = s.items.length := by simp [v, h.items]
  refine ⟨[v], rfl, h.inserted, .one rfl ⟨?_, ?_, ?_⟩, ⟨?_, ?_, ?_, ?_⟩, ?_⟩
  · rw [hlen]
    exact hsize.lower
  · rw [hlen]
    exact hsize.upper
  · exact h.filled hsize (fun i hi => by rw [List.mem_singleton.mp hi]; exact hu.filled)
  · rw [List.flatMap_singleton, List.flatMap_singleton]
    exact h.step
  · intro x hx
    rw [List.mem_singleton.mp hx]
    exact ⟨h.node.trans (congrArg some hv.symm), h.kids.stored⟩
  · rw [List.flatMap_singleton]
    exact h.kids.nodup
  · rw [List.flatMap_singleton, List.flatMap_singleton]
    exact h.leaves
  · rw [List.flatMap_singleton]
    exact h.entries

/-- **The child has been split**: the node takes in the right half. -/
theorem Returned.two (h : Returned t key value s xs c ys [u, w] t' inserted)
    (hm : 3 ≤ t.maxKeys) (hsize : Sized lo (t.maxKeys / 2) t.maxKeys s)
    (hsort : Sorted t.order (s.items.flatMap (itemEntries (n + 1)))) (hid : u.id = c.id)
    (hu : Sized (t.maxKeys / 2) (t.maxKeys / 2) t.maxKeys u)
    (hw : Sized (t.maxKeys / 2) (t.maxKeys / 2) t.maxKeys w) :
    ∃ r us, insertSeparator t' s.id inserted ⟨true, itemKey (n + 1) w, w.id⟩ = some r ∧
      Insertion t key value lo s r us := by
  have hkey := h.firstKey rfl (hu.filled.headed (by omega))
  have hopt : t'.options = t.options := h.step.same.options
  have hmax : t'.maxKeys = t.maxKeys := by rw [maxKeys, hopt]
  have hord : t'.order = t.order := by rw [order, hopt]
  have hfill := h.filled hsize (fun i hi => by
    rcases List.mem_pair.mp hi with rfl | rfl
    · exact hu.filled
    · exact hw.filled)
  have hsort' := sorted_insertEntry (k := key) (v := value) hsort
  rw [← h.entries] at hsort'
  have hitems : xs ++ [u, w] ++ ys = xs ++ u :: w :: ys := by simp
  obtain ⟨hold, hcell, hstep, k, hleaves, hentries, hinserted, -⟩ := h
  rw [hitems] at k hsort' hentries hleaves hstep hfill
  obtain ⟨r, us, hrun, hsep⟩ := insertSeparator_spec lo inserted (hmax ▸ hm) hold hcell hid
    hkey k (hmax ▸ hfill) (hord ▸ hsort') hsize.lower (hmax ▸ hsize.upper)
  refine ⟨r, us, hrun, hsep.status, hsep.inserted.trans hinserted, hmax ▸ hsep.grown,
    ⟨?_, hsep.stored, hsep.nodup, ?_⟩, hsep.entries.trans hentries⟩
  · rw [List.flatMap_singleton]
    exact hstep.trans hsep.step
  · rw [List.flatMap_singleton, hsep.leaves]
    exact hleaves

end Recursion

/-- **`insert` does what insertion into the sorted entries does.** -/
theorem insert_spec {t : BPlusTree} (key value : Bytes) (hm : 3 ≤ t.maxKeys) (hok : t.impl.Ok) :
    ∀ {n lo fuel : Nat} {s : Tree Bytes Bytes n}, n < fuel → Stored t.getNode (n + 1) s →
      (itemIds (n + 1) s).Nodup → Sized lo (t.maxKeys / 2) t.maxKeys s →
      Sorted t.order (itemEntries (n + 1) s) →
      ∃ r us, insert key value fuel t s.id = some r ∧ Insertion t key value lo s r us := by
  intro n
  induction n with
  | zero =>
      intro lo fuel s hfuel hs hnd hsize hsort
      obtain ⟨fuel, rfl⟩ : ∃ f, fuel = f + 1 := ⟨fuel - 1, by omega⟩
      obtain ⟨r, us, hr, hins⟩ := insertAtLeaf_spec key value hm hok hs hsize hsort
      refine ⟨r, us, ?_, hins⟩
      simp only [insert, hs.get, cell]
      exact hr
  | succ n ih =>
      intro lo fuel s hfuel hs hnd hsize hsort
      obtain ⟨fuel, rfl⟩ : ∃ f, fuel = f + 1 := ⟨fuel - 1, by omega⟩
      rw [itemEntries_succ] at hsort
      obtain ⟨xs, c, ys, hitems, hc, hpos, hchild, hcsort, hx, hy, hroute⟩ :=
        search_internal key (by omega) hsize hsort
      have k := Kids.of_stored hok hs hnd
      obtain ⟨r, us, hr, hins⟩ := ih (show n < fuel by omega) (hs.2 c hc) (k.nodup_item hc)
        (hsize.below c hc).sized hcsort
      have hret := hins.returned hitems hs.get k ((hsize.below c hc).headed (by omega)) hx hy hroute
      obtain ⟨status, result, inserted, t'⟩ := r
      obtain ⟨hstatus, -, hgrown, -, -⟩ := hins
      simp only at hstatus hgrown hret
      subst hstatus
      cases hgrown with
      | one hid hu =>
          obtain ⟨vs, hins'⟩ := hret.one hm hsize hid hu
          refine ⟨_, vs, ?_, hins'⟩
          simp only [insert, hs.get, cell, hpos, hchild, hr, Option.bind_eq_bind, Option.bind_some]
          rfl
      | two hid hu hw =>
          obtain ⟨r, vs, hr', hins'⟩ := hret.two hm hsize hsort hid hu hw
          refine ⟨r, vs, ?_, hins'⟩
          simp only [insert, hs.get, cell, hpos, hchild, hr, Option.bind_eq_bind, Option.bind_some]
          exact hr'

end BPlusTree

end KvEngine
