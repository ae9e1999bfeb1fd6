/-
  KvEngine.BTree.Counters
  ───────────────────────
  **The counters and the id bookkeeping of a reachable tree, and its height.**

  `height_`, `root_is_leaf_`, `node_count_`, the free marks and the free list
  are kept up to date in different places, and `Verify` looks at none of
  them.  `Counted t` says what each of them must be, in terms of the nodes
  that can be reached from the root; `reachable_counted` states it for every
  tree that calls can lead to.

  `reachable_height` bounds the height by the number of keys: a root has two
  children at least, every other node a minimum of keys.
-/
import KvEngine.BTree.Structure
import Mathlib.Data.Nat.Log

namespace KvEngine

open Lib

/-! ## §1. What the counters must be. -/

/-- The counters of `t` describe its reachable nodes. -/
structure Counted (t : BPlusTree) : Prop where
  height : ∀ id d x, At t id d → t.getNode id = some (.leaf x) → d + 1 = t.height
  /-- `FindLeaf` is at a leaf after `height_` nodes, and not before. -/
  descent : ∀ key, (∃ id x, t.findLeafFrom key t.height t.rootId = some id ∧
    t.findLeaf key = some id ∧ t.getNode id = some (.leaf x)) ∧
    ∀ steps < t.height, t.findLeafFrom key steps t.rootId = none
  rootIsLeaf : t.rootIsLeaf = true ↔ ∃ x, t.getNode t.rootId = some (.leaf x)
  nodeCount : {id | ∃ d, At t id d}.encard = t.nodeCount
  used : ∀ id, (∃ d, At t id d) ↔ id ≠ 0 ∧ t.impl.nodeFree[id]? = some false
  freed : t.impl.freeList.Nodup ∧
    ∀ id, id ∈ t.impl.freeList ↔ id ≠ 0 ∧ t.impl.nodeFree[id]? = some true

namespace BPlusTree

variable {t : BPlusTree}

/-! ## §2. Reachable nodes are the nodes in use. -/

theorem at_itemIds : ∀ {k d : Nat} {u : Tree Bytes Bytes k}, Stored t.getNode (k + 1) u →
    At t u.id d → ∀ id ∈ itemIds (k + 1) u, ∃ d', At t id d' := by
  intro k
  induction k with
  | zero =>
      intro d u _ hat id hid
      rw [itemIds_leaf, List.mem_singleton] at hid
      exact ⟨d, hid ▸ hat⟩
  | succ k ih =>
      intro d u hu hat id hid
      rw [itemIds_succ] at hid
      rcases List.mem_cons.mp hid with rfl | hid
      · exact ⟨d, hat⟩
      · obtain ⟨c, hc, hid⟩ := List.mem_flatMap.mp hid
        exact ih (hu.2 c hc) (.child hat hu.get (List.mem_map.mpr ⟨c, hc, rfl⟩)) id hid

theorem at_iff_mem_itemIds {n : Nat} {s : Tree Bytes Bytes n} (h : Represents t s) (id : Nat) :
    (∃ d, At t id d) ↔ id ∈ itemIds (n + 1) s := by
  constructor
  · rintro ⟨d, hat⟩
    obtain ⟨k, u, rfl, hu⟩ := sub_of_at h hat
    exact (h.live.used_iff u.id).mp ⟨_, hu.stored.get⟩
  · intro hid
    have hroot : At t s.id 0 := h.rootId ▸ At.root
    exact at_itemIds h.stored hroot id hid

theorem inUse_iff_mark {s : Impl} (hs : s.Ok) (id : Nat) :
    s.inUse id = true ↔ id ≠ 0 ∧ s.nodeFree[id]? = some false := by
  have hlen := hs.free_length
  unfold Impl.inUse
  rw [List.getD_eq_getElem?_getD]
  by_cases hlt : id < s.nodes.length
  · have hlt' : id < s.nodeFree.length := by omega
    simp [hlt, List.getElem?_eq_getElem hlt']
  · have hge : s.nodeFree.length ≤ id := by omega
    simp [hlt, List.getElem?_eq_none hge]

theorem mem_freeList_iff_mark {s : Impl} (hs : s.Ok) (id : Nat) :
    id ∈ s.freeList ↔ id ≠ 0 ∧ s.nodeFree[id]? = some true := by
  have hlen := hs.free_length
  rw [hs.mem_free]
  refine and_congr_right (fun h0 => ?_)
  by_cases hlt : id < s.nodes.length
  · have hlt' : id < s.nodeFree.length := by omega
    have hmark := inUse_iff_mark hs id
    rw [List.getElem?_eq_getElem hlt'] at hmark ⊢
    rw [and_iff_right hlt, Option.some.injEq]
    cases hu : s.inUse id with
    | true =>
        rw [Option.some.inj (hmark.mp hu).2]
        simp
    | false =>
        rw [hu] at hmark
        cases hf : s.nodeFree[id] with
        | true => simp
        | false => exact absurd (hmark.mpr ⟨h0, congrArg some hf⟩) Bool.false_ne_true
  · have hge : s.nodeFree.length ≤ id := by omega
    simp [hlt, List.getElem?_eq_none hge]

/-! ## §3. The descent takes as many steps as the tree has levels. -/

/-- Fewer steps than levels do not reach a leaf. -/
theorem findLeafFrom_short (key : Bytes) (hm : 3 ≤ t.maxKeys) :
    ∀ {n lo steps : Nat} {s : Tree Bytes Bytes n}, steps ≤ n → Stored t.getNode (n + 1) s →
      Sized lo (t.maxKeys / 2) t.maxKeys s → Sorted t.order (itemEntries (n + 1) s) →
      t.findLeafFrom key steps s.id = none := by
  intro n
  induction n with
  | zero =>
      intro lo steps s hsteps _ _ _
      rw [Nat.le_zero.mp hsteps]
      rfl
  | succ n ih =>
      intro lo steps s hsteps hs hsize hsort
      cases steps with
      | zero => rfl
      | succ steps =>
          obtain ⟨-, c, -, -, hcs, hcsize, hcsort, hstep, -, -⟩ :=
            findLeafFrom_succ key hm hs hsize hsort
          rw [hstep]
          exact ih (Nat.le_of_succ_le_succ hsteps) hcs hcsize hcsort

/-- More steps do not change where the descent ends. -/
theorem findLeafFrom_more {key : Bytes} :
    ∀ {steps steps' id leafId : Nat}, steps ≤ steps' → t.findLeafFrom key steps id = some leafId →
      t.findLeafFrom key steps' id = some leafId := by
  intro steps
  induction steps with
  | zero => intro steps' id leafId _ h; cases h
  | succ steps ih =>
      intro steps' id leafId hle h
      obtain ⟨steps', rfl⟩ : ∃ k, steps' = k + 1 := ⟨steps' - 1, by omega⟩
      cases hget : t.getNode id with
      | none => simpa only [findLeafFrom, hget] using h
      | some node =>
          cases node with
          | leaf leaf => simpa only [findLeafFrom, hget] using h
          | internal internal =>
              simp only [findLeafFrom, hget] at h ⊢
              cases hchild :
                  internal.children[upperBound internal.keys key t.options.comparator]? with
              | none => simpa only [hchild] using h
              | some child =>
                  simp only [hchild] at h ⊢
                  exact ih (Nat.le_of_succ_le_succ hle) h

/-! ## §4. The counters of a represented tree. -/

theorem counted_of_represents {n : Nat} {s : Tree Bytes Bytes n} (h : Represents t s) :
    Counted t where
  height id d x hat hx := by
    obtain ⟨k, u, rfl, hu⟩ := sub_of_at h hat
    cases k with
    | zero =>
        have hlevel := hu.level
        rw [h.height]
        omega
    | succ k =>
        rw [hu.stored.get] at hx
        exact absurd (Option.some.inj hx) (by simp [cell])
  descent key := by
    -- The descent needs exactly `n + 1` steps, and `findLeaf` allows it more.
    rw [h.height, h.rootId]
    refine ⟨?_, fun steps hsteps => findLeafFrom_short key h.three (Nat.le_of_lt_succ hsteps)
      h.stored h.sized h.sorted⟩
    obtain ⟨xs, l, ys, hleaves, hrun, -, -⟩ := findLeafFrom_spec key h.three (Nat.lt_succ_self n)
      h.stored h.sized h.sorted
    have hl := stored_leafNodes h.stored l (by simp [hleaves])
    refine ⟨l.id, leafNode l, hrun, ?_, hl⟩
    rw [findLeaf, h.rootId]
    exact findLeafFrom_more h.lt_fuel hrun
  rootIsLeaf := by
    rw [h.rootIsLeaf, h.rootId, h.stored.get, decide_eq_true_iff]
    cases n with
    | zero => simp [cell]
    | succ n => simp [cell]
  nodeCount := by
    -- The ids at and below the root are listed once each, and `node_count_` counts them.
    have hset : {id | ∃ d, At t id d} = {id | id ∈ itemIds (n + 1) s} :=
      Set.ext (at_iff_mem_itemIds h)
    rw [hset, h.live.count, ← List.coe_toFinset, Set.encard_coe_eq_coe_finsetCard,
      List.toFinset_card_of_nodup h.live.nodup]
  used id := by
    rw [at_iff_mem_itemIds h, ← h.live.used_iff, ← inUse_iff_mark h.live.ok,
      ← Impl.getNode_isSome_iff h.live.ok, Option.isSome_iff_exists]
    rfl
  freed := ⟨h.live.ok.free_nodup, mem_freeList_iff_mark h.live.ok⟩

/-! ## §5. The height bound. -/

/-- A tree of `h ≥ 2` levels holds `2 * (d + 1) ^ (h - 2) * d` keys at least. -/
theorem size_ge_of_represents {n : Nat} {s : Tree Bytes Bytes n} (h : Represents t s)
    (hheight : 2 ≤ t.height) :
    2 * (t.maxKeys / 2 + 1) ^ (t.height - 2) * (t.maxKeys / 2) ≤ t.size := by
  have hlevels := h.height
  cases n with
  | zero => omega
  | succ n =>
      have hpow : t.height - 2 = n := by omega
      rw [hpow, h.size, Nat.mul_assoc]
      exact h.sized.length_entries_ge

/-- The bound solved for the height. -/
theorem height_le_of_size {d h size : Nat} (hd : 1 ≤ d)
    (hsize : 2 ≤ h → 2 * (d + 1) ^ (h - 2) * d ≤ size) :
    h ≤ Nat.log (d + 1) (size / (2 * d)) + 2 := by
  by_cases hh : 2 ≤ h
  · have hle : (d + 1) ^ (h - 2) ≤ size / (2 * d) := by
      refine (Nat.le_div_iff_mul_le (by omega)).mpr ?_
      calc (d + 1) ^ (h - 2) * (2 * d) = 2 * (d + 1) ^ (h - 2) * d := by
            rw [← Nat.mul_assoc, Nat.mul_comm _ 2]
        _ ≤ size := hsize hh
    have hlog := Nat.le_log_of_pow_le (by omega) hle
    omega
  · omega

/-- **A lookup in a reachable tree visits as many nodes as the tree is high,
and the height is logarithmic in the number of keys.** -/
theorem reachable_height (options : BTreeOptions) (ops : List TreeOp) :
    ∃ outs t, run? BPlusTree.apply (new options) ops = some (outs, t) ∧
      t.maxKeys = max 3 options.maxKeysPerNode ∧
      (2 ≤ t.height →
        2 * (t.maxKeys / 2 + 1) ^ (t.height - 2) * (t.maxKeys / 2) ≤ t.size) ∧
      t.height ≤ Nat.log (t.maxKeys / 2 + 1) (t.size / (2 * (t.maxKeys / 2))) + 2 ∧
      ∀ key, (∃ id x, t.findLeafFrom key t.height t.rootId = some id ∧
        t.findLeaf key = some id ∧ t.getNode id = some (.leaf x)) ∧
        ∀ steps < t.height, t.findLeafFrom key steps t.rootId = none := by
  obtain ⟨t, hrun, n, s, hrep, hoptions, -⟩ := runs_model options ops
  have hthree := hrep.three
  have hsize := size_ge_of_represents hrep
  refine ⟨_, t, hrun, ?_, hsize, height_le_of_size (by omega) hsize,
    (counted_of_represents hrep).descent⟩
  rw [← new_maxKeys, maxKeys, hoptions]

/-! ## §6. The counters of reachable trees. -/

theorem single_of_empty {n : Nat} {s : Tree Bytes Bytes n} (h : Represents t s)
    (hempty : t.size = 0) : t.nodeCount = 1 ∧ t.height = 1 := by
  have hthree := h.three
  have hheight : t.height = 1 := by
    by_contra hne
    have hlevels := h.height
    have hge := size_ge_of_represents h (by omega)
    have hpos : 0 < 2 * (t.maxKeys / 2 + 1) ^ (t.height - 2) * (t.maxKeys / 2) :=
      Nat.mul_pos (Nat.mul_pos (by omega) (Nat.pow_pos (by omega))) (by omega)
    omega
  refine ⟨?_, hheight⟩
  have hlevels := h.height
  obtain rfl : n = 0 := by omega
  rw [h.live.count, itemIds_leaf]
  rfl

/-- Deleting every bound key empties the reference. -/
theorem runAll_delete (keys : List Bytes) (m : RefMap) (key : Bytes) :
    (runAll RefMap.apply m (keys.map TreeOp.delete)).2 key
      = if key ∈ keys then none else m key := by
  induction keys generalizing m with
  | nil => rfl
  | cons k keys ih =>
      have hdelete : ((m.apply (.delete k)).2) key = if key = k then none else m key := by
        simp only [RefMap.apply]
        cases hm : m k with
        | some value =>
            show Function.update m k none key = _
            rw [Function.update_apply]
        | none =>
            show m key = _
            split
            next h => rw [h, hm]
            next => rfl
      refine (ih (m.apply (.delete k)).2).trans ?_
      rw [hdelete]
      by_cases hk : key = k
      · simp [hk]
      · simp [hk]

/-- **The counters of every tree that calls can lead to are exact**; where no
key is left, and so after all keys are deleted, the tree is one leaf. -/
theorem reachable_counted (options : BTreeOptions) (ops : List TreeOp) :
    ∃ outs t, run? BPlusTree.apply (new options) ops = some (outs, t) ∧ Counted t ∧
      (t.size = 0 → t.nodeCount = 1 ∧ t.height = 1) ∧
      ∀ keys : List Bytes,
        (∀ key, (runAll RefMap.apply RefMap.empty ops).2 key ≠ none → key ∈ keys) →
        ∃ outs' t', run? BPlusTree.apply t (keys.map TreeOp.delete) = some (outs', t') ∧
          t'.nodeCount = 1 ∧ t'.height = 1 := by
  obtain ⟨t, hrun, hmodels⟩ := runs_model options ops
  obtain ⟨n, s, hrep, -, -⟩ := id hmodels
  refine ⟨_, t, hrun, counted_of_represents hrep, single_of_empty hrep, fun keys hkeys => ?_⟩
  obtain ⟨t', hrun', hmodels'⟩ := (apply_refines _).run (keys.map TreeOp.delete) hmodels
    (fun _ _ => trivial)
  obtain ⟨n', s', hrep', -, -⟩ := id hmodels'
  refine ⟨_, t', hrun', single_of_empty hrep' ?_⟩
  have hnone : {k | (runAll RefMap.apply (runAll RefMap.apply RefMap.empty ops).2
      (keys.map TreeOp.delete)).2 k ≠ none} = ∅ := by
    refine Set.eq_empty_of_forall_notMem (fun key hkey => hkey ?_)
    rw [runAll_delete]
    split
    next => rfl
    next hnot => exact not_not.mp (fun hne => hnot (hkeys key hne))
  have hsize := hmodels'.size
  rw [hnone, Set.encard_empty] at hsize
  exact Nat.cast_eq_zero.mp hsize.symm

end BPlusTree

end KvEngine
