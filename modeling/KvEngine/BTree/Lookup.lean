/-
  KvEngine.BTree.Lookup
  ─────────────────────
  **`FindLeaf` and `Get` on a represented tree.**

  `findLeaf_spec`: the descent ends at the leaf in which the key belongs;
  every entry in an earlier leaf is below the key and every entry in a later
  one above it.  `get_spec` reads the value off that leaf.
-/
import KvEngine.BTree.Invariant

namespace KvEngine

open Lib

namespace BPlusTree

variable {t : BPlusTree}

theorem stored_leafNodes {h : Nat → Option BTreeNode} :
    ∀ {n : Nat} {s : Tree Bytes Bytes n}, Stored h (n + 1) s →
      ∀ l ∈ leafNodes n s, h l.id = some (cell 0 l) := by
  intro n
  induction n with
  | zero =>
      intro s hs l hl
      rw [List.mem_singleton.mp hl]
      exact hs.get
  | succ n ih =>
      intro s hs l hl
      rw [leafNodes_succ] at hl
      obtain ⟨i, hi, hli⟩ := List.mem_flatMap.mp hl
      exact ih (hs.2 i hi) l hli

theorem flatMap_leafNodes {n : Nat} (is : List (Item Bytes Bytes (n + 1))) :
    (is.flatMap (leafNodes n)).flatMap Node.items = is.flatMap (itemEntries (n + 1)) := by
  rw [List.flatMap_assoc]
  exact List.flatMap_congr (fun i _ => (itemEntries_eq_leafNodes i).symm)

/-- One step of the descent: the separators choose the one child that can
hold the key. -/
theorem findLeafFrom_succ (key : Bytes) (hm : 3 ≤ t.maxKeys) {n lo : Nat}
    {s : Tree Bytes Bytes (n + 1)} (hs : Stored t.getNode (n + 2) s)
    (hsize : Sized lo (t.maxKeys / 2) t.maxKeys s)
    (hsort : Sorted t.order (itemEntries (n + 2) s)) :
    ∃ xs c ys, s.items = xs ++ c :: ys ∧ Stored t.getNode (n + 1) c ∧
      Sized (t.maxKeys / 2) (t.maxKeys / 2) t.maxKeys c ∧ Sorted t.order (itemEntries (n + 1) c) ∧
      (∀ fuel, t.findLeafFrom key (fuel + 1) s.id = t.findLeafFrom key fuel c.id) ∧
      (∀ e ∈ xs.flatMap (itemEntries (n + 1)), t.order.lt e.1 key) ∧
      ∀ e ∈ ys.flatMap (itemEntries (n + 1)), t.order.lt key e.1 := by
  rw [itemEntries_succ (n + 1)] at hsort
  obtain ⟨xs, c, ys, hitems, hc, hpos, hchild, hcsort, hx, hy, -⟩ :=
    search_internal key (by omega) hsize hsort
  refine ⟨xs, c, ys, hitems, hs.2 c hc, (hsize.below c hc).sized, hcsort, fun fuel => ?_, hx, hy⟩
  simp only [findLeafFrom, hs.get, cell, hpos, hchild]

theorem findLeafFrom_spec (key : Bytes) (hm : 3 ≤ t.maxKeys) :
    ∀ {n lo fuel : Nat} {s : Tree Bytes Bytes n}, n < fuel → Stored t.getNode (n + 1) s →
      Sized lo (t.maxKeys / 2) t.maxKeys s → Sorted t.order (itemEntries (n + 1) s) →
      ∃ xs l ys, leafNodes n s = xs ++ l :: ys ∧ t.findLeafFrom key fuel s.id = some l.id ∧
        (∀ e ∈ xs.flatMap Node.items, t.order.lt e.1 key) ∧
        ∀ e ∈ ys.flatMap Node.items, t.order.lt key e.1 := by
  intro n
  induction n with
  | zero =>
      intro lo fuel s hfuel hs _ _
      obtain ⟨fuel, rfl⟩ : ∃ f, fuel = f + 1 := ⟨fuel - 1, by omega⟩
      refine ⟨[], s, [], rfl, ?_, by simp, by simp⟩
      simp only [findLeafFrom, hs.get, cell]
  | succ n ih =>
      intro lo fuel s hfuel hs hsize hsort
      obtain ⟨fuel, rfl⟩ : ∃ f, fuel = f + 1 := ⟨fuel - 1, by omega⟩
      obtain ⟨xs, c, ys, hitems, hcs, hcsize, hcsort, hstep, hx, hy⟩ :=
        findLeafFrom_succ key hm hs hsize hsort
      obtain ⟨xs', l, ys', hleaves, hrun, hx', hy'⟩ := ih (show n < fuel by omega) hcs hcsize hcsort
      -- Everything left of that child is below the key, everything right of it above.
      refine ⟨xs.flatMap (leafNodes n) ++ xs', l, ys' ++ ys.flatMap (leafNodes n), ?_, ?_, ?_, ?_⟩
      · rw [leafNodes_succ, hitems, List.flatMap_append, List.flatMap_cons, hleaves]
        simp
      · rw [hstep]
        exact hrun
      · intro e he
        rw [List.flatMap_append, flatMap_leafNodes] at he
        rcases List.mem_append.mp he with he | he
        · exact hx e he
        · exact hx' e he
      · intro e he
        rw [List.flatMap_append, flatMap_leafNodes] at he
        rcases List.mem_append.mp he with he | he
        · exact hy' e he
        · exact hy e he

/-- **`FindLeaf` ends at the leaf the key belongs to.** -/
theorem findLeaf_spec {n : Nat} {s : Tree Bytes Bytes n} (h : Represents t s) (key : Bytes) :
    ∃ xs l ys, leafNodes n s = xs ++ l :: ys ∧ t.findLeaf key = some l.id ∧
      t.getNode l.id = some (cell 0 l) ∧ Sorted t.order l.items ∧
      (∀ e ∈ xs.flatMap Node.items, t.order.lt e.1 key) ∧
      ∀ e ∈ ys.flatMap Node.items, t.order.lt key e.1 := by
  obtain ⟨xs, l, ys, hleaves, hrun, hx, hy⟩ :=
    findLeafFrom_spec key h.three h.lt_fuel h.stored h.sized h.sorted
  have hl := stored_leafNodes h.stored l (by simp [hleaves])
  refine ⟨xs, l, ys, hleaves, ?_, hl, ?_, hx, hy⟩
  · rw [findLeaf, h.rootId]
    exact hrun
  · have hsort := h.sorted
    rw [itemEntries_eq_leafNodes, hleaves, List.flatMap_append, List.flatMap_cons, sorted_append,
      sorted_append] at hsort
    exact hsort.2.1.1

/-- **`Get` looks the key up in the entries.** -/
theorem get_spec {n : Nat} {s : Tree Bytes Bytes n} (h : Represents t s) (key : Bytes) :
    t.get key = some (match find t.order (itemEntries (n + 1) s) key with
      | some value => (.okStatus, some value)
      | none => (.notFound "Key not found", none)) := by
  obtain ⟨xs, l, ys, hleaves, hrun, hl, hsort, hx, hy⟩ := findLeaf_spec h key
  have hid : l.id ≠ 0 := Impl.ne_zero_of_getNode hl
  -- The other leaves do not hold the key, so looking it up in this one is enough.
  have hfind : find t.order (itemEntries (n + 1) s) key = find t.order l.items key := by
    rw [itemEntries_eq_leafNodes, hleaves, List.flatMap_append, List.flatMap_cons,
      ← List.append_assoc]
    exact find_window hx hy
  rw [hfind]
  rcases search_leaf key hsort with ⟨xs, v, ys, hes, hpos, hat, hx, hy⟩ |
    ⟨xs, ys, hes, hpos, hat, hx, hy⟩
  · have hvalue : (l.items.map Prod.snd)[xs.length]? = some v := by
      rw [hes]
      exact getElem?_map_append_cons Prod.snd xs (key, v) ys
    have hf : find t.order l.items key = some v := by
      rw [hes] at hsort ⊢
      exact hsort.find_middle
    simp only [get, hrun, if_neg hid, leafAt_eq hl, Option.bind_eq_bind, Option.bind_some, hpos,
      hat, if_true, hvalue, hf]
  · have hf : find t.order l.items key = none := by
      rw [hes]
      exact find_between hx hy
    simp only [get, hrun, if_neg hid, leafAt_eq hl, Option.bind_eq_bind, Option.bind_some, hpos,
      hat, Bool.false_eq_true, if_false, hf]

end BPlusTree

end KvEngine
