/-
  KvEngine.BTree.Separators
  ─────────────────────────
  **Separators of a node whose children changed.**

  A node after `erase` returned from a child has its children's ids right and
  the right number of separators; the separators themselves need not be right
  (`Under`).  `Under.recomputeSeparators`: the loop at the end of `erase`
  makes every separator exact again.
-/
import KvEngine.BTree.Replace

namespace KvEngine

open Lib

namespace BPlusTree

variable {n : Nat} {t t' : BPlusTree} {p : Nat}

/-! ## §1. A node with stale separators. -/

/-- A node over `items` whose ids are right, with one key less than items. -/
structure Under (t : BPlusTree) (p n : Nat) (items : List (Item Bytes Bytes (n + 1)))
    (keys : List Bytes) : Prop where
  kids : Kids t p (n + 1) items
  node : t.getNode p = some (.internal ⟨keys, items.map Node.id⟩)
  length : keys.length + 1 = items.length

/-- The node with other keys. -/
abbrev withKeys (t : BPlusTree) (p : Nat) (items : List (Item Bytes Bytes (n + 1)))
    (keys : List Bytes) : BPlusTree :=
  t.setNode p (.internal ⟨keys, items.map Node.id⟩)

section Separators

variable {items : List (Item Bytes Bytes (n + 1))} {keys : List Bytes}

theorem Under.withKeys (h : Under t p n items keys) (keys' : List Bytes)
    (hl : keys'.length = keys.length) : Under (t.withKeys p items keys') p n items keys' :=
  ⟨h.kids.setParent _, h.kids.getNode_setParent _, by rw [hl]; exact h.length⟩

theorem Under.setKey {ks ks' : List Bytes} {q : Bytes} (h : Under t p n items (ks ++ q :: ks'))
    (key : Bytes) {i : Nat} (hi : i = ks.length) :
    t.setKey p i key = some (t.withKeys p items (ks ++ key :: ks')) := by
  simp only [BPlusTree.setKey, internalAt_eq h.node, Option.bind_eq_bind, Option.bind_some,
    setAt?_append _ _ _ _ hi]

/-! ## §2. Refreshing separators. -/

/-- **`first_key_of_subtree` finds the item's key.** -/
theorem firstKeyFrom_spec : ∀ {n fuel : Nat} {s : Tree Bytes Bytes n}, n < fuel →
    Stored t.getNode (n + 1) s → t.firstKeyFrom fuel s.id = some (itemKey (n + 1) s) := by
  intro n
  induction n with
  | zero =>
      intro fuel s hfuel hs
      obtain ⟨fuel, rfl⟩ : ∃ f, fuel = f + 1 := ⟨fuel - 1, by omega⟩
      simp only [firstKeyFrom, hs.get, cell, itemKey]
      cases s.items <;> rfl
  | succ n ih =>
      intro fuel s hfuel hs
      obtain ⟨fuel, rfl⟩ : ∃ f, fuel = f + 1 := ⟨fuel - 1, by omega⟩
      simp only [firstKeyFrom, hs.get, cell]
      cases hi : s.items with
      | nil =>
          simp only [List.map_nil, itemKey, hi]
          rfl
      | cons i is =>
          rw [List.map_cons, itemKey_cons hi]
          exact ih (by omega) (hs.2 i (by rw [hi]; exact List.mem_cons_self))

theorem Under.refreshSeparator {xs ys : List (Item Bytes Bytes (n + 1))}
    {u : Item Bytes Bytes (n + 1)} {ks ks' : List Bytes} {q : Bytes}
    (h : Under t p n (xs ++ u :: ys) (ks ++ q :: ks')) (hlen : xs.length = ks.length + 1)
    (hfuel : n < t.fuel) (hne : itemKey (n + 1) u ≠ []) :
    t.refreshSeparator p xs.length
      = some (t.withKeys p (xs ++ u :: ys) (ks ++ itemKey (n + 1) u :: ks')) := by
  have hchild : ((xs ++ u :: ys).map Node.id)[xs.length]? = some u.id :=
    getElem?_map_append_cons _ xs u ys
  have hfirst : t.firstKeyOfSubtree u.id = some (itemKey (n + 1) u) :=
    firstKeyFrom_spec hfuel (h.kids.stored u (by simp))
  have hset := h.setKey (itemKey (n + 1) u) (i := xs.length - 1) (by omega)
  simp only [BPlusTree.refreshSeparator, internalAt_eq h.node, Option.bind_eq_bind,
    Option.bind_some, hchild, hfirst, List.isEmpty_iff, hne, if_false, hset]

theorem Under.updateSeparator {xs ys : List (Item Bytes Bytes (n + 1))}
    {u : Item Bytes Bytes (n + 1)} {ks ks' : List Bytes} {q : Bytes}
    (h : Under t p n (xs ++ u :: ys) (ks ++ q :: ks')) (hlen : xs.length = ks.length + 1)
    (hfuel : n < t.fuel) (hne : itemKey (n + 1) u ≠ []) :
    t.updateSeparator p xs.length
      = some (t.withKeys p (xs ++ u :: ys) (ks ++ itemKey (n + 1) u :: ks')) := by
  have hcond : xs.length > 0 ∧ xs.length - 1 < (ks ++ q :: ks').length := by
    rw [List.length_append, List.length_cons]
    omega
  simp only [BPlusTree.updateSeparator, internalAt_eq h.node, Option.bind_eq_bind,
    Option.bind_some, if_pos hcond]
  exact h.refreshSeparator hlen hfuel hne

/-- The loop over the separators from position `xs.length` on. -/
theorem Under.refreshFrom : ∀ {ys : List (Item Bytes Bytes (n + 1))} {t : BPlusTree}
    {xs : List (Item Bytes Bytes (n + 1))} {ks : List Bytes},
    Under t p n (xs ++ ys) (xs.tail.map (itemKey (n + 1)) ++ ks) → xs ≠ [] → n < t.fuel →
    (∀ u ∈ ys, itemKey (n + 1) u ≠ []) →
    ∃ t', (List.range' xs.length ys.length).foldlM (fun t i => t.refreshSeparator p i) t
        = some t' ∧
      Under t' p n (xs ++ ys) ((xs ++ ys).tail.map (itemKey (n + 1))) ∧
      Step t t' (p :: (xs ++ ys).flatMap (itemIds (n + 1)))
        (p :: (xs ++ ys).flatMap (itemIds (n + 1))) := by
  intro ys
  -- On the children still to be refreshed: the separators of those before them are right.
  induction ys with
  | nil =>
      intro t xs ks h hxs _ _
      have hks : ks = [] := by
        have := h.length
        simp only [List.append_nil, List.length_append, List.length_map, List.length_tail] at this
        have hpos : 0 < xs.length := List.length_pos_of_ne_nil hxs
        exact List.length_eq_zero_iff.mp (by omega)
      subst hks
      simp only [List.append_nil] at h ⊢
      exact ⟨t, rfl, h, Step.refl h.kids.ok _⟩
  | cons u ys ih =>
      intro t xs ks h hxs hfuel hne
      have hpos : 0 < xs.length := List.length_pos_of_ne_nil hxs
      cases ks with
      | nil =>
          have := h.length
          simp only [List.append_nil, List.length_append, List.length_map, List.length_tail,
            List.length_cons] at this
          omega
      | cons q ks =>
          have hlen : xs.length = (xs.tail.map (itemKey (n + 1))).length + 1 := by
            rw [List.length_map, List.length_tail]
            omega
          have hset := h.refreshSeparator hlen hfuel (hne u List.mem_cons_self)
          have hnext := h.withKeys
            (xs.tail.map (itemKey (n + 1)) ++ itemKey (n + 1) u :: ks) (by simp)
          have hsplit : xs ++ u :: ys = (xs ++ [u]) ++ ys := by simp
          have hkeys : xs.tail.map (itemKey (n + 1)) ++ itemKey (n + 1) u :: ks
              = (xs ++ [u]).tail.map (itemKey (n + 1)) ++ ks := by
            rw [List.tail_append_of_ne_nil hxs]
            simp
          rw [hkeys, hsplit] at hnext
          have hwrite : Step t (t.withKeys p (xs ++ [u] ++ ys) ((xs ++ [u]).tail.map
              (itemKey (n + 1)) ++ ks)) (p :: (xs ++ u :: ys).flatMap (itemIds (n + 1)))
              (p :: (xs ++ u :: ys).flatMap (itemIds (n + 1))) := h.kids.step_setParent _ _
          -- The child just refreshed joins those before it.
          obtain ⟨t', hrun, hunder, hstep⟩ := ih hnext (by simp)
            (Nat.lt_of_lt_of_le hfuel hwrite.fuel)
            (fun v hv => hne v (List.mem_cons_of_mem _ hv))
          rw [hsplit] at hwrite ⊢
          refine ⟨t', ?_, hunder, hwrite.trans hstep⟩
          rw [List.length_cons, List.range'_succ, List.foldlM_cons, hset, hkeys, hsplit]
          rw [List.length_append, List.length_singleton] at hrun
          exact hrun

/-- **The final loop makes every separator exact.** -/
theorem Under.recomputeSeparators (h : Under t p n items keys) (hfuel : n < t.fuel)
    (hne : ∀ u ∈ items, itemKey (n + 1) u ≠ []) :
    ∃ t', t.recomputeSeparators p = some t' ∧
      Under t' p n items (items.tail.map (itemKey (n + 1))) ∧
      Step t t' (p :: items.flatMap (itemIds (n + 1))) (p :: items.flatMap (itemIds (n + 1))) := by
  cases items with
  | nil =>
      have := h.length
      simp at this
  | cons i is =>
      have h' : Under t p n ([i] ++ is) ([i].tail.map (itemKey (n + 1)) ++ keys) := h
      obtain ⟨t', hrun, hunder, hstep⟩ := h'.refreshFrom (by simp) hfuel
        (fun u hu => hne u (List.mem_cons_of_mem _ hu))
      refine ⟨t', ?_, hunder, hstep⟩
      simp only [BPlusTree.recomputeSeparators, internalAt_eq h.node, Option.bind_eq_bind,
        Option.bind_some]
      simpa using hrun

end Separators

end BPlusTree

end KvEngine
