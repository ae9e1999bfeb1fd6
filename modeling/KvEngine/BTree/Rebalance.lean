/-
  KvEngine.BTree.Rebalance
  ────────────────────────
  **Repairing an underflowing child.**

  `Short.rebalance`: when one child of a node holds an item too few, borrowing
  from the left sibling, then from the right one, then merging leaves every
  child within its bounds; the entries below the node, their order and the
  leaf chain stay what they were, and at most one child disappears.
-/
import KvEngine.BTree.Siblings

namespace KvEngine

open Lib

namespace BPlusTree

variable {n : Nat} {t t' : BPlusTree} {p : Nat}

/-! ## §1. What a repair establishes. -/

/-- The children `items` of `p` were rearranged into `items'`. -/
structure Repaired (t t' : BPlusTree) (p n : Nat) (items items' : List (Item Bytes Bytes (n + 1))) :
    Prop where
  under : ∃ keys, Under t' p n items' keys
  step : Step t t' (p :: items.flatMap (itemIds (n + 1))) (p :: items'.flatMap (itemIds (n + 1)))
  entries : items'.flatMap (itemEntries (n + 1)) = items.flatMap (itemEntries (n + 1))
  leaves : Relinked (items.flatMap (itemLeaves (n + 1))) (items'.flatMap (itemLeaves (n + 1)))
  filled : ∀ i ∈ items', Filled (t.maxKeys / 2) t.maxKeys (n + 1) i
  lower : items.length ≤ items'.length + 1
  upper : items'.length ≤ items.length

section Regrouped

variable {xs ss us ys : List (Item Bytes Bytes (n + 1))}

/-- Nodes over the same items have the same entries. -/
theorem entries_regroup (h : us.flatMap Node.items = ss.flatMap Node.items) :
    us.flatMap (itemEntries (n + 1)) = ss.flatMap (itemEntries (n + 1)) := by
  have hflat : ∀ vs : List (Item Bytes Bytes (n + 1)),
      vs.flatMap (itemEntries (n + 1)) = (vs.flatMap Node.items).flatMap (itemEntries n) := by
    intro vs
    rw [List.flatMap_assoc]
    rfl
  rw [hflat, hflat, h]

/-- Inner nodes over the same items have the same leaves. -/
theorem leaves_regroup (ss us : List (Item Bytes Bytes (n + 2)))
    (h : us.flatMap Node.items = ss.flatMap Node.items) :
    us.flatMap (itemLeaves (n + 2)) = ss.flatMap (itemLeaves (n + 2)) := by
  have hflat : ∀ vs : List (Item Bytes Bytes (n + 2)),
      vs.flatMap (itemLeaves (n + 2)) = (vs.flatMap Node.items).flatMap (itemLeaves (n + 1)) := by
    intro vs
    rw [List.flatMap_assoc]
    rfl
  rw [hflat, hflat, h]

theorem leaves_moved {l r l' r' : Item Bytes Bytes (n + 1)} (hl : l'.id = l.id)
    (hr : r'.id = r.id) (hln : l'.next = l.next) (hrn : r'.next = r.next)
    (h : l'.items ++ r'.items = l.items ++ r.items) :
    Relinked ([l, r].flatMap (itemLeaves (n + 1))) ([l', r'].flatMap (itemLeaves (n + 1))) := by
  cases n with
  | zero =>
      show Relinked [(l.id, l.next), (r.id, r.next)] [(l'.id, l'.next), (r'.id, r'.next)]
      rw [hl, hr, hln, hrn]
      exact Relinked.refl _
  | succ n =>
      rw [leaves_regroup [l, r] [l', r'] (by simpa using h)]
      exact Relinked.refl _

theorem leaves_join (l r : Item Bytes Bytes (n + 1)) :
    Relinked ([l, r].flatMap (itemLeaves (n + 1))) ([join l r].flatMap (itemLeaves (n + 1))) := by
  cases n with
  | zero =>
      show Relinked [(l.id, l.next), (r.id, r.next)] [(l.id, r.next)]
      exact ⟨fun _ => rfl, fun _ h => ⟨h.2.1, trivial⟩⟩
  | succ n =>
      rw [leaves_regroup [l, r] [join l r] (by simp)]
      exact Relinked.refl _

end Regrouped

/-- A repair from what it did to the siblings involved. -/
theorem Repaired.of_window {xs ss us ys : List (Item Bytes Bytes (n + 1))} {keys : List Bytes}
    (hunder : Under t' p n (xs ++ us ++ ys) keys)
    (hstep : Step t t' (p :: (xs ++ ss ++ ys).flatMap (itemIds (n + 1)))
      (p :: (xs ++ us ++ ys).flatMap (itemIds (n + 1))))
    (hitems : us.flatMap Node.items = ss.flatMap Node.items)
    (hleaves : Relinked (ss.flatMap (itemLeaves (n + 1))) (us.flatMap (itemLeaves (n + 1))))
    (hrest : ∀ i ∈ xs ++ ys, Filled (t.maxKeys / 2) t.maxKeys (n + 1) i)
    (hus : ∀ i ∈ us, Filled (t.maxKeys / 2) t.maxKeys (n + 1) i)
    (hlow : ss.length ≤ us.length + 1) (hupp : us.length ≤ ss.length) :
    Repaired t t' p n (xs ++ ss ++ ys) (xs ++ us ++ ys) where
  under := ⟨keys, hunder⟩
  step := hstep
  entries := by simp only [List.flatMap_append, entries_regroup hitems]
  leaves := hleaves.window
  filled i hi := by
    rcases mem_window.mp hi with hi | hi
    · exact hrest i hi
    · exact hus i hi
  lower := by
    simp only [List.length_append]
    omega
  upper := by
    simp only [List.length_append]
    omega

theorem size_cell (s : Tree Bytes Bytes n) : (cell n s).size = s.items.length - slack n := by
  cases n with
  | zero => simp [cell, BTreeNode.size, slack]
  | succ n => simp [cell, BTreeNode.size, slack]

/-- The separator between two neighbours. -/
theorem Under.cut {xs ys : List (Item Bytes Bytes (n + 1))} {l r : Item Bytes Bytes (n + 1)}
    {keys : List Bytes} (h : Under t p n (xs ++ [l, r] ++ ys) keys)
    (hk : n ≠ 0 → keys = (xs ++ [l, r] ++ ys).tail.map (itemKey (n + 1))) :
    ∃ ks q ks', keys = ks ++ q :: ks' ∧ ks.length = xs.length ∧
      (n ≠ 0 → q = itemKey (n + 1) r) := by
  have hlen := h.length
  simp only [List.length_append, List.length_cons, List.length_nil] at hlen
  have hlt : xs.length < keys.length := by omega
  refine ⟨keys.take xs.length, keys[xs.length], keys.drop (xs.length + 1), ?_, ?_, ?_⟩
  · rw [List.getElem_cons_drop, List.take_append_drop]
  · rw [List.length_take]
    omega
  · intro hn
    have hq : keys[xs.length]? = some (itemKey (n + 1) r) := by
      rw [hk hn, List.getElem?_map, List.getElem?_tail, List.append_assoc]
      simp
    rw [List.getElem?_eq_getElem hlt] at hq
    exact Option.some.inj hq

/-! ## §2. Borrowing. -/

/-- The child `u` of `p` holds one item too few; the other children are
filled. -/
structure Short (t : BPlusTree) (p n : Nat) (xs : List (Item Bytes Bytes (n + 1)))
    (u : Item Bytes Bytes (n + 1)) (ys : List (Item Bytes Bytes (n + 1))) (keys : List Bytes) :
    Prop where
  under : Under t p n (xs ++ u :: ys) keys
  exact_keys : n ≠ 0 → keys = (xs ++ u :: ys).tail.map (itemKey (n + 1))
  size : Sized (t.maxKeys / 2 - 1) (t.maxKeys / 2) t.maxKeys u
  short : u.items.length < t.maxKeys / 2 + slack n
  filled : ∀ i ∈ xs ++ ys, Filled (t.maxKeys / 2) t.maxKeys (n + 1) i
  named : ∀ e ∈ (xs ++ u :: ys).flatMap (itemEntries (n + 1)), e.1 ≠ []
  three : 3 ≤ t.maxKeys
  fuel : n < t.fuel
  count : 0 < t.nodeCount

section Short

variable {xs ys : List (Item Bytes Bytes (n + 1))} {l r u : Item Bytes Bytes (n + 1)}
  {keys : List Bytes}

/-- The underflowing child over inner nodes still has children. -/
theorem Short.items_ne_nil (h : Short t p n xs u ys keys) (hn : n ≠ 0) : u.items ≠ [] := by
  intro hnil
  have hlow := h.size.lower
  rw [hnil, List.length_nil] at hlow
  cases n with
  | zero => exact hn rfl
  | succ n => simp [slack] at hlow

/-- The left sibling of the underflowing child. -/
theorem Short.left (h : Short t p n (xs ++ [l]) u ys keys) :
    Under t p n (xs ++ [l, u] ++ ys) keys ∧ Filled (t.maxKeys / 2) t.maxKeys (n + 1) l ∧
      ∃ ks q ks', keys = ks ++ q :: ks' ∧ ks.length = xs.length ∧
        (n ≠ 0 → q = itemKey (n + 1) u) := by
  have hsplit : (xs ++ [l]) ++ u :: ys = xs ++ [l, u] ++ ys := by simp
  have hu : Under t p n (xs ++ [l, u] ++ ys) keys := hsplit ▸ h.under
  exact ⟨hu, h.filled l (by simp), hu.cut (hsplit ▸ h.exact_keys)⟩

/-- The right sibling of the underflowing child. -/
theorem Short.right (h : Short t p n xs u (r :: ys) keys) :
    Under t p n (xs ++ [u, r] ++ ys) keys ∧ Filled (t.maxKeys / 2) t.maxKeys (n + 1) r ∧
      ∃ ks q ks', keys = ks ++ q :: ks' ∧ ks.length = xs.length ∧
        (n ≠ 0 → q = itemKey (n + 1) r) := by
  have hsplit : xs ++ u :: r :: ys = xs ++ [u, r] ++ ys := by simp
  have hu : Under t p n (xs ++ [u, r] ++ ys) keys := hsplit ▸ h.under
  exact ⟨hu, h.filled r (by simp), hu.cut (hsplit ▸ h.exact_keys)⟩

/-- The first key of an item below `p` is a key someone put in. -/
theorem Short.key_ne_nil (h : Short t p n xs u ys keys) {s : Item Bytes Bytes (n + 1)}
    {i : Item Bytes Bytes n} (hs : s ∈ xs ++ u :: ys) (hi : i ∈ s.items)
    (hfill : Filled (t.maxKeys / 2) t.maxKeys n i) : itemKey n i ≠ [] := by
  have h3 := h.three
  obtain ⟨v, hv⟩ := (hfill.headed (show 1 ≤ t.maxKeys / 2 by omega)).key_mem
  refine h.named (itemKey n i, v) (List.mem_flatMap.mpr ⟨s, hs, ?_⟩)
  rw [itemEntries_succ]
  exact List.mem_flatMap.mpr ⟨i, hi, hv⟩

/-- **Borrowing from the left.** -/
theorem Short.borrowLeft (h : Short t p n (xs ++ [l]) u ys keys)
    (hspare : t.maxKeys / 2 + slack n < l.items.length) :
    ∃ t' items', t.borrowLeft p (xs.length + 1) u.id = some (false, t') ∧
      Repaired t t' p n (xs ++ [l, u] ++ ys) items' := by
  obtain ⟨hunder, hl, ks, q, ks', rfl, hks, hq⟩ := h.left
  have h3 := h.three
  have hlow := h.size.lower
  have hshort := h.short
  obtain ⟨is, i, his⟩ : ∃ is i, l.items = is ++ [i] := by
    rcases List.eq_nil_or_concat' l.items with hnil | ⟨is, i, his⟩
    · rw [hnil, List.length_nil] at hspare
      omega
    · exact ⟨is, i, his⟩
  have hlen : l.items.length = is.length + 1 := by simp [his]
  have hne : n ≠ 0 → is ≠ [] := by
    rintro hn rfl
    rw [List.length_nil] at hlen
    omega
  obtain ⟨t₁, q', hrun, hunder₁, hstep₁⟩ := hunder.moveFromLeft hks his
    (fun hn => ⟨hne hn, h.items_ne_nil hn, hq hn⟩)
  let l' : Item Bytes Bytes (n + 1) := { l with items := is }
  let u' : Item Bytes Bytes (n + 1) := { u with items := i :: u.items }
  have hi : i ∈ l.items := by simp [his]
  -- the separator is refreshed once more, to the key it already has
  have hsplit : xs ++ [l', u'] ++ ys = (xs ++ [l']) ++ u' :: ys := by simp
  have hunder₁' : Under t₁ p n ((xs ++ [l']) ++ u' :: ys) (ks ++ q' :: ks') := hsplit ▸ hunder₁
  have hupdate := hunder₁'.updateSeparator (by simp [hks])
    (Nat.lt_of_lt_of_le h.fuel hstep₁.fuel) (by
      rw [itemKey_cons (t := u') rfl]
      exact h.key_ne_nil (s := l) (by simp) hi (hl.2.2 i hi))
  have hunder₂ := hunder₁'.withKeys (ks ++ itemKey (n + 1) u' :: ks') (by simp)
  have hstep₂ := hunder₁'.kids.step_setParent (.internal ⟨ks ++ itemKey (n + 1) u' :: ks',
    ((xs ++ [l']) ++ u' :: ys).map Node.id⟩)
    (((xs ++ [l']) ++ u' :: ys).flatMap (itemIds (n + 1)))
  refine ⟨_, xs ++ [l', u'] ++ ys, ?_, Repaired.of_window (hsplit ▸ hunder₂)
    (hstep₁.trans (hsplit ▸ hstep₂)) (by simp [l', u', his])
    (leaves_moved rfl rfl rfl rfl (by simp [l', u', his]))
    (fun j hj => h.filled j (mem_window.mpr (Or.inl hj))) ?_ (by simp) (by simp)⟩
  · have hchild : ((xs ++ [l, u] ++ ys).map Node.id)[xs.length]? = some l.id := by
      simp
    have hsize : (cell n l).size > t.minKeys := by
      rw [size_cell]
      show t.maxKeys / 2 < _
      omega
    have hlen' : (xs ++ [l']).length = xs.length + 1 := by simp
    rw [hlen'] at hupdate
    simp only [BPlusTree.borrowLeft, if_pos (Nat.succ_pos _), internalAt_eq hunder.node,
      Option.bind_eq_bind, Option.bind_some, Nat.add_sub_cancel, hchild, hunder.apart.get_left,
      if_pos hsize, hrun]
    rw [hupdate, hsplit]
    rfl
  · intro j hj
    rcases List.mem_cons.mp hj with rfl | hj
    · have hupp := hl.2.1
      refine ⟨by show _ ≤ is.length; omega, by show is.length ≤ _; omega, fun g hg => ?_⟩
      exact hl.2.2 g (by rw [his]; exact List.mem_append_left _ hg)
    · rw [List.mem_singleton.mp hj]
      refine ⟨by show _ ≤ u.items.length + 1; omega, by show u.items.length + 1 ≤ _; omega, ?_⟩
      intro g hg
      rcases List.mem_cons.mp hg with rfl | hg
      · exact hl.2.2 g hi
      · exact h.size.below g hg

/-- A left sibling without an item to spare, or none at all. -/
theorem Short.borrowLeft_fail (h : Short t p n xs u ys keys)
    (hspare : ∀ xs' l, xs = xs' ++ [l] → l.items.length ≤ t.maxKeys / 2 + slack n) :
    t.borrowLeft p xs.length u.id = some (true, t) := by
  rcases List.eq_nil_or_concat' xs with rfl | ⟨xs, l, rfl⟩
  · rfl
  · obtain ⟨hunder, _⟩ := h.left
    have hchild : ((xs ++ [l, u] ++ ys).map Node.id)[xs.length]? = some l.id := by
      simp
    have hsize : ¬ (cell n l).size > t.minKeys := by
      have hle := hspare xs l rfl
      rw [size_cell]
      show ¬ t.maxKeys / 2 < _
      omega
    rw [List.length_append, List.length_singleton]
    simp only [BPlusTree.borrowLeft, if_pos (Nat.succ_pos _), internalAt_eq hunder.node,
      Option.bind_eq_bind, Option.bind_some, Nat.add_sub_cancel, hchild, hunder.apart.get_left,
      if_neg hsize]

/-- **Borrowing from the right.** -/
theorem Short.borrowRight (h : Short t p n xs u (r :: ys) keys)
    (hspare : t.maxKeys / 2 + slack n < r.items.length) :
    ∃ t' items', t.borrowRight p xs.length u.id = some (false, t') ∧
      Repaired t t' p n (xs ++ [u, r] ++ ys) items' := by
  obtain ⟨hunder, hr, ks, q, ks', rfl, hks, hq⟩ := h.right
  have h3 := h.three
  have hlow := h.size.lower
  have hshort := h.short
  -- The sibling can spare an item, so it is not left empty.
  obtain ⟨i, is, his⟩ : ∃ i is, r.items = i :: is := by
    refine List.exists_cons_of_ne_nil (fun hnil => ?_)
    rw [hnil, List.length_nil] at hspare
    omega
  have hlen : r.items.length = is.length + 1 := by simp [his]
  have hne : is ≠ [] := by
    rintro rfl
    rw [List.length_nil] at hlen
    omega
  obtain ⟨t', q', hrun, hunder', hstep⟩ := hunder.moveFromRight hks his hne
    (fun hn => ⟨h.items_ne_nil hn, hq hn⟩)
  have hi : i ∈ r.items := by simp [his]
  refine ⟨t', _, ?_, Repaired.of_window hunder' hstep (by simp [his])
    (leaves_moved rfl rfl rfl rfl (by simp [his]))
    (fun j hj => h.filled j (by simp only [List.mem_append, List.mem_cons] at hj ⊢; tauto))
    ?_ (by simp) (by simp)⟩
  · have hchild : ((xs ++ [u, r] ++ ys).map Node.id)[xs.length + 1]? = some r.id := by
      simp
    have hlt : xs.length + 1 < ((xs ++ [u, r] ++ ys).map Node.id).length := by simp
    have hsize : (cell n r).size > t.minKeys := by
      rw [size_cell]
      show t.maxKeys / 2 < _
      omega
    simp only [BPlusTree.borrowRight, internalAt_eq hunder.node, Option.bind_eq_bind,
      Option.bind_some, if_pos hlt, hchild, hunder.apart.get_right, if_pos hsize, hrun]
  -- Both nodes of the window are now within their bounds.
  · intro j hj
    rcases List.mem_cons.mp hj with rfl | hj
    · refine ⟨?_, ?_, fun g hg => ?_⟩
      · rw [List.length_append, List.length_singleton]
        omega
      · rw [List.length_append, List.length_singleton]
        omega
      · rcases List.mem_append.mp hg with hg | hg
        · exact h.size.below g hg
        · rw [List.mem_singleton.mp hg]
          exact hr.2.2 i hi
    · rw [List.mem_singleton.mp hj]
      have hupp := hr.2.1
      refine ⟨by show _ ≤ is.length; omega, by show is.length ≤ _; omega, fun g hg => ?_⟩
      exact hr.2.2 g (by rw [his]; exact List.mem_cons_of_mem _ hg)

/-- A right sibling without an item to spare, or none at all. -/
theorem Short.borrowRight_fail (h : Short t p n xs u ys keys)
    (hspare : ∀ r ys', ys = r :: ys' → r.items.length ≤ t.maxKeys / 2 + slack n) :
    t.borrowRight p xs.length u.id = some (true, t) := by
  cases ys with
  | nil =>
      have hlt : ¬ xs.length + 1 < ((xs ++ [u]).map Node.id).length := by simp
      simp only [BPlusTree.borrowRight, internalAt_eq h.under.node, Option.bind_eq_bind,
        Option.bind_some, if_neg hlt]
  | cons r ys =>
      obtain ⟨hunder, _⟩ := h.right
      have hchild : ((xs ++ [u, r] ++ ys).map Node.id)[xs.length + 1]? = some r.id := by
        simp
      have hlt : xs.length + 1 < ((xs ++ [u, r] ++ ys).map Node.id).length := by simp
      have hsize : ¬ (cell n r).size > t.minKeys := by
        have hle := hspare r ys rfl
        rw [size_cell]
        show ¬ t.maxKeys / 2 < _
        omega
      simp only [BPlusTree.borrowRight, internalAt_eq hunder.node, Option.bind_eq_bind,
        Option.bind_some, if_pos hlt, hchild, hunder.apart.get_right, if_neg hsize]

/-! ## §3. Merging, and the three repairs in turn. -/

/-- Two neighbours that together fit into one node. -/
theorem filled_join {l r : Item Bytes Bytes (n + 1)}
    (hlow : t.maxKeys / 2 + slack n ≤ l.items.length + r.items.length)
    (hupp : l.items.length + r.items.length + 1 ≤ 2 * (t.maxKeys / 2 + slack n))
    (hl : ∀ i ∈ l.items, Filled (t.maxKeys / 2) t.maxKeys n i)
    (hr : ∀ i ∈ r.items, Filled (t.maxKeys / 2) t.maxKeys n i) :
    Filled (t.maxKeys / 2) t.maxKeys (n + 1) (join l r) := by
  have hslack : slack n ≤ 1 := by cases n <;> simp [slack]
  refine ⟨?_, ?_, fun i hi => ?_⟩
  · rw [List.length_append]
    exact hlow
  · rw [List.length_append]
    omega
  · rcases List.mem_append.mp hi with hi | hi
    · exact hl i hi
    · exact hr i hi

/-- **Merging**, when neither sibling has an item to spare. -/
theorem Short.merge (h : Short t p n xs u ys keys) (hsib : xs ++ ys ≠ [])
    (hleft : ∀ xs' l, xs = xs' ++ [l] → l.items.length ≤ t.maxKeys / 2 + slack n)
    (hright : ∀ r ys', ys = r :: ys' → r.items.length ≤ t.maxKeys / 2 + slack n) :
    ∃ t' items', t.merge p xs.length u.id = some t' ∧
      Repaired t t' p n (xs ++ u :: ys) items' := by
  have h3 := h.three
  have hlow := h.size.lower
  have hshort := h.short
  have hnonempty : ∀ {i : Item Bytes Bytes (n + 1)},
      Filled (t.maxKeys / 2) t.maxKeys (n + 1) i → i.items ≠ [] := by
    intro i hi hnil
    have := hi.1
    rw [hnil, List.length_nil] at this
    omega
  -- `merge` prefers the left sibling; the first child has only its right one.
  rcases List.eq_nil_or_concat' xs with rfl | ⟨xs, l, rfl⟩
  · cases ys with
    | nil => exact absurd rfl hsib
    | cons r ys =>
        obtain ⟨hunder, hr, ks, q, ks', rfl, hks, hq⟩ := h.right
        have hr₁ := hr.1
        have hr₂ := hright r ys rfl
        obtain ⟨t', hrun, hunder', hstep⟩ := hunder.mergeSiblings hks
          (fun hn => ⟨h.items_ne_nil hn, hnonempty hr, hq hn⟩)
          (show u ∈ [u, r] from List.mem_cons_self) h.count
        refine ⟨t', [] ++ [join u r] ++ ys, ?_, Repaired.of_window hunder' hstep (by simp)
          (leaves_join u r) (fun j hj => h.filled j (List.mem_cons_of_mem _ hj)) ?_ (by simp)
          (by simp)⟩
        · have hchild : (([] ++ [u, r] ++ ys).map Node.id)[0 + 1]? = some r.id := rfl
          have hlt : 0 + 1 < (([] ++ [u, r] ++ ys).map Node.id).length := by simp
          simp only [BPlusTree.merge, internalAt_eq hunder.node, Option.bind_eq_bind,
            Option.bind_some, List.length_nil, Nat.lt_irrefl, gt_iff_lt, if_false, if_pos hlt,
            hchild, hunder.apart.get_right]
          exact hrun
        · intro j hj
          rw [List.mem_singleton.mp hj]
          -- Neither sibling could lend, so the joined node is within the maximum.
          exact filled_join (by omega) (by omega) h.size.below hr.2.2
  · obtain ⟨hunder, hl, ks, q, ks', rfl, hks, hq⟩ := h.left
    have hl₁ := hl.1
    have hl₂ := hleft xs l rfl
    obtain ⟨t', hrun, hunder', hstep⟩ := hunder.mergeSiblings hks
      (fun hn => ⟨hnonempty hl, h.items_ne_nil hn, hq hn⟩)
      (show u ∈ [l, u] by simp) h.count
    refine ⟨t', xs ++ [join l u] ++ ys, ?_, ?_⟩
    · have hchild : ((xs ++ [l, u] ++ ys).map Node.id)[xs.length]? = some l.id := by
        simp
      rw [List.length_append, List.length_singleton]
      simp only [BPlusTree.merge, internalAt_eq hunder.node, Option.bind_eq_bind,
        Option.bind_some, if_pos (Nat.succ_pos _), Nat.add_sub_cancel, hchild,
        hunder.apart.get_left]
      exact hrun
    · have hsplit : (xs ++ [l]) ++ u :: ys = xs ++ [l, u] ++ ys := by simp
      rw [hsplit]
      refine Repaired.of_window hunder' hstep (by simp) (leaves_join l u)
        (fun j hj => h.filled j (mem_window.mpr (Or.inl hj))) ?_ (by simp)
        (by simp)
      intro j hj
      rw [List.mem_singleton.mp hj]
      exact filled_join (by omega) (by omega) hl.2.2 h.size.below

/-- **`rebalance` repairs an underflowing child that has a sibling.** -/
theorem Short.rebalance (h : Short t p n xs u ys keys) (hsib : xs ++ ys ≠ []) :
    ∃ t' items', t.rebalance p xs.length u.id = some t' ∧
      Repaired t t' p n (xs ++ u :: ys) items' := by
  -- The order of the source: the left sibling lends, else the right one, else a merge.
  by_cases hleft : ∀ xs' l, xs = xs' ++ [l] → l.items.length ≤ t.maxKeys / 2 + slack n
  · have hfail := h.borrowLeft_fail hleft
    by_cases hright : ∀ r ys', ys = r :: ys' → r.items.length ≤ t.maxKeys / 2 + slack n
    · obtain ⟨t', items', hrun, hrep⟩ := h.merge hsib hleft hright
      refine ⟨t', items', ?_, hrep⟩
      simp only [BPlusTree.rebalance, hfail, h.borrowRight_fail hright, Option.bind_eq_bind,
        Option.bind_some, if_true, hrun]
    · push Not at hright
      obtain ⟨r, ys', rfl, hspare⟩ := hright
      obtain ⟨t', items', hrun, hrep⟩ := h.borrowRight hspare
      have hsplit : xs ++ u :: r :: ys' = xs ++ [u, r] ++ ys' := by simp
      refine ⟨t', items', ?_, hsplit ▸ hrep⟩
      simp only [BPlusTree.rebalance, hfail, Option.bind_eq_bind, Option.bind_some, if_true, hrun,
        Bool.false_eq_true, if_false]
  · push Not at hleft
    obtain ⟨xs', l, rfl, hspare⟩ := hleft
    obtain ⟨t', items', hrun, hrep⟩ := h.borrowLeft hspare
    have hsplit : (xs' ++ [l]) ++ u :: ys = xs' ++ [l, u] ++ ys := by simp
    refine ⟨t', items', ?_, hsplit ▸ hrep⟩
    rw [List.length_append, List.length_singleton]
    simp only [BPlusTree.rebalance, hrun, Option.bind_eq_bind, Option.bind_some,
      Bool.false_eq_true, if_false]

end Short

end BPlusTree

end KvEngine
