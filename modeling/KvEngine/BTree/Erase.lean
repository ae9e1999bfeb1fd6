/-
  KvEngine.BTree.Erase
  ────────────────────
  **`erase` on a stored subtree.**

  `erase_spec`: on a stored, sorted subtree within its occupancy bounds the
  recursion ends.  It reports `NotFound` and leaves the tree alone when the
  key is absent; otherwise the subtree keeps its id, loses the key, and
  reports its first key and whether it underflows.  `Lost.finish` is the way
  back up through one internal node, by `eraseFinish_spec`.
-/
import KvEngine.BTree.Insert
import KvEngine.BTree.Rebalance

namespace KvEngine

open Lib

namespace BPlusTree

/-- The subtree `s` lost `key` and became `u`. -/
structure Removal (t : BPlusTree) (key : Bytes) (lo : Nat) (isRoot : Bool) {n : Nat}
    (s u : Tree Bytes Bytes n) (r : EraseResult) : Prop where
  status : r.status = .okStatus
  removed : r.out.removed = true
  firstKey : r.out.firstKey = itemKey (n + 1) u
  underflow : r.out.underflow
    = (!isRoot && decide (u.items.length < t.maxKeys / 2 + slack n))
  id : u.id = s.id
  size : Sized (lo - 1) (t.maxKeys / 2) t.maxKeys u
  replaced : Replaced t r.tree (n + 1) [s] [u]
  entries : itemEntries (n + 1) u = eraseEntry t.order key (itemEntries (n + 1) s)

/-! ## §1. The leaf. -/

theorem eraseAtLeaf_spec {t : BPlusTree} {s : Tree Bytes Bytes 0} {lo : Nat} (key : Bytes)
    (isRoot : Bool) (hok : t.impl.Ok) (hs : Stored t.getNode 1 s)
    (hsize : Sized lo (t.maxKeys / 2) t.maxKeys s) (hsort : Sorted t.order (itemEntries 1 s)) :
    (find t.order (itemEntries 1 s) key = none ∧
      eraseAtLeaf t key s.id isRoot (leafOf s)
        = some { status := .notFound "Key not found", tree := t }) ∨
    (find t.order (itemEntries 1 s) key ≠ none ∧ ∃ r u,
      eraseAtLeaf t key s.id isRoot (leafOf s) = some r ∧
        Removal t key lo isRoot s u r) := by
  rw [itemEntries_leaf] at hsort ⊢
  have hlow := hsize.lower
  have hupp := hsize.upper
  simp only [slack, Nat.add_zero] at hlow hupp
  -- The search ends on the key or on the place it would have.
  rcases search_leaf key hsort with ⟨xs, v, ys, hes, hpos, hat, hx, hy⟩ |
    ⟨xs, ys, hes, hpos, hat, hx, hy⟩
  · right
    refine ⟨?_, ?_⟩
    · rw [Ne, find_eq_none_iff, hes]
      exact fun h => h (key, v) (by simp) rfl
    let u : Tree Bytes Bytes 0 := { s with items := xs ++ ys }
    have hkeys : eraseAt? (s.items.map Prod.fst) xs.length = some (u.items.map Prod.fst) := by
      rw [hes]
      exact eraseAt?_map _ xs _ ys
    have hvals : eraseAt? (s.items.map Prod.snd) xs.length = some (u.items.map Prod.snd) := by
      rw [hes]
      exact eraseAt?_map _ xs _ ys
    -- One entry less: the leaf may now be one below its lower bound, never further.
    have hlen : s.items.length = u.items.length + 1 := by
      simp only [u, hes, List.length_append, List.length_cons]
      omega
    refine ⟨{ out := ⟨true, !isRoot && decide ((u.items.map Prod.fst).length < t.minKeys),
      (u.items.map Prod.fst).headD []⟩, tree := t.setNode s.id (cell 0 u) }, u, ?_, rfl, rfl, ?_,
      ?_, rfl, ⟨?_, ?_, fun _ _ => trivial⟩, replaced_leaf hok hs rfl rfl, ?_⟩
    · simp only [eraseAtLeaf, leafOf, hpos, hat, if_true, hkeys, hvals, Option.bind_eq_bind,
        Option.bind_some]
      rfl
    · show (u.items.map Prod.fst).headD [] = itemKey 1 u
      simp only [itemKey]
      cases u.items <;> rfl
    · show (!isRoot && decide ((u.items.map Prod.fst).length < t.minKeys)) = _
      rw [List.length_map]
      rfl
    · show lo - 1 + 0 ≤ _
      omega
    · show _ ≤ _ + 0
      omega
    · rw [itemEntries_leaf, itemEntries_leaf, hes, eraseEntry_present hx hy]
  · left
    refine ⟨?_, ?_⟩
    · rw [hes]
      exact find_between hx hy
    · simp only [eraseAtLeaf, leafOf, hpos, hat, Bool.false_eq_true, if_false]

/-! ## §2. The way back through an internal node. -/

section Finish

variable {n : Nat} {t : BPlusTree} {p : Nat} {xs ys : List (Item Bytes Bytes (n + 1))}
  {c u : Item Bytes Bytes (n + 1)} {keys : List Bytes}

/-- Storing the child's new first key: exact again, unless the child has
no key left. -/
theorem Under.setFirstKey (h : Under t p n (xs ++ u :: ys) keys)
    (hkeys : keys = (xs ++ c :: ys).tail.map (itemKey (n + 1))) :
    ∃ t' keys', t.setFirstKey p xs.length (itemKey (n + 1) u) = some t' ∧
      Under t' p n (xs ++ u :: ys) keys' ∧
      Step t t' (p :: (xs ++ u :: ys).flatMap (itemIds (n + 1)))
        (p :: (xs ++ u :: ys).flatMap (itemIds (n + 1))) ∧
      (itemKey (n + 1) u ≠ [] → keys' = (xs ++ u :: ys).tail.map (itemKey (n + 1))) := by
  -- The first child has no separator of its own.
  cases xs with
  | nil =>
      exact ⟨t, keys, if_neg (fun hc => Nat.lt_irrefl _ hc.1), h, Step.refl h.kids.ok _,
        fun _ => hkeys⟩
  | cons x xs =>
      -- An empty first key means an emptied leaf: the separator is left for the repair.
      by_cases hu : itemKey (n + 1) u = []
      · refine ⟨t, keys, if_neg (fun hc => hc.2 ?_), h, Step.refl h.kids.ok _,
          fun hne => absurd hu hne⟩
        rw [hu]
        rfl
      · have hsplit : keys = xs.map (itemKey (n + 1)) ++ itemKey (n + 1) c ::
            ys.map (itemKey (n + 1)) := by
          rw [hkeys]
          simp
        subst hsplit
        refine ⟨_, xs.map (itemKey (n + 1)) ++ itemKey (n + 1) u :: ys.map (itemKey (n + 1)),
          ?_, h.withKeys _ (by simp), h.kids.step_setParent _ _, fun _ => by simp⟩
        rw [BPlusTree.setFirstKey, if_pos ⟨Nat.succ_pos _, by rw [List.isEmpty_iff]; exact hu⟩]
        exact h.setKey _ (by simp)

/-- Nothing to repair. -/
theorem Repaired.refl {items : List (Item Bytes Bytes (n + 1))} (h : Under t p n items keys)
    (hfill : ∀ i ∈ items, Filled (t.maxKeys / 2) t.maxKeys (n + 1) i) :
    Repaired t t p n items items where
  under := ⟨keys, h⟩
  step := Step.refl h.kids.ok _
  entries := rfl
  leaves := Relinked.refl _
  filled := hfill
  lower := Nat.le_succ _
  upper := Nat.le_refl _

/-- **A child that is short is repaired**, and any other one left. -/
theorem Under.repairChild {isShort : Bool} (h : Under t p n (xs ++ u :: ys) keys)
    (hexact : n ≠ 0 → keys = (xs ++ u :: ys).tail.map (itemKey (n + 1)))
    (hflag : isShort = decide (u.items.length < t.maxKeys / 2 + slack n))
    (hsize : Sized (t.maxKeys / 2 - 1) (t.maxKeys / 2) t.maxKeys u)
    (hfill : ∀ i ∈ xs ++ ys, Filled (t.maxKeys / 2) t.maxKeys (n + 1) i)
    (hnamed : ∀ e ∈ (xs ++ u :: ys).flatMap (itemEntries (n + 1)), e.1 ≠ [])
    (h3 : 3 ≤ t.maxKeys) (hsib : xs ++ ys ≠ []) (hfuel : n < t.fuel) (hcount : 0 < t.nodeCount) :
    ∃ t' items', t.repairChild p xs.length u.id isShort = some t' ∧
      Repaired t t' p n (xs ++ u :: ys) items' := by
  by_cases hshort : u.items.length < t.maxKeys / 2 + slack n
  · rw [BPlusTree.repairChild, hflag, if_pos (decide_eq_true hshort)]
    have hs : Short t p n xs u ys keys :=
      ⟨h, hexact, hsize, hshort, hfill, hnamed, h3, hfuel, hcount⟩
    exact hs.rebalance hsib
  · rw [BPlusTree.repairChild, hflag, if_neg (by simpa using hshort)]
    refine ⟨t, _, rfl, Repaired.refl h (fun i hi => ?_)⟩
    by_cases hiu : i = u
    · rw [hiu]
      exact ⟨Nat.le_of_not_lt hshort, hsize.upper, hsize.below⟩
    · refine hfill i ?_
      simp only [List.mem_append, List.mem_cons] at hi ⊢
      tauto

/-- **Back in the parent**: the children are repaired and every separator is
exact. -/
theorem eraseFinish_spec (out : DeleteResult) (isRoot : Bool)
    (h : Under t p n (xs ++ u :: ys) keys)
    (hkeys : keys = (xs ++ c :: ys).tail.map (itemKey (n + 1)))
    (hfirst : out.firstKey = itemKey (n + 1) u)
    (hflag : out.underflow = decide (u.items.length < t.maxKeys / 2 + slack n))
    (hsize : Sized (t.maxKeys / 2 - 1) (t.maxKeys / 2) t.maxKeys u)
    (hfill : ∀ i ∈ xs ++ ys, Filled (t.maxKeys / 2) t.maxKeys (n + 1) i)
    (hnamed : ∀ e ∈ (xs ++ u :: ys).flatMap (itemEntries (n + 1)), e.1 ≠ [])
    (h3 : 3 ≤ t.maxKeys) (hsib : xs ++ ys ≠ []) (hfuel : n < t.fuel) (hcount : 0 < t.nodeCount) :
    ∃ t' items', t.eraseFinish p xs.length isRoot out = some {
        out := {
          removed := true
          firstKey := itemKey (n + 2) (⟨p, 0, items'⟩ : Tree Bytes Bytes (n + 1))
          underflow := !isRoot && decide (items'.length < t.maxKeys / 2 + 1) }
        tree := t' } ∧
      Repaired t t' p n (xs ++ u :: ys) items' ∧
      Under t' p n items' (items'.tail.map (itemKey (n + 1))) := by
  have hchild : ((xs ++ u :: ys).map Node.id)[xs.length]? = some u.id := by simp
  have hu : t.getNode u.id = some (cell n u) := (h.kids.stored u (by simp)).1
  obtain ⟨t₁, keys₁, hrun₁, hunder₁, hstep₁, hkeys₁⟩ := h.setFirstKey hkeys
  have hopt : t₁.options = t.options := hstep₁.same.options
  have hmax : t₁.maxKeys = t.maxKeys := by rw [maxKeys, hopt]
  have hcount₁ : t₁.nodeCount = t.nodeCount := by
    have := hstep₁.count
    omega
  have hd : 1 ≤ t.maxKeys / 2 := by omega
  have hnamed_key : ∀ {is : List (Item Bytes Bytes (n + 1))} {i : Item Bytes Bytes (n + 1)},
      is.flatMap (itemEntries (n + 1)) = (xs ++ u :: ys).flatMap (itemEntries (n + 1)) → i ∈ is →
      Headed (n + 1) i → itemKey (n + 1) i ≠ [] := by
    intro is i his hi hhead
    obtain ⟨v, hv⟩ := hhead.key_mem
    exact hnamed (itemKey (n + 1) i, v) (his ▸ List.mem_flatMap.mpr ⟨i, hi, hv⟩)
  -- an inner child keeps children, so it still has a first key
  have hexact : n ≠ 0 → keys₁ = (xs ++ u :: ys).tail.map (itemKey (n + 1)) := by
    intro hn
    refine hkeys₁ (hnamed_key rfl (by simp) (headed_of_items ?_ ?_))
    · intro hnil
      have hlow := hsize.lower
      rw [hnil, List.length_nil] at hlow
      cases n with
      | zero => exact hn rfl
      | succ n => simp [slack] at hlow
    · exact fun i hi => (hsize.below i hi).headed hd
  obtain ⟨t₂, items', hrun₂, hrep⟩ := hunder₁.repairChild hexact (hmax ▸ hflag) (hmax ▸ hsize)
    (hmax ▸ hfill) hnamed (hmax ▸ h3) hsib (Nat.lt_of_lt_of_le hfuel hstep₁.fuel)
    (hcount₁ ▸ hcount)
  obtain ⟨_, hunder₂⟩ := hrep.under
  have hfuel₂ : n < t₂.fuel :=
    Nat.lt_of_lt_of_le hfuel (Nat.le_trans hstep₁.fuel hrep.step.fuel)
  have hfill' : ∀ i ∈ items', Filled (t.maxKeys / 2) t.maxKeys (n + 1) i := hmax ▸ hrep.filled
  obtain ⟨t₃, hrun₃, hunder₃, hstep₃⟩ := hunder₂.recomputeSeparators hfuel₂
    (fun i hi => hnamed_key hrep.entries hi ((hfill' i hi).headed hd))
  refine ⟨t₃, items', ?_, ⟨⟨_, hunder₃⟩, hstep₁.trans (hrep.step.trans hstep₃), hrep.entries,
    hrep.leaves, hfill', hrep.lower, hrep.upper⟩, hunder₃⟩
  obtain ⟨i, is, rfl⟩ : ∃ i is, items' = i :: is := by
    refine List.exists_cons_of_ne_nil (fun hnil => hsib ?_)
    have hlow := hrep.lower
    rw [hnil] at hlow
    simp only [List.length_append, List.length_cons, List.length_nil] at hlow
    exact List.eq_nil_of_length_eq_zero (by rw [List.length_append]; omega)
  have hkey : t₃.firstKeyOfSubtree i.id = some (itemKey (n + 1) i) :=
    firstKeyFrom_spec (Nat.lt_of_lt_of_le hfuel₂ hstep₃.fuel) (hunder₃.kids.stored i (by simp))
  have hmin : t₃.minKeys = t.maxKeys / 2 := by
    rw [minKeys, hstep₃.same.options, hrep.step.same.options, hopt]
  have hlast : (decide ((is.map (itemKey (n + 1))).length < t.maxKeys / 2) : Bool)
      = decide ((i :: is).length < t.maxKeys / 2 + 1) := by
    rw [List.length_map, List.length_cons, decide_eq_decide]
    omega
  rw [← hfirst] at hrun₁
  simp only [eraseFinish, internalAt_eq h.node, Option.bind_eq_bind, Option.bind_some, hchild, hu,
    hrun₁, hrun₂, hrun₃, internalAt_eq hunder₃.node, List.map_cons, List.tail_cons, hkey, hmin,
    hlast]
  rfl

end Finish

/-! ## §3. The recursion. -/

section Recursion

variable {t : BPlusTree} {key : Bytes} {n lo : Nat} {s : Tree Bytes Bytes (n + 1)}
  {xs ys : List (Item Bytes Bytes (n + 1))} {c u : Item Bytes Bytes (n + 1)} {r : EraseResult}

/-- The child `c` of `s` has lost the key and become `u`: the node is still there, with
the separators it had. -/
structure Lost (t : BPlusTree) (key : Bytes) (s : Tree Bytes Bytes (n + 1))
    (xs : List (Item Bytes Bytes (n + 1))) (c u : Item Bytes Bytes (n + 1))
    (ys : List (Item Bytes Bytes (n + 1))) (t' : BPlusTree) : Prop where
  items : s.items = xs ++ c :: ys
  under : Under t' s.id n (xs ++ u :: ys) (s.items.tail.map (itemKey (n + 1)))
  step : Step t t' (s.id :: s.items.flatMap (itemIds (n + 1)))
    (s.id :: (xs ++ u :: ys).flatMap (itemIds (n + 1)))
  leaves : Relinked (s.items.flatMap (itemLeaves (n + 1)))
    ((xs ++ u :: ys).flatMap (itemLeaves (n + 1)))
  entries : (xs ++ u :: ys).flatMap (itemEntries (n + 1))
    = eraseEntry t.order key (s.items.flatMap (itemEntries (n + 1)))

/-- What a removal from a child is to its parent. -/
theorem Removal.lost {lo' : Nat} {isRoot : Bool} (h : Removal t key lo' isRoot c u r)
    (hitems : s.items = xs ++ c :: ys) (hcell : t.getNode s.id = some (cell (n + 1) s))
    (k : Kids t s.id (n + 1) s.items)
    (hx : ∀ e ∈ xs.flatMap (itemEntries (n + 1)), t.order.lt e.1 key)
    (hy : ∀ e ∈ ys.flatMap (itemEntries (n + 1)), t.order.lt key e.1) :
    Lost t key s xs c u ys r.tree := by
  have hcut : xs ++ [c] ++ ys = s.items := by rw [hitems, List.append_assoc]; rfl
  have hcut' : xs ++ [u] ++ ys = xs ++ u :: ys := by simp
  obtain ⟨hstep, k', hget⟩ := h.replaced.window (hcut.symm ▸ k)
  rw [hcut'] at hstep k'
  rw [hcut] at hstep
  refine ⟨hitems, ⟨k', ?_, ?_⟩, hstep, ?_, ?_⟩
  · rw [hget, hcell, cell, hitems]
    simp [h.id]
  · rw [List.length_map, List.length_tail, hitems]
    simp [Nat.add_assoc]
  · rw [← hcut, ← hcut']
    exact h.replaced.leaves.window
  · rw [← hcut, ← hcut']
    simp only [List.flatMap_append, List.flatMap_singleton, h.entries]
    exact (eraseEntry_window hx hy).symm

/-- **The way back**: the child is repaired where it underflows, and the node has lost
the key. -/
theorem Lost.finish (isRoot : Bool) (h : Lost t key s xs c u ys r.tree)
    (hrem : Removal t key (t.maxKeys / 2) false c u r) (hm : 3 ≤ t.maxKeys) (hlo : 1 ≤ lo)
    (hsize : Sized lo (t.maxKeys / 2) t.maxKeys s) (hfuel : n < t.fuel)
    (hids : (itemIds (n + 2) s).length ≤ t.nodeCount)
    (hnamed : ∀ e ∈ s.items.flatMap (itemEntries (n + 1)), e.1 ≠ []) :
    ∃ r' u', r.tree.eraseFinish s.id xs.length isRoot r.out = some r' ∧
      Removal t key lo isRoot s u' r' := by
  have hopt : r.tree.options = t.options := h.step.same.options
  have hmax : r.tree.maxKeys = t.maxKeys := by rw [maxKeys, hopt]
  have hlow : lo + 1 ≤ s.items.length := hsize.lower
  have hlen : (xs ++ u :: ys).length = s.items.length := by simp [h.items]
  have hcount : 0 < r.tree.nodeCount := by
    have hc := h.step.count
    rw [itemIds_succ (n + 1)] at hids
    simp only [List.length_cons] at hc hids
    omega
  have hsib : xs ++ ys ≠ [] := by
    intro hnil
    have hnone := congrArg List.length hnil
    rw [h.items] at hlow
    simp only [List.length_append, List.length_cons, List.length_nil] at hlow hnone
    omega
  have hfill : ∀ i ∈ xs ++ ys, Filled (t.maxKeys / 2) t.maxKeys (n + 1) i := by
    intro i hi
    refine hsize.below i ?_
    rw [h.items]
    rcases List.mem_append.mp hi with hi | hi <;> simp [hi]
  obtain ⟨t', items', hrun, hrep, hunder⟩ := eraseFinish_spec (c := c) r.out isRoot h.under
    (by rw [h.items]) hrem.firstKey (by rw [hrem.underflow, hmax]; simp) (hmax ▸ hrem.size)
    (hmax ▸ hfill) (fun e he => hnamed e (mem_eraseEntry.mp (h.entries ▸ he)).1) (hmax ▸ hm) hsib
    (Nat.lt_of_lt_of_le hfuel h.step.fuel) hcount
  have hrlow := hrep.lower
  have hrupp := hrep.upper
  rw [hlen] at hrlow hrupp
  refine ⟨_, ⟨s.id, s.next, items'⟩, hrun, rfl, rfl, rfl, ?_, rfl, ⟨?_, ?_, ?_⟩,
    ⟨?_, ?_, ?_, ?_⟩, hrep.entries.trans h.entries⟩
  · rw [hmax]
    rfl
  · show lo - 1 + 1 ≤ items'.length
    omega
  · exact Nat.le_trans hrupp hsize.upper
  · exact hmax ▸ hrep.filled
  · rw [List.flatMap_singleton, List.flatMap_singleton]
    exact h.step.trans hrep.step
  · intro v hv
    rw [List.mem_singleton.mp hv]
    exact ⟨hunder.node, hunder.kids.stored⟩
  · rw [List.flatMap_singleton]
    exact hunder.kids.nodup
  · rw [List.flatMap_singleton, List.flatMap_singleton, itemLeaves_succ n s]
    exact h.leaves.trans hrep.leaves

end Recursion

/-- **`erase` does what removal from the sorted entries does.** -/
theorem erase_spec {t : BPlusTree} (key : Bytes) (hm : 3 ≤ t.maxKeys) (hok : t.impl.Ok) :
    ∀ {n lo fuel : Nat} {s : Tree Bytes Bytes n} (isRoot : Bool), n < fuel → n < t.fuel →
      Stored t.getNode (n + 1) s → (itemIds (n + 1) s).Nodup →
      (itemIds (n + 1) s).length ≤ t.nodeCount → (n ≠ 0 → 1 ≤ lo) →
      Sized lo (t.maxKeys / 2) t.maxKeys s → Sorted t.order (itemEntries (n + 1) s) →
      (∀ e ∈ itemEntries (n + 1) s, e.1 ≠ []) →
      (find t.order (itemEntries (n + 1) s) key = none ∧ erase key fuel t s.id isRoot
          = some { status := .notFound "Key not found", tree := t }) ∨
      (find t.order (itemEntries (n + 1) s) key ≠ none ∧
        ∃ r u, erase key fuel t s.id isRoot = some r ∧ Removal t key lo isRoot s u r) := by
  intro n
  induction n with
  | zero =>
      intro lo fuel s isRoot hfuel _ hs _ _ _ hsize hsort _
      obtain ⟨fuel, rfl⟩ : ∃ f, fuel = f + 1 := ⟨fuel - 1, by omega⟩
      simp only [erase, hs.get, cell]
      exact eraseAtLeaf_spec key isRoot hok hs hsize hsort
  | succ n ih =>
      intro lo fuel s isRoot hfuel hfuel' hs hnd hids hlo hsize hsort hnamed
      obtain ⟨fuel, rfl⟩ : ∃ f, fuel = f + 1 := ⟨fuel - 1, by omega⟩
      have hlo₁ := hlo (Nat.succ_ne_zero n)
      rw [itemEntries_succ (n + 1)] at hsort hnamed ⊢
      obtain ⟨xs, c, ys, hitems, hc, hpos, hchild, hcsort, hx, hy, -⟩ :=
        search_internal key (by omega) hsize hsort
      have hcut : xs ++ [c] ++ ys = s.items := by rw [hitems, List.append_assoc]; rfl
      have k := Kids.of_stored hok hs hnd
      -- the recursion into the child
      have hfind : find t.order (s.items.flatMap (itemEntries (n + 1))) key
          = find t.order (itemEntries (n + 1) c) key := by
        rw [← hcut]
        simp only [List.flatMap_append, List.flatMap_singleton]
        exact find_window hx hy
      have hcids : (itemIds (n + 1) c).length ≤ t.nodeCount := by
        rw [itemIds_succ (n + 1), ← hcut] at hids
        simp only [List.flatMap_append, List.flatMap_singleton, List.length_cons,
          List.length_append] at hids
        omega
      rw [hfind]
      rcases ih false (show n < fuel by omega) (by omega) (hs.2 c hc) (k.nodup_item hc) hcids
        (fun _ => by omega) (hsize.below c hc).sized hcsort
        (fun e he => hnamed e (List.mem_flatMap.mpr ⟨c, hc, he⟩)) with
        ⟨habsent, hr⟩ | ⟨hpresent, r, u, hr, hrem⟩
      · refine Or.inl ⟨habsent, ?_⟩
        simp only [erase, hs.get, cell, hpos, hchild, hr, Option.bind_eq_bind, Option.bind_some]
        rfl
      · obtain ⟨r', u', hrun, hrem'⟩ := (hrem.lost hitems hs.get k hx hy).finish isRoot hrem hm
          hlo₁ hsize (by omega) hids hnamed
        refine Or.inr ⟨hpresent, r', u', ?_, hrem'⟩
        rw [← hrun]
        simp only [erase, hs.get, cell, hpos, hchild, hr, Option.bind_eq_bind, Option.bind_some,
          hrem.status, hrem.removed]
        rfl

end BPlusTree

end KvEngine
