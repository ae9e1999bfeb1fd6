/-
  KvEngine.BTree.VerifyRun
  ────────────────────────
  **`Verify` accepts every represented tree.**

  `verifyNode_spec`: on a stored, filled and sorted subtree the recursive
  walk finds no fault, collects the leaves in order, counts the entries and
  returns the first key.  `verify_of_represents` adds the walk along the
  chain.
-/
import KvEngine.BTree.Verify
import KvEngine.BTree.Scan

namespace KvEngine

open Lib

@[simp] theorem VerifyState.check_true (v : VerifyState) : v.check true = v := by
  simp [VerifyState.check]

/-- The state after a subtree with these leaves and entries was walked. -/
def VerifyState.after (v : VerifyState) (leaves : List Nat) (counted : Nat) (depth : Int) :
    VerifyState :=
  { v with
    leaves := v.leaves ++ leaves, counted := v.counted + counted, expectedLeafDepth := depth }

theorem keysStrictlyIncreasing_of_pairwise {comparator : Option Comparator} :
    ∀ {keys : List Bytes}, keys.Pairwise (keyOrder comparator).lt →
      keysStrictlyIncreasing comparator keys = true := by
  intro keys
  induction keys with
  | nil => intro _; rfl
  | cons a keys ih =>
      intro h
      cases keys with
      | nil => rfl
      | cons b keys =>
          obtain ⟨ha, hrest⟩ := List.pairwise_cons.mp h
          have hab : ¬ (keyOrder comparator).compare a b ≥ 0 := by
            have := ha b List.mem_cons_self
            simp only [TotalCompare.lt] at this
            omega
          rw [keysStrictlyIncreasing, ih hrest]
          simp [hab]

namespace BPlusTree

theorem checkSeparators_self {comparator : Option Comparator} (v : VerifyState) :
    ∀ {keys : List Bytes}, (∀ k ∈ keys, k ≠ []) →
      checkSeparators comparator keys keys v = some v := by
  intro keys
  induction keys with
  | nil => intro _; rfl
  | cons k keys ih =>
      intro h
      have hk : k.isEmpty = false := by
        cases k with
        | nil => exact absurd rfl (h [] List.mem_cons_self)
        | cons b bs => rfl
      simp only [checkSeparators, hk, Bool.false_eq_true, if_false, compareKeys_eq,
        TotalCompare.compare_self, BEq.rfl, VerifyState.check_true]
      exact ih (fun q hq => h q (List.mem_cons_of_mem _ hq))

/-! ## §1. The recursive walk. -/

variable {t : BPlusTree}

/-- The loop over the children, given what the walk does on each child. -/
theorem verify_children {n fuel : Nat} {depth leafDepth : Int}
    {is : List (Item Bytes Bytes (n + 1))}
    (hchild : ∀ i ∈ is, ∀ v : VerifyState,
      (v.expectedLeafDepth < 0 ∨ v.expectedLeafDepth = leafDepth) →
      t.verifyNode fuel i.id depth false v = some (itemKey (n + 1) i,
        v.after ((leafNodes n i).map Node.id) (itemEntries (n + 1) i).length leafDepth)) :
    ∀ (firsts : List Bytes) (v : VerifyState),
      (v.expectedLeafDepth < 0 ∨ v.expectedLeafDepth = leafDepth) →
      (is.map Node.id).foldlM
        (fun (acc : List Bytes × VerifyState) child => do
          let (first, v) ← t.verifyNode fuel child depth false acc.2
          some (acc.1 ++ [first], v))
        (firsts, v)
      = some (firsts ++ is.map (itemKey (n + 1)),
          v.after ((is.flatMap (leafNodes n)).map Node.id)
            (is.flatMap (itemEntries (n + 1))).length
            (if is = [] then v.expectedLeafDepth else leafDepth)) := by
  -- On the children in order: each call appends to what the walk has collected.
  induction is with
  | nil =>
      intro firsts v _
      simp [VerifyState.after]
  | cons i is ih =>
      intro firsts v hv
      have hi := hchild i List.mem_cons_self v hv
      have hrest := ih (fun j hj => hchild j (List.mem_cons_of_mem _ hj))
        (firsts ++ [itemKey (n + 1) i])
        (v.after ((leafNodes n i).map Node.id) (itemEntries (n + 1) i).length leafDepth)
        (Or.inr rfl)
      rw [List.map_cons, List.foldlM_cons, hi]
      simp only [Option.bind_eq_bind, Option.bind_some] at hrest ⊢
      rw [hrest]
      simp only [VerifyState.after, List.map_cons, List.flatMap_cons, List.map_append,
        List.length_append, List.append_assoc, List.singleton_append, Nat.add_assoc,
        reduceCtorEq, if_false, ite_self]

/-- **The walk finds no fault** in a stored, filled and sorted subtree. -/
theorem verifyNode_spec (hm : 3 ≤ t.maxKeys) :
    ∀ {n lo fuel : Nat} (depth : Int) (isRoot : Bool) (v : VerifyState) {s : Tree Bytes Bytes n},
      n < fuel → 0 ≤ depth → Stored t.getNode (n + 1) s → Sized lo (t.maxKeys / 2) t.maxKeys s →
      (isRoot = true ∨ lo = t.maxKeys / 2) → Sorted t.order (itemEntries (n + 1) s) →
      (∀ e ∈ itemEntries (n + 1) s, e.1 ≠ []) →
      (v.expectedLeafDepth < 0 ∨ v.expectedLeafDepth = depth + n) →
      t.verifyNode fuel s.id depth isRoot v = some (itemKey (n + 1) s,
        v.after ((leafNodes n s).map Node.id) (itemEntries (n + 1) s).length (depth + n)) := by
  intro n
  induction n with
  | zero =>
      intro lo fuel depth isRoot v s hfuel hdepth hs hsize hroot hsort hnamed hv
      obtain ⟨fuel, rfl⟩ : ∃ f, fuel = f + 1 := ⟨fuel - 1, by omega⟩
      rw [itemEntries_leaf] at hsort ⊢
      have hkeys : keysStrictlyIncreasing t.options.comparator (s.items.map Prod.fst) = true :=
        keysStrictlyIncreasing_of_pairwise hsort.keys_pairwise
      have hlow := hsize.lower
      have hocc : (isRoot || !decide (s.items.length < t.options.maxKeysPerNode / 2)) = true := by
        rcases hroot with rfl | rfl
        · rfl
        · have : ¬ s.items.length < t.options.maxKeysPerNode / 2 := Nat.not_lt.mpr hlow
          simp [this]
      have hfirst : (s.items.map Prod.fst).headD [] = itemKey 1 s := by
        simp only [itemKey]
        cases s.items <;> rfl
      simp only [verifyNode, hs.get, cell, hkeys, hocc, VerifyState.check_true, hfirst,
        List.length_map, leafNodes, List.map_singleton]
      have hdepth' : (if v.expectedLeafDepth < 0 then { v with expectedLeafDepth := depth }
          else v.check (v.expectedLeafDepth == depth)) = { v with expectedLeafDepth := depth } := by
        rcases hv with hv | hv
        · rw [if_pos hv]
        · rw [Int.natCast_zero, Int.add_zero] at hv
          rw [if_neg (by omega), hv, BEq.rfl, VerifyState.check_true, ← hv]
      rw [hdepth']
      simp [VerifyState.after]
  | succ n ih =>
      intro lo fuel depth isRoot v s hfuel hdepth hs hsize hroot hsort hnamed hv
      obtain ⟨fuel, rfl⟩ : ∃ f, fuel = f + 1 := ⟨fuel - 1, by omega⟩
      have hlow := hsize.lower
      simp only [slack] at hlow
      rw [itemEntries_succ (n + 1)] at hsort hnamed
      have hhead : ∀ i ∈ s.items, Headed (n + 1) i :=
        fun i hi => (hsize.below i hi).headed (by omega)
      obtain ⟨c, cs, hitems⟩ : ∃ c cs, s.items = c :: cs := by
        refine List.exists_cons_of_ne_nil (fun hnil => ?_)
        rw [hnil, List.length_nil] at hlow
        omega
      have hkeys : keysStrictlyIncreasing t.options.comparator
          (s.items.tail.map (itemKey (n + 1))) = true := by
        refine keysStrictlyIncreasing_of_pairwise (List.pairwise_map.mpr ?_)
        exact (pairwise_itemKey hhead hsort).sublist (List.tail_sublist _)
      have hcount : ((s.items.map Node.id).length == (s.items.tail.map (itemKey (n + 1))).length + 1
          && !(s.items.map Node.id).isEmpty) = true := by
        simp [hitems]
      have hocc : (isRoot || !decide ((s.items.tail.map (itemKey (n + 1))).length
          < t.options.maxKeysPerNode / 2)) = true := by
        rcases hroot with rfl | rfl
        · rfl
        · have : ¬ s.items.length - 1 < t.options.maxKeysPerNode / 2 :=
            Nat.not_lt.mpr (Nat.le_sub_of_add_le hlow)
          simp [this]
      -- the children, one level deeper
      have hleafDepth : depth + 1 + (n : Int) = depth + (n + 1 : Nat) := by push_cast; omega
      have hchildren := verify_children (fun i hi v hv =>
        ih (depth + 1) false v (show n < fuel by omega) (show 0 ≤ depth + 1 by omega)
          (hs.2 i hi) (hsize.below i hi).sized (Or.inr rfl)
          (by
            obtain ⟨xs, ys, hsplit⟩ := List.append_of_mem hi
            rw [hsplit, List.flatMap_append, List.flatMap_cons, sorted_append,
              sorted_append] at hsort
            exact hsort.2.1.1)
          (fun e he => hnamed e (List.mem_flatMap.mpr ⟨i, hi, he⟩)) hv) [] v
        (by rw [hleafDepth]; exact hv)
      have hseparators : ∀ w : VerifyState, checkSeparators t.options.comparator
          (s.items.map (itemKey (n + 1))).tail (s.items.tail.map (itemKey (n + 1))) w = some w := by
        intro w
        rw [← List.map_tail]
        refine checkSeparators_self w (fun k hk => ?_)
        obtain ⟨i, hi, rfl⟩ := List.mem_map.mp hk
        have hi' := List.mem_of_mem_tail hi
        obtain ⟨value, hvalue⟩ := (hhead i hi').key_mem
        exact hnamed _ (List.mem_flatMap.mpr ⟨i, hi', hvalue⟩)
      have hfirst : (s.items.map (itemKey (n + 1))).headD [] = itemKey (n + 2) s := by
        rw [itemKey_cons hitems, hitems]
        rfl
      simp only [verifyNode, hs.get, cell, hkeys, hocc, hcount, VerifyState.check_true]
      rw [hchildren]
      simp only [Option.bind_eq_bind, Option.bind_some, List.nil_append, hseparators, hfirst,
        hleafDepth]
      rw [if_neg (by simp [hitems])]
      rfl

/-! ## §2. The walk along the chain. -/

theorem verifyChain_spec : ∀ {ls : List (Tree Bytes Bytes 0)}, Iterator.Chain t ls →
    t.verifyChain (Iterator.firstId ls) (ls.map Node.id) = some true := by
  intro ls
  induction ls with
  | nil => intro _; rfl
  | cons l ls ih =>
      intro h
      have hid : Iterator.firstId (l :: ls) = l.id := rfl
      have hrest := ih h.tail
      rw [← h.next_eq] at hrest
      simp only [List.map_cons, hid, verifyChain, if_neg h.ne_zero,
        h.stored l List.mem_cons_self, cell, ne_eq, not_true_eq_false, if_false]
      exact hrest

/-- **`Verify` returns true** on a represented tree. -/
theorem verify_of_represents {n : Nat} {s : Tree Bytes Bytes n} (h : Represents t s) :
    t.verify = some true := by
  have hwalk := verifyNode_spec h.three 0 true {} h.lt_fuel (Int.le_refl 0)
    h.stored h.sized (Or.inl rfl) h.sorted h.named (Or.inl (by decide))
  have hroot : t.getNode t.rootId = some (cell n s) := by
    rw [h.rootId]
    exact h.stored.get
  have hzero : t.rootId ≠ 0 := Impl.ne_zero_of_getNode hroot
  have hpresent : ¬ (t.rootId = 0 ∨ (t.getNode t.rootId).isNone) := by
    rw [hroot]
    simp [hzero]
  have hcounted : ((itemEntries (n + 1) s).length == t.size) = true := by
    rw [h.size]
    exact BEq.rfl
  rw [← h.rootId] at hwalk
  have hchain := Iterator.chain_leafNodes h
  simp only [verify, if_neg hpresent, hwalk, Option.bind_eq_bind, Option.bind_some,
    VerifyState.after, Nat.zero_add, hcounted, VerifyState.check_true, List.nil_append]
  -- The walk along the chain is made only where there are two leaves or more.
  cases hleaves : leafNodes n s with
  | nil => rfl
  | cons l ls =>
      cases ls with
      | nil => rfl
      | cons l' ls =>
          rw [hleaves] at hchain
          have hrun := verifyChain_spec hchain
          simp only [List.map_cons] at hrun ⊢
          rw [show Iterator.firstId (l :: l' :: ls) = l.id from rfl] at hrun
          rw [hrun]
          rfl

end BPlusTree

end KvEngine
