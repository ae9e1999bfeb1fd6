/-
  KvEngine.BTree.Scan
  ───────────────────
  **Range scans.**

  An iterator on a represented tree stands on a suffix of the leaf chain
  (`Cursor`), and what it has yet to show is the part of the remaining
  entries below the limit.  `skipLoop_spec` and `next_spec` are the steps,
  `scan_spec` the loop, and `scan_range` puts them together for every
  reachable tree and every pair of bounds.
-/
import KvEngine.BTree.Iterator
import KvEngine.BTree.Refinement

namespace KvEngine

open Lib

/-! ## §1. Prefixes of sorted entries. -/

/-- On sorted entries, a predicate that holds of smaller keys once it holds
of larger ones cuts a prefix off. -/
theorem takeWhile_eq_filter {o : Comparator} {p : Bytes × Bytes → Bool}
    (hp : ∀ a b : Bytes × Bytes, o.lt a.1 b.1 → p b = true → p a = true) :
    ∀ {es : List (Bytes × Bytes)}, Sorted o es → es.takeWhile p = es.filter p := by
  intro es
  induction es with
  | nil => intro _; rfl
  | cons d es ih =>
      intro hs
      obtain ⟨hd, hes⟩ := sorted_cons.mp hs
      by_cases hpd : p d = true
      · rw [List.takeWhile_cons_of_pos hpd, List.filter_cons_of_pos hpd, ih hes]
      · rw [List.takeWhile_cons_of_neg hpd, List.filter_cons_of_neg hpd]
        refine (List.filter_eq_nil_iff.mpr (fun e he hpe => ?_)).symm
        exact hpd (hp d e (hd e he) hpe)

namespace Iterator

/-! ## §2. Positions in the leaf chain. -/

/-- Leaves linked up to the end of the chain. -/
structure Chain (t : BPlusTree) (ls : List (Tree Bytes Bytes 0)) : Prop where
  stored : ∀ l ∈ ls, t.getNode l.id = some (cell 0 l)
  linked : Linked (ls.map (fun l => (l.id, l.next))) 0
  nodup : (ls.map Node.id).Nodup
  sorted : Sorted t.order (ls.flatMap Node.items)

/-- The id of the first leaf, 0 at the end. -/
def firstId (ls : List (Tree Bytes Bytes 0)) : Nat := headId (ls.map (fun l => (l.id, l.next))) 0

/-- The entries from index `idx` of the first leaf on. -/
def ahead (idx : Nat) : List (Tree Bytes Bytes 0) → List (Bytes × Bytes)
  | [] => []
  | l :: ls => l.items.drop idx ++ ls.flatMap Node.items

variable {t : BPlusTree}

theorem Chain.suffix {xs ls : List (Tree Bytes Bytes 0)} (h : Chain t (xs ++ ls)) : Chain t ls where
  stored l hl := h.stored l (List.mem_append_right _ hl)
  linked := by
    have := h.linked
    rw [List.map_append, linked_append] at this
    exact this.2
  nodup := by
    have := h.nodup
    rw [List.map_append, List.nodup_append] at this
    exact this.2.1
  sorted := by
    have := h.sorted
    rw [List.flatMap_append, sorted_append] at this
    exact this.2.1

theorem Chain.ne_zero {l : Tree Bytes Bytes 0} {ls : List (Tree Bytes Bytes 0)}
    (h : Chain t (l :: ls)) : l.id ≠ 0 :=
  Impl.ne_zero_of_getNode (h.stored l List.mem_cons_self)

theorem Chain.next_eq {l : Tree Bytes Bytes 0} {ls : List (Tree Bytes Bytes 0)}
    (h : Chain t (l :: ls)) : l.next = firstId ls := h.linked.1

theorem Chain.tail {l : Tree Bytes Bytes 0} {ls : List (Tree Bytes Bytes 0)}
    (h : Chain t (l :: ls)) : Chain t ls :=
  (show Chain t ([l] ++ ls) from h).suffix

theorem Chain.leafPtr {l : Tree Bytes Bytes 0} {ls : List (Tree Bytes Bytes 0)}
    (h : Chain t (l :: ls)) :
    leafPtr t l.id = some (some ⟨l.items.map Prod.fst, l.items.map Prod.snd, l.next⟩) := by
  simp only [Iterator.leafPtr, h.stored l List.mem_cons_self, cell]

theorem ahead_zero (ls : List (Tree Bytes Bytes 0)) : ahead 0 ls = ls.flatMap Node.items := by
  cases ls with
  | nil => rfl
  | cons l ls => rw [ahead, List.drop_zero, List.flatMap_cons]

/-- The iterator stands on the chain `ls`, its status is OK. -/
structure Cursor (t : BPlusTree) (it : Iterator) (ls : List (Tree Bytes Bytes 0)) : Prop where
  chain : Chain t ls
  leaf : it.currentLeaf = firstId ls
  status : it.status = .okStatus

/-- What the iterator has yet to show. -/
def pending (t : BPlusTree) (it : Iterator) (ls : List (Tree Bytes Bytes 0)) :
    List (Bytes × Bytes) :=
  (ahead it.currentIdx ls).takeWhile (fun e => it.belowLimit t e.1)

/-- The iterator is at the end of the chain or shows an entry below the
limit. -/
def Settled (t : BPlusTree) (it : Iterator) (ls : List (Tree Bytes Bytes 0)) : Prop :=
  ls = [] ∨ ∃ l ls' e es, ls = l :: ls' ∧ l.items.drop it.currentIdx = e :: es ∧
    it.belowLimit t e.1 = true

theorem belowLimit_of_lt (it : Iterator) {a b : Bytes} (hab : t.order.lt a b)
    (hb : it.belowLimit t b = true) : it.belowLimit t a = true := by
  unfold belowLimit at hb ⊢
  cases hl : it.limit with
  | none => rfl
  | some limit =>
      rw [hl, Option.all_some, decide_eq_true_eq, compareKeys_eq] at hb
      rw [Option.all_some, decide_eq_true_eq, compareKeys_eq]
      exact t.order.lt_trans hab hb

/-! ## §3. Skipping to the next entry in range. -/

/-- **`SkipEmptyOrPastLimit` loses nothing in range.** -/
theorem skipLoop_spec : ∀ {ls : List (Tree Bytes Bytes 0)} {it : Iterator} {fuel : Nat},
    Cursor t it ls → ls.length < fuel →
    ∃ it' ls', skipLoop t fuel it = some it' ∧ Cursor t it' ls' ∧ Settled t it' ls' ∧
      it'.start = it.start ∧ it'.limit = it.limit ∧ pending t it' ls' = pending t it ls := by
  intro ls
  induction ls with
  | nil =>
      intro it fuel h hfuel
      obtain ⟨fuel, rfl⟩ : ∃ f, fuel = f + 1 := ⟨fuel - 1, by omega⟩
      exact ⟨it, [], if_pos h.leaf, h, Or.inl rfl, rfl, rfl, rfl⟩
  | cons l ls ih =>
      intro it fuel h hfuel
      obtain ⟨fuel, rfl⟩ : ∃ f, fuel = f + 1 := ⟨fuel - 1, by omega⟩
      have hleaf : it.currentLeaf = l.id := h.leaf
      have hzero : l.id ≠ 0 := h.chain.ne_zero
      have hkey : (l.items.map Prod.fst)[it.currentIdx]?
          = (l.items.drop it.currentIdx).head?.map Prod.fst := by
        rw [List.getElem?_map, List.head?_drop]
      have hrun : skipLoop t (fuel + 1) it
          = if (l.items.drop it.currentIdx).head?.any (fun e => it.belowLimit t e.1) then some it
            else skipLoop t fuel { it with currentLeaf := l.next, currentIdx := 0 } := by
        simp only [skipLoop, hleaf, if_neg hzero, h.chain.leafPtr, Option.bind_eq_bind,
          Option.bind_some, hkey, Option.any_map]
      -- the rest of the chain, from its first entry on
      have hnext : Cursor t { it with currentLeaf := l.next, currentIdx := 0 } ls :=
        ⟨h.chain.tail, h.chain.next_eq, h.status⟩
      have hrest : pending t { it with currentLeaf := l.next, currentIdx := 0 } ls
          = (ls.flatMap Node.items).takeWhile (fun e => it.belowLimit t e.1) := by
        rw [pending, ahead_zero]
        rfl
      cases hd : l.items.drop it.currentIdx with
      | nil =>
          obtain ⟨it', ls', hskip, hcur, hset, hstart, hlimit, hpend⟩ := ih hnext
            (Nat.lt_of_succ_lt_succ hfuel)
          refine ⟨it', ls', ?_, hcur, hset, hstart, hlimit, ?_⟩
          · rw [hrun, hd]
            exact hskip
          · rw [hpend, hrest, pending, ahead, hd, List.nil_append]
      | cons e es =>
          by_cases hbelow : it.belowLimit t e.1 = true
          · refine ⟨it, l :: ls, ?_, h, Or.inr ⟨l, ls, e, es, rfl, hd, hbelow⟩, rfl, rfl, rfl⟩
            rw [hrun, hd, List.head?_cons, Option.any_some, if_pos hbelow]
          -- past the limit: nothing later is in range either
          · obtain ⟨it', ls', hskip, hcur, hset, hstart, hlimit, hpend⟩ := ih hnext
              (Nat.lt_of_succ_lt_succ hfuel)
            refine ⟨it', ls', ?_, hcur, hset, hstart, hlimit, ?_⟩
            · rw [hrun, hd, List.head?_cons, Option.any_some, if_neg hbelow]
              exact hskip
            · rw [hpend, hrest, pending, ahead, hd, List.cons_append,
                List.takeWhile_cons_of_neg
                  (p := fun d : Bytes × Bytes => it.belowLimit t d.1) hbelow]
              cases hf : ls.flatMap Node.items with
              | nil => rfl
              | cons d ds =>
                  refine List.takeWhile_cons_of_neg (p := fun d : Bytes × Bytes =>
                    it.belowLimit t d.1) (fun hd' => hbelow ?_)
                  have hmem : e ∈ l.items := List.mem_of_mem_drop (by rw [hd]; simp)
                  have hsort := h.chain.sorted
                  rw [List.flatMap_cons, sorted_append] at hsort
                  exact belowLimit_of_lt it (hsort.2.2 e hmem d (by rw [hf]; simp)) hd'

/-! ## §4. The loop. -/

theorem Chain.length_lt {ls : List (Tree Bytes Bytes 0)} (h : Chain t ls) :
    ls.length < t.fuel + 1 := by
  have hused : ∀ j ∈ ls.map Node.id, ∃ x, t.getNode j = some x := by
    intro j hj
    obtain ⟨l, hl, rfl⟩ := List.mem_map.mp hj
    exact ⟨_, h.stored l hl⟩
  have := BPlusTree.length_le_fuel h.nodup hused
  rw [List.length_map] at this
  omega

/-- At the end of the chain. -/
theorem valid_nil {it : Iterator} (h : Cursor t it []) : it.valid t = some false := by
  have hleaf : it.currentLeaf = 0 := h.leaf
  simp [valid, h.status, atEnd, hleaf]

/-- On an entry in range: `Valid()`, `key()` and `value()`. -/
theorem valid_cons {it : Iterator} {l : Tree Bytes Bytes 0} {ls : List (Tree Bytes Bytes 0)}
    {e : Bytes × Bytes} {es : List (Bytes × Bytes)} (h : Cursor t it (l :: ls))
    (hd : l.items.drop it.currentIdx = e :: es) (hbelow : it.belowLimit t e.1 = true) :
    it.valid t = some true ∧ it.entry t = some e := by
  have hleaf : it.currentLeaf = l.id := h.leaf
  have hzero : l.id ≠ 0 := h.chain.ne_zero
  have hget : l.items[it.currentIdx]? = some e := by
    rw [← List.head?_drop, hd]
    rfl
  have hkey : (l.items.map Prod.fst)[it.currentIdx]? = some e.1 := by
    rw [List.getElem?_map, hget]
    rfl
  have hvalue : (l.items.map Prod.snd)[it.currentIdx]? = some e.2 := by
    rw [List.getElem?_map, hget]
    rfl
  have hvalid : it.valid t = some true := by
    simp only [valid, h.status, Status.ok_okStatus, if_true, atEnd, hleaf, if_neg hzero,
      h.chain.leafPtr, Option.bind_eq_bind, Option.bind_some, hkey, hbelow, Bool.not_true,
      Option.map_some, Bool.not_false]
  have hat : t.leafAt l.id = some ⟨l.items.map Prod.fst, l.items.map Prod.snd, l.next⟩ :=
    BPlusTree.leafAt_eq (h.chain.stored l List.mem_cons_self)
  refine ⟨hvalid, ?_⟩
  simp only [entry, hvalid, Option.bind_eq_bind, Option.bind_some, if_true, hleaf, hat, hkey,
    hvalue]

/-- **`Next` moves past the entry shown.** -/
theorem next_spec {it : Iterator} {l : Tree Bytes Bytes 0} {ls : List (Tree Bytes Bytes 0)}
    {e : Bytes × Bytes} {es : List (Bytes × Bytes)} (h : Cursor t it (l :: ls))
    (hd : l.items.drop it.currentIdx = e :: es) (hbelow : it.belowLimit t e.1 = true) :
    ∃ it' ls', it.next t = some it' ∧ Cursor t it' ls' ∧ Settled t it' ls' ∧
      it'.start = it.start ∧ it'.limit = it.limit ∧
      pending t it (l :: ls) = e :: pending t it' ls' := by
  have hleaf : it.currentLeaf = l.id := h.leaf
  have hlen : l.items.length = it.currentIdx + (es.length + 1) := by
    have := congrArg List.length hd
    rw [List.length_drop, List.length_cons] at this
    omega
  have hes : l.items.drop (it.currentIdx + 1) = es := by
    rw [← List.drop_drop, hd]
    rfl
  -- The entry under the cursor is the first of those pending.
  have hpend : pending t it (l :: ls)
      = e :: (es ++ ls.flatMap Node.items).takeWhile (fun d => it.belowLimit t d.1) := by
    rw [pending, ahead, hd, List.cons_append]
    exact List.takeWhile_cons_of_pos (p := fun d : Bytes × Bytes => it.belowLimit t d.1) hbelow
  have hrun : it.next t = skipEmptyOrPastLimit t (if it.currentIdx + 1 ≥ l.items.length
      then { it with currentLeaf := l.next, currentIdx := 0 }
      else { it with currentIdx := it.currentIdx + 1 }) := by
    simp only [next, (valid_cons h hd hbelow).1, Option.bind_eq_bind, Option.bind_some, if_true,
      hleaf, h.chain.leafPtr, List.length_map]
  -- Past the last entry of a leaf the cursor moves to the next leaf of the chain.
  by_cases hlast : it.currentIdx + 1 ≥ l.items.length
  · have hnil : es = [] := List.eq_nil_of_length_eq_zero (by omega)
    have hcur : Cursor t { it with currentLeaf := l.next, currentIdx := 0 } ls :=
      ⟨h.chain.tail, h.chain.next_eq, h.status⟩
    obtain ⟨it', ls', hskip, hcur', hset, hstart, hlimit, hpend'⟩ :=
      skipLoop_spec hcur hcur.chain.length_lt
    refine ⟨it', ls', ?_, hcur', hset, hstart, hlimit, ?_⟩
    · rw [hrun, if_pos hlast]
      exact hskip
    · rw [hpend, hpend', pending, ahead_zero, hnil, List.nil_append]
      rfl
  · have hcur : Cursor t { it with currentIdx := it.currentIdx + 1 } (l :: ls) :=
      ⟨h.chain, h.leaf, h.status⟩
    obtain ⟨it', ls', hskip, hcur', hset, hstart, hlimit, hpend'⟩ :=
      skipLoop_spec hcur hcur.chain.length_lt
    refine ⟨it', ls', ?_, hcur', hset, hstart, hlimit, ?_⟩
    · rw [hrun, if_neg hlast]
      exact hskip
    · rw [hpend, hpend', pending, ahead, hes]
      rfl

/-- **The loop shows exactly what is pending**, with status OK throughout. -/
theorem scan_spec : ∀ {es : List (Bytes × Bytes)} {it : Iterator}
    {ls : List (Tree Bytes Bytes 0)} {fuel : Nat}, Cursor t it ls → Settled t it ls →
    pending t it ls = es → es.length < fuel →
    scan t fuel it = some (es.map (fun e => (.okStatus, e)), .okStatus) := by
  intro es
  induction es with
  | nil =>
      intro it ls fuel h hset hpend hfuel
      obtain ⟨fuel, rfl⟩ : ∃ f, fuel = f + 1 := ⟨fuel - 1, by omega⟩
      -- No entry is pending: a settled cursor cannot stand on one below the limit.
      rcases hset with rfl | ⟨l, ls', e, es, rfl, hd, hbelow⟩
      · simp [scan, valid_nil h, h.status]
      · obtain ⟨it', ls'', -, -, -, -, -, hcons⟩ := next_spec h hd hbelow
        rw [hpend] at hcons
        exact absurd hcons (by simp)
  | cons e es ih =>
      intro it ls fuel h hset hpend hfuel
      obtain ⟨fuel, rfl⟩ : ∃ f, fuel = f + 1 := ⟨fuel - 1, by omega⟩
      rcases hset with rfl | ⟨l, ls', d, ds, rfl, hd, hbelow⟩
      · exact absurd hpend (by simp [pending, ahead])
      · obtain ⟨it', ls'', hnext, hcur, hset', -, -, hcons⟩ := next_spec h hd hbelow
        obtain ⟨hvalid, hentry⟩ := valid_cons h hd hbelow
        rw [hpend] at hcons
        injection hcons with hhead htail
        have hrest := ih hcur hset' htail.symm (Nat.lt_of_succ_lt_succ hfuel)
        simp only [scan, hvalid, hentry, hnext, hrest, Option.bind_eq_bind, Option.bind_some,
          if_true, h.status, List.map_cons, ← hhead]

/-! ## §5. The first entry in range. -/

/-- The key lies in `[start, limit)`. -/
def inRange (t : BPlusTree) (start limit : Option Bytes) (key : Bytes) : Bool :=
  start.all (fun s => !decide (t.order.lt key s)) &&
    limit.all (fun l => decide (t.order.lt key l))

theorem leafIds_sublist : ∀ {n : Nat} (s : Tree Bytes Bytes n),
    ((leafNodes n s).map Node.id).Sublist (itemIds (n + 1) s) := by
  intro n
  induction n with
  | zero => intro s; rw [itemIds_leaf]; exact List.Sublist.refl _
  | succ n ih =>
      intro s
      rw [leafNodes_succ, List.map_flatMap, itemIds_succ]
      refine List.Sublist.cons _ ?_
      induction s.items with
      | nil => exact List.Sublist.refl _
      | cons i is ihs =>
          rw [List.flatMap_cons, List.flatMap_cons]
          exact (ih i).append ihs

theorem chain_leafNodes {n : Nat} {s : Tree Bytes Bytes n} (h : BPlusTree.Represents t s) :
    Chain t (leafNodes n s) where
  stored := BPlusTree.stored_leafNodes h.stored
  linked := by
    rw [← itemLeaves_eq_leafNodes]
    exact h.linked
  nodup := h.live.nodup.sublist (leafIds_sublist s)
  sorted := by
    rw [← itemEntries_eq_leafNodes]
    exact h.sorted

theorem leftmostLeaf_spec : ∀ {n lo d m fuel : Nat} {s : Tree Bytes Bytes n}, n < fuel →
    Stored t.getNode (n + 1) s → Sized lo d m s →
    ∃ l ls, leafNodes n s = l :: ls ∧ leftmostLeaf t fuel s.id = some (l.id, true) := by
  intro n
  induction n with
  | zero =>
      intro lo d m fuel s hfuel hs _
      obtain ⟨fuel, rfl⟩ : ∃ f, fuel = f + 1 := ⟨fuel - 1, by omega⟩
      refine ⟨s, [], rfl, ?_⟩
      have hzero : s.id ≠ 0 := Impl.ne_zero_of_getNode hs.get
      simp only [leftmostLeaf, if_neg hzero, hs.get, cell]
  | succ n ih =>
      intro lo d m fuel s hfuel hs hsize
      obtain ⟨fuel, rfl⟩ : ∃ f, fuel = f + 1 := ⟨fuel - 1, by omega⟩
      have hzero : s.id ≠ 0 := Impl.ne_zero_of_getNode hs.get
      cases hi : s.items with
      | nil =>
          have hlow := hsize.lower
          rw [hi] at hlow
          simp [slack] at hlow
      | cons c is =>
          have hc : c ∈ s.items := by rw [hi]; exact List.mem_cons_self
          obtain ⟨l, ls, hleaves, hrun⟩ := ih (show n < fuel by omega) (hs.2 c hc)
            (hsize.below c hc).sized
          refine ⟨l, ls ++ is.flatMap (leafNodes n), ?_, ?_⟩
          · rw [leafNodes_succ, hi, List.flatMap_cons, hleaves]
            rfl
          · simp only [leftmostLeaf, if_neg hzero, hs.get, cell, hi, List.map_cons, List.headD_cons]
            exact hrun

/-- The leaf of a key and the place of the key in it: from there on the chain
holds the entries not below the key. -/
theorem findLeaf_position {n : Nat} {s : Tree Bytes Bytes n} (h : BPlusTree.Represents t s)
    (key : Bytes) :
    ∃ l ls idx, t.findLeaf key = some l.id ∧ Chain t (l :: ls) ∧
      lowerBound (l.items.map Prod.fst) key t.options.comparator = idx ∧
      ahead idx (l :: ls) =
        (itemEntries (n + 1) s).filter (fun e => !decide (t.order.lt e.1 key)) := by
  have hchain := chain_leafNodes h
  obtain ⟨xs, l, ys, hleaves, hrun, hl, hsort, hx, hy⟩ := BPlusTree.findLeaf_spec h key
  rw [hleaves] at hchain
  -- the binary search cuts the leaf where the key belongs
  obtain ⟨as, bs, hes, hpos, ha, hb⟩ : ∃ as bs, l.items = as ++ bs ∧
      lowerBound (l.items.map Prod.fst) key t.options.comparator = as.length ∧
      (∀ e ∈ as, t.order.lt e.1 key) ∧ ∀ e ∈ bs, ¬ t.order.lt e.1 key := by
    rcases BPlusTree.search_leaf key hsort with
      ⟨as, v, bs, hes, hpos, -, ha, hb⟩ | ⟨as, bs, hes, hpos, -, ha, hb⟩
    · refine ⟨as, (key, v) :: bs, hes, hpos, ha, fun e he => ?_⟩
      rcases List.mem_cons.mp he with rfl | he
      · exact t.order.lt_irrefl _
      · exact t.order.lt_asymm (hb e he)
    · exact ⟨as, bs, hes, hpos, ha, fun e he => t.order.lt_asymm (hb e he)⟩
  refine ⟨l, ys, as.length, hrun, hchain.suffix, hpos, ?_⟩
  have hahead : ahead as.length (l :: ys) = bs ++ ys.flatMap Node.items := by
    rw [ahead, hes, List.drop_left]
  have hsplit : itemEntries (n + 1) s
      = (xs.flatMap Node.items ++ as) ++ (bs ++ ys.flatMap Node.items) := by
    rw [itemEntries_eq_leafNodes, hleaves, List.flatMap_append, List.flatMap_cons, hes]
    simp only [List.append_assoc]
  have hbefore : (xs.flatMap Node.items ++ as).filter (fun e => !decide (t.order.lt e.1 key))
      = [] := by
    refine List.filter_eq_nil_iff.mpr (fun e he => ?_)
    have hlt : t.order.lt e.1 key := by
      rcases List.mem_append.mp he with he | he
      · exact hx e he
      · exact ha e he
    simp [hlt]
  have hafter : (bs ++ ys.flatMap Node.items).filter (fun e => !decide (t.order.lt e.1 key))
      = bs ++ ys.flatMap Node.items := by
    refine List.filter_eq_self.mpr (fun e he => ?_)
    have hnlt : ¬ t.order.lt e.1 key := by
      rcases List.mem_append.mp he with he | he
      · exact hb e he
      · exact t.order.lt_asymm (hy e he)
    simp [hnlt]
  rw [hahead, hsplit, List.filter_append (xs.flatMap Node.items ++ as), hbefore, hafter,
    List.nil_append]

theorem belowLimit_eq (it : Iterator) (key : Bytes) :
    it.belowLimit t key = it.limit.all (fun l => decide (t.order.lt key l)) := by
  simp only [belowLimit, compareKeys_eq]
  rfl

/-- What is pending at a position whose entries ahead are known. -/
theorem pending_eq_filter {n : Nat} {s : Tree Bytes Bytes n} (h : BPlusTree.Represents t s)
    {it : Iterator} {ls : List (Tree Bytes Bytes 0)} {p : Bytes × Bytes → Bool}
    (hahead : ahead it.currentIdx ls = (itemEntries (n + 1) s).filter p) :
    pending t it ls = (itemEntries (n + 1) s).filter
      (fun e => p e && it.limit.all (fun l => decide (t.order.lt e.1 l))) := by
  have hsorted : Sorted t.order ((itemEntries (n + 1) s).filter p) :=
    h.sorted.sublist List.filter_sublist
  rw [pending, hahead, takeWhile_eq_filter (fun a b hab => belowLimit_of_lt it hab) hsorted,
    List.filter_filter]
  refine List.filter_congr (fun e _ => ?_)
  rw [belowLimit_eq, Bool.and_comm]

/-- **`FindFirst`**: from any position, to the first entry in range. -/
theorem findFirst_spec {n : Nat} {s : Tree Bytes Bytes n} (h : BPlusTree.Represents t s)
    {it : Iterator} (hstatus : it.status = .okStatus) :
    ∃ it' ls, it.findFirst t = some it' ∧ Cursor t it' ls ∧ Settled t it' ls ∧
      it'.start = it.start ∧ it'.limit = it.limit ∧
      pending t it' ls = (itemEntries (n + 1) s).filter
        (fun e => inRange t it.start it.limit e.1) := by
  obtain ⟨leafId, idx, start, limit, status⟩ := it
  simp only at hstatus
  subst hstatus
  cases start with
  | none =>
      have hchain := chain_leafNodes h
      obtain ⟨l, ls, hleaves, hrun⟩ := leftmostLeaf_spec
        (Nat.lt_succ_of_lt h.lt_fuel) h.stored h.sized
      let it₁ : Iterator := { currentLeaf := l.id, limit }
      have hahead : ahead it₁.currentIdx (l :: ls) = (itemEntries (n + 1) s).filter
          (fun _ => true) := by
        rw [show it₁.currentIdx = 0 from rfl, ahead_zero, ← hleaves, ← itemEntries_eq_leafNodes,
          List.filter_true]
      rw [hleaves] at hchain
      have hcur : Cursor t it₁ (l :: ls) := ⟨hchain, rfl, rfl⟩
      obtain ⟨it', ls', hskip, hcur', hset, hstart, hlimit, hpend⟩ :=
        skipLoop_spec hcur hchain.length_lt
      refine ⟨it', ls', ?_, hcur', hset, hstart, hlimit, hpend.trans (pending_eq_filter h hahead)⟩
      rw [← h.rootId] at hrun
      simp only [findFirst, hrun, Option.bind_eq_bind, Option.bind_some, not_true, if_false,
        hchain.leafPtr]
      exact hskip
  | some start =>
      obtain ⟨l, ls, idx, hrun, hchain, hpos, hahead⟩ := findLeaf_position h start
      let it₁ : Iterator := { currentLeaf := l.id, currentIdx := idx, start, limit }
      have hcur : Cursor t it₁ (l :: ls) := ⟨hchain, rfl, rfl⟩
      obtain ⟨it', ls', hskip, hcur', hset, hstart, hlimit, hpend⟩ :=
        skipLoop_spec hcur hchain.length_lt
      refine ⟨it', ls', ?_, hcur', hset, hstart, hlimit,
        hpend.trans (@pending_eq_filter t n s h it₁ _ _ hahead)⟩
      simp only [findFirst, hrun, Option.map_some, Option.bind_eq_bind, Option.bind_some,
        not_true, if_false, hchain.leafPtr, hpos]
      exact hskip

/-! ## §6. Range scans of reachable trees. -/

/-- From any position, the loop after `FindFirst` shows the entries in range. -/
theorem scan_findFirst {n : Nat} {s : Tree Bytes Bytes n} (h : BPlusTree.Represents t s)
    (it : Iterator) (hstatus : it.status = .okStatus) :
    ∃ it', it.findFirst t = some it' ∧ scan t (t.size + 1) it'
      = some (((itemEntries (n + 1) s).filter
          (fun e => inRange t it.start it.limit e.1)).map
          (fun e => (.okStatus, e)), .okStatus) := by
  obtain ⟨it', ls, hfind, hcur, hset, -, -, hpend⟩ := findFirst_spec h hstatus
  refine ⟨it', hfind, scan_spec hcur hset hpend (Nat.lt_succ_of_le ?_)⟩
  rw [h.size]
  exact List.length_filter_le _ _

/-- **A range scan of a reachable tree shows exactly the bindings in
`[start, limit)`**, in ascending order, each once, with status OK in every
round; starting over with `SeekToFirst` from any position shows them again. -/
theorem scan_range (options : BTreeOptions) (ops : List TreeOp) (start limit : Option Bytes) :
    ∃ t outs es, run? BPlusTree.apply (BPlusTree.new options) ops = some (outs, t) ∧
      Sorted (keyOrder options.comparator) es ∧
      (∀ key value, (key, value) ∈ es ↔
        (runAll RefMap.apply RefMap.empty ops).2 key = some value ∧
        (∀ s ∈ start, ¬ (keyOrder options.comparator).lt key s) ∧
        ∀ l ∈ limit, (keyOrder options.comparator).lt key l) ∧
      (∃ it, Iterator.new t start limit = some it ∧ scan t (t.size + 1) it
        = some (es.map (fun e => (.okStatus, e)), .okStatus)) ∧
      ∀ leafId idx, ∃ it, seekToFirst t ⟨leafId, idx, start, limit, .okStatus⟩ = some it ∧
        scan t (t.size + 1) it = some (es.map (fun e => (.okStatus, e)), .okStatus) := by
  obtain ⟨t, hrun, n, s, hrep, hoptions, hfind⟩ := BPlusTree.runs_model options ops
  have hopt : t.options.comparator = options.comparator := by
    rw [hoptions, BPlusTree.new_comparator]
  let es := (itemEntries (n + 1) s).filter (fun e => inRange t start limit e.1)
  refine ⟨t, _, es, hrun, ?_, ?_, ?_, ?_⟩
  · rw [← hopt]
    exact hrep.sorted.sublist List.filter_sublist
  · intro key value
    rw [List.mem_filter, ← find_eq_some_iff hrep.sorted, hfind, ← hopt]
    refine and_congr Iff.rfl ?_
    simp [inRange, Option.all_eq_true]
  · obtain ⟨it, hfirst, hscan⟩ := scan_findFirst hrep ⟨0, 0, start, limit, .okStatus⟩ rfl
    exact ⟨it, hfirst, hscan⟩
  · intro leafId idx
    obtain ⟨it, hfirst, hscan⟩ := scan_findFirst hrep ⟨leafId, idx, start, limit, .okStatus⟩ rfl
    exact ⟨it, hfirst, hscan⟩

end Iterator

end KvEngine
