/-
  KvEngine.Lib.SortedEntries
  ──────────────────────────
  **Sorted association lists as finite maps.**

  A list of `(key, value)` pairs with strictly increasing keys stands for the
  partial function `find`.  The file gives the three map operations on such
  lists and, for each, what it does to the function:

    * `find_insertEntry` — insertion is `Function.update … (some v)`,
    * `find_eraseEntry`  — removal is `Function.update … none`,
    * `encard_find`      — the number of keys bound is the length.

  A sorted container built of smaller ones edits one piece at a time; the
  `_window` lemmas move an edit from the whole list to the piece that holds
  the key.
-/
import Mathlib.Data.Set.Card
import KvEngine.Lib.Comparison

namespace KvEngine.Lib

variable {K V : Type} (c : TotalCompare K)

/-! ## §1. Sortedness and lookup. -/

/-- Keys strictly increasing. -/
def Sorted (es : List (K × V)) : Prop :=
  es.Pairwise (fun a b => c.lt a.1 b.1)

/-- The value bound to `k`, if any. -/
def find (es : List (K × V)) (k : K) : Option V :=
  (es.find? (fun e => decide (c.compare e.1 k = 0))).map Prod.snd

variable {c}

theorem sorted_append {xs ys : List (K × V)} :
    Sorted c (xs ++ ys) ↔
      Sorted c xs ∧ Sorted c ys ∧ ∀ x ∈ xs, ∀ y ∈ ys, c.lt x.1 y.1 := by
  simp only [Sorted, List.pairwise_append]

theorem sorted_cons {x : K × V} {xs : List (K × V)} :
    Sorted c (x :: xs) ↔ (∀ y ∈ xs, c.lt x.1 y.1) ∧ Sorted c xs := by
  simp only [Sorted, List.pairwise_cons]

theorem Sorted.sublist {xs ys : List (K × V)} (h : Sorted c ys) (hs : xs.Sublist ys) :
    Sorted c xs :=
  List.Pairwise.sublist hs h

theorem Sorted.keys_pairwise {es : List (K × V)} (h : Sorted c es) :
    (es.map Prod.fst).Pairwise c.lt :=
  List.pairwise_map.mpr h

theorem find_eq_none_iff {es : List (K × V)} {k : K} :
    find c es k = none ↔ ∀ e ∈ es, e.1 ≠ k := by
  simp [find, List.find?_eq_none, c.compare_eq_zero_iff]

theorem mem_of_find_eq_some {es : List (K × V)} {k : K} {v : V}
    (h : find c es k = some v) : (k, v) ∈ es := by
  unfold find at h
  obtain ⟨⟨k', v'⟩, hf, rfl⟩ := Option.map_eq_some_iff.mp h
  have hk : k' = k := by
    have := List.find?_some hf
    simpa [c.compare_eq_zero_iff] using this
  exact hk ▸ List.mem_of_find?_eq_some hf

/-- A sorted list binds each key once. -/
theorem Sorted.eq_of_key_eq {es : List (K × V)} (hs : Sorted c es) {k : K} {v w : V}
    (hv : (k, v) ∈ es) (hw : (k, w) ∈ es) : v = w := by
  induction es with
  | nil => exact absurd hv (by simp)
  | cons e es ih =>
      obtain ⟨he, hes⟩ := sorted_cons.mp hs
      rcases List.mem_cons.mp hv with rfl | hv'
      · rcases List.mem_cons.mp hw with hw' | hw'
        · exact (Prod.mk.inj hw').2.symm
        · exact absurd (he (k, w) hw') (c.lt_irrefl k)
      · rcases List.mem_cons.mp hw with rfl | hw'
        · exact absurd (he (k, v) hv') (c.lt_irrefl k)
        · exact ih hes hv' hw'

theorem find_eq_some_iff {es : List (K × V)} (hs : Sorted c es) {k : K} {v : V} :
    find c es k = some v ↔ (k, v) ∈ es := by
  constructor
  · exact mem_of_find_eq_some
  · intro hmem
    cases hf : find c es k with
    | none => exact absurd rfl (find_eq_none_iff.mp hf _ hmem)
    | some w => rw [hs.eq_of_key_eq (mem_of_find_eq_some hf) hmem]

/-- A key is bound where the order puts it. -/
theorem find_window {k : K} {xs ys zs : List (K × V)} (hx : ∀ e ∈ xs, c.lt e.1 k)
    (hz : ∀ e ∈ zs, c.lt k e.1) : find c (xs ++ ys ++ zs) k = find c ys k := by
  have hx' : xs.find? (fun e => decide (c.compare e.1 k = 0)) = none := by
    simp only [List.find?_eq_none, c.compare_eq_zero_iff, decide_eq_true_eq]
    exact fun e he => c.ne_of_lt (hx e he)
  have hz' : zs.find? (fun e => decide (c.compare e.1 k = 0)) = none := by
    simp only [List.find?_eq_none, c.compare_eq_zero_iff, decide_eq_true_eq]
    exact fun e he => (c.ne_of_lt (hz e he)).symm
  simp only [find, List.find?_append, hx', hz', Option.none_or, Option.or_none]

/-- Nothing is bound between smaller and larger keys. -/
theorem find_between {k : K} {xs ys : List (K × V)} (hx : ∀ e ∈ xs, c.lt e.1 k)
    (hy : ∀ e ∈ ys, c.lt k e.1) : find c (xs ++ ys) k = none := by
  rw [← List.append_nil xs, find_window hx hy]
  rfl

theorem Sorted.find_middle {k : K} {v : V} {xs ys : List (K × V)}
    (hs : Sorted c (xs ++ (k, v) :: ys)) : find c (xs ++ (k, v) :: ys) k = some v :=
  (find_eq_some_iff hs).mpr (List.mem_append_right _ List.mem_cons_self)

/-- As many keys are bound as the list is long. -/
theorem encard_find {es : List (K × V)} (hs : Sorted c es) :
    {k | find c es k ≠ none}.encard = es.length := by
  have hset : {k | find c es k ≠ none} = {k | k ∈ es.map Prod.fst} := by
    ext k
    simp only [Set.mem_ofPred_eq, ne_eq, find_eq_none_iff, not_forall, not_not, List.mem_map]
    constructor
    · rintro ⟨e, he, rfl⟩
      exact ⟨e, he, rfl⟩
    · rintro ⟨e, he, rfl⟩
      exact ⟨e, he, rfl⟩
  have hnd : (es.map Prod.fst).Nodup :=
    hs.keys_pairwise.imp (fun h => c.ne_of_lt h)
  classical
  rw [hset, ← List.coe_toFinset, Set.encard_coe_eq_coe_finsetCard,
    List.toFinset_card_of_nodup hnd, List.length_map]

/-! ## §2. Insertion. -/

variable (c)

/-- Bind `k` to `v`, in place or at the position the order gives it. -/
def insertEntry (k : K) (v : V) : List (K × V) → List (K × V)
  | [] => [(k, v)]
  | e :: es =>
      if c.lt e.1 k then e :: insertEntry k v es
      else if c.lt k e.1 then (k, v) :: e :: es
      else (k, v) :: es

variable {c}

theorem insertEntry_append_left {k : K} {v : V} {xs : List (K × V)} (ys : List (K × V))
    (hx : ∀ e ∈ xs, c.lt e.1 k) :
    insertEntry c k v (xs ++ ys) = xs ++ insertEntry c k v ys := by
  induction xs with
  | nil => rfl
  | cons e xs ih =>
      have he : c.lt e.1 k := hx e List.mem_cons_self
      simp only [List.cons_append, insertEntry, if_pos he]
      rw [ih (fun x h => hx x (List.mem_cons_of_mem _ h))]

theorem insertEntry_of_lt {k : K} {v : V} {ys : List (K × V)}
    (hy : ∀ e ∈ ys, c.lt k e.1) : insertEntry c k v ys = (k, v) :: ys := by
  cases ys with
  | nil => rfl
  | cons e ys =>
      have he : c.lt k e.1 := hy e List.mem_cons_self
      simp only [insertEntry, if_neg (c.lt_asymm he), if_pos he]

theorem insertEntry_append_right {k : K} {v : V} (xs : List (K × V)) {ys : List (K × V)}
    (hy : ∀ e ∈ ys, c.lt k e.1) :
    insertEntry c k v (xs ++ ys) = insertEntry c k v xs ++ ys := by
  induction xs with
  | nil => rw [List.nil_append, insertEntry_of_lt hy]; rfl
  | cons e xs ih =>
      simp only [List.cons_append, insertEntry]
      split
      · rw [ih, List.cons_append]
      · split <;> rfl

/-- Only the piece between the smaller and the larger keys changes. -/
theorem insertEntry_window {k : K} {v : V} {xs ys zs : List (K × V)}
    (hx : ∀ e ∈ xs, c.lt e.1 k) (hz : ∀ e ∈ zs, c.lt k e.1) :
    insertEntry c k v (xs ++ ys ++ zs) = xs ++ insertEntry c k v ys ++ zs := by
  rw [insertEntry_append_right _ hz, insertEntry_append_left _ hx]

/-- An absent key lands at the cut. -/
theorem insertEntry_absent {k : K} {v : V} {xs ys : List (K × V)}
    (hx : ∀ e ∈ xs, c.lt e.1 k) (hy : ∀ e ∈ ys, c.lt k e.1) :
    insertEntry c k v (xs ++ ys) = xs ++ (k, v) :: ys := by
  rw [insertEntry_append_left _ hx, insertEntry_of_lt hy]

/-- A present key keeps its place and takes the new value. -/
theorem insertEntry_present {k : K} {v w : V} {xs ys : List (K × V)}
    (hx : ∀ e ∈ xs, c.lt e.1 k) :
    insertEntry c k v (xs ++ (k, w) :: ys) = xs ++ (k, v) :: ys := by
  rw [insertEntry_append_left _ hx]
  simp [insertEntry, c.lt_irrefl]

/-- Inserting at or after the first key keeps the first key. -/
theorem head_insertEntry {k a : K} (v w : V) (es : List (K × V)) (h : ¬ c.lt k a) :
    ∃ x fs, insertEntry c k v ((a, w) :: es) = (a, x) :: fs := by
  simp only [insertEntry, if_neg h]
  split
  · exact ⟨_, _, rfl⟩
  next hnlt =>
    rw [c.eq_of_not_lt hnlt h]
    exact ⟨_, _, rfl⟩

theorem mem_insertEntry {k : K} {v : V} {es : List (K × V)} (hs : Sorted c es) (e : K × V) :
    e ∈ insertEntry c k v es ↔ e = (k, v) ∨ (e ∈ es ∧ e.1 ≠ k) := by
  induction es with
  | nil => simp [insertEntry]
  | cons d es ih =>
      obtain ⟨hd, hes⟩ := sorted_cons.mp hs
      simp only [insertEntry]
      split
      next hlt =>
        rw [List.mem_cons, ih hes, List.mem_cons]
        constructor
        · rintro (rfl | rfl | ⟨h, hne⟩)
          · exact Or.inr ⟨Or.inl rfl, c.ne_of_lt hlt⟩
          · exact Or.inl rfl
          · exact Or.inr ⟨Or.inr h, hne⟩
        · rintro (rfl | ⟨rfl | h, hne⟩)
          · exact Or.inr (Or.inl rfl)
          · exact Or.inl rfl
          · exact Or.inr (Or.inr ⟨h, hne⟩)
      next hnlt =>
        split
        next hgt =>
          -- every old entry is above `k`
          have habove : ∀ x ∈ d :: es, x.1 ≠ k := by
            intro x hx
            rcases List.mem_cons.mp hx with rfl | hx
            · exact (c.ne_of_lt hgt).symm
            · exact (c.ne_of_lt (c.lt_trans hgt (hd x hx))).symm
          rw [List.mem_cons]
          exact or_congr Iff.rfl ⟨fun h => ⟨h, habove e h⟩, And.left⟩
        next hngt =>
          have hk : d.1 = k := c.eq_of_not_lt hnlt hngt
          rw [List.mem_cons, List.mem_cons]
          constructor
          · rintro (rfl | h)
            · exact Or.inl rfl
            · exact Or.inr ⟨Or.inr h, fun h' => c.ne_of_lt (hd e h) (hk.trans h'.symm)⟩
          · rintro (rfl | ⟨rfl | h, hne⟩)
            · exact Or.inl rfl
            · exact absurd hk hne
            · exact Or.inr h

theorem sorted_insertEntry {k : K} {v : V} {es : List (K × V)} (hs : Sorted c es) :
    Sorted c (insertEntry c k v es) := by
  induction es with
  | nil => simp [insertEntry, Sorted]
  | cons d es ih =>
      obtain ⟨hd, hes⟩ := sorted_cons.mp hs
      simp only [insertEntry]
      split
      next hlt =>
        refine sorted_cons.mpr ⟨?_, ih hes⟩
        intro y hy
        rcases (mem_insertEntry hes y).mp hy with rfl | ⟨hy, _⟩
        · exact hlt
        · exact hd y hy
      next hnlt =>
        split
        next hgt =>
          refine sorted_cons.mpr ⟨?_, hs⟩
          intro y hy
          rcases List.mem_cons.mp hy with rfl | hy
          · exact hgt
          · exact c.lt_trans hgt (hd y hy)
        next hngt =>
          have hk : d.1 = k := c.eq_of_not_lt hnlt hngt
          exact sorted_cons.mpr ⟨fun y hy => hk ▸ hd y hy, hes⟩

/-- **Insertion updates the map at `k`.** -/
theorem find_insertEntry [DecidableEq K] {k : K} {v : V} {es : List (K × V)}
    (hs : Sorted c es) :
    find c (insertEntry c k v es) = Function.update (find c es) k (some v) := by
  funext k'
  apply Option.ext
  intro w
  rw [find_eq_some_iff (sorted_insertEntry hs), mem_insertEntry hs]
  by_cases hk : k' = k
  · subst hk
    simp [eq_comm]
  · rw [Function.update_of_ne hk, find_eq_some_iff hs]
    simp [hk]

theorem length_insertEntry {k : K} {v : V} {es : List (K × V)} (hs : Sorted c es) :
    (insertEntry c k v es).length
      = if find c es k = none then es.length + 1 else es.length := by
  induction es with
  | nil => rfl
  | cons d es ih =>
      obtain ⟨hd, hes⟩ := sorted_cons.mp hs
      -- Below the first key there is no entry.
      have habsent : c.lt k d.1 → find c (d :: es) k = none := by
        intro hgt
        rw [find_eq_none_iff]
        intro x hx
        rcases List.mem_cons.mp hx with rfl | hx
        · exact (c.ne_of_lt hgt).symm
        · exact (c.ne_of_lt (c.lt_trans hgt (hd x hx))).symm
      simp only [insertEntry]
      split
      next hlt =>
        have hiff : find c (d :: es) k = none ↔ find c es k = none := by
          simp [find_eq_none_iff, c.ne_of_lt hlt]
        simp only [List.length_cons, ih hes, hiff]
        split <;> rfl
      next hnlt =>
        split
        next hgt => rw [if_pos (habsent hgt)]; rfl
        next hngt =>
          have hk : d.1 = k := c.eq_of_not_lt hnlt hngt
          rw [if_neg (fun h => find_eq_none_iff.mp h d List.mem_cons_self hk)]
          rfl

/-- A sum over the entries: the new one counts, and the one it replaces does not. -/
theorem sum_insertEntry (g : K × V → Nat) {k : K} {v : V} {es : List (K × V)}
    (hs : Sorted c es) :
    ((insertEntry c k v es).map g).sum + (find c es k).elim 0 (fun w => g (k, w))
      = (es.map g).sum + g (k, v) := by
  induction es with
  | nil => simp [insertEntry, find]
  | cons d es ih =>
      obtain ⟨hd, hes⟩ := sorted_cons.mp hs
      simp only [insertEntry]
      split
      next hlt =>
        have hfind : find c (d :: es) k = find c es k := by
          unfold find
          rw [List.find?_cons_of_neg (by simpa [c.compare_eq_zero_iff] using c.ne_of_lt hlt)]
        have htail := ih hes
        rw [hfind, List.map_cons, List.map_cons, List.sum_cons, List.sum_cons]
        omega
      next hnlt =>
        split
        next hgt =>
          have hfind : find c (d :: es) k = none := by
            rw [← List.nil_append (d :: es)]
            refine find_between (by simp) (fun y hy => ?_)
            rcases List.mem_cons.mp hy with rfl | hy
            · exact hgt
            · exact c.lt_trans hgt (hd y hy)
          rw [hfind, List.map_cons, List.sum_cons]
          simp only [Option.elim_none]
          omega
        next hngt =>
          have hk : d.1 = k := c.eq_of_not_lt hnlt hngt
          have hfind : find c (d :: es) k = some d.2 := by
            subst hk
            exact (find_eq_some_iff hs).mpr List.mem_cons_self
          rw [hfind, List.map_cons, List.map_cons, List.sum_cons, List.sum_cons, Option.elim_some,
            show (k, d.2) = d from by rw [← hk]]
          omega

/-! ## §3. Removal. -/

variable (c)

/-- Unbind `k`. -/
def eraseEntry (k : K) (es : List (K × V)) : List (K × V) :=
  es.filter (fun e => decide (c.compare e.1 k ≠ 0))

variable {c}

theorem mem_eraseEntry {k : K} {es : List (K × V)} {e : K × V} :
    e ∈ eraseEntry c k es ↔ e ∈ es ∧ e.1 ≠ k := by
  simp [eraseEntry, c.compare_eq_zero_iff]

theorem eraseEntry_of_absent {k : K} {es : List (K × V)} (h : ∀ e ∈ es, e.1 ≠ k) :
    eraseEntry c k es = es := by
  unfold eraseEntry
  rw [List.filter_eq_self]
  intro e he
  simpa [c.compare_eq_zero_iff] using h e he

theorem eraseEntry_append (k : K) (xs ys : List (K × V)) :
    eraseEntry c k (xs ++ ys) = eraseEntry c k xs ++ eraseEntry c k ys :=
  List.filter_append ..

theorem eraseEntry_window {k : K} {xs ys zs : List (K × V)}
    (hx : ∀ e ∈ xs, c.lt e.1 k) (hz : ∀ e ∈ zs, c.lt k e.1) :
    eraseEntry c k (xs ++ ys ++ zs) = xs ++ eraseEntry c k ys ++ zs := by
  rw [eraseEntry_append, eraseEntry_append,
    eraseEntry_of_absent (fun e he => c.ne_of_lt (hx e he)),
    eraseEntry_of_absent (fun e he => (c.ne_of_lt (hz e he)).symm)]

/-- A present key leaves the cut. -/
theorem eraseEntry_present {k : K} {w : V} {xs ys : List (K × V)}
    (hx : ∀ e ∈ xs, c.lt e.1 k) (hy : ∀ e ∈ ys, c.lt k e.1) :
    eraseEntry c k (xs ++ (k, w) :: ys) = xs ++ ys := by
  have h : eraseEntry c k (xs ++ [(k, w)] ++ ys) = xs ++ eraseEntry c k [(k, w)] ++ ys :=
    eraseEntry_window hx hy
  have hmid : eraseEntry c k [(k, w)] = [] := by
    simp [eraseEntry, c.compare_self]
  rw [hmid] at h
  simpa using h

theorem length_eraseEntry {k : K} {es : List (K × V)} (hs : Sorted c es)
    (h : find c es k ≠ none) : (eraseEntry c k es).length + 1 = es.length := by
  obtain ⟨v, hv⟩ := Option.ne_none_iff_exists'.mp h
  obtain ⟨xs, ys, rfl⟩ := List.append_of_mem (mem_of_find_eq_some hv)
  obtain ⟨_, hys, hxy⟩ := sorted_append.mp hs
  rw [eraseEntry_present (fun x hx => hxy x hx (k, v) List.mem_cons_self) (sorted_cons.mp hys).1]
  simp only [List.length_append, List.length_cons]
  omega

theorem sorted_eraseEntry {k : K} {es : List (K × V)} (hs : Sorted c es) :
    Sorted c (eraseEntry c k es) :=
  hs.sublist List.filter_sublist

/-- **Removal clears the map at `k`.** -/
theorem find_eraseEntry [DecidableEq K] {k : K} {es : List (K × V)} (hs : Sorted c es) :
    find c (eraseEntry c k es) = Function.update (find c es) k none := by
  funext k'
  apply Option.ext
  intro w
  rw [find_eq_some_iff (sorted_eraseEntry hs), mem_eraseEntry]
  by_cases hk : k' = k
  · subst hk
    simp
  · rw [Function.update_of_ne hk, find_eq_some_iff hs]
    simp [hk]

end KvEngine.Lib
