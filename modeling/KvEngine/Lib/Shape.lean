/-
  KvEngine.Lib.Shape
  ──────────────────
  **B+ tree shapes: the values a B+ tree in a node store stands for.**

  `Tree K V n` is a tree of `n + 1` levels; its depth is part of its type, so
  "all leaves are equally deep" holds by construction.  A node has an id, the
  id of the next leaf (leaves only) and a list of items, which are bindings
  in a leaf and the nodes one level below in an internal node.  Moving items
  between neighbours, splitting and joining nodes are therefore the same
  list operations on every level.

  Over a shape: its bindings in key order (`itemEntries`), the smallest key
  under an item (`itemKey`), the ids it uses (`itemIds`), its leaves in order
  with their links (`itemLeaves`, `Linked`), and the occupancy bounds
  (`Filled`).  The main results are `route_spec`, where a search by the first
  keys of the children ends, and `length_entries_ge`, how many bindings a
  tree of given height must hold.
-/
import KvEngine.Lib.SortedEntries

namespace KvEngine.Lib

variable {K V : Type}

/-! ## §1. Shapes. -/

/-- A node with its items. -/
structure Node (I : Type) where
  id : Nat
  next : Nat
  items : List I

/-- Items of level 0 are bindings, items of level `n + 1` are nodes over
items of level `n`. -/
@[reducible] def Item (K V : Type) : Nat → Type
  | 0 => K × V
  | n + 1 => Node (Item K V n)

/-- A tree of `n + 1` levels; a leaf for `n = 0`. -/
abbrev Tree (K V : Type) (n : Nat) : Type := Node (Item K V n)

/-- The bindings under an item, from left to right. -/
def itemEntries : (n : Nat) → Item K V n → List (K × V)
  | 0, e => [e]
  | n + 1, t => (t : Node _).items.flatMap (itemEntries n)

/-- The key found by always taking the first item. -/
def itemKey [Inhabited K] : (n : Nat) → Item K V n → K
  | 0, e => e.1
  | n + 1, t =>
      match (t : Node _).items with
      | [] => default
      | i :: _ => itemKey n i

/-- The ids of all nodes under an item. -/
def itemIds : (n : Nat) → Item K V n → List Nat
  | 0, _ => []
  | n + 1, t => (t : Node _).id :: (t : Node _).items.flatMap (itemIds n)

/-- The leaves under an item from left to right, with their links. -/
def itemLeaves : (n : Nat) → Item K V n → List (Nat × Nat)
  | 0, _ => []
  | 1, t => [((t : Node _).id, (t : Node _).next)]
  | n + 2, t => (t : Node _).items.flatMap (itemLeaves (n + 1))

/-- The leaves themselves. -/
def leafNodes : (n : Nat) → Tree K V n → List (Tree K V 0)
  | 0, t => [t]
  | n + 1, t => t.items.flatMap (leafNodes n)

/-- An internal node has one item more than keys. -/
def slack : Nat → Nat
  | 0 => 0
  | _ + 1 => 1

/-- Every node under the item holds between `d` and `m` keys. -/
def Filled (d m : Nat) : (n : Nat) → Item K V n → Prop
  | 0, _ => True
  | n + 1, t =>
      d + slack n ≤ (t : Node _).items.length ∧ (t : Node _).items.length ≤ m + slack n
        ∧ ∀ i ∈ (t : Node _).items, Filled d m n i

/-- A node that itself holds between `lo` and `m` keys, over filled items. -/
structure Sized (lo d m : Nat) {n : Nat} (t : Tree K V n) : Prop where
  lower : lo + slack n ≤ t.items.length
  upper : t.items.length ≤ m + slack n
  below : ∀ i ∈ t.items, Filled d m n i

theorem Sized.filled {d m n : Nat} {t : Tree K V n} (h : Sized d d m t) :
    Filled d m (n + 1) t :=
  ⟨h.lower, h.upper, h.below⟩

theorem Filled.sized {d m n : Nat} {t : Tree K V n} (h : Filled d m (n + 1) t) :
    Sized d d m t :=
  ⟨h.1, h.2.1, h.2.2⟩

theorem Sized.weaken {lo lo' d m n : Nat} {t : Tree K V n} (h : Sized lo d m t)
    (hlo : lo' ≤ lo) : Sized lo' d m t :=
  ⟨Nat.le_trans (Nat.add_le_add_right hlo _) h.lower, h.upper, h.below⟩

theorem itemEntries_succ (n : Nat) (t : Tree K V n) :
    itemEntries (n + 1) t = t.items.flatMap (itemEntries n) := rfl

theorem itemIds_succ (n : Nat) (t : Tree K V n) :
    itemIds (n + 1) t = t.id :: t.items.flatMap (itemIds n) := rfl

theorem id_mem_itemIds (n : Nat) (t : Tree K V n) : t.id ∈ itemIds (n + 1) t :=
  List.mem_cons_self

theorem itemLeaves_leaf (t : Tree K V 0) : itemLeaves 1 t = [(t.id, t.next)] := rfl

theorem itemLeaves_succ (n : Nat) (t : Tree K V (n + 1)) :
    itemLeaves (n + 2) t = t.items.flatMap (itemLeaves (n + 1)) := rfl

theorem flatMap_itemEntries_zero (es : List (Item K V 0)) :
    es.flatMap (itemEntries 0) = es := by
  induction es with
  | nil => rfl
  | cons e es ih =>
      rw [List.flatMap_cons, ih]
      rfl

theorem flatMap_itemIds_zero (es : List (Item K V 0)) : es.flatMap (itemIds 0) = [] := by
  induction es with
  | nil => rfl
  | cons e es ih =>
      rw [List.flatMap_cons, ih]
      rfl

theorem itemEntries_leaf (t : Tree K V 0) : itemEntries 1 t = t.items :=
  flatMap_itemEntries_zero t.items

theorem itemIds_leaf (t : Tree K V 0) : itemIds 1 t = [t.id] := by
  rw [itemIds_succ, flatMap_itemIds_zero]

theorem leafNodes_succ (n : Nat) (t : Tree K V (n + 1)) :
    leafNodes (n + 1) t = t.items.flatMap (leafNodes n) := rfl

/-- The bindings of a tree are those of its leaves. -/
theorem itemEntries_eq_leafNodes :
    ∀ {n : Nat} (t : Tree K V n), itemEntries (n + 1) t = (leafNodes n t).flatMap Node.items := by
  intro n
  induction n with
  | zero => intro t; rw [itemEntries_leaf, leafNodes, List.flatMap_singleton]
  | succ n ih =>
      intro t
      rw [itemEntries_succ, leafNodes_succ, List.flatMap_assoc]
      exact List.flatMap_congr (fun i _ => ih i)

theorem itemLeaves_eq_leafNodes :
    ∀ {n : Nat} (t : Tree K V n),
      itemLeaves (n + 1) t = (leafNodes n t).map (fun l => (l.id, l.next)) := by
  intro n
  induction n with
  | zero => intro t; rfl
  | succ n ih =>
      intro t
      rw [itemLeaves_succ, leafNodes_succ, List.map_flatMap]
      exact List.flatMap_congr (fun i _ => ih i)

/-! ## §2. First keys. -/

section Keys

variable [Inhabited K]

/-- An item that has bindings, the first of them under `itemKey`. -/
def Headed (n : Nat) (i : Item K V n) : Prop :=
  ∃ v es, itemEntries n i = (itemKey n i, v) :: es

theorem itemKey_cons {n : Nat} {t : Tree K V n} {i : Item K V n} {is : List (Item K V n)}
    (h : t.items = i :: is) : itemKey (n + 1) t = itemKey n i := by
  simp only [itemKey, h]

theorem headed_zero (e : Item K V 0) : Headed 0 e :=
  ⟨(e : K × V).2, [], rfl⟩

theorem headed_of_items {n : Nat} {t : Tree K V n} (hne : t.items ≠ [])
    (h : ∀ i ∈ t.items, Headed n i) : Headed (n + 1) t := by
  cases hi : t.items with
  | nil => exact absurd hi hne
  | cons i is =>
      obtain ⟨v, es, he⟩ := h i (by rw [hi]; exact List.mem_cons_self)
      refine ⟨v, es ++ is.flatMap (itemEntries n), ?_⟩
      rw [itemEntries_succ, hi, List.flatMap_cons, he, itemKey_cons hi]
      rfl

/-- Filled items with a positive lower bound have bindings. -/
theorem Filled.headed {d m : Nat} (hd : 1 ≤ d) :
    ∀ {n : Nat} {i : Item K V n}, Filled d m n i → Headed n i := by
  intro n
  induction n with
  | zero => intro i _; exact headed_zero i
  | succ n ih =>
      intro t h
      refine headed_of_items ?_ (fun i hi => ih (h.2.2 i hi))
      intro hnil
      have := h.1
      rw [hnil, List.length_nil] at this
      omega

theorem Headed.key_mem {n : Nat} {i : Item K V n} (h : Headed n i) :
    ∃ v, (itemKey n i, v) ∈ itemEntries n i := by
  obtain ⟨v, es, he⟩ := h
  exact ⟨v, by rw [he]; exact List.mem_cons_self⟩

end Keys

/-! ## §3. Routing by first keys. -/

section Lists

variable {α β : Type}

/-- Dropping the first of a nonempty list that ends in `p`, then `ys`. -/
theorem tail_append_cons (xs : List α) (p : α) (ys : List α) :
    (xs ++ p :: ys).tail = (xs ++ [p]).tail ++ ys := by
  cases xs <;> simp

theorem length_tail_append_singleton (xs : List α) (p : α) :
    (xs ++ [p]).tail.length = xs.length := by
  cases xs <;> simp

/-- The values after the first do not depend on an element that comes first. -/
theorem map_tail_congr {f : α → β} {xs : List α} {p q : α} (h : xs ≠ [] → f p = f q) :
    (xs ++ [p]).tail.map f = (xs ++ [q]).tail.map f := by
  cases xs with
  | nil => rfl
  | cons x xs => simp [h (by simp)]

/-- The values after the first do not see an element replaced by one of the
same value, nor a change of the first element. -/
theorem map_tail_replace {f : α → β} {xs ys : List α} {p q : α} (h : xs ≠ [] → f p = f q) :
    (xs ++ p :: ys).tail.map f = (xs ++ q :: ys).tail.map f := by
  rw [tail_append_cons xs p, tail_append_cons xs q, List.map_append, List.map_append,
    map_tail_congr h]

theorem take_tail (xs : List α) (i : Nat) : xs.tail.take i = (xs.take (i + 1)).tail := by
  cases xs <;> simp

theorem drop_tail (xs : List α) (i : Nat) : xs.tail.drop i = (xs.drop i).tail := by
  rw [List.tail_drop, ← List.drop_one, List.drop_drop, Nat.add_comm]

end Lists

section Route

variable [Inhabited K] {c : TotalCompare K} {n : Nat}

/-- The keys of the items of a sorted list increase. -/
theorem pairwise_itemKey {items : List (Item K V n)} (hh : ∀ i ∈ items, Headed n i)
    (hs : Sorted c (items.flatMap (itemEntries n))) :
    items.Pairwise (fun i j => c.lt (itemKey n i) (itemKey n j)) := by
  induction items with
  | nil => exact List.Pairwise.nil
  | cons i is ih =>
      rw [List.flatMap_cons, sorted_append] at hs
      obtain ⟨_, his, hlt⟩ := hs
      refine List.pairwise_cons.mpr ⟨?_, ih (fun j hj => hh j (List.mem_cons_of_mem _ hj)) his⟩
      intro j hj
      obtain ⟨v, es, he⟩ := hh i List.mem_cons_self
      obtain ⟨w, fs, hf⟩ := hh j (List.mem_cons_of_mem _ hj)
      refine hlt (itemKey n i, v) ?_ (itemKey n j, w) (List.mem_flatMap.mpr ⟨j, hj, ?_⟩)
      · rw [he]
        exact List.mem_cons_self
      · rw [hf]
        exact List.mem_cons_self

/-- No binding under an item is below the item's key. -/
theorem not_lt_itemKey {i : Item K V n} (hi : Headed n i) (hs : Sorted c (itemEntries n i)) :
    ∀ e ∈ itemEntries n i, ¬ c.lt e.1 (itemKey n i) := by
  obtain ⟨v, es, he⟩ := hi
  rw [he] at hs
  intro e hmem
  rw [he] at hmem
  rcases List.mem_cons.mp hmem with rfl | hmem
  · exact c.lt_irrefl _
  · exact c.lt_asymm ((sorted_cons.mp hs).1 e hmem)

/-- **Routing**: the number of first keys not above `k`, not counting the
first item, is the number of items before the one that `k` belongs to;
everything in earlier items is below `k` and everything in later ones above. -/
theorem route_spec {items : List (Item K V n)} (hne : items ≠ [])
    (hh : ∀ i ∈ items, Headed n i) (hs : Sorted c (items.flatMap (itemEntries n))) (k : K) :
    ∃ xs i ys, items = xs ++ i :: ys ∧
      bisect (fun q => decide (c.compare q k ≤ 0)) (items.tail.map (itemKey n)) = xs.length ∧
      (∀ e ∈ xs.flatMap (itemEntries n), c.lt e.1 k) ∧
      (∀ e ∈ ys.flatMap (itemEntries n), c.lt k e.1) ∧
      (xs ≠ [] → ¬ c.lt k (itemKey n i)) := by
  cases items with
  | nil => exact absurd rfl hne
  | cons i₀ rest =>
      -- first keys increase, so those not above `k` are a prefix
      obtain ⟨as, bs, rfl, ha, hb⟩ := exists_prefix_of_pairwise
        (fun q => decide (c.compare (itemKey n q) k ≤ 0))
        (fun a b hab hr => by
          simp only [decide_eq_true_eq, c.compare_nonpos_iff] at hr ⊢
          exact fun h => hr (c.lt_trans h hab))
        rest (List.pairwise_cons.mp (pairwise_itemKey hh hs)).2
      simp only [decide_eq_true_eq, decide_eq_false_iff_not, c.compare_nonpos_iff, not_not]
        at ha hb
      have hbis : bisect (fun q => decide (c.compare q k ≤ 0)) ((as ++ bs).map (itemKey n))
          = as.length := by
        rw [List.map_append, bisect_append, List.length_map]
        · intro y hy
          obtain ⟨a, ha', rfl⟩ := List.mem_map.mp hy
          simpa [c.compare_nonpos_iff] using ha a ha'
        · intro z hz
          obtain ⟨b, hb', rfl⟩ := List.mem_map.mp hz
          simpa [c.compare_nonpos_iff] using hb b hb'
      have habove : ∀ e ∈ bs.flatMap (itemEntries n), c.lt k e.1 := by
        intro e he
        obtain ⟨b, hbm, heb⟩ := List.mem_flatMap.mp he
        obtain ⟨bs₁, bs₂, rfl⟩ := List.append_of_mem hbm
        have hsb : Sorted c (itemEntries n b) := by
          refine hs.sublist ?_
          simp only [List.flatMap_cons, List.flatMap_append]
          exact ((List.sublist_append_left _ _).trans (List.sublist_append_right _ _)).trans
            ((List.sublist_append_right _ _).trans (List.sublist_append_right _ _))
        exact c.lt_of_lt_of_not_lt (hb b hbm) (not_lt_itemKey (hh b (by simp)) hsb e heb)
      rcases List.eq_nil_or_concat' as with rfl | ⟨as', a, rfl⟩
      · exact ⟨[], i₀, bs, rfl, hbis, by simp, habove, by simp⟩
      · have hak : ¬ c.lt k (itemKey n a) := ha a (by simp)
        refine ⟨i₀ :: as', a, bs, by simp, by rw [List.tail_cons, hbis]; simp, ?_, habove,
          fun _ => hak⟩
        intro e he
        -- `a` starts with its key, which is not above `k`
        obtain ⟨v, es, hea⟩ := hh a (by simp)
        have hsplit : i₀ :: (as' ++ [a] ++ bs) = (i₀ :: as') ++ (a :: bs) := by simp
        rw [hsplit, List.flatMap_append, sorted_append, List.flatMap_cons] at hs
        refine c.lt_of_lt_of_not_lt (hs.2.2 e he (itemKey n a, v) ?_) hak
        exact List.mem_append_left _ (by rw [hea]; exact List.mem_cons_self)

end Route

/-! ## §4. The leaf chain. -/

/-- The id of the first leaf of a list, or what comes after the list. -/
def headId : List (Nat × Nat) → Nat → Nat
  | [], after => after
  | l :: _, _ => l.1

/-- Each leaf links to the next, the last one to `after`. -/
def Linked : List (Nat × Nat) → Nat → Prop
  | [], _ => True
  | l :: ls, after => l.2 = headId ls after ∧ Linked ls after

theorem headId_append (ls ms : List (Nat × Nat)) (after : Nat) :
    headId (ls ++ ms) after = headId ls (headId ms after) := by
  cases ls <;> rfl

theorem linked_append {ls ms : List (Nat × Nat)} {after : Nat} :
    Linked (ls ++ ms) after ↔ Linked ls (headId ms after) ∧ Linked ms after := by
  induction ls with
  | nil => simp [Linked]
  | cons l ls ih => simp only [List.cons_append, Linked, ih, headId_append, and_assoc]

/-- A rearrangement of leaves that keeps the entry point and the links. -/
structure Relinked (ls ms : List (Nat × Nat)) : Prop where
  head : ∀ after, headId ms after = headId ls after
  linked : ∀ after, Linked ls after → Linked ms after

theorem Relinked.refl (ls : List (Nat × Nat)) : Relinked ls ls :=
  ⟨fun _ => rfl, fun _ h => h⟩

theorem Relinked.trans {ls ms ns : List (Nat × Nat)} (h : Relinked ls ms)
    (h' : Relinked ms ns) : Relinked ls ns :=
  ⟨fun a => (h'.head a).trans (h.head a), fun a hl => h'.linked a (h.linked a hl)⟩

theorem Relinked.append {ls ms ls' ms' : List (Nat × Nat)} (h : Relinked ls ms)
    (h' : Relinked ls' ms') : Relinked (ls ++ ls') (ms ++ ms') where
  head after := by rw [headId_append, headId_append, h.head, h'.head]
  linked after hl := by
    rw [linked_append] at hl ⊢
    rw [h'.head]
    exact ⟨h.linked _ hl.1, h'.linked _ hl.2⟩

/-- Rearranging the leaves of one piece rearranges those of the whole. -/
theorem Relinked.window {α : Type} {f : α → List (Nat × Nat)} {xs ps qs ys : List α}
    (h : Relinked (ps.flatMap f) (qs.flatMap f)) :
    Relinked ((xs ++ ps ++ ys).flatMap f) ((xs ++ qs ++ ys).flatMap f) := by
  simp only [List.flatMap_append]
  exact ((Relinked.refl _).append h).append (Relinked.refl _)

/-! ## §5. How much a tree must hold. -/

/-- Lists of at least `b` elements each, joined. -/
theorem length_flatMap_ge {I A : Type} {f : I → List A} {b : Nat} :
    ∀ is : List I, (∀ i ∈ is, b ≤ (f i).length) → is.length * b ≤ (is.flatMap f).length := by
  intro is
  induction is with
  | nil => intro _; simp
  | cons i is ih =>
      intro hall
      have h₁ := hall i List.mem_cons_self
      have h₂ := ih (fun j hj => hall j (List.mem_cons_of_mem _ hj))
      rw [List.length_cons, List.flatMap_cons, List.length_append, Nat.add_mul, Nat.one_mul]
      omega

/-- A filled item of level `n + 1` holds at least `(d + 1) ^ n * d` bindings. -/
theorem Filled.length_entries_ge {d m : Nat} :
    ∀ {n : Nat} {t : Tree K V n}, Filled d m (n + 1) t →
      (d + 1) ^ n * d ≤ (itemEntries (n + 1) t).length := by
  intro n
  induction n with
  | zero =>
      intro t h
      rw [itemEntries_succ, flatMap_itemEntries_zero, pow_zero, Nat.one_mul]
      exact h.1
  | succ n ih =>
      intro t h
      -- Every child is at least as full as the bound of its level.
      calc (d + 1) ^ (n + 1) * d = (d + 1) * ((d + 1) ^ n * d) := by
            rw [pow_succ, Nat.mul_comm ((d + 1) ^ n) (d + 1), Nat.mul_assoc]
        _ ≤ t.items.length * ((d + 1) ^ n * d) := Nat.mul_le_mul_right _ h.1
        _ ≤ _ := length_flatMap_ge t.items (fun i hi => ih (h.2.2 i hi))

/-- The same for a root, which may hold fewer items than the nodes below it. -/
theorem Sized.length_entries_ge {lo d m n : Nat} {t : Tree K V (n + 1)} (h : Sized lo d m t) :
    (lo + 1) * ((d + 1) ^ n * d) ≤ (itemEntries (n + 2) t).length := by
  calc (lo + 1) * ((d + 1) ^ n * d) ≤ t.items.length * ((d + 1) ^ n * d) :=
        Nat.mul_le_mul_right _ h.lower
    _ ≤ _ := length_flatMap_ge t.items (fun i hi => (h.below i hi).length_entries_ge)

end KvEngine.Lib
