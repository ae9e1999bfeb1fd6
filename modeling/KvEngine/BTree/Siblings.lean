/-
  KvEngine.BTree.Siblings
  ───────────────────────
  **Moving items between neighbouring siblings, and merging two of them.**

  `Kids.regroup` is the common part: some siblings hand all their items to
  nodes under some of the same ids, and the items themselves stay as they
  are.  The borrow branches of `erase` move one item (`Under.moveFromLeft`,
  `Under.moveFromRight`), the merge branches leave one node of two
  (`Under.mergeSiblings`).
-/
import KvEngine.BTree.Separators

namespace KvEngine

open Lib

namespace BPlusTree

variable {n : Nat} {t t' : BPlusTree} {p : Nat}

/-! ## §1. Regrouping the items of neighbouring siblings. -/

/-- The ids of some nodes are their own and those of their items. -/
theorem perm_ids (ss : List (Item Bytes Bytes (n + 1))) :
    (ss.flatMap (itemIds (n + 1))).Perm
      (ss.map Node.id ++ (ss.flatMap Node.items).flatMap (itemIds n)) := by
  induction ss with
  | nil => exact List.Perm.refl _
  | cons s ss ih =>
      rw [List.flatMap_cons, List.flatMap_cons, List.map_cons, List.flatMap_append,
        List.cons_append, itemIds_succ, List.cons_append]
      refine List.Perm.cons _ ((ih.append_left _).trans ?_)
      rw [← List.append_assoc, ← List.append_assoc]
      exact List.perm_append_comm.append_right _

/-- A parent and some of its children own no id of the other children or of
the grandchildren. -/
theorem Kids.heads {xs ss ys : List (Item Bytes Bytes (n + 1))}
    (k : Kids t p (n + 1) (xs ++ ss ++ ys)) :
    (p :: ss.map Node.id).Nodup ∧
      ∀ j ∈ p :: ss.map Node.id, j ∉ (xs ++ ys).flatMap (itemIds (n + 1)) ∧
        j ∉ (ss.flatMap Node.items).flatMap (itemIds n) := by
  have hall : (p :: (xs ++ ss ++ ys).flatMap (itemIds (n + 1))).Perm
      ((p :: ss.map Node.id) ++ ((xs ++ ys).flatMap (itemIds (n + 1)) ++
        (ss.flatMap Node.items).flatMap (itemIds n))) := by
    refine List.perm_iff_count.mpr (fun a => ?_)
    have hcount := (perm_ids ss).count_eq a
    simp only [List.flatMap_append, List.count_append, List.count_cons] at hcount ⊢
    omega
  obtain ⟨h₁, _, h₂⟩ := List.nodup_append.mp (hall.nodup_iff.mp k.nodup)
  refine ⟨h₁, fun j hj => ⟨fun h => ?_, fun h => ?_⟩⟩
  · exact h₂ j hj j (List.mem_append_left _ h) rfl
  · exact h₂ j hj j (List.mem_append_right _ h) rfl

/-- **Regrouping**: the nodes `ss` gave their items to the nodes `us`, the
ids `freed` were given up, and besides these cells only the parent's was
written. -/
theorem Kids.regroup {xs ss ys : List (Item Bytes Bytes (n + 1))}
    (k : Kids t p (n + 1) (xs ++ ss ++ ys)) (us : List (Item Bytes Bytes (n + 1)))
    (freed : List Nat)
    (hitems : us.flatMap Node.items = ss.flatMap Node.items)
    (hids : (ss.map Node.id).Perm (freed ++ us.map Node.id)) (hok : t'.impl.Ok)
    (hp : ∃ x, t'.getNode p = some x) (hcells : ∀ u ∈ us, t'.getNode u.id = some (cell n u))
    (hframe : ∀ j, j ≠ p → j ∉ ss.map Node.id → t'.getNode j = t.getNode j) :
    Kids t' p (n + 1) (xs ++ us ++ ys) ∧
      (p :: (xs ++ ss ++ ys).flatMap (itemIds (n + 1))).Perm
        (freed ++ p :: (xs ++ us ++ ys).flatMap (itemIds (n + 1))) := by
  have hmid : (ss.flatMap (itemIds (n + 1))).Perm (freed ++ us.flatMap (itemIds (n + 1))) := by
    refine (perm_ids ss).trans ((hids.append_right _).trans ?_)
    rw [List.append_assoc, ← hitems]
    exact (perm_ids us).symm.append_left _
  have hperm : (p :: (xs ++ ss ++ ys).flatMap (itemIds (n + 1))).Perm
      (freed ++ p :: (xs ++ us ++ ys).flatMap (itemIds (n + 1))) := by
    refine List.perm_iff_count.mpr (fun a => ?_)
    have hcount := hmid.count_eq a
    simp only [List.flatMap_append, List.count_append, List.count_cons] at hcount ⊢
    omega
  have hown := k.heads.2
  -- Nothing below the regrouped nodes is touched.
  have hkeep : ∀ j, j ∉ p :: ss.map Node.id → t'.getNode j = t.getNode j := by
    intro j hj
    rw [List.mem_cons, not_or] at hj
    exact hframe j hj.1 hj.2
  refine ⟨⟨hok, hp, ?_, ?_⟩, hperm⟩
  · intro i hi
    -- A regrouped node keeps the items of the old ones; the others are framed.
    by_cases hu : i ∈ us
    · refine ⟨hcells i hu, fun g hg => ?_⟩
      have hgs : g ∈ ss.flatMap Node.items := hitems ▸ List.mem_flatMap.mpr ⟨i, hu, hg⟩
      obtain ⟨s, hs, hgs'⟩ := List.mem_flatMap.mp hgs
      refine ((k.stored s (by simp [hs])).2 g hgs').congr (fun j hj => hkeep j (fun hmem => ?_))
      exact (hown j hmem).2 (List.mem_flatMap.mpr ⟨g, hgs, hj⟩)
    · have hi' : i ∈ xs ++ ys := (mem_window.mp hi).resolve_right hu
      refine (k.stored i (mem_window.mpr (Or.inl hi'))).congr (fun j hj => hkeep j (fun hmem => ?_))
      exact (hown j hmem).1 (List.mem_flatMap.mpr ⟨i, hi', hj⟩)
  · exact (List.nodup_append.mp (hperm.nodup_iff.mp k.nodup)).2.1

/-! ## §2. Moving one item between siblings. -/

/-- Only cells of the ids `zs` were written, and `f` is the heap now. -/
structure Wrote (t t' : BPlusTree) (zs : List Nat) (f : Nat → Option BTreeNode) : Prop where
  step : Step t t' zs zs
  get : t'.getNode = f

theorem Wrote.start (hok : t.impl.Ok) (zs : List Nat) : Wrote t t zs t.getNode :=
  ⟨Step.refl hok zs, rfl⟩

theorem Wrote.set {zs : List Nat} {f : Nat → Option BTreeNode} (w : Wrote t t' zs f) {id : Nat}
    {x : BTreeNode} (hid : id ∈ zs) (hx : f id = some x) (y : BTreeNode) :
    Wrote t (t'.setNode id y) zs (Function.update f id (some y)) := by
  have hx' : t'.getNode id = some x := by rw [w.get]; exact hx
  refine ⟨w.step.trans (Step.write w.step.ok hx' hid y), ?_⟩
  rw [getNode_setNode hx', w.get]

theorem Wrote.leafAt {zs : List Nat} {f : Nat → Option BTreeNode} (w : Wrote t t' zs f) {id : Nat}
    {x : LeafNode} (hx : f id = some (.leaf x)) : t'.leafAt id = some x :=
  leafAt_eq (by rw [w.get]; exact hx)

theorem Wrote.internalAt {zs : List Nat} {f : Nat → Option BTreeNode} (w : Wrote t t' zs f)
    {id : Nat} {x : InternalNode} (hx : f id = some (.internal x)) :
    t'.internalAt id = some x :=
  internalAt_eq (by rw [w.get]; exact hx)

section Siblings

variable {xs ys : List (Item Bytes Bytes (n + 1))} {l r : Item Bytes Bytes (n + 1)}
  {keys : List Bytes}

/-- The three cells a repair writes. -/
structure Apart (t : BPlusTree) (p : Nat) (zs : List Nat) (l r : Item Bytes Bytes (n + 1)) :
    Prop where
  left : l.id ≠ p
  right : r.id ≠ p
  both : r.id ≠ l.id
  mem_parent : p ∈ zs
  mem_left : l.id ∈ zs
  mem_right : r.id ∈ zs
  get_left : t.getNode l.id = some (cell n l)
  get_right : t.getNode r.id = some (cell n r)

theorem Under.apart (h : Under t p n (xs ++ [l, r] ++ ys) keys) :
    Apart t p (p :: (xs ++ [l, r] ++ ys).flatMap (itemIds (n + 1))) l r := by
  have hnd := h.kids.heads.1
  simp only [List.map_cons, List.map_nil, List.nodup_cons, List.mem_cons, List.not_mem_nil,
    or_false, not_or] at hnd
  have hmem : ∀ i : Item Bytes Bytes (n + 1), i ∈ [l, r] →
      i.id ∈ p :: (xs ++ [l, r] ++ ys).flatMap (itemIds (n + 1)) := by
    intro i hi
    refine List.mem_cons_of_mem _ (List.mem_flatMap.mpr ⟨i, ?_, id_mem_itemIds n i⟩)
    exact List.mem_append_left _ (List.mem_append_right _ hi)
  exact ⟨Ne.symm hnd.1.1, Ne.symm hnd.1.2, Ne.symm hnd.2.1, List.mem_cons_self,
    hmem l (by simp), hmem r (by simp), (h.kids.stored l (by simp)).1,
    (h.kids.stored r (by simp)).1⟩

/-- Two siblings that shared out their items anew. -/
theorem Under.moved (l' r' : Item Bytes Bytes (n + 1)) (keys' : List Bytes)
    {f : Nat → Option BTreeNode} (h : Under t p n (xs ++ [l, r] ++ ys) keys)
    (w : Wrote t t' (p :: (xs ++ [l, r] ++ ys).flatMap (itemIds (n + 1))) f)
    (hl : l'.id = l.id) (hr : r'.id = r.id) (hitems : l'.items ++ r'.items = l.items ++ r.items)
    (hfl : f l.id = some (cell n l')) (hfr : f r.id = some (cell n r'))
    (hfp : f p = some (.internal ⟨keys', (xs ++ [l, r] ++ ys).map Node.id⟩))
    (hlen : keys'.length = keys.length)
    (hframe : ∀ j, j ≠ p → j ≠ l.id → j ≠ r.id → f j = t.getNode j) :
    Under t' p n (xs ++ [l', r'] ++ ys) keys' ∧
      Step t t' (p :: (xs ++ [l, r] ++ ys).flatMap (itemIds (n + 1)))
        (p :: (xs ++ [l', r'] ++ ys).flatMap (itemIds (n + 1))) := by
  have hids : (xs ++ [l', r'] ++ ys).map Node.id = (xs ++ [l, r] ++ ys).map Node.id := by
    simp [hl, hr]
  obtain ⟨k, hperm⟩ := h.kids.regroup [l', r'] [] (by simpa using hitems)
    (by simp [hl, hr]) w.step.ok ⟨_, by rw [w.get]; exact hfp⟩
    (by
      intro u hu
      rw [w.get]
      rcases List.mem_cons.mp hu with rfl | hu
      · rw [hl]
        exact hfl
      · rw [List.mem_singleton.mp hu, hr]
        exact hfr)
    (by
      intro j hjp hj
      rw [w.get]
      simp only [List.map_cons, List.map_nil, List.mem_cons, List.not_mem_nil, or_false,
        not_or] at hj
      exact hframe j hjp hj.1 hj.2)
  refine ⟨⟨k, ?_, ?_⟩, w.step.perm (List.Perm.refl _) hperm.symm⟩
  · rw [w.get, hids]
    exact hfp
  · rw [hlen, h.length]
    simp

/-- **The left sibling's last item moves to the front of the right one.** -/
theorem Under.moveFromLeft {ks ks' : List Bytes} {q : Bytes} {is : List (Item Bytes Bytes n)}
    {i : Item Bytes Bytes n} (h : Under t p n (xs ++ [l, r] ++ ys) (ks ++ q :: ks'))
    (hks : ks.length = xs.length) (hl : l.items = is ++ [i])
    (hinner : n ≠ 0 → is ≠ [] ∧ r.items ≠ [] ∧ q = itemKey (n + 1) r) :
    ∃ t' q', t.moveFromLeft p (xs.length + 1) l.id r.id = some t' ∧
      Under t' p n (xs ++ [{ l with items := is }, { r with items := i :: r.items }] ++ ys)
        (ks ++ q' :: ks') ∧
      Step t t' (p :: (xs ++ [l, r] ++ ys).flatMap (itemIds (n + 1)))
        (p :: (xs ++ [{ l with items := is }, { r with items := i :: r.items }] ++ ys).flatMap
          (itemIds (n + 1))) := by
  have a := h.apart
  have w := Wrote.start h.kids.ok (p :: (xs ++ [l, r] ++ ys).flatMap (itemIds (n + 1)))
  cases n with
  | zero =>
      let l' : Tree Bytes Bytes 0 := { l with items := is }
      let r' : Tree Bytes Bytes 0 := { r with items := i :: r.items }
      have w₁ := w.set a.mem_right a.get_right (cell 0 r')
      have hl₁ : Function.update t.getNode r.id (some (cell 0 r')) l.id = some (cell 0 l) := by
        rw [Function.update_of_ne a.both.symm, a.get_left]
      have w₂ := w₁.set a.mem_left hl₁ (cell 0 l')
      obtain ⟨hunder, hstep⟩ := h.moved l' r' (ks ++ q :: ks') w₂ rfl rfl (by simp [l', r', hl])
        (Function.update_self ..) (by rw [Function.update_of_ne a.both, Function.update_self])
        (by rw [Function.update_of_ne a.left.symm, Function.update_of_ne a.right.symm, h.node])
        rfl
        (fun j _ hjl hjr => by rw [Function.update_of_ne hjl, Function.update_of_ne hjr])
      refine ⟨_, q, ?_, hunder, hstep⟩
      have hkey : (l.items.map Prod.fst).getLast? = some i.1 := by simp [hl]
      have hvalue : (l.items.map Prod.snd).getLast? = some i.2 := by simp [hl]
      have hrun : t.moveFromLeft p (xs.length + 1) l.id r.id
          = ((t.setNode r.id (cell 0 r')).leafAt l.id).bind (fun x =>
              some ((t.setNode r.id (cell 0 r')).setNode l.id (.leaf { x with
                keys := x.keys.dropLast, values := x.values.dropLast }))) := by
        simp only [BPlusTree.moveFromLeft, a.get_right, w.leafAt a.get_left,
          Option.bind_eq_bind, Option.bind_some, hkey, hvalue]
        rfl
      rw [hrun, w₁.leafAt hl₁, Option.bind_some]
      simp [cell, l', hl]
  | succ n =>
      obtain ⟨his, hri, hq⟩ := hinner (Nat.succ_ne_zero n)
      let l' : Tree Bytes Bytes (n + 1) := { l with items := is }
      let r' : Tree Bytes Bytes (n + 1) := { r with items := i :: r.items }
      let q' := itemKey (n + 1) i
      have w₁ := w.set a.mem_right a.get_right (cell (n + 1) r')
      have hp₁ : Function.update t.getNode r.id (some (cell (n + 1) r')) p
          = some (.internal ⟨ks ++ q :: ks', (xs ++ [l, r] ++ ys).map Node.id⟩) := by
        rw [Function.update_of_ne a.right.symm, h.node]
      have w₂ := w₁.set a.mem_parent hp₁
        (.internal ⟨ks ++ q' :: ks', (xs ++ [l, r] ++ ys).map Node.id⟩)
      have hl₂ : Function.update (Function.update t.getNode r.id (some (cell (n + 1) r'))) p
          (some (.internal ⟨ks ++ q' :: ks', (xs ++ [l, r] ++ ys).map Node.id⟩)) l.id
          = some (cell (n + 1) l) := by
        rw [Function.update_of_ne a.left, Function.update_of_ne a.both.symm, a.get_left]
      have w₃ := w₂.set a.mem_left hl₂ (cell (n + 1) l')
      obtain ⟨hunder, hstep⟩ := h.moved l' r' (ks ++ q' :: ks') w₃ rfl rfl
        (by simp [l', r', hl]) (Function.update_self ..)
        (by rw [Function.update_of_ne a.both, Function.update_of_ne a.right, Function.update_self])
        (by rw [Function.update_of_ne a.left.symm, Function.update_self]) (by simp)
        (fun j hjp hjl hjr => by
          rw [Function.update_of_ne hjl, Function.update_of_ne hjp, Function.update_of_ne hjr])
      refine ⟨_, q', ?_, hunder, hstep⟩
      have hchild : (l.items.map Node.id).getLast? = some i.id := by simp [hl]
      have hlast : (l.items.tail.map (itemKey (n + 1))).getLast? = some q' := by
        rw [hl, List.tail_append_of_ne_nil his]
        simp [q']
      have hsep : (ks ++ q :: ks')[xs.length + 1 - 1]? = some q :=
        getElem?_append_cons _ _ _ (by omega)
      -- the separator that comes down is the child's old first key
      have hright : q :: r.items.tail.map (itemKey (n + 1))
          = r'.items.tail.map (itemKey (n + 1)) := by
        cases hr : r.items with
        | nil => exact absurd hr hri
        | cons g gs => simp [r', hq, hr, itemKey_cons hr]
      have hset : (t.setNode r.id (cell (n + 1) r')).setKey p (xs.length + 1 - 1) q'
          = some ((t.setNode r.id (cell (n + 1) r')).setNode p
              (.internal ⟨ks ++ q' :: ks', (xs ++ [l, r] ++ ys).map Node.id⟩)) := by
        simp only [BPlusTree.setKey, w₁.internalAt hp₁, Option.bind_eq_bind, Option.bind_some,
          setAt?_append ks q q' ks' (show xs.length + 1 - 1 = ks.length by omega)]
      have hrun : t.moveFromLeft p (xs.length + 1) l.id r.id
          = ((t.setNode r.id (cell (n + 1) r')).setKey p (xs.length + 1 - 1) q').bind (fun t =>
              (t.internalAt l.id).bind (fun x =>
              some (t.setNode l.id (.internal {
                keys := x.keys.dropLast, children := x.children.dropLast })))) := by
        simp only [BPlusTree.moveFromLeft, a.get_right, w.internalAt a.get_left, cell,
          Option.bind_eq_bind, Option.bind_some, hchild, hlast, internalAt_eq h.node, hsep, hright]
        rfl
      rw [hrun, hset, Option.bind_some, w₂.internalAt hl₂, Option.bind_some]
      simp [cell, l', hl, List.tail_append_of_ne_nil his]

/-- **The right sibling's first item moves to the back of the left one.** -/
theorem Under.moveFromRight {ks ks' : List Bytes} {q : Bytes} {is : List (Item Bytes Bytes n)}
    {i : Item Bytes Bytes n} (h : Under t p n (xs ++ [l, r] ++ ys) (ks ++ q :: ks'))
    (hks : ks.length = xs.length) (hr : r.items = i :: is) (his : is ≠ [])
    (hinner : n ≠ 0 → l.items ≠ [] ∧ q = itemKey (n + 1) r) :
    ∃ t' q', t.moveFromRight p xs.length l.id r.id = some t' ∧
      Under t' p n (xs ++ [{ l with items := l.items ++ [i] }, { r with items := is }] ++ ys)
        (ks ++ q' :: ks') ∧
      Step t t' (p :: (xs ++ [l, r] ++ ys).flatMap (itemIds (n + 1)))
        (p :: (xs ++ [{ l with items := l.items ++ [i] }, { r with items := is }] ++ ys).flatMap
          (itemIds (n + 1))) := by
  have a := h.apart
  have w := Wrote.start h.kids.ok (p :: (xs ++ [l, r] ++ ys).flatMap (itemIds (n + 1)))
  obtain ⟨g, gs, hg⟩ : ∃ g gs, is = g :: gs := List.exists_cons_of_ne_nil his
  cases n with
  | zero =>
      let l' : Tree Bytes Bytes 0 := { l with items := l.items ++ [i] }
      let r' : Tree Bytes Bytes 0 := { r with items := is }
      have w₁ := w.set a.mem_left a.get_left (cell 0 l')
      have hr₁ : Function.update t.getNode l.id (some (cell 0 l')) r.id = some (cell 0 r) := by
        rw [Function.update_of_ne a.both, a.get_right]
      have w₂ := w₁.set a.mem_right hr₁ (cell 0 r')
      have hp₂ : Function.update (Function.update t.getNode l.id (some (cell 0 l'))) r.id
          (some (cell 0 r')) p
          = some (.internal ⟨ks ++ q :: ks', (xs ++ [l, r] ++ ys).map Node.id⟩) := by
        rw [Function.update_of_ne a.right.symm, Function.update_of_ne a.left.symm, h.node]
      have w₃ := w₂.set a.mem_parent hp₂
        (.internal ⟨ks ++ g.1 :: ks', (xs ++ [l, r] ++ ys).map Node.id⟩)
      obtain ⟨hunder, hstep⟩ := h.moved l' r' (ks ++ g.1 :: ks') w₃ rfl rfl (by simp [l', r', hr])
        (by rw [Function.update_of_ne a.left, Function.update_of_ne a.both.symm,
          Function.update_self])
        (by rw [Function.update_of_ne a.right, Function.update_self])
        (Function.update_self ..) (by simp)
        (fun j hjp hjl hjr => by
          rw [Function.update_of_ne hjp, Function.update_of_ne hjr, Function.update_of_ne hjl])
      refine ⟨_, g.1, ?_, hunder, hstep⟩
      have hkey : (r.items.map Prod.fst).head? = some i.1 := by simp [hr]
      have hvalue : (r.items.map Prod.snd).head? = some i.2 := by simp [hr]
      have hleft : (t.setNode l.id (.leaf ⟨l.items.map Prod.fst ++ [i.1],
          l.items.map Prod.snd ++ [i.2], l.next⟩)) = t.setNode l.id (cell 0 l') := by
        simp [cell, l']
      have hright : (BTreeNode.leaf ⟨(r.items.map Prod.fst).tail, (r.items.map Prod.snd).tail,
          r.next⟩) = cell 0 r' := by
        simp [cell, r', hr]
      have hfirst : (r.items.map Prod.fst).tail.head? = some g.1 := by simp [hr, hg]
      have hset : ((t.setNode l.id (cell 0 l')).setNode r.id (cell 0 r')).setKey p xs.length g.1
          = some (((t.setNode l.id (cell 0 l')).setNode r.id (cell 0 r')).setNode p
              (.internal ⟨ks ++ g.1 :: ks', (xs ++ [l, r] ++ ys).map Node.id⟩)) := by
        simp only [BPlusTree.setKey, w₂.internalAt hp₂, Option.bind_eq_bind, Option.bind_some,
          setAt?_append ks q g.1 ks' hks.symm]
      simp only [BPlusTree.moveFromRight, a.get_left, w.leafAt a.get_right, cell,
        Option.bind_eq_bind, Option.bind_some, hkey, hvalue]
      rw [hleft, w₁.leafAt hr₁]
      simp only [Option.bind_some, hright, hfirst]
      exact hset
  | succ n =>
      obtain ⟨hli, hq⟩ := hinner (Nat.succ_ne_zero n)
      let l' : Tree Bytes Bytes (n + 1) := { l with items := l.items ++ [i] }
      let r' : Tree Bytes Bytes (n + 1) := { r with items := is }
      let q' := itemKey (n + 1) g
      have w₁ := w.set a.mem_left a.get_left (cell (n + 1) l')
      have hp₁ : Function.update t.getNode l.id (some (cell (n + 1) l')) p
          = some (.internal ⟨ks ++ q :: ks', (xs ++ [l, r] ++ ys).map Node.id⟩) := by
        rw [Function.update_of_ne a.left.symm, h.node]
      have w₂ := w₁.set a.mem_parent hp₁
        (.internal ⟨ks ++ q' :: ks', (xs ++ [l, r] ++ ys).map Node.id⟩)
      have hr₂ : Function.update (Function.update t.getNode l.id (some (cell (n + 1) l'))) p
          (some (.internal ⟨ks ++ q' :: ks', (xs ++ [l, r] ++ ys).map Node.id⟩)) r.id
          = some (cell (n + 1) r) := by
        rw [Function.update_of_ne a.right, Function.update_of_ne a.both, a.get_right]
      have w₃ := w₂.set a.mem_right hr₂ (cell (n + 1) r')
      obtain ⟨hunder, hstep⟩ := h.moved l' r' (ks ++ q' :: ks') w₃ rfl rfl
        (by simp [l', r', hr])
        (by rw [Function.update_of_ne a.both.symm, Function.update_of_ne a.left,
          Function.update_self])
        (Function.update_self ..)
        (by rw [Function.update_of_ne a.right.symm, Function.update_self]) (by simp)
        (fun j hjp hjl hjr => by
          rw [Function.update_of_ne hjr, Function.update_of_ne hjp, Function.update_of_ne hjl])
      refine ⟨_, q', ?_, hunder, hstep⟩
      have hchild : (r.items.map Node.id).head? = some i.id := by simp [hr]
      have hkey : (r.items.tail.map (itemKey (n + 1))).head? = some q' := by simp [hr, hg, q']
      have hsep : (ks ++ q :: ks')[xs.length]? = some q :=
        getElem?_append_cons _ _ _ hks.symm
      -- the separator that comes down is the moved child's first key
      have hleft : (t.setNode l.id (.internal ⟨l.items.tail.map (itemKey (n + 1)) ++ [q],
          l.items.map Node.id ++ [i.id]⟩)) = t.setNode l.id (cell (n + 1) l') := by
        simp [cell, l', hq, itemKey_cons hr, List.tail_append_of_ne_nil hli]
      have hset : (t.setNode l.id (cell (n + 1) l')).setKey p xs.length q'
          = some ((t.setNode l.id (cell (n + 1) l')).setNode p
              (.internal ⟨ks ++ q' :: ks', (xs ++ [l, r] ++ ys).map Node.id⟩)) := by
        simp only [BPlusTree.setKey, w₁.internalAt hp₁, Option.bind_eq_bind, Option.bind_some,
          setAt?_append ks q q' ks' hks.symm]
      simp only [BPlusTree.moveFromRight, a.get_left, w.internalAt a.get_right, cell,
        Option.bind_eq_bind, Option.bind_some, hchild, hkey, internalAt_eq h.node, hsep]
      rw [hleft, hset, Option.bind_some, w₂.internalAt hr₂, Option.bind_some]
      simp [cell, r', hr]

/-! ## §3. Merging two siblings. -/

/-- The two nodes as one, under the left one's id. -/
abbrev join (l r : Item Bytes Bytes (n + 1)) : Item Bytes Bytes (n + 1) :=
  ⟨l.id, r.next, l.items ++ r.items⟩

/-- The first part of `mergeSiblings`: the left node takes over the items. -/
theorem Under.mergeSiblings_left {ks ks' : List Bytes} {q : Bytes} {c : Item Bytes Bytes (n + 1)}
    (h : Under t p n (xs ++ [l, r] ++ ys) (ks ++ q :: ks')) (hks : ks.length = xs.length)
    (hinner : n ≠ 0 → l.items ≠ [] ∧ r.items ≠ [] ∧ q = itemKey (n + 1) r) (hc : c ∈ [l, r]) :
    t.mergeSiblings p xs.length l.id r.id c.id
      = (do
          let t := t.setNode l.id (cell n (join l r))
          let internal ← t.internalAt p
          let keys ← eraseAt? internal.keys xs.length
          let children ← eraseAt? internal.children (xs.length + 1)
          let t := t.setNode p (.internal { keys, children })
          some (t.freeNode r.id)) := by
  have a := h.apart
  have hget : t.getNode c.id = some (cell n c) := by
    rcases List.mem_cons.mp hc with rfl | hc
    · exact a.get_left
    · rw [List.mem_singleton.mp hc]
      exact a.get_right
  cases n with
  | zero =>
      simp only [BPlusTree.mergeSiblings, hget, cell, leafAt_eq a.get_left, leafAt_eq a.get_right,
        Option.bind_eq_bind, Option.bind_some, List.map_append]
  | succ n =>
      obtain ⟨hli, hri, hq⟩ := hinner (Nat.succ_ne_zero n)
      have hsep : (ks ++ q :: ks')[xs.length]? = some q :=
        getElem?_append_cons _ _ _ hks.symm
      have hkeys : l.items.tail.map (itemKey (n + 1)) ++ [q] ++ r.items.tail.map (itemKey (n + 1))
          = (l.items ++ r.items).tail.map (itemKey (n + 1)) := by
        cases hr : r.items with
        | nil => exact absurd hr hri
        | cons g gs => simp [hq, itemKey_cons hr, List.tail_append_of_ne_nil hli]
      simp only [BPlusTree.mergeSiblings, hget, cell, internalAt_eq a.get_left,
        internalAt_eq a.get_right, internalAt_eq h.node, Option.bind_eq_bind, Option.bind_some,
        hsep, hkeys, List.map_append]

/-- **A merge replaces two siblings by one.** -/
theorem Under.mergeSiblings {ks ks' : List Bytes} {q : Bytes} {c : Item Bytes Bytes (n + 1)}
    (h : Under t p n (xs ++ [l, r] ++ ys) (ks ++ q :: ks')) (hks : ks.length = xs.length)
    (hinner : n ≠ 0 → l.items ≠ [] ∧ r.items ≠ [] ∧ q = itemKey (n + 1) r) (hc : c ∈ [l, r])
    (hcount : 0 < t.nodeCount) :
    ∃ t', t.mergeSiblings p xs.length l.id r.id c.id = some t' ∧
      Under t' p n (xs ++ [join l r] ++ ys) (ks ++ ks') ∧
      Step t t' (p :: (xs ++ [l, r] ++ ys).flatMap (itemIds (n + 1)))
        (p :: (xs ++ [join l r] ++ ys).flatMap (itemIds (n + 1))) := by
  have a := h.apart
  have w := Wrote.start h.kids.ok (p :: (xs ++ [l, r] ++ ys).flatMap (itemIds (n + 1)))
  let keep : BTreeNode := .internal ⟨ks ++ ks', (xs ++ [join l r] ++ ys).map Node.id⟩
  -- Three writes: the joined child, the parent without it, and the freed id.
  have w₁ := w.set a.mem_left a.get_left (cell n (join l r))
  have hp₁ : Function.update t.getNode l.id (some (cell n (join l r))) p
      = some (.internal ⟨ks ++ q :: ks', (xs ++ [l, r] ++ ys).map Node.id⟩) := by
    rw [Function.update_of_ne a.left.symm, h.node]
  have w₂ := w₁.set a.mem_parent hp₁ keep
  have hr₂ : ((t.setNode l.id (cell n (join l r))).setNode p keep).getNode r.id
      = some (cell n r) := by
    rw [w₂.get, Function.update_of_ne a.right, Function.update_of_ne a.both, a.get_right]
  let t' := ((t.setNode l.id (cell n (join l r))).setNode p keep).freeNode r.id
  have hfree := Step.free w₂.step.ok hr₂ hcount
    (p :: (xs ++ [join l r] ++ ys).flatMap (itemIds (n + 1)))
  have hget : t'.getNode = Function.update (Function.update (Function.update t.getNode l.id
      (some (cell n (join l r)))) p (some keep)) r.id none := by
    rw [getNode_freeNode w₂.step.ok hr₂, w₂.get]
  have hp' : t'.getNode p = some keep := by
    rw [hget, Function.update_of_ne a.right.symm, Function.update_self]
  -- The window regroups to one child; the id of the right one is freed.
  obtain ⟨k, hperm⟩ := h.kids.regroup [join l r] [r.id] (by simp)
    (by simpa using List.Perm.swap _ _ _) hfree.ok ⟨_, hp'⟩
    (by
      intro u hu
      rw [List.mem_singleton.mp hu, hget, Function.update_of_ne a.both.symm,
        Function.update_of_ne a.left, Function.update_self])
    (by
      intro j hjp hj
      simp only [List.map_cons, List.map_nil, List.mem_cons, List.not_mem_nil, or_false,
        not_or] at hj
      rw [hget, Function.update_of_ne hj.2, Function.update_of_ne hjp, Function.update_of_ne hj.1])
  refine ⟨t', ?_, ⟨k, hp', ?_⟩, (w₂.step.perm (List.Perm.refl _) hperm.symm).trans hfree⟩
  · have hkeys : eraseAt? (ks ++ q :: ks') xs.length = some (ks ++ ks') :=
      eraseAt?_append _ _ _ hks.symm
    have hids : eraseAt? ((xs ++ [l, r] ++ ys).map Node.id) (xs.length + 1)
        = some ((xs ++ [join l r] ++ ys).map Node.id) := by
      have hsplit : (xs ++ [l, r] ++ ys).map Node.id
          = (xs ++ [l]).map Node.id ++ r.id :: ys.map Node.id := by simp
      rw [hsplit, eraseAt?_append _ _ _ (by simp)]
      simp
    rw [h.mergeSiblings_left hks hinner hc]
    simp only [Option.bind_eq_bind, w₁.internalAt hp₁, Option.bind_some, hkeys, hids]
    rfl
  · have hlen := h.length
    simp only [List.length_append, List.length_cons, List.length_nil] at hlen ⊢
    omega

end Siblings

end BPlusTree

end KvEngine
