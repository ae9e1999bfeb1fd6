/-
  KvEngine.BTree.Replace
  ──────────────────────
  **Replacing neighbouring subtrees under one parent.**

  Every structural change of the tree (a split, a borrow, a merge, or any of
  these further down) replaces some neighbouring subtrees by others holding
  the rearranged items.  `Replaced` is what such a change establishes for
  the subtrees themselves; `Replaced.window` carries it to all items of the
  parent, and `Kids.write` and `Kids.split` turn a parent with its items
  back into one or two stored subtrees.
-/
import KvEngine.BTree.Represent

namespace KvEngine

open Lib

namespace BPlusTree

variable {n : Nat} {t t' : BPlusTree} {p : Nat}

/-! ## §1. A node in use over stored items. -/

/-- A node in use, whatever its cell says, over distinct stored items. -/
structure Kids (t : BPlusTree) (p n : Nat) (items : List (Item Bytes Bytes n)) : Prop where
  ok : t.impl.Ok
  used : ∃ x, t.getNode p = some x
  stored : ∀ i ∈ items, Stored t.getNode n i
  nodup : (p :: items.flatMap (itemIds n)).Nodup

theorem Kids.of_stored (hok : t.impl.Ok) {s : Tree Bytes Bytes n}
    (hs : Stored t.getNode (n + 1) s) (hnd : (itemIds (n + 1) s).Nodup) :
    Kids t s.id n s.items :=
  ⟨hok, ⟨_, hs.get⟩, hs.2, hnd⟩

section Kids

variable {items : List (Item Bytes Bytes n)}

theorem Kids.parent_not_mem (k : Kids t p n items) {i : Item Bytes Bytes n} (hi : i ∈ items) :
    p ∉ itemIds n i := fun hp =>
  (List.nodup_cons.mp k.nodup).1 (List.mem_flatMap.mpr ⟨i, hi, hp⟩)

/-- Rewriting the parent leaves the items alone. -/
theorem Kids.setParent (k : Kids t p n items) (y : BTreeNode) :
    Kids (t.setNode p y) p n items := by
  obtain ⟨x, hp⟩ := k.used
  refine ⟨k.ok.setNode y, ⟨y, ?_⟩, fun i hi => ?_, k.nodup⟩
  · rw [getNode_setNode hp, Function.update_self]
  · rw [getNode_setNode hp]
    exact (k.stored i hi).update (k.parent_not_mem hi) _

theorem Kids.step_setParent (k : Kids t p n items) (y : BTreeNode) (xs : List Nat) :
    Step t (t.setNode p y) (p :: xs) (p :: xs) := by
  obtain ⟨x, hp⟩ := k.used
  exact Step.write k.ok hp List.mem_cons_self y

theorem Kids.getNode_setParent (k : Kids t p n items) (y : BTreeNode) :
    (t.setNode p y).getNode p = some y := by
  obtain ⟨x, hp⟩ := k.used
  rw [getNode_setNode hp, Function.update_self]

theorem Kids.nodup_item (k : Kids t p n items) {i : Item Bytes Bytes n} (hi : i ∈ items) :
    (itemIds n i).Nodup := by
  obtain ⟨xs, ys, rfl⟩ := List.append_of_mem hi
  have hnd := (List.nodup_cons.mp k.nodup).2
  rw [List.flatMap_append, List.nodup_append, List.flatMap_cons, List.nodup_append] at hnd
  exact hnd.2.1.1

/-- **One cell written**: the parent becomes the root of a stored subtree. -/
theorem Kids.write (k : Kids t p n items) {u : Tree Bytes Bytes n} (hid : u.id = p)
    (hitems : u.items = items) :
    Step t (t.setNode p (cell n u)) (p :: items.flatMap (itemIds n)) (itemIds (n + 1) u) ∧
      Stored (t.setNode p (cell n u)).getNode (n + 1) u ∧ (itemIds (n + 1) u).Nodup := by
  subst hid hitems
  exact ⟨k.step_setParent _ _, ⟨k.getNode_setParent _, (k.setParent _).stored⟩, k.nodup⟩

/-- **A node split**: the last items move to a fresh node. -/
theorem Kids.split (k : Kids t p n items) (isLeaf : Bool) {u w : Tree Bytes Bytes n}
    (hu : u.id = p) (hw : w.id = (t.allocateNode isLeaf).1) (hitems : u.items ++ w.items = items) :
    let t' := ((t.allocateNode isLeaf).2.setNode w.id (cell n w)).setNode p (cell n u)
    Step t t' (p :: items.flatMap (itemIds n)) (itemIds (n + 1) u ++ itemIds (n + 1) w) ∧
      Stored t'.getNode (n + 1) u ∧ Stored t'.getNode (n + 1) w ∧
      (itemIds (n + 1) u ++ itemIds (n + 1) w).Nodup := by
  intro t'
  subst hu hitems
  obtain ⟨x, hp⟩ := k.used
  have hfresh : t.getNode w.id = none := hw ▸ getNode_allocated k.ok isLeaf
  have halloc := Step.alloc k.ok isLeaf (u.id :: (u.items ++ w.items).flatMap (itemIds n))
  have hget₁ := getNode_allocateNode k.ok isLeaf
  rw [← hw] at halloc hget₁
  -- the fresh id differs from every id in use
  have hne : ∀ j y, t.getNode j = some y → j ≠ w.id := by
    rintro j y hj rfl
    rw [hfresh] at hj
    exact absurd hj (by simp)
  have hw₁ : (t.allocateNode isLeaf).2.getNode w.id = some (Impl.newNode isLeaf) := by
    rw [hget₁, Function.update_self]
  have hget₂ := getNode_setNode hw₁ (cell n w)
  have hu₂ : ((t.allocateNode isLeaf).2.setNode w.id (cell n w)).getNode u.id = some x := by
    rw [hget₂, hget₁, Function.update_of_ne (hne _ _ hp), Function.update_of_ne (hne _ _ hp), hp]
  have hget₃ : t'.getNode = Function.update (Function.update (Function.update t.getNode w.id
      (some (Impl.newNode isLeaf))) w.id (some (cell n w))) u.id (some (cell n u)) := by
    show (BPlusTree.setNode _ _ _).getNode = _
    rw [getNode_setNode hu₂, hget₂, hget₁]
  have hstored : ∀ i ∈ u.items ++ w.items, Stored t'.getNode n i := by
    intro i hi
    have hwi : w.id ∉ itemIds n i := by
      intro hmem
      obtain ⟨y, hy⟩ := (k.stored i hi).used _ hmem
      exact hne _ _ hy rfl
    rw [hget₃]
    exact (((k.stored i hi).update hwi _).update hwi _).update (k.parent_not_mem hi) _
  have hperm : (itemIds (n + 1) u ++ itemIds (n + 1) w).Perm
      (w.id :: u.id :: (u.items ++ w.items).flatMap (itemIds n)) := by
    rw [itemIds_succ, itemIds_succ, List.flatMap_append, ← List.cons_append]
    exact List.perm_middle
  have hwnot : w.id ∉ u.id :: (u.items ++ w.items).flatMap (itemIds n) := by
    intro hmem
    rcases List.mem_cons.mp hmem with he | hmem
    · exact hne _ _ hp he.symm
    · obtain ⟨y, hy⟩ := used_of_stored k.stored _ hmem
      exact hne _ _ hy rfl
  refine ⟨?_, ⟨?_, fun i hi => hstored i (by simp [hi])⟩,
    ⟨?_, fun i hi => hstored i (by simp [hi])⟩,
    hperm.nodup_iff.mpr (List.nodup_cons.mpr ⟨hwnot, k.nodup⟩)⟩
  · refine (halloc.trans ((Step.write halloc.ok hw₁ List.mem_cons_self _).trans
      (Step.write (halloc.ok.setNode _) hu₂ ?_ _))).perm (List.Perm.refl _) hperm
    exact List.mem_cons_of_mem _ List.mem_cons_self
  · rw [hget₃, Function.update_self]
  · rw [hget₃, Function.update_of_ne (hne _ _ hp).symm, Function.update_self]

end Kids

/-! ## §2. Replacements. -/

/-- The items `ss` of `t` became the items `us` of `t'`. -/
structure Replaced (t t' : BPlusTree) (n : Nat) (ss us : List (Item Bytes Bytes n)) : Prop where
  step : Step t t' (ss.flatMap (itemIds n)) (us.flatMap (itemIds n))
  stored : ∀ u ∈ us, Stored t'.getNode n u
  nodup : (us.flatMap (itemIds n)).Nodup
  leaves : Relinked (ss.flatMap (itemLeaves n)) (us.flatMap (itemLeaves n))

/-- **A replacement seen from the parent**: the parent's cell and the other
items stay, and all items together are distinct again. -/
theorem Replaced.window {xs ss us ys : List (Item Bytes Bytes n)} (r : Replaced t t' n ss us)
    (k : Kids t p n (xs ++ ss ++ ys)) :
    Step t t' (p :: (xs ++ ss ++ ys).flatMap (itemIds n))
        (p :: (xs ++ us ++ ys).flatMap (itemIds n)) ∧
      Kids t' p n (xs ++ us ++ ys) ∧ t'.getNode p = t.getNode p := by
  have hnd := k.nodup
  obtain ⟨x, hp⟩ := k.used
  rw [List.flatMap_append, List.flatMap_append, ← List.cons_append, ← List.cons_append] at hnd
  obtain ⟨h₁, _, h₃⟩ := List.nodup_append.mp hnd
  obtain ⟨_, _, h₂⟩ := List.nodup_append.mp h₁
  -- ids around the replaced items are in use and not owned by the change
  have hleft : ∀ j ∈ p :: xs.flatMap (itemIds n), j ∉ ss.flatMap (itemIds n) :=
    fun j hj hj' => h₂ j hj j hj' rfl
  have hright : ∀ j ∈ ys.flatMap (itemIds n), j ∉ ss.flatMap (itemIds n) :=
    fun j hj hj' => h₃ j (List.mem_append_right _ hj') j hj rfl
  have hpx : ∀ j ∈ p :: xs.flatMap (itemIds n), ∃ y, t.getNode j = some y := by
    intro j hj
    rcases List.mem_cons.mp hj with rfl | hj
    · exact ⟨x, hp⟩
    · exact used_of_stored (fun i hi => k.stored i (by simp [hi])) j hj
  have hpy : ∀ j ∈ ys.flatMap (itemIds n), ∃ y, t.getNode j = some y :=
    used_of_stored (fun i hi => k.stored i (by simp [hi]))
  have hkeep : ∀ i ∈ xs ++ ys, Stored t'.getNode n i := by
    intro i hi
    refine (k.stored i (mem_window.mpr (Or.inl hi))).footprint r.step.footprint (fun j hj => ?_)
    rcases List.mem_append.mp hi with h | h
    · exact hleft j (List.mem_cons_of_mem _ (List.mem_flatMap.mpr ⟨i, h, hj⟩))
    · exact hright j (List.mem_flatMap.mpr ⟨i, h, hj⟩)
  have hp' : t'.getNode p = some x :=
    r.step.footprint.get_of_used hp (hleft p List.mem_cons_self)
  refine ⟨?_, ⟨r.step.ok, ⟨x, hp'⟩, ?_, ?_⟩, hp'.trans hp.symm⟩
  · have hw := r.step.widen (p :: xs.flatMap (itemIds n)) (ys.flatMap (itemIds n))
    simpa only [List.flatMap_append, List.cons_append] using hw
  · intro i hi
    rcases mem_window.mp hi with hi | hi
    · exact hkeep i hi
    · exact r.stored i hi
  · rw [List.flatMap_append, List.flatMap_append, ← List.cons_append, ← List.cons_append]
    refine nodup_window hnd r.nodup ?_ ?_
    · intro j hj
      obtain ⟨y, hy⟩ := hpx j hj
      exact r.step.footprint.not_mem_of_used hy (hleft j hj)
    · intro j hj
      obtain ⟨y, hy⟩ := hpy j hj
      exact r.step.footprint.not_mem_of_used hy (hright j hj)

end BPlusTree

end KvEngine
