/-
  KvEngine.BTree.Invariant
  ────────────────────────
  **What a `BPlusTree` represents, and that its operations keep it.**

  `Represents t s`: the store of `t` holds exactly the nodes of the shape
  `s`, which is filled, sorted and linked, and the counters of `t` describe
  it.  `put_spec`, `delete_spec` and `get_spec` are the operations on the
  entries of the shape.
-/
import KvEngine.BTree.Erase

namespace KvEngine

open Lib

namespace BPlusTree

/-! ## §1. The invariant. -/

/-- The nodes in use are the ids `xs`, each once. -/
structure Live (t : BPlusTree) (xs : List Nat) : Prop where
  ok : t.impl.Ok
  used_iff : ∀ j, (∃ x, t.getNode j = some x) ↔ j ∈ xs
  nodup : xs.Nodup
  count : t.nodeCount = xs.length

theorem Live.step {t t' : BPlusTree} {xs ys : List Nat} (h : Live t xs) (s : Step t t' xs ys)
    (hnd : ys.Nodup) (hused : ∀ j ∈ ys, ∃ x, t'.getNode j = some x) : Live t' ys where
  ok := s.ok
  used_iff j := by
    refine ⟨fun hj => ?_, hused j⟩
    by_contra hjy
    obtain ⟨x, hx⟩ := hj
    have hnone : t'.getNode j = none := by
      by_cases hjx : j ∈ xs
      · exact s.footprint.freed j hjx hjy
      · rw [s.footprint.frame j hjx hjy]
        by_contra hne
        exact hjx ((h.used_iff j).mp (Option.ne_none_iff_exists'.mp hne))
    rw [hnone] at hx
    exact absurd hx (by simp)
  nodup := hnd
  count := by
    have hc := s.count
    have hx := h.count
    omega

/-- `t` holds the shape `s` and nothing else. -/
structure Represents (t : BPlusTree) {n : Nat} (s : Tree Bytes Bytes n) : Prop where
  live : Live t (itemIds (n + 1) s)
  stored : Stored t.getNode (n + 1) s
  rootId : t.rootId = s.id
  rootIsLeaf : t.rootIsLeaf = decide (n = 0)
  height : t.height = n + 1
  three : 3 ≤ t.maxKeys
  sized : Sized (slack n) (t.maxKeys / 2) t.maxKeys s
  sorted : Sorted t.order (itemEntries (n + 1) s)
  named : ∀ e ∈ itemEntries (n + 1) s, e.1 ≠ []
  linked : Linked (itemLeaves (n + 1) s) 0
  size : t.size = (itemEntries (n + 1) s).length

variable {t : BPlusTree} {n : Nat} {s : Tree Bytes Bytes n}

/-- A descent cannot run out of slots. -/
theorem Represents.lt_fuel (h : Represents t s) : n < t.fuel :=
  Nat.lt_of_lt_of_le (levels_le_length_ids h.sized)
    (length_le_fuel h.live.nodup (fun j hj => (h.live.used_iff j).mpr hj))

/-- The empty tree. -/
theorem represents_new (options : BTreeOptions) :
    Represents (new options) (⟨1, 0, []⟩ : Tree Bytes Bytes 0) := by
  have hget : (new options).getNode = Function.update Impl.initial.getNode 1
      (some (Impl.newNode true)) := by
    funext j
    rw [Function.update_apply]
    exact Impl.getNode_allocateNode Impl.ok_initial true j
  have hinit : ∀ j, Impl.initial.getNode j = none := by
    intro j
    rw [Impl.getNode_eq_none_iff Impl.ok_initial]
    cases j <;> simp [Impl.inUse, Impl.initial]
  -- The constructor clamps a maximum below three.
  have hmax : 3 ≤ (new options).maxKeys := by
    show 3 ≤ (if options.maxKeysPerNode < 3 then { options with maxKeysPerNode := 3 }
      else options : BTreeOptions).maxKeysPerNode
    split
    · exact Nat.le_refl 3
    · omega
  refine ⟨⟨Impl.ok_initial.allocateNode true, ?_, by simp [itemIds_leaf], rfl⟩, ⟨?_, by simp⟩,
    rfl, rfl, rfl, hmax, ⟨by simp [slack], by simp, by simp⟩, ?_, ?_, ⟨rfl, trivial⟩, rfl⟩
  · intro j
    rw [hget, itemIds_leaf, List.mem_singleton, Function.update_apply]
    by_cases hj : j = 1
    · simp [hj]
    · simp [hj, hinit]
  · rw [hget]
    rfl
  · simp [itemEntries_leaf, Sorted]
  · simp [itemEntries_leaf]

/-! ## §2. `Put`. -/

/-- Another `size` is another counter only. -/
theorem Live.withSize {xs : List Nat} (h : Live t xs) (k : Nat) : Live { t with size := k } xs :=
  ⟨h.ok, h.used_iff, h.nodup, h.count⟩

/-- A new root above the two halves of the old one. -/
theorem growRoot_two {u w : Tree Bytes Bytes n} (hlive : Live t ([u, w].flatMap (itemIds (n + 1))))
    (hstored : ∀ i ∈ [u, w], Stored t.getNode (n + 1) i) (hroot : t.rootId = u.id)
    (hheight : t.height = n + 1) :
    ∃ id t', t.growRoot ⟨true, itemKey (n + 1) w, w.id⟩ = t' ∧
      Live t' (itemIds (n + 2) (⟨id, 0, [u, w]⟩ : Tree Bytes Bytes (n + 1))) ∧
      Stored t'.getNode (n + 2) (⟨id, 0, [u, w]⟩ : Tree Bytes Bytes (n + 1)) ∧
      t'.rootId = id ∧ t'.rootIsLeaf = false ∧ t'.height = n + 2 ∧ t'.options = t.options ∧
      t'.size = t.size := by
  let s' : Tree Bytes Bytes (n + 1) := ⟨(t.allocateNode false).1, 0, [u, w]⟩
  let t₁ := (t.allocateNode false).2.setNode s'.id (cell (n + 1) s')
  have halloc := Step.alloc hlive.ok false ([u, w].flatMap (itemIds (n + 1)))
  have hfresh := getNode_allocated hlive.ok false
  have hget := getNode_allocateNode hlive.ok false
  have hnew : (t.allocateNode false).2.getNode s'.id = some (Impl.newNode false) := by
    rw [hget, Function.update_self]
  have hget₁ : t₁.getNode = Function.update (Function.update t.getNode s'.id
      (some (Impl.newNode false))) s'.id (some (cell (n + 1) s')) := by
    rw [getNode_setNode hnew, hget]
  -- The id of the new root is free, so it is none of the ids below it.
  have hnot : ∀ i ∈ [u, w], s'.id ∉ itemIds (n + 1) i := by
    intro i hi hmem
    obtain ⟨x, hx⟩ := (hstored i hi).used _ hmem
    rw [hfresh] at hx
    exact absurd hx (by simp)
  have hstored₁ : Stored t₁.getNode (n + 2) s' := by
    refine ⟨by rw [hget₁, Function.update_self], fun i hi => ?_⟩
    rw [hget₁]
    exact ((hstored i hi).update (hnot i hi) _).update (hnot i hi) _
  -- The step takes the id off the free list and writes the root node.
  have hstep : Step t t₁ ([u, w].flatMap (itemIds (n + 1))) (itemIds (n + 2) s') :=
    halloc.trans (Step.write halloc.ok hnew List.mem_cons_self _)
  have hnd : (itemIds (n + 2) s').Nodup := by
    refine List.nodup_cons.mpr ⟨fun hmem => ?_, hlive.nodup⟩
    obtain ⟨i, hi, hid⟩ := List.mem_flatMap.mp hmem
    exact hnot i hi hid
  have hlive₁ := hlive.step hstep hnd hstored₁.used
  have hsame : (t.allocateNode false).2.rootId = u.id := hroot
  refine ⟨s'.id, { t₁ with rootId := s'.id, rootIsLeaf := false, height := t₁.height + 1 }, ?_,
    ⟨hlive₁.ok, hlive₁.used_iff, hnd, hlive₁.count⟩, hstored₁, rfl, rfl, ?_, rfl, rfl⟩
  · simp only [growRoot, if_true, hsame]
    rfl
  · show t.height + 1 = n + 2
    rw [hheight]

/-- **`Put` inserts into the entries.** -/
theorem put_spec (h : Represents t s) {key : Bytes} (hkey : key ≠ []) (value : Bytes) :
    ∃ (t' : BPlusTree) (m : Nat) (s' : Tree Bytes Bytes m), t.put key value = some (.okStatus, t') ∧
      Represents t' s' ∧ t'.options = t.options ∧
      itemEntries (m + 1) s' = insertEntry t.order key value (itemEntries (n + 1) s) := by
  obtain ⟨r, us, hrun, hins⟩ := insert_spec key value h.three h.live.ok h.lt_fuel h.stored
    h.live.nodup h.sized h.sorted
  have hrep := hins.replaced
  have hsame := hrep.step.same
  have hopt : r.tree.options = t.options := hsame.options
  let es := insertEntry t.order key value (itemEntries (n + 1) s)
  -- The key is not empty, so `Put` gets past its check; `size` grows exactly when the key was
  -- absent.
  have hput : t.put key value
      = some (.okStatus, { r.tree with size := es.length }.growRoot r.result) := by
    have hempty : key.isEmpty = false := by
      cases key with
      | nil => exact absurd rfl hkey
      | cons b bs => rfl
    have hsize : (if r.inserted then { r.tree with size := r.tree.size + 1 } else r.tree)
        = { r.tree with size := es.length } := by
      have hlen : es.length = if find t.order (itemEntries (n + 1) s) key = none
          then t.size + 1 else t.size := by
        rw [h.size]
        exact length_insertEntry h.sorted
      rw [hins.inserted, hlen, ← hsame.size]
      by_cases hf : find t.order (itemEntries (n + 1) s) key = none
      · rw [if_pos (decide_eq_true hf), if_pos hf]
      · rw [if_neg (by simpa using hf), if_neg hf]
    rw [← h.rootId] at hrun
    simp only [put, hempty, Bool.false_eq_true, if_false, hrun, Option.bind_eq_bind,
      Option.bind_some, hins.status, hsize]
    rfl
  have hstep := hrep.step
  have hleaves := hrep.leaves
  rw [List.flatMap_singleton] at hstep hleaves
  have hlive := (h.live.step hstep hrep.nodup (used_of_stored hrep.stored)).withSize es.length
  have hlinked := hleaves.linked 0 h.linked
  have hmax : r.tree.maxKeys = t.maxKeys := by rw [maxKeys, hopt]
  have hord : r.tree.order = t.order := by rw [order, hopt]
  have hsorted : Sorted t.order es := sorted_insertEntry h.sorted
  have hnamed : ∀ e ∈ es, e.1 ≠ [] := by
    intro e he
    rcases (mem_insertEntry h.sorted e).mp he with rfl | ⟨he, -⟩
    · exact hkey
    · exact h.named e he
  have hgrown := hins.grown
  have hentries : us.flatMap (itemEntries (n + 1)) = es := hins.entries
  have hstored := hrep.stored
  generalize r.result = result at hgrown hput
  -- One tree came back: the root stays. Two came back: a new root is written over them.
  cases hgrown with
  | @one u hid husize =>
      rw [List.flatMap_singleton] at hlive hlinked hentries
      refine ⟨{ r.tree with size := es.length }, n, u, hput, ?_, hopt, hentries⟩
      exact ⟨hlive, hstored u (by simp), hsame.rootId.trans (h.rootId.trans hid.symm),
        hsame.rootIsLeaf.trans h.rootIsLeaf, hsame.height.trans h.height, hmax ▸ h.three,
        hmax ▸ husize, by rw [hentries]; exact hord ▸ hsorted, hentries ▸ hnamed, hlinked,
        congrArg List.length hentries.symm⟩
  | @two u w hid hu hw =>
      obtain ⟨id, t', hgrow, hlive', hstored', hroot', hleaf', hheight', hopt', hsize'⟩ :=
        growRoot_two hlive hstored (hsame.rootId.trans (h.rootId.trans hid.symm))
          (hsame.height.trans h.height)
      have hopt'' : t'.options = t.options := hopt'.trans hopt
      have hmax' : t'.maxKeys = t.maxKeys := by rw [maxKeys, hopt'']
      have hord' : t'.order = t.order := by rw [order, hopt'']
      have h3 := h.three
      let s' : Tree Bytes Bytes (n + 1) := ⟨id, 0, [u, w]⟩
      have hentries' : itemEntries (n + 2) s' = es := hentries
      refine ⟨t', n + 1, s', hgrow ▸ hput, ?_, hopt'', hentries'⟩
      refine ⟨hlive', hstored', hroot', hleaf', hheight', hmax' ▸ h.three, ⟨?_, ?_, ?_⟩,
        by rw [hentries']; exact hord' ▸ hsorted, hentries' ▸ hnamed, hlinked,
        hsize'.trans (congrArg List.length hentries'.symm)⟩
      -- The new root has two children, which is within the bounds of a root.
      · exact Nat.le_refl 2
      · rw [hmax']
        show 2 ≤ _ + 1
        omega
      · intro i hi
        rw [hmax']
        rcases List.mem_cons.mp hi with rfl | hi
        · exact hu.filled
        · rw [List.mem_singleton.mp hi]
          exact hw.filled

/-! ## §3. `Delete`. -/

/-- What `collapseRoot` leaves of a tree whose root may have one child. -/
structure Collapsed (t t' : BPlusTree) {n m : Nat} (u : Tree Bytes Bytes n)
    (s' : Tree Bytes Bytes m) : Prop where
  live : Live t' (itemIds (m + 1) s')
  stored : Stored t'.getNode (m + 1) s'
  rootId : t'.rootId = s'.id
  rootIsLeaf : t'.rootIsLeaf = decide (m = 0)
  height : t'.height = m + 1
  options : t'.options = t.options
  size : t'.size = t.size
  sized : Sized (slack m) (t.maxKeys / 2) t.maxKeys s'
  entries : itemEntries (m + 1) s' = itemEntries (n + 1) u
  leaves : itemLeaves (m + 1) s' = itemLeaves (n + 1) u

theorem cell_isLeaf (u : Tree Bytes Bytes n) : (cell n u).isLeaf = decide (n = 0) := by
  cases n <;> rfl

theorem collapseRoot_spec {u : Tree Bytes Bytes n} (hlive : Live t (itemIds (n + 1) u))
    (hstored : Stored t.getNode (n + 1) u) (hroot : t.rootId = u.id)
    (hleaf : t.rootIsLeaf = decide (n = 0)) (hheight : t.height = n + 1) (h3 : 3 ≤ t.maxKeys)
    (hsize : Sized (slack n - 1) (t.maxKeys / 2) t.maxKeys u) :
    ∃ (t' : BPlusTree) (m : Nat) (s' : Tree Bytes Bytes m), t.collapseRoot = some t' ∧
      Collapsed t t' u s' := by
  cases n with
  | zero =>
      exact ⟨t, 0, u, if_pos hleaf, hlive, hstored, hroot, hleaf, hheight, rfl, rfl, hsize, rfl,
        rfl⟩
  | succ n =>
      have hleaf' : t.rootIsLeaf = false := hleaf
      have hget : t.getNode t.rootId = some (cell (n + 1) u) := hroot ▸ hstored.get
      have hlow := hsize.lower
      cases hi : u.items with
      | nil =>
          rw [hi] at hlow
          simp [slack] at hlow
      | cons c is =>
          have hc : c ∈ u.items := by rw [hi]; exact List.mem_cons_self
          cases is with
          | cons c' is =>
              refine ⟨t, n + 1, u, ?_, hlive, hstored, hroot, hleaf, hheight, rfl, rfl,
                ⟨?_, hsize.upper, hsize.below⟩, rfl, rfl⟩
              · simp only [collapseRoot, hleaf', Bool.false_eq_true, if_false, hget, cell, hi,
                  List.map_cons]
              · rw [hi]
                simp [slack]
          | nil =>
              -- the only child becomes the root
              let t₁ : BPlusTree := { t with
                rootId := c.id
                rootIsLeaf := (t.getNode c.id).any BTreeNode.isLeaf
                height := if t.height > 1 then t.height - 1 else t.height }
              have hids : itemIds (n + 2) u = u.id :: itemIds (n + 1) c := by
                rw [itemIds_succ (n + 1), hi, List.flatMap_singleton]
              have hlive₁ : Live t₁ (u.id :: itemIds (n + 1) c) := by
                rw [hids] at hlive
                exact ⟨hlive.ok, hlive.used_iff, hlive.nodup, hlive.count⟩
              have hu₁ : t₁.getNode u.id = some (cell (n + 1) u) := hstored.get
              have hcount : 0 < t₁.nodeCount := by
                rw [hlive₁.count]
                exact Nat.succ_pos _
              have hfree := Step.free hlive₁.ok hu₁ hcount (itemIds (n + 1) c)
              have hnot : u.id ∉ itemIds (n + 1) c := (List.nodup_cons.mp hlive₁.nodup).1
              have hstored₁ : Stored (t₁.freeNode u.id).getNode (n + 1) c := by
                rw [getNode_freeNode hlive₁.ok hu₁]
                exact Stored.update (hstored.2 c hc) hnot _
              refine ⟨t₁.freeNode u.id, n, c, ?_,
                hlive₁.step hfree (List.nodup_cons.mp hlive₁.nodup).2 hstored₁.used, hstored₁,
                hfree.same.rootId, ?_, ?_, hfree.same.options, hfree.same.size, ?_, ?_, ?_⟩
              · simp only [collapseRoot, hleaf', Bool.false_eq_true, if_false, hget, cell, hi,
                  List.map_cons, List.map_nil]
                rw [hroot]
              · rw [hfree.same.rootIsLeaf]
                show (t.getNode c.id).any BTreeNode.isLeaf = _
                rw [(hstored.2 c hc).1, Option.any_some, cell_isLeaf]
              · rw [hfree.same.height]
                show (if t.height > 1 then t.height - 1 else t.height) = _
                rw [hheight]
                simp
              · refine (hsize.below c hc).sized.weaken ?_
                have : slack n ≤ 1 := by cases n <;> simp [slack]
                omega
              · rw [itemEntries_succ (n + 1), hi, List.flatMap_singleton]
              · rw [itemLeaves_succ n u, hi, List.flatMap_singleton]

/-- **`Delete` removes from the entries.** -/
theorem delete_spec (h : Represents t s) (key : Bytes) :
    (find t.order (itemEntries (n + 1) s) key = none ∧
      t.delete key = some (.notFound "Key not found", t)) ∨
    (find t.order (itemEntries (n + 1) s) key ≠ none ∧
      ∃ (t' : BPlusTree) (m : Nat) (s' : Tree Bytes Bytes m),
        t.delete key = some (.okStatus, t') ∧ Represents t' s' ∧ t'.options = t.options ∧
        itemEntries (m + 1) s' = eraseEntry t.order key (itemEntries (n + 1) s)) := by
  have hids : (itemIds (n + 1) s).length ≤ t.nodeCount := Nat.le_of_eq h.live.count.symm
  have hlo : n ≠ 0 → 1 ≤ slack n := by
    intro hn
    cases n with
    | zero => exact absurd rfl hn
    | succ n => exact Nat.le_refl 1
  -- An empty tree answers before any descent.
  by_cases hzero : t.size = 0
  · left
    have hnil : itemEntries (n + 1) s = [] := by
      rw [h.size] at hzero
      exact List.length_eq_zero_iff.mp hzero
    exact ⟨by rw [hnil]; rfl, if_pos hzero⟩
  · rcases erase_spec key h.three h.live.ok true h.lt_fuel h.lt_fuel h.stored h.live.nodup hids hlo
      h.sized h.sorted h.named with ⟨habsent, hrun⟩ | ⟨hpresent, r, u, hrun, hrem⟩
    · refine Or.inl ⟨habsent, ?_⟩
      rw [← h.rootId] at hrun
      simp only [delete, if_neg hzero, hrun, Option.bind_eq_bind, Option.bind_some]
      rfl
    · refine Or.inr ⟨hpresent, ?_⟩
      have hrep := hrem.replaced
      have hsame := hrep.step.same
      have hstep := hrep.step
      have hnd := hrep.nodup
      have hleaves := hrep.leaves
      rw [List.flatMap_singleton, List.flatMap_singleton] at hstep hleaves
      rw [List.flatMap_singleton] at hnd
      have hstored := hrep.stored u (by simp)
      have hmax : r.tree.maxKeys = t.maxKeys := by rw [maxKeys, hsame.options]
      -- `Delete` decrements the size first and collapses the root of what is left.
      let t₁ : BPlusTree := { r.tree with size := r.tree.size - 1 }
      obtain ⟨t', m, s', hcollapse, hcol⟩ := collapseRoot_spec (t := t₁)
        ((h.live.step hstep hnd hstored.used).withSize _) hstored
        (hsame.rootId.trans (h.rootId.trans hrem.id.symm)) (hsame.rootIsLeaf.trans h.rootIsLeaf)
        (hsame.height.trans h.height) (hmax ▸ h.three) (hmax ▸ hrem.size)
      have hopt : t'.options = t.options := hcol.options.trans hsame.options
      have hmax' : t'.maxKeys = t.maxKeys := by rw [maxKeys, hopt]
      have hord : t'.order = t.order := by rw [order, hopt]
      have hentries := hcol.entries.trans hrem.entries
      refine ⟨t', m, s', ?_, ⟨hcol.live, hcol.stored, hcol.rootId, hcol.rootIsLeaf, hcol.height,
        hmax' ▸ h.three, ?_, ?_, ?_, ?_, ?_⟩, hopt, hentries⟩
      · rw [← h.rootId] at hrun
        simp only [delete, if_neg hzero, hrun, Option.bind_eq_bind, Option.bind_some, hrem.status,
          hrem.removed]
        rw [show t₁.collapseRoot = some t' from hcollapse]
        rfl
      · rw [hmax', ← hmax]
        exact hcol.sized
      · rw [hentries, hord]
        exact sorted_eraseEntry h.sorted
      · rw [hentries]
        exact fun e he => h.named e (mem_eraseEntry.mp he).1
      · rw [hcol.leaves]
        exact hleaves.linked 0 h.linked
      · have hlen := length_eraseEntry h.sorted hpresent
        have hsize : t'.size = r.tree.size - 1 := hcol.size
        rw [hsize, hentries, hsame.size, h.size]
        omega

end BPlusTree

end KvEngine
