/-
  KvEngine.BTree.Verified
  ───────────────────────
  **What a `Verify` that returns true says about any store**, also one no
  `Put` and `Delete` could have left.

  The walk compares each separator with the first key right of it, and each
  leaf's keys with each other; no key is compared with the separator right
  of it.  `verified_finds` says that this comparison is all that is missing:
  a tree that passes is sorted, and `Get` finds every key stored in it,
  exactly if every key is below the separator right of it (and the
  separators the walk skips, before an empty first key, are in place).
-/
import KvEngine.BTree.VerifyRun

namespace KvEngine

open Lib

theorem VerifyState.check_ok {v : VerifyState} {cond : Bool} (h : (v.check cond).ok = true) :
    v.ok = true ∧ cond = true := by
  unfold VerifyState.check at h
  exact Bool.and_eq_true_iff.mp h

namespace BPlusTree

/-! ## §1. The leaves of a store. -/

/-- The leaves below a node, from left to right. -/
def leavesFrom (t : BPlusTree) : Nat → Nat → List LeafNode
  | 0, _ => []
  | fuel + 1, id =>
      match t.getNode id with
      | none => []
      | some (.leaf leaf) => [leaf]
      | some (.internal internal) => internal.children.flatMap (t.leavesFrom fuel)

/-- All keys below a node. -/
def keysFrom (t : BPlusTree) (fuel id : Nat) : List Bytes :=
  (t.leavesFrom fuel id).flatMap LeafNode.keys

/-- The first key of the leftmost leaf; empty if that leaf is. -/
def firstKey (t : BPlusTree) (fuel id : Nat) : Bytes :=
  ((t.leavesFrom fuel id).head?.bind (·.keys.head?)).getD []

/-- Every key under child `i` is below separator `i`; a separator in front of a
child that starts with the empty key is not above the keys there. -/
def SeparatorsBound (t : BPlusTree) : Nat → Nat → Prop
  | 0, _ => True
  | fuel + 1, id =>
      match t.getNode id with
      | some (.internal internal) =>
          (∀ (i : Nat) child key, internal.children[i]? = some child →
            internal.keys[i]? = some key →
            ∀ k ∈ t.keysFrom fuel child, t.order.lt k key) ∧
          (∀ (i : Nat) child key, internal.children[i + 1]? = some child →
            internal.keys[i]? = some key →
            t.firstKey fuel child = [] → ∀ k ∈ t.keysFrom fuel child, ¬ t.order.lt k key) ∧
          ∀ child ∈ internal.children, t.SeparatorsBound fuel child
      | _ => True

/-- What the walk checks of a subtree, but for the occupancy and the depth. -/
def Checked (t : BPlusTree) : Nat → Nat → Prop
  | 0, _ => False
  | fuel + 1, id =>
      match t.getNode id with
      | none => False
      | some (.leaf leaf) => leaf.keys.Pairwise t.order.lt
      | some (.internal internal) =>
          internal.children.length = internal.keys.length + 1 ∧
          internal.keys.Pairwise t.order.lt ∧
          (∀ (i : Nat) child key, internal.children[i + 1]? = some child →
            internal.keys[i]? = some key →
            t.firstKey fuel child ≠ [] → key = t.firstKey fuel child) ∧
          ∀ child ∈ internal.children, t.Checked fuel child

variable {t : BPlusTree}

theorem leavesFrom_leaf {fuel id : Nat} {leaf : LeafNode} (h : t.getNode id = some (.leaf leaf)) :
    t.leavesFrom (fuel + 1) id = [leaf] := by
  unfold leavesFrom
  simp only [h]

theorem leavesFrom_internal {fuel id : Nat} {internal : InternalNode}
    (h : t.getNode id = some (.internal internal)) :
    t.leavesFrom (fuel + 1) id = internal.children.flatMap (t.leavesFrom fuel) := by
  rw [leavesFrom]
  simp only [h]

theorem keysFrom_leaf {fuel id : Nat} {leaf : LeafNode} (h : t.getNode id = some (.leaf leaf)) :
    t.keysFrom (fuel + 1) id = leaf.keys := by
  unfold keysFrom
  rw [leavesFrom_leaf h, List.flatMap_singleton]

theorem keysFrom_internal {fuel id : Nat} {internal : InternalNode}
    (h : t.getNode id = some (.internal internal)) :
    t.keysFrom (fuel + 1) id = internal.children.flatMap (t.keysFrom fuel) := by
  unfold keysFrom
  rw [leavesFrom_internal h, List.flatMap_assoc]

/-! ## §2. What the walk checks. -/

theorem pairwise_of_keysStrictlyIncreasing {comparator : Option Comparator} :
    ∀ {keys : List Bytes}, keysStrictlyIncreasing comparator keys = true →
      keys.Pairwise (keyOrder comparator).lt := by
  intro keys
  induction keys with
  | nil => exact fun _ => List.Pairwise.nil
  | cons a keys ih =>
      intro h
      cases keys with
      | nil => exact List.pairwise_singleton _ _
      | cons b keys =>
          unfold keysStrictlyIncreasing at h
          obtain ⟨hab, hrest⟩ := Bool.and_eq_true_iff.mp h
          have hlt : (keyOrder comparator).lt a b := by
            rw [compareKeys_eq] at hab
            have : ¬ (keyOrder comparator).compare a b ≥ 0 := by simpa using hab
            show (keyOrder comparator).compare a b < 0
            omega
          have hp := ih hrest
          refine List.pairwise_cons.mpr ⟨fun k hk => ?_, hp⟩
          rcases List.mem_cons.mp hk with rfl | hk
          · exact hlt
          · exact (keyOrder comparator).lt_trans hlt ((List.pairwise_cons.mp hp).1 k hk)

/-- The separators compared are the first keys, where these are not empty. -/
theorem checkSeparators_ok {comparator : Option Comparator} :
    ∀ {firsts keys : List Bytes} {v v' : VerifyState},
      checkSeparators comparator firsts keys v = some v' → v'.ok = true →
      v.ok = true ∧ ∀ (i : Nat) first key, firsts[i]? = some first → keys[i]? = some key →
        first ≠ [] → key = first := by
  intro firsts
  induction firsts with
  | nil =>
      intro keys v v' h hok
      unfold checkSeparators at h
      rw [Option.some.inj h]
      exact ⟨hok, fun i first key hi => by simp at hi⟩
  | cons first firsts ih =>
      intro keys v v' h hok
      unfold checkSeparators at h
      split at h
      next hempty =>
        -- an empty first key: the comparison is skipped
        obtain ⟨hv, hrest⟩ := ih h hok
        refine ⟨hv, fun i f key hi hkey hne => ?_⟩
        cases i with
        | zero =>
            rw [List.getElem?_cons_zero] at hi
            rw [← Option.some.inj hi] at hne
            exact absurd (List.isEmpty_iff.mp hempty) hne
        | succ i =>
            rw [List.getElem?_cons_succ] at hi
            refine hrest i f key hi ?_ hne
            rw [List.getElem?_tail]
            exact hkey
      next hne =>
        cases keys with
        | nil => cases h
        | cons key keys =>
            obtain ⟨hv, hrest⟩ := ih h hok
            obtain ⟨hv, hcmp⟩ := VerifyState.check_ok hv
            refine ⟨hv, fun i f k hi hk hf => ?_⟩
            cases i with
            | zero =>
                rw [List.getElem?_cons_zero] at hi hk
                rw [← Option.some.inj hi, ← Option.some.inj hk]
                rw [compareKeys_eq] at hcmp
                exact (keyOrder comparator).compare_eq_zero_iff.mp (by simpa using hcmp)
            | succ i =>
                rw [List.getElem?_cons_succ] at hi hk
                exact hrest i f k hi hk hf

/-- The loop over the children, given what the walk says of each child. -/
theorem verify_children_ok {fuel : Nat} {depth : Int} {children : List Nat}
    (hchild : ∀ c ∈ children, ∀ (v v' : VerifyState) (first : Bytes),
      t.verifyNode fuel c depth false v = some (first, v') → v'.ok = true →
        v.ok = true ∧ first = t.firstKey fuel c ∧ t.Checked fuel c) :
    ∀ {firsts firsts' : List Bytes} {v v' : VerifyState},
      children.foldlM
        (fun (acc : List Bytes × VerifyState) child => do
          let (first, v) ← t.verifyNode fuel child depth false acc.2
          some (acc.1 ++ [first], v))
        (firsts, v) = some (firsts', v') → v'.ok = true →
      v.ok = true ∧ firsts' = firsts ++ children.map (t.firstKey fuel) ∧
        ∀ c ∈ children, t.Checked fuel c := by
  induction children with
  | nil =>
      intro firsts firsts' v v' h hok
      obtain ⟨rfl, rfl⟩ := Prod.mk.inj (Option.some.inj h)
      exact ⟨hok, by simp, by simp⟩
  | cons c children ih =>
      intro firsts firsts' v v' h hok
      rw [List.foldlM_cons] at h
      simp only [Option.bind_eq_bind, Option.bind_eq_some_iff, Prod.exists, Option.some.injEq,
        Prod.mk.injEq] at h
      obtain ⟨fs, v₁, ⟨first, v₂, hnode, rfl, rfl⟩, hrest⟩ := h
      -- `ok` is never set back, so it held after every child.
      obtain ⟨hv₂, hfirsts, hall⟩ :=
        ih (fun c hc => hchild c (List.mem_cons_of_mem _ hc)) hrest hok
      obtain ⟨hv, rfl, hc⟩ := hchild c List.mem_cons_self v v₂ first hnode hv₂
      refine ⟨hv, ?_, fun q hq => ?_⟩
      · rw [hfirsts, List.map_cons, List.append_assoc, List.singleton_append]
      · rcases List.mem_cons.mp hq with rfl | hq
        · exact hc
        · exact hall q hq

theorem firstKey_leaf {fuel id : Nat} {leaf : LeafNode} (h : t.getNode id = some (.leaf leaf)) :
    t.firstKey (fuel + 1) id = leaf.keys.headD [] := by
  unfold firstKey
  rw [leavesFrom_leaf h, List.head?_cons, Option.bind_some]
  cases leaf.keys <;> rfl

/-- A checked subtree has a leaf, and its first child has the leftmost one. -/
theorem Checked.leaves_ne_nil :
    ∀ {fuel id : Nat}, t.Checked fuel id → t.leavesFrom fuel id ≠ [] := by
  intro fuel
  induction fuel with
  | zero => exact fun h => h.elim
  | succ fuel ih =>
      intro id h
      unfold Checked at h
      split at h
      next => exact h.elim
      next leaf hget =>
        rw [leavesFrom_leaf hget]
        exact List.cons_ne_nil _ _
      next internal hget =>
        obtain ⟨hlen, -, -, hchildren⟩ := h
        rw [leavesFrom_internal hget]
        cases hc : internal.children with
        | nil =>
            rw [hc] at hlen
            cases hlen
        | cons c children =>
            intro hnil
            have hleaf := ih (hchildren c (by rw [hc]; exact List.mem_cons_self))
            exact hleaf (List.append_eq_nil_iff.mp hnil).1

theorem firstKey_internal {fuel id c : Nat} {children : List Nat} {internal : InternalNode}
    (h : t.getNode id = some (.internal internal)) (hc : internal.children = c :: children)
    (hchecked : t.Checked fuel c) : t.firstKey (fuel + 1) id = t.firstKey fuel c := by
  obtain ⟨leaf, leaves, hleaves⟩ := List.exists_cons_of_ne_nil hchecked.leaves_ne_nil
  unfold firstKey
  rw [leavesFrom_internal h, hc, List.flatMap_cons, hleaves]
  rfl

theorem checked_leaf {fuel id : Nat} {leaf : LeafNode} (h : t.getNode id = some (.leaf leaf)) :
    t.Checked (fuel + 1) id ↔ leaf.keys.Pairwise t.order.lt := by
  rw [Checked]
  simp only [h]

theorem checked_internal {fuel id : Nat} {internal : InternalNode}
    (h : t.getNode id = some (.internal internal)) :
    t.Checked (fuel + 1) id ↔ internal.children.length = internal.keys.length + 1 ∧
      internal.keys.Pairwise t.order.lt ∧
      (∀ (i : Nat) child key, internal.children[i + 1]? = some child →
        internal.keys[i]? = some key → t.firstKey fuel child ≠ [] → key = t.firstKey fuel child) ∧
      ∀ child ∈ internal.children, t.Checked fuel child := by
  rw [Checked]
  simp only [h]

/-- **A walk that finds no fault** has checked the subtree, and returns its first
key. -/
theorem verifyNode_ok :
    ∀ {fuel id : Nat} {depth : Int} {isRoot : Bool} {v v' : VerifyState} {first : Bytes},
      t.verifyNode fuel id depth isRoot v = some (first, v') → v'.ok = true →
      v.ok = true ∧ first = t.firstKey fuel id ∧ t.Checked fuel id := by
  intro fuel
  induction fuel with
  | zero =>
      intro id depth isRoot v v' first h _
      cases h
  | succ fuel ih =>
      intro id depth isRoot v v' first h hok
      unfold verifyNode at h
      split at h
      next hget =>
        obtain ⟨-, rfl⟩ := Prod.mk.inj (Option.some.inj h)
        cases hok
      next leaf hget =>
        obtain ⟨rfl, rfl⟩ := Prod.mk.inj (Option.some.inj h)
        -- whatever is done about the depth, the earlier checks held
        have hchecks : ((v.check (keysStrictlyIncreasing t.options.comparator leaf.keys)).check
            (isRoot || !decide (leaf.keys.length < t.options.maxKeysPerNode / 2))).ok = true := by
          simp only at hok
          split at hok
          · exact hok
          · exact (VerifyState.check_ok hok).1
        obtain ⟨hkeys, -⟩ := VerifyState.check_ok hchecks
        obtain ⟨hv, hsorted⟩ := VerifyState.check_ok hkeys
        exact ⟨hv, (firstKey_leaf hget).symm,
          (checked_leaf hget).mpr (pairwise_of_keysStrictlyIncreasing hsorted)⟩
      next internal hget =>
        simp only [Option.bind_eq_bind, Option.bind_eq_some_iff, Prod.exists, Option.some.injEq,
          Prod.mk.injEq] at h
        obtain ⟨firsts, v₁, hwalk, v₂, hseps, rfl, rfl⟩ := h
        obtain ⟨hv₁, hcompared⟩ := checkSeparators_ok hseps hok
        obtain ⟨hv₀, hfirsts, hchildren⟩ :=
          verify_children_ok (fun c _ v v' first => ih) hwalk hv₁
        obtain ⟨hv₀, hkeys⟩ := VerifyState.check_ok hv₀
        obtain ⟨hv₀, -⟩ := VerifyState.check_ok hv₀
        obtain ⟨hv, hlen⟩ := VerifyState.check_ok hv₀
        obtain ⟨hlen, -⟩ := Bool.and_eq_true_iff.mp hlen
        have hlen' : internal.children.length = internal.keys.length + 1 := by simpa using hlen
        rw [List.nil_append] at hfirsts
        subst hfirsts
        refine ⟨hv, ?_, (checked_internal hget).mpr
          ⟨hlen', pairwise_of_keysStrictlyIncreasing hkeys, ?_, hchildren⟩⟩
        · obtain ⟨c, children, hc⟩ := List.exists_cons_of_length_eq_add_one hlen'
          rw [firstKey_internal hget hc (hchildren c (by rw [hc]; exact List.mem_cons_self)), hc]
          rfl
        · intro i child key hchild hkey hne
          refine hcompared i _ key ?_ hkey hne
          rw [List.getElem?_tail, List.getElem?_map, hchild]
          rfl

theorem checked_of_verify (h : t.verify = some true) : t.Checked t.fuel t.rootId := by
  unfold verify at h
  split at h
  · cases h
  · simp only [Option.bind_eq_bind, Option.bind_eq_some_iff, Prod.exists] at h
    obtain ⟨first, v, hnode, h⟩ := h
    have hok : (v.check (v.counted == t.size)).ok = true := by
      split at h
      · obtain ⟨chained, -, h⟩ := Option.bind_eq_some_iff.mp h
        exact (Bool.and_eq_true_iff.mp (Option.some.inj h)).1
      · exact Option.some.inj h
    exact (verifyNode_ok hnode (VerifyState.check_ok hok).1).2.2

/-! ## §3. Separators and the keys around them. -/

theorem separatorsBound_internal {fuel id : Nat} {internal : InternalNode}
    (h : t.getNode id = some (.internal internal)) :
    t.SeparatorsBound (fuel + 1) id ↔
      (∀ (i : Nat) child key, internal.children[i]? = some child → internal.keys[i]? = some key →
        ∀ k ∈ t.keysFrom fuel child, t.order.lt k key) ∧
      (∀ (i : Nat) child key, internal.children[i + 1]? = some child →
        internal.keys[i]? = some key → t.firstKey fuel child = [] →
        ∀ k ∈ t.keysFrom fuel child, ¬ t.order.lt k key) ∧
      ∀ child ∈ internal.children, t.SeparatorsBound fuel child := by
  rw [SeparatorsBound]
  simp only [h]

/-- Later separators are not below earlier ones. -/
theorem separators_le {c : Comparator} {keys : List Bytes} (hkeys : keys.Pairwise c.lt) {i j : Nat}
    {a b : Bytes} (hij : i ≤ j) (hi : keys[i]? = some a) (hj : keys[j]? = some b) :
    ¬ c.lt b a := by
  obtain ⟨hi', rfl⟩ := List.getElem?_eq_some_iff.mp hi
  obtain ⟨hj', rfl⟩ := List.getElem?_eq_some_iff.mp hj
  rcases Nat.lt_or_eq_of_le hij with hlt | rfl
  · exact c.lt_asymm (List.pairwise_iff_getElem.mp hkeys i j hi' hj' hlt)
  · exact c.lt_irrefl _

/-- The place of a key among the separators. -/
theorem upperBound_eq {cmp : Option Comparator} {keys : List Bytes}
    (hkeys : keys.Pairwise (keyOrder cmp).lt) {key : Bytes} {i : Nat} (hi : i ≤ keys.length)
    (hright : ∀ b, keys[i]? = some b → (keyOrder cmp).lt key b)
    (hleft : ∀ (j : Nat) a, i = j + 1 → keys[j]? = some a → ¬ (keyOrder cmp).lt key a) :
    upperBound keys key cmp = i := by
  have hcut : keys = keys.take i ++ keys.drop i := (List.take_append_drop i keys).symm
  have hlen : (keys.take i).length = i := by
    rw [List.length_take]
    omega
  unfold upperBound
  rw [hcut, bisect_append, hlen]
  -- the last separator before the place is not above the key
  · intro a ha
    obtain ⟨m, hm⟩ := List.mem_iff_getElem?.mp ha
    rw [List.getElem?_take] at hm
    split at hm
    next hlt =>
      obtain ⟨j, rfl⟩ : ∃ j, i = j + 1 := ⟨i - 1, by omega⟩
      have hj : ∃ b, keys[j]? = some b := ⟨_, List.getElem?_eq_getElem (by omega)⟩
      obtain ⟨b, hb⟩ := hj
      have hle := hleft j b rfl hb
      have hle' := separators_le hkeys (show m ≤ j by omega) hm hb
      rw [decide_eq_true_eq, compareKeys_eq, (keyOrder cmp).compare_nonpos_iff]
      exact fun hlt => hle' ((keyOrder cmp).lt_of_not_lt_of_lt hle hlt)
    next => exact absurd hm (by simp)
  · intro b hb
    obtain ⟨m, hm⟩ := List.mem_iff_getElem?.mp hb
    rw [List.getElem?_drop] at hm
    have hi : ∃ a, keys[i]? = some a := by
      obtain ⟨hlt, -⟩ := List.getElem?_eq_some_iff.mp hm
      exact ⟨_, List.getElem?_eq_getElem (show i < keys.length by omega)⟩
    obtain ⟨a, ha⟩ := hi
    have hlt := hright a ha
    have hle := separators_le hkeys (Nat.le_add_right i m) ha hm
    rw [decide_eq_false_iff_not, compareKeys_eq, (keyOrder cmp).compare_nonpos_iff, not_not]
    exact (keyOrder cmp).lt_of_lt_of_not_lt hlt hle

theorem upperBound_place {cmp : Option Comparator} {keys : List Bytes}
    (hkeys : keys.Pairwise (keyOrder cmp).lt) (key : Bytes) :
    (∀ b, keys[upperBound keys key cmp]? = some b → (keyOrder cmp).lt key b) ∧
      ∀ (j : Nat) a, upperBound keys key cmp = j + 1 → keys[j]? = some a →
        ¬ (keyOrder cmp).lt key a := by
  obtain ⟨ys, zs, rfl, hy, hz⟩ := exists_prefix_of_pairwise
    (fun k => decide (compareKeys cmp k key ≤ 0))
    (fun a b hab hr => by
      rw [decide_eq_true_eq, compareKeys_eq, (keyOrder cmp).compare_nonpos_iff] at hr ⊢
      exact fun hlt => hr ((keyOrder cmp).lt_trans hlt hab)) keys hkeys
  have hpos : upperBound (ys ++ zs) key cmp = ys.length := bisect_append hy hz
  rw [hpos]
  refine ⟨fun b hb => ?_, fun j a hj ha => ?_⟩
  · rw [List.getElem?_append_right (Nat.le_refl _)] at hb
    have := hz b (List.mem_of_getElem? hb)
    rw [decide_eq_false_iff_not, compareKeys_eq, (keyOrder cmp).compare_nonpos_iff, not_not] at this
    exact this
  · rw [List.getElem?_append_left (by omega)] at ha
    have := hy a (List.mem_of_getElem? ha)
    rwa [decide_eq_true_eq, compareKeys_eq, (keyOrder cmp).compare_nonpos_iff] at this

/-- No key of a sorted subtree is below its first key. -/
theorem not_lt_firstKey {fuel c : Nat} (hsorted : (t.keysFrom fuel c).Pairwise t.order.lt)
    (hne : t.firstKey fuel c ≠ []) :
    ∀ k ∈ t.keysFrom fuel c, ¬ t.order.lt k (t.firstKey fuel c) := by
  unfold keysFrom firstKey at *
  cases hl : t.leavesFrom fuel c with
  | nil =>
      rw [hl] at hne
      exact absurd rfl hne
  | cons leaf leaves =>
      rw [hl] at hsorted hne
      intro k hk
      rw [List.head?_cons, Option.bind_some] at hne ⊢
      rw [List.flatMap_cons] at hk hsorted
      cases hkeys : leaf.keys with
      | nil =>
          rw [hkeys] at hne
          exact absurd rfl hne
      | cons a as =>
          rw [hkeys, List.cons_append] at hk hsorted
          rw [List.head?_cons, Option.getD_some]
          rcases List.mem_cons.mp hk with rfl | hk
          · exact t.order.lt_irrefl _
          · exact t.order.lt_asymm ((List.pairwise_cons.mp hsorted).1 k hk)

/-! ## §4. A checked tree whose separators bound their keys. -/

/-- No key is below the separator left of it. -/
theorem not_lt_separator {fuel id : Nat} {internal : InternalNode}
    (hget : t.getNode id = some (.internal internal)) (hc : t.Checked (fuel + 1) id)
    (hb : t.SeparatorsBound (fuel + 1) id) {i child : Nat} {key : Bytes}
    (hchild : internal.children[i + 1]? = some child) (hkey : internal.keys[i]? = some key)
    (hsorted : (t.keysFrom fuel child).Pairwise t.order.lt) :
    ∀ k ∈ t.keysFrom fuel child, ¬ t.order.lt k key := by
  obtain ⟨-, -, hfirst, -⟩ := (checked_internal hget).mp hc
  obtain ⟨-, hskipped, -⟩ := (separatorsBound_internal hget).mp hb
  by_cases hne : t.firstKey fuel child = []
  · exact hskipped i child key hchild hkey hne
  · rw [hfirst i child key hchild hkey hne]
    exact not_lt_firstKey hsorted hne

/-- **The keys are sorted**, across all leaves. -/
theorem keysFrom_sorted :
    ∀ {fuel id : Nat}, t.Checked fuel id → t.SeparatorsBound fuel id →
      (t.keysFrom fuel id).Pairwise t.order.lt := by
  intro fuel
  induction fuel with
  | zero => exact fun h => h.elim
  | succ fuel ih =>
      intro id hc hb
      cases hget : t.getNode id with
      | none =>
          rw [Checked] at hc
          simp only [hget] at hc
      | some node =>
          cases node with
          | leaf leaf =>
              rw [keysFrom_leaf hget]
              exact (checked_leaf hget).mp hc
          | internal internal =>
              obtain ⟨hlen, hkeys, -, hchildren⟩ := (checked_internal hget).mp hc
              obtain ⟨hbelow, -, hsub⟩ := (separatorsBound_internal hget).mp hb
              have hsorted : ∀ c ∈ internal.children, (t.keysFrom fuel c).Pairwise t.order.lt :=
                fun c hmem => ih (hchildren c hmem) (hsub c hmem)
              rw [keysFrom_internal hget, List.pairwise_flatMap]
              refine ⟨hsorted, List.pairwise_iff_getElem.mpr (fun i j hi hj hij x hx y hy => ?_)⟩
              -- `x` is below separator `i`, and `y` not below separator `j - 1`
              obtain ⟨m, rfl⟩ : ∃ m, j = m + 1 := ⟨j - 1, by omega⟩
              have hki : ∃ k, internal.keys[i]? = some k :=
                ⟨_, List.getElem?_eq_getElem (by omega)⟩
              have hkm : ∃ k, internal.keys[m]? = some k :=
                ⟨_, List.getElem?_eq_getElem (by omega)⟩
              obtain ⟨ki, hki⟩ := hki
              obtain ⟨km, hkm⟩ := hkm
              have hxlt := hbelow i _ _ (List.getElem?_eq_getElem hi) hki x hx
              have hle := separators_le hkeys (show i ≤ m by omega) hki hkm
              have hyle := not_lt_separator hget hc hb (List.getElem?_eq_getElem hj) hkm
                (hsorted _ (List.getElem_mem hj)) y hy
              exact t.order.lt_of_lt_of_not_lt (t.order.lt_of_lt_of_not_lt hxlt hle) hyle

/-- The descent for `key` ends in a leaf that holds it. -/
def Finds (t : BPlusTree) (fuel id : Nat) (key : Bytes) : Prop :=
  ∃ leafId leaf, t.findLeafFrom key fuel id = some leafId ∧
    t.getNode leafId = some (.leaf leaf) ∧ leaf ∈ t.leavesFrom fuel id ∧ key ∈ leaf.keys

/-- A leaf the descent ends in is one of the leaves below. -/
theorem findLeafFrom_mem {key : Bytes} :
    ∀ {fuel id leafId : Nat} {leaf : LeafNode}, t.findLeafFrom key fuel id = some leafId →
      t.getNode leafId = some (.leaf leaf) → leaf ∈ t.leavesFrom fuel id := by
  intro fuel
  induction fuel with
  | zero =>
      intro id leafId leaf h _
      cases h
  | succ fuel ih =>
      intro id leafId leaf h hleaf
      have hid : leafId ≠ 0 := Impl.ne_zero_of_getNode hleaf
      unfold findLeafFrom at h
      split at h
      -- A missing node ends the descent at id 0, which no leaf has.
      next hget => exact absurd (Option.some.inj h).symm hid
      next l hget =>
        rw [← Option.some.inj h] at hleaf
        rw [leavesFrom_leaf hleaf]
        exact List.mem_cons_self
      next internal hget =>
        split at h
        next => exact absurd (Option.some.inj h).symm hid
        next child hchild =>
          rw [leavesFrom_internal hget]
          exact List.mem_flatMap.mpr ⟨child, List.mem_of_getElem? hchild, ih h hleaf⟩

theorem finds_leaf {fuel id : Nat} {leaf : LeafNode} (h : t.getNode id = some (.leaf leaf))
    {key : Bytes} (hkey : key ∈ leaf.keys) : t.Finds (fuel + 1) id key := by
  refine ⟨id, leaf, ?_, h, ?_, hkey⟩
  · unfold findLeafFrom
    simp only [h]
  · rw [leavesFrom_leaf h]
    exact List.mem_cons_self

/-- The descent through an internal node. -/
theorem finds_internal {fuel id : Nat} {internal : InternalNode}
    (h : t.getNode id = some (.internal internal)) {key : Bytes} :
    t.Finds (fuel + 1) id key ↔ ∃ child,
      internal.children[upperBound internal.keys key t.options.comparator]? = some child ∧
      t.Finds fuel child key := by
  unfold Finds
  constructor
  · rintro ⟨leafId, leaf, hrun, hleaf, hmem, hkey⟩
    unfold findLeafFrom at hrun
    simp only [h] at hrun
    split at hrun
    next hnone =>
      -- no such child: the descent ends at id 0, which is no leaf
      exact absurd (Option.some.inj hrun).symm (Impl.ne_zero_of_getNode hleaf)
    next child hchild =>
      exact ⟨child, hchild, leafId, leaf, hrun, hleaf, findLeafFrom_mem hrun hleaf, hkey⟩
  · rintro ⟨child, hchild, leafId, leaf, hrun, hleaf, hmem, hkey⟩
    refine ⟨leafId, leaf, ?_, hleaf, ?_, hkey⟩
    · unfold findLeafFrom
      simp only [h, hchild]
      exact hrun
    · rw [leavesFrom_internal h]
      exact List.mem_flatMap.mpr ⟨child, List.mem_of_getElem? hchild, hmem⟩

/-- **The descent for a stored key ends in its leaf.** -/
theorem finds_of_bound :
    ∀ {fuel id : Nat}, t.Checked fuel id → t.SeparatorsBound fuel id →
      ∀ key ∈ t.keysFrom fuel id, t.Finds fuel id key := by
  intro fuel
  induction fuel with
  | zero => exact fun h => h.elim
  | succ fuel ih =>
      intro id hc hb key hkey
      cases hget : t.getNode id with
      | none =>
          rw [Checked] at hc
          simp only [hget] at hc
      | some node =>
          cases node with
          | leaf leaf =>
              rw [keysFrom_leaf hget] at hkey
              exact finds_leaf hget hkey
          | internal internal =>
              obtain ⟨hlen, hkeys, -, hchildren⟩ := (checked_internal hget).mp hc
              obtain ⟨hbelow, -, hsub⟩ := (separatorsBound_internal hget).mp hb
              rw [keysFrom_internal hget] at hkey
              obtain ⟨c, hmem, hkey⟩ := List.mem_flatMap.mp hkey
              obtain ⟨i, hi⟩ := List.mem_iff_getElem?.mp hmem
              have hi' : i < internal.children.length := (List.getElem?_eq_some_iff.mp hi).1
              -- The separators around the child enclose its keys, so the search takes that child.
              have hplace : upperBound internal.keys key t.options.comparator = i := by
                refine upperBound_eq hkeys (by omega) (fun b hb' => hbelow i c b hi hb' key hkey) ?_
                rintro j a rfl ha
                exact not_lt_separator hget hc hb hi ha
                  (keysFrom_sorted (hchildren c hmem) (hsub c hmem)) key hkey
              refine (finds_internal hget).mpr ⟨c, ?_, ih (hchildren c hmem) (hsub c hmem) key hkey⟩
              rw [hplace]
              exact hi

/-! ## §5. A tree in which every key is found. -/

/-- **Only bounding separators let every key be found**, each in its own leaf. -/
theorem bound_of_finds :
    ∀ {fuel id : Nat}, t.Checked fuel id → (t.keysFrom fuel id).Pairwise t.order.lt →
      (∀ key ∈ t.keysFrom fuel id, t.Finds fuel id key) → t.SeparatorsBound fuel id := by
  intro fuel
  induction fuel with
  | zero => exact fun h => h.elim
  | succ fuel ih =>
      intro id hc hsorted hfinds
      cases hget : t.getNode id with
      | none =>
          rw [SeparatorsBound]
          simp only [hget]
      | some node =>
          cases node with
          | leaf leaf =>
              rw [SeparatorsBound]
              simp only [hget]
          | internal internal =>
              obtain ⟨hlen, hkeys, -, hchildren⟩ := (checked_internal hget).mp hc
              rw [keysFrom_internal hget] at hsorted hfinds
              obtain ⟨hwithin, hacross⟩ := List.pairwise_flatMap.mp hsorted
              -- a key is stored under one child only, so its descent goes there
              have hroute : ∀ i child, internal.children[i]? = some child →
                  ∀ k ∈ t.keysFrom fuel child,
                    upperBound internal.keys k t.options.comparator = i ∧ t.Finds fuel child k := by
                intro i child hi k hk
                have hmem := List.mem_of_getElem? hi
                obtain ⟨child', hchild', hf⟩ := (finds_internal hget).mp
                  (hfinds k (List.mem_flatMap.mpr ⟨child, hmem, hk⟩))
                have ⟨leafId, leaf, _, _, hleaf, hkl⟩ := hf
                have hk' : k ∈ t.keysFrom fuel child' := List.mem_flatMap.mpr ⟨leaf, hleaf, hkl⟩
                obtain ⟨hi₁, rfl⟩ := List.getElem?_eq_some_iff.mp hi
                obtain ⟨hi₂, rfl⟩ := List.getElem?_eq_some_iff.mp hchild'
                have hsame : upperBound internal.keys k t.options.comparator = i := by
                  by_contra hne
                  rcases Nat.lt_or_gt_of_ne hne with hlt | hgt
                  · exact t.order.lt_irrefl k
                      (List.pairwise_iff_getElem.mp hacross _ _ hi₂ hi₁ hlt k hk' k hk)
                  · exact t.order.lt_irrefl k
                      (List.pairwise_iff_getElem.mp hacross _ _ hi₁ hi₂ hgt k hk k hk')
                refine ⟨hsame, ?_⟩
                simp only [hsame] at hf
                exact hf
              refine (separatorsBound_internal hget).mpr ⟨?_, ?_, fun child hmem => ?_⟩
              · intro i child key hi hkey k hk
                obtain ⟨hright, -⟩ := upperBound_place hkeys k
                rw [(hroute i child hi k hk).1] at hright
                exact hright key hkey
              · intro i child key hi hkey _ k hk
                exact (upperBound_place hkeys k).2 i key (hroute (i + 1) child hi k hk).1 hkey
              · obtain ⟨i, hi⟩ := List.mem_iff_getElem?.mp hmem
                exact ih (hchildren child hmem) (hwithin child hmem)
                  (fun k hk => (hroute i child hi k hk).2)

/-! ## §6. `Get`. -/

theorem get_of_finds {key : Bytes} (hf : t.Finds t.fuel t.rootId key)
    (hsorted : (t.keysFrom t.fuel t.rootId).Pairwise t.order.lt)
    (hvalues : ∀ leaf ∈ t.leavesFrom t.fuel t.rootId, leaf.values.length = leaf.keys.length) :
    ∃ value, t.get key = some (.okStatus, some value) := by
  obtain ⟨leafId, leaf, hrun, hleaf, hmem, hkey⟩ := hf
  have hid : leafId ≠ 0 := Impl.ne_zero_of_getNode hleaf
  -- the entries of the leaf as pairs
  have hlen := hvalues leaf hmem
  have hfst : (leaf.keys.zip leaf.values).map Prod.fst = leaf.keys :=
    List.map_fst_zip (Nat.le_of_eq hlen.symm)
  have hleafSorted : leaf.keys.Pairwise t.order.lt :=
    (List.pairwise_flatMap.mp hsorted).1 leaf hmem
  have hentries : Sorted t.order (leaf.keys.zip leaf.values) := by
    rw [← hfst] at hleafSorted
    exact List.pairwise_map.mp hleafSorted
  have hsearch := search_leaf key hentries
  rw [hfst] at hsearch
  rcases hsearch with ⟨xs, v, ys, hes, hpos, hat, -⟩ | ⟨xs, ys, hes, -, -, hx, hy⟩
  · have hvalue : leaf.values[xs.length]? = some v := by
      have hsnd : (leaf.keys.zip leaf.values).map Prod.snd = leaf.values :=
        List.map_snd_zip (Nat.le_of_eq hlen)
      rw [← hsnd, hes]
      exact getElem?_map_append_cons Prod.snd xs (key, v) ys
    refine ⟨v, ?_⟩
    unfold get findLeaf
    simp only [hrun, if_neg hid, leafAt_eq hleaf, Option.bind_eq_bind, Option.bind_some, hpos, hat,
      if_true, hvalue]
  -- the key would have to be below or above itself
  · rw [← hfst, hes] at hkey
    obtain ⟨e, he, rfl⟩ := List.mem_map.mp hkey
    rcases List.mem_append.mp he with he | he
    · exact absurd (hx e he) (t.order.lt_irrefl _)
    · exact absurd (hy e he) (t.order.lt_irrefl _)

theorem finds_of_get {key value : Bytes} (h : t.get key = some (.okStatus, some value)) :
    t.Finds t.fuel t.rootId key := by
  unfold get at h
  simp only [Option.bind_eq_bind, Option.bind_eq_some_iff] at h
  obtain ⟨leafId, hrun, h⟩ := h
  split at h
  · cases h
  · obtain ⟨leaf, hleaf, h⟩ := Option.bind_eq_some_iff.mp h
    have hnode : t.getNode leafId = some (.leaf leaf) := by
      unfold leafAt at hleaf
      split at hleaf
      next n hn =>
        rw [hn, Option.some.inj hleaf]
      next => cases hleaf
    split at h
    next hat =>
      unfold keyAt at hat
      obtain ⟨k, hk, hcmp⟩ := (Option.any_eq_true _ _).mp hat
      rw [decide_eq_true_eq, compareKeys_eq, t.order.compare_eq_zero_iff] at hcmp
      rw [hcmp] at hk
      exact ⟨leafId, leaf, hrun, hnode, findLeafFrom_mem hrun hnode, List.mem_of_getElem? hk⟩
    next => cases h

/-- **When a tree that passes `Verify` is sorted and every key in it is found**:
exactly if its separators bound their keys. -/
theorem verified_finds (t : BPlusTree) (hverify : t.verify = some true)
    (hvalues : ∀ leaf ∈ t.leavesFrom t.fuel t.rootId, leaf.values.length = leaf.keys.length) :
    ((t.keysFrom t.fuel t.rootId).Pairwise t.order.lt ∧
      ∀ key ∈ t.keysFrom t.fuel t.rootId, ∃ value, t.get key = some (.okStatus, some value)) ↔
    t.SeparatorsBound t.fuel t.rootId := by
  have hchecked := checked_of_verify hverify
  constructor
  · rintro ⟨hsorted, hget⟩
    refine bound_of_finds hchecked hsorted (fun key hkey => ?_)
    obtain ⟨value, h⟩ := hget key hkey
    exact finds_of_get h
  · intro hbound
    have hsorted := keysFrom_sorted hchecked hbound
    exact ⟨hsorted, fun key hkey =>
      get_of_finds (finds_of_bound hchecked hbound key hkey) hsorted hvalues⟩

/-- Two leaves under the separator 3. -/
def twoLeaves (left right : List Bytes) : BPlusTree where
  impl := {
    nodes := [none, some (.internal { keys := [[3]], children := [2, 3] }),
      some (.leaf { keys := left, values := left, nextLeaf := 3 }),
      some (.leaf { keys := right, values := right })]
    nodeFree := [true, false, false, false]
    freeList := []
    nextNodeId := 4 }
  rootId := 1
  rootIsLeaf := false
  options := { maxKeysPerNode := 3 }
  size := left.length + right.length
  nodeCount := 3
  height := 2

/-- No comparison of the walk fails, and 5 is looked for in the second leaf. -/
theorem verified_finds_crossed :
    ((twoLeaves [[1], [5]] [[3], [7]]).verify, (twoLeaves [[1], [5]] [[3], [7]]).get [5])
      = (some true, some (.notFound "Key not found", none)) := by decide +kernel

theorem verified_finds_ordered : (twoLeaves [[1], [2]] [[3], [7]]).SeparatorsBound
    (twoLeaves [[1], [2]] [[3], [7]]).fuel (twoLeaves [[1], [2]] [[3], [7]]).rootId := by
  have hkeys : (twoLeaves [[1], [2]] [[3], [7]]).keysFrom (twoLeaves [[1], [2]] [[3], [7]]).fuel
      (twoLeaves [[1], [2]] [[3], [7]]).rootId = [[1], [2], [3], [7]] := by decide +kernel
  refine (verified_finds _ (by decide +kernel) (by decide +kernel)).mp ⟨by decide +kernel, ?_⟩
  rw [hkeys]
  intro key hkey
  refine ⟨key, ?_⟩
  simp only [List.mem_cons, List.not_mem_nil, or_false] at hkey
  rcases hkey with rfl | rfl | rfl | rfl <;> decide +kernel

end BPlusTree

end KvEngine
