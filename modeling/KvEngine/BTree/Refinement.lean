/-
  KvEngine.BTree.Refinement
  ─────────────────────────
  **A `BPlusTree` is an ordered map.**

  The reference is a partial function from keys to values with the three
  operations and their statuses.  One call on a represented tree is one call
  on the reference (`apply_refines`); over runs from an empty tree this is
  `runs_refine_refMap`.
-/
import KvEngine.BTree.Lookup
import KvEngine.Lib.Simulation

namespace KvEngine

open Lib

/-! ## §1. Calls and the reference map. -/

/-- A call on the tree. -/
inductive TreeOp where
  | put (key value : Bytes)
  | get (key : Bytes)
  | delete (key : Bytes)
  deriving DecidableEq, Repr

/-- The status of a call and, for `get`, the value. -/
abbrev TreeReply := Status × Option Bytes

/-- One call on a `BPlusTree`. -/
def BPlusTree.apply (t : BPlusTree) : TreeOp → Option (TreeReply × BPlusTree)
  | .put key value => (t.put key value).map (fun r => ((r.1, none), r.2))
  | .get key => (t.get key).map (fun r => (r, t))
  | .delete key => (t.delete key).map (fun r => ((r.1, none), r.2))

/-- The reference: what each key is bound to. -/
abbrev RefMap := Bytes → Option Bytes

namespace RefMap

def empty : RefMap := fun _ => none

/-- One call on the reference. -/
def apply (m : RefMap) : TreeOp → TreeReply × RefMap
  | .put key value =>
      if key = [] then ((.invalidArgument "Key cannot be empty", none), m)
      else ((.okStatus, none), Function.update m key (some value))
  | .get key =>
      match m key with
      | some value => ((.okStatus, some value), m)
      | none => ((.notFound "Key not found", none), m)
  | .delete key =>
      match m key with
      | some _ => ((.okStatus, none), Function.update m key none)
      | none => ((.notFound "Key not found", none), m)

/-- The reference never reports an internal error. -/
theorem apply_code (m : RefMap) (op : TreeOp) : (m.apply op).1.1.code ≠ .internalError := by
  cases op with
  | put key value =>
      simp only [apply]
      split <;> exact fun h => nomatch h
  | get key =>
      simp only [apply]
      split <;> exact fun h => nomatch h
  | delete key =>
      simp only [apply]
      split <;> exact fun h => nomatch h

theorem runAll_apply_code :
    ∀ (ops : List TreeOp) (m : RefMap), ∀ out ∈ (runAll RefMap.apply m ops).1,
      out.1.code ≠ .internalError := by
  intro ops
  induction ops with
  | nil => intro m out h; exact absurd h (by simp [runAll])
  | cons op ops ih =>
      intro m out h
      rcases List.mem_cons.mp h with rfl | h
      · exact apply_code m op
      · exact ih _ out h

end RefMap

/-! ## §2. The refinement. -/

namespace BPlusTree

/-- The tree, with options `o`, represents a shape whose entries are the
map `m`. -/
def Models (o : BTreeOptions) (t : BPlusTree) (m : RefMap) : Prop :=
  ∃ (n : Nat) (s : Tree Bytes Bytes n), Represents t s ∧ t.options = o ∧
    find t.order (itemEntries (n + 1) s) = m

variable {o : BTreeOptions} {t : BPlusTree} {m : RefMap}

theorem models_new (options : BTreeOptions) :
    Models (new options).options (new options) RefMap.empty := by
  refine ⟨0, _, represents_new options, rfl, ?_⟩
  rw [itemEntries_leaf]
  rfl

theorem new_comparator (options : BTreeOptions) :
    (new options).options.comparator = options.comparator := by
  show (if options.maxKeysPerNode < 3 then { options with maxKeysPerNode := 3 }
    else options : BTreeOptions).comparator = options.comparator
  split <;> rfl

theorem new_maxKeys (options : BTreeOptions) :
    (new options).maxKeys = max 3 options.maxKeysPerNode := by
  show (if options.maxKeysPerNode < 3 then { options with maxKeysPerNode := 3 }
    else options : BTreeOptions).maxKeysPerNode = max 3 options.maxKeysPerNode
  split
  next h => exact (Nat.max_eq_left (Nat.le_of_lt h)).symm
  next h => exact (Nat.max_eq_right (Nat.le_of_not_lt h)).symm

theorem Models.put (h : Models o t m) {key : Bytes} (hkey : key ≠ []) (value : Bytes) :
    ∃ t', t.put key value = some (.okStatus, t') ∧
      Models o t' (Function.update m key (some value)) := by
  obtain ⟨n, s, hrep, rfl, rfl⟩ := h
  obtain ⟨t', k, s', hput, hrep', hopt, hentries⟩ := put_spec hrep hkey value
  refine ⟨t', hput, k, s', hrep', hopt, ?_⟩
  rw [hentries, order, hopt]
  exact find_insertEntry hrep.sorted

theorem Models.delete (h : Models o t m) (key : Bytes) :
    (m key = none ∧ t.delete key = some (.notFound "Key not found", t)) ∨
      (m key ≠ none ∧ ∃ t', t.delete key = some (.okStatus, t') ∧
        Models o t' (Function.update m key none)) := by
  obtain ⟨n, s, hrep, rfl, rfl⟩ := h
  rcases delete_spec hrep key with habsent | ⟨hpresent, t', k, s', hdel, hrep', hopt, hentries⟩
  · exact Or.inl habsent
  · refine Or.inr ⟨hpresent, t', hdel, k, s', hrep', hopt, ?_⟩
    rw [hentries, order, hopt]
    exact find_eraseEntry hrep.sorted

theorem Models.get (h : Models o t m) (key : Bytes) :
    t.get key = some (match m key with
      | some value => (.okStatus, some value)
      | none => (.notFound "Key not found", none)) := by
  obtain ⟨n, s, hrep, -, rfl⟩ := h
  exact get_spec hrep key

/-- As many keys are bound as `Size()` says. -/
theorem Models.size (h : Models o t m) : {k | m k ≠ none}.encard = t.size := by
  obtain ⟨n, s, hrep, -, rfl⟩ := h
  rw [encard_find hrep.sorted, hrep.size]

/-- **One call on the tree is one call on the reference.** -/
theorem apply_refines (o : BTreeOptions) :
    Refines (Models o) (fun _ => True) BPlusTree.apply RefMap.apply := by
  intro t m op h _
  cases op with
  | put key value =>
      -- `Put` refuses an empty key and leaves the tree alone.
      by_cases hkey : key = []
      · subst hkey
        exact ⟨t, rfl, h⟩
      · obtain ⟨t', hput, h'⟩ := h.put hkey value
        refine ⟨t', ?_, ?_⟩
        · simp only [BPlusTree.apply, hput, RefMap.apply, if_neg hkey, Option.map_some]
        · simp only [RefMap.apply, if_neg hkey]
          exact h'
  | get key =>
      have hget := h.get key
      cases hm : m key with
      | some value =>
          rw [hm] at hget
          simp only [BPlusTree.apply, hget, RefMap.apply, hm, Option.map_some]
          exact ⟨t, rfl, h⟩
      | none =>
          rw [hm] at hget
          simp only [BPlusTree.apply, hget, RefMap.apply, hm, Option.map_some]
          exact ⟨t, rfl, h⟩
  | delete key =>
      rcases h.delete key with ⟨hm, hdel⟩ | ⟨hm, t', hdel, h'⟩
      · simp only [BPlusTree.apply, hdel, RefMap.apply, hm, Option.map_some]
        exact ⟨t, rfl, h⟩
      · obtain ⟨value, hvalue⟩ := Option.ne_none_iff_exists'.mp hm
        simp only [BPlusTree.apply, hdel, RefMap.apply, hvalue, Option.map_some]
        exact ⟨t', rfl, h'⟩

/-- Every run from an empty tree is defined, and models the reference. -/
theorem runs_model (options : BTreeOptions) (ops : List TreeOp) :
    ∃ t, run? BPlusTree.apply (new options) ops
        = some ((runAll RefMap.apply RefMap.empty ops).1, t) ∧
      Models (new options).options t (runAll RefMap.apply RefMap.empty ops).2 :=
  (apply_refines _).run ops (models_new options) (fun _ _ => trivial)

/-- **The tree answers every sequence of calls as the reference map does**,
counts its keys, and never reports an internal error. -/
theorem runs_refine_refMap (options : BTreeOptions) (ops : List TreeOp) :
    ∃ t, run? BPlusTree.apply (new options) ops
        = some ((runAll RefMap.apply RefMap.empty ops).1, t) ∧
      {k | (runAll RefMap.apply RefMap.empty ops).2 k ≠ none}.encard = t.size ∧
      ∀ out ∈ (runAll RefMap.apply RefMap.empty ops).1, out.1.code ≠ .internalError := by
  obtain ⟨t, hrun, hmodels⟩ := runs_model options ops
  exact ⟨t, hrun, hmodels.size, RefMap.runAll_apply_code ops RefMap.empty⟩

end BPlusTree

end KvEngine
