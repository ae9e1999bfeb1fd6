/-
  KvEngine.Lib.Search
  ───────────────────
  **The first occurrence of a pattern in a list**, as `std::string::find`
  gives it.

  `search_eq_some_iff` says what is found, `search_append` that more input
  does not move an occurrence that is complete, and `search_of_append` that
  the input behind one does not matter.  A pattern of one element is found at
  its first occurrence (`search_singleton_eq_some_iff`).
-/
import Mathlib.Data.List.Infix

namespace KvEngine.Lib

variable {α : Type} [DecidableEq α] {pattern s : List α} {i : Nat}

/-- Where the first occurrence begins. -/
def search (pattern : List α) : List α → Option Nat
  | [] => if pattern = [] then some 0 else none
  | a :: s => if pattern <+: a :: s then some 0 else (search pattern s).map (· + 1)

/-- The pattern occurs at `i` and not before. -/
structure FirstAt (pattern s : List α) (i : Nat) : Prop where
  le : i ≤ s.length
  here : pattern <+: s.drop i
  before : ∀ j < i, ¬ pattern <+: s.drop j

omit [DecidableEq α] in
theorem FirstAt.cons {a : α} (h : ¬ pattern <+: a :: s) :
    FirstAt pattern (a :: s) (i + 1) ↔ FirstAt pattern s i := by
  constructor
  · rintro ⟨hle, hhere, hbefore⟩
    exact ⟨Nat.le_of_succ_le_succ hle, hhere, fun j hj => hbefore (j + 1) (Nat.succ_lt_succ hj)⟩
  · rintro ⟨hle, hhere, hbefore⟩
    refine ⟨Nat.succ_le_succ hle, hhere, fun j hj => ?_⟩
    cases j with
    | zero => exact h
    | succ j => exact hbefore j (Nat.lt_of_succ_lt_succ hj)

/-- **`search` finds the first occurrence.** -/
theorem search_eq_some_iff : search pattern s = some i ↔ FirstAt pattern s i := by
  induction s generalizing i with
  | nil =>
      rw [search]
      constructor
      · intro h
        split at h
        next hnil =>
          obtain rfl := Option.some.inj h
          exact ⟨Nat.le_refl _, hnil ▸ List.nil_prefix, fun j hj => absurd hj (Nat.not_lt_zero j)⟩
        next => exact absurd h (by simp)
      · rintro ⟨hle, hhere, -⟩
        obtain rfl := Nat.le_zero.mp hle
        rw [if_pos (List.prefix_nil.mp hhere)]
  | cons a s ih =>
      rw [search]
      split
      next hpre =>
        constructor
        · intro h
          obtain rfl := Option.some.inj h
          exact ⟨Nat.zero_le _, hpre, fun j hj => absurd hj (Nat.not_lt_zero j)⟩
        · rintro ⟨-, -, hbefore⟩
          cases i with
          | zero => rfl
          | succ i => exact absurd hpre (hbefore 0 (Nat.succ_pos i))
      next hno =>
        cases i with
        | zero =>
            refine ⟨fun h => ?_, fun h => absurd h.here hno⟩
            obtain ⟨j, -, hj⟩ := Option.map_eq_some_iff.mp h
            exact absurd hj (Nat.succ_ne_zero j)
        | succ i =>
            rw [FirstAt.cons hno, ← ih]
            cases search pattern s <;> simp

theorem search_eq_none_iff :
    search pattern s = none ↔ ∀ j ≤ s.length, ¬ pattern <+: s.drop j := by
  induction s with
  | nil =>
      rw [search]
      refine ⟨fun h j _ hpre => ?_, fun h => ?_⟩
      · rw [List.drop_nil, List.prefix_nil] at hpre
        rw [if_pos hpre] at h
        exact absurd h (by simp)
      · refine if_neg (fun hnil => h 0 (Nat.le_refl _) ?_)
        rw [hnil]
        exact List.nil_prefix
  | cons a s ih =>
      rw [search]
      split
      next hpre =>
        exact ⟨fun h => absurd h (by simp), fun h => absurd hpre (h 0 (Nat.zero_le _))⟩
      next hno =>
        rw [Option.map_eq_none_iff, ih]
        refine ⟨fun h j hj => ?_, fun h j hj => h (j + 1) (Nat.succ_le_succ hj)⟩
        cases j with
        | zero => exact hno
        | succ j => exact h j (Nat.le_of_succ_le_succ hj)

omit [DecidableEq α] in
theorem FirstAt.end_le (h : FirstAt pattern s i) : i + pattern.length ≤ s.length := by
  have := h.here.length_le
  have := h.le
  rw [List.length_drop] at *
  omega

omit [DecidableEq α] in
/-- What lies behind the occurrence does not matter. -/
theorem firstAt_append (hend : i + pattern.length ≤ s.length) (t : List α) :
    FirstAt pattern (s ++ t) i ↔ FirstAt pattern s i := by
  -- Up to `i` the pattern ends within `s`.
  have hwithin : ∀ j ≤ i, (pattern <+: (s ++ t).drop j ↔ pattern <+: s.drop j) := by
    intro j hj
    rw [List.drop_append_of_le_length (by omega)]
    refine ⟨fun h => ?_, fun h => h.trans (List.prefix_append _ _)⟩
    refine List.prefix_of_prefix_length_le h (List.prefix_append _ _) ?_
    rw [List.length_drop]
    omega
  constructor
  · rintro ⟨-, hhere, hbefore⟩
    exact ⟨by omega, (hwithin i (Nat.le_refl _)).mp hhere,
      fun j hj h => hbefore j hj ((hwithin j (Nat.le_of_lt hj)).mpr h)⟩
  · rintro ⟨-, hhere, hbefore⟩
    exact ⟨by rw [List.length_append]; omega, (hwithin i (Nat.le_refl _)).mpr hhere,
      fun j hj h => hbefore j hj ((hwithin j (Nat.le_of_lt hj)).mp h)⟩

theorem search_append (h : search pattern s = some i) (t : List α) :
    search pattern (s ++ t) = some i := by
  have hfirst := search_eq_some_iff.mp h
  exact search_eq_some_iff.mpr ((firstAt_append hfirst.end_le t).mpr hfirst)

theorem search_of_append {t : List α} (h : search pattern (s ++ t) = some i)
    (hend : i + pattern.length ≤ s.length) : search pattern s = some i :=
  search_eq_some_iff.mpr ((firstAt_append hend t).mp (search_eq_some_iff.mp h))

/-- The input up to the occurrence, the occurrence, and the rest. -/
theorem search_split (h : search pattern s = some i) :
    s = s.take i ++ pattern ++ s.drop (i + pattern.length) := by
  obtain ⟨rest, hrest⟩ := (search_eq_some_iff.mp h).here
  have hdrop : s.drop (i + pattern.length) = rest := by
    rw [← List.drop_drop, ← hrest, List.drop_left]
  rw [hdrop, List.append_assoc, hrest, List.take_append_drop]

/-! ## Patterns of one element. -/

theorem search_singleton {a : α} {x : List α} (h : a ∉ x) (y : List α) :
    search [a] (x ++ a :: y) = some x.length := by
  refine search_eq_some_iff.mpr ⟨by simp, ?_, fun j hj hpre => ?_⟩
  · rw [List.drop_left]
    exact ⟨y, rfl⟩
  · rw [List.drop_append_of_le_length (Nat.le_of_lt hj), List.drop_eq_getElem_cons hj] at hpre
    exact h ((List.cons_prefix_cons.mp hpre).1 ▸ List.getElem_mem hj)

/-- **The first occurrence of an element** splits the input. -/
theorem search_singleton_eq_some_iff {a : α} :
    search [a] s = some i ↔ ∃ x y, s = x ++ a :: y ∧ a ∉ x ∧ x.length = i := by
  constructor
  · intro h
    have hfirst := search_eq_some_iff.mp h
    have hlength : (s.take i).length = i := by
      rw [List.length_take]
      exact Nat.min_eq_left hfirst.le
    refine ⟨s.take i, s.drop (i + 1), ?_, fun hmem => ?_, hlength⟩
    · have := search_split h
      rwa [List.append_assoc] at this
    · obtain ⟨j, hj, hget⟩ := List.getElem_of_mem hmem
      rw [List.getElem_take] at hget
      have := hfirst.le
      refine hfirst.before j (by omega) ?_
      rw [List.drop_eq_getElem_cons (by omega), hget]
      exact ⟨_, rfl⟩
  · rintro ⟨x, y, rfl, hx, rfl⟩
    exact search_singleton hx y

theorem search_singleton_eq_none_iff {a : α} : search [a] s = none ↔ a ∉ s := by
  rw [Option.eq_none_iff_forall_ne_some]
  constructor
  · intro h hmem
    obtain ⟨x, y, rfl, hx⟩ := List.eq_append_cons_of_mem hmem
    exact h x.length (search_singleton hx y)
  · rintro h i hs
    obtain ⟨x, y, rfl, -, -⟩ := search_singleton_eq_some_iff.mp hs
    exact h (by simp)

end KvEngine.Lib
