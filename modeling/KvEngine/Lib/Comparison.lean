/-
  KvEngine.Lib.Comparison
  ───────────────────────
  **Three-way comparisons that are total orders, and binary search.**

  `TotalCompare K` bundles a comparison function returning a negative, zero
  or positive integer with the proof that it is a total order, so that a
  function taking one never has to ask for the order laws again.

  `bisect` is the half-interval search for the first element at which a
  predicate stops holding.  Its one specification, `bisect_append`, says
  where it lands in a list whose elements satisfy the predicate on a prefix
  and fail it afterwards; for a sorted list and a predicate "below `k`" the
  prefix is `takeWhile`.
-/
import Mathlib.Data.List.Basic
import Mathlib.Tactic.Common

namespace KvEngine.Lib

/-! ## §1. Total three-way comparisons. -/

/-- A three-way comparison that is a total order: `compare a b` is negative,
zero or positive as `a` is below, equal to or above `b`. -/
structure TotalCompare (K : Type) where
  compare : K → K → Int
  eq_of_compare_eq_zero : ∀ a b, compare a b = 0 → a = b
  compare_neg_iff : ∀ a b, compare a b < 0 ↔ 0 < compare b a
  compare_neg_trans : ∀ a b c, compare a b < 0 → compare b c < 0 → compare a c < 0

namespace TotalCompare

variable {K : Type} (c : TotalCompare K)

/-- The strict order of a comparison. -/
def lt (a b : K) : Prop := c.compare a b < 0

instance (a b : K) : Decidable (c.lt a b) := inferInstanceAs (Decidable (_ < _))

theorem compare_self (a : K) : c.compare a a = 0 := by
  have h := c.compare_neg_iff a a
  omega

theorem compare_eq_zero_iff {a b : K} : c.compare a b = 0 ↔ a = b := by
  constructor
  · exact c.eq_of_compare_eq_zero a b
  · rintro rfl
    exact c.compare_self a

theorem compare_lt_zero_iff {a b : K} : c.compare a b < 0 ↔ c.lt a b := Iff.rfl

theorem compare_pos_iff {a b : K} : 0 < c.compare a b ↔ c.lt b a :=
  (c.compare_neg_iff b a).symm

theorem compare_nonpos_iff {a b : K} : c.compare a b ≤ 0 ↔ ¬ c.lt b a := by
  rw [← c.compare_pos_iff]
  omega

theorem compare_nonneg_iff {a b : K} : 0 ≤ c.compare a b ↔ ¬ c.lt a b := by
  rw [← c.compare_lt_zero_iff]
  omega

theorem lt_irrefl (a : K) : ¬ c.lt a a := by
  simp [lt, c.compare_self]

theorem lt_trans {a b d : K} (h₁ : c.lt a b) (h₂ : c.lt b d) : c.lt a d :=
  c.compare_neg_trans a b d h₁ h₂

theorem lt_asymm {a b : K} (h : c.lt a b) : ¬ c.lt b a :=
  fun h' => c.lt_irrefl a (c.lt_trans h h')

theorem ne_of_lt {a b : K} (h : c.lt a b) : a ≠ b := by
  rintro rfl
  exact c.lt_irrefl a h

/-- Two keys are equal, or one is below the other. -/
theorem lt_trichotomy (a b : K) : c.lt a b ∨ a = b ∨ c.lt b a := by
  rcases Int.lt_trichotomy (c.compare a b) 0 with h | h | h
  · exact Or.inl h
  · exact Or.inr (Or.inl (c.compare_eq_zero_iff.mp h))
  · exact Or.inr (Or.inr (c.compare_pos_iff.mp h))

/-- Keys that are not below each other are equal. -/
theorem eq_of_not_lt {a b : K} (h₁ : ¬ c.lt a b) (h₂ : ¬ c.lt b a) : a = b := by
  rcases c.lt_trichotomy a b with h | h | h
  · exact absurd h h₁
  · exact h
  · exact absurd h h₂

/-- A key that is not above `b` is below what is above `b`. -/
theorem lt_of_not_lt_of_lt {a b d : K} (h₁ : ¬ c.lt b a) (h₂ : c.lt b d) : c.lt a d := by
  rcases c.lt_trichotomy a b with h | h | h
  · exact c.lt_trans h h₂
  · exact h ▸ h₂
  · exact absurd h h₁

theorem lt_of_lt_of_not_lt {a b d : K} (h₁ : c.lt a b) (h₂ : ¬ c.lt d b) : c.lt a d := by
  rcases c.lt_trichotomy b d with h | h | h
  · exact c.lt_trans h₁ h
  · exact h ▸ h₁
  · exact absurd h h₂

/-- Natural numbers in their usual order. -/
def nat : TotalCompare Nat where
  compare a b := a - b
  eq_of_compare_eq_zero a b h := by omega
  compare_neg_iff a b := by omega
  compare_neg_trans a b c h h' := by omega

theorem nat_lt_iff {a b : Nat} : nat.lt a b ↔ a < b := by
  show (a : Int) - b < 0 ↔ a < b
  omega

end TotalCompare

/-! ## §2. Half-interval search. -/

section Bisect

variable {α : Type}

/-- The search loop on `[lo, hi)`: an element satisfying `right` moves `lo`
past it, any other moves `hi` down to it.  The interval shrinks in every
round, so `hi - lo` rounds are enough. -/
def bisectLoop (right : α → Bool) (xs : List α) : Nat → Nat → Nat → Nat
  | 0, lo, _ => lo
  | rounds + 1, lo, hi =>
      if lo < hi then
        let mid := lo + (hi - lo) / 2
        if xs[mid]?.any right then bisectLoop right xs rounds (mid + 1) hi
        else bisectLoop right xs rounds lo mid
      else lo

/-- The first index whose element does not satisfy `right` (the length if
all do), for a list where `right` holds exactly on a prefix. -/
def bisect (right : α → Bool) (xs : List α) : Nat :=
  bisectLoop right xs xs.length 0 xs.length

/-- The loop keeps the end of the prefix between its bounds. -/
theorem bisectLoop_append {right : α → Bool} {ys zs : List α}
    (hy : ∀ y ∈ ys, right y = true) (hz : ∀ z ∈ zs, right z = false) :
    ∀ (rounds lo hi : Nat), hi - lo ≤ rounds → lo ≤ ys.length →
      ys.length ≤ hi → hi ≤ ys.length + zs.length →
      bisectLoop right (ys ++ zs) rounds lo hi = ys.length := by
  intro rounds
  induction rounds with
  | zero =>
      intro lo hi hr hlo hhi _
      show lo = ys.length
      omega
  | succ rounds ih =>
      intro lo hi hr hlo hhi hlen
      simp only [bisectLoop]
      split
      next hlt =>
        -- the probed element decides on which side of the cut `mid` lies
        by_cases hmid : lo + (hi - lo) / 2 < ys.length
        · have hget : (ys ++ zs)[lo + (hi - lo) / 2]? = some ys[lo + (hi - lo) / 2] := by
            rw [List.getElem?_append_left hmid, List.getElem?_eq_getElem hmid]
          rw [hget, Option.any_some, hy _ (List.getElem_mem hmid), if_pos rfl]
          exact ih _ _ (by omega) (by omega) hhi hlen
        · have hz' : lo + (hi - lo) / 2 - ys.length < zs.length := by omega
          have hget : (ys ++ zs)[lo + (hi - lo) / 2]?
              = some zs[lo + (hi - lo) / 2 - ys.length] := by
            rw [List.getElem?_append_right (by omega), List.getElem?_eq_getElem hz']
          rw [hget, Option.any_some, hz _ (List.getElem_mem hz'), if_neg (by simp)]
          exact ih _ _ (by omega) hlo (by omega) (by omega)
      next hge => omega

/-- **Where the search lands**: at the end of the prefix satisfying `right`. -/
theorem bisect_append {right : α → Bool} {ys zs : List α}
    (hy : ∀ y ∈ ys, right y = true) (hz : ∀ z ∈ zs, right z = false) :
    bisect right (ys ++ zs) = ys.length := by
  unfold bisect
  exact bisectLoop_append hy hz _ _ _ (by omega) (by omega) (by simp) (by simp)

/-- A predicate that is inherited downwards along a pairwise relation holds
exactly on a prefix. -/
theorem exists_prefix_of_pairwise {R : α → α → Prop} (right : α → Bool)
    (hdown : ∀ a b, R a b → right b = true → right a = true) :
    ∀ (xs : List α), xs.Pairwise R →
      ∃ ys zs, xs = ys ++ zs ∧ (∀ y ∈ ys, right y = true) ∧ ∀ z ∈ zs, right z = false := by
  intro xs
  induction xs with
  | nil => intro _; exact ⟨[], [], rfl, by simp, by simp⟩
  | cons x xs ih =>
      intro hp
      obtain ⟨hx, hxs⟩ := List.pairwise_cons.mp hp
      cases hr : right x with
      | false =>
          refine ⟨[], x :: xs, rfl, by simp, ?_⟩
          intro z hz
          rcases List.mem_cons.mp hz with rfl | hz
          · exact hr
          · by_contra hne
            have := hdown x z (hx z hz) (by simpa using hne)
            rw [hr] at this
            exact absurd this (by simp)
      | true =>
          obtain ⟨ys, zs, rfl, hy, hz⟩ := ih hxs
          refine ⟨x :: ys, zs, rfl, ?_, hz⟩
          intro y hmem
          rcases List.mem_cons.mp hmem with rfl | hmem
          · exact hr
          · exact hy y hmem

end Bisect

end KvEngine.Lib
