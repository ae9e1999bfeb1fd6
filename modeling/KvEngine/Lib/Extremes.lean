/-
  KvEngine.Lib.Extremes
  ─────────────────────
  **The least and the greatest of a list, kept along a run.**

  A running maximum that starts below everything is the greatest element of
  the list once there is one, and a running minimum the least.  64-bit
  numbers are compared as the numbers they stand for.
-/
import Mathlib.Order.Bounds.Basic

namespace KvEngine.Lib

/-! ## §1. One element more. -/

variable {α β : Type}

/-- What `f` gives for the elements of a list. -/
def values (f : β → α) (l : List β) : Set α := {y | ∃ a ∈ l, f a = y}

theorem values_snoc (f : β → α) (l : List β) (b : β) :
    values f (l ++ [b]) = insert (f b) (values f l) := by
  ext y
  constructor
  · rintro ⟨a, ha, rfl⟩
    rcases List.mem_append.mp ha with ha | ha
    · exact Or.inr ⟨a, ha, rfl⟩
    · rw [List.mem_singleton.mp ha]
      exact Or.inl rfl
  · rintro (rfl | ⟨a, ha, rfl⟩)
    · exact ⟨b, List.mem_append_right l (List.mem_singleton_self b), rfl⟩
    · exact ⟨a, List.mem_append_left [b] ha, rfl⟩

theorem values_singleton (f : β → α) (b : β) : values f [b] = {f b} := by
  ext y
  constructor
  · rintro ⟨a, ha, rfl⟩
    rw [List.mem_singleton.mp ha]
    rfl
  · rintro rfl
    exact ⟨b, List.mem_singleton_self b, rfl⟩

section Snoc

variable [LinearOrder α] {f : β → α} {l : List β} {x : α}

/-- **The running maximum.** -/
theorem isGreatest_snoc (b : β) (hstart : l = [] → x ≤ f b)
    (h : l ≠ [] → IsGreatest (values f l) x) :
    IsGreatest (values f (l ++ [b])) (max x (f b)) := by
  by_cases hnil : l = []
  · subst hnil
    rw [List.nil_append, values_singleton, max_eq_right (hstart rfl)]
    exact isGreatest_singleton
  · rw [values_snoc, max_comm]
    exact (h hnil).insert (f b)

/-- **The running minimum.** -/
theorem isLeast_snoc (b : β) (hstart : l = [] → f b ≤ x)
    (h : l ≠ [] → IsLeast (values f l) x) :
    IsLeast (values f (l ++ [b])) (min x (f b)) := by
  by_cases hnil : l = []
  · subst hnil
    rw [List.nil_append, values_singleton, min_eq_right (hstart rfl)]
    exact isLeast_singleton
  · rw [values_snoc, min_comm]
    exact (h hnil).insert (f b)

end Snoc

/-! ## §2. 64-bit numbers. -/

theorem toNat_max (a b : UInt64) : (max a b).toNat = max a.toNat b.toNat := by
  show (if a ≤ b then b else a).toNat = _
  split
  next h => exact (max_eq_right (UInt64.le_iff_toNat_le.mp h)).symm
  next h =>
    have hle : ¬ a.toNat ≤ b.toNat := fun hle => h (UInt64.le_iff_toNat_le.mpr hle)
    exact (max_eq_left (Nat.le_of_not_le hle)).symm

theorem toNat_min (a b : UInt64) : (min a b).toNat = min a.toNat b.toNat := by
  show (if a ≤ b then a else b).toNat = _
  split
  next h => exact (min_eq_left (UInt64.le_iff_toNat_le.mp h)).symm
  next h =>
    have hle : ¬ a.toNat ≤ b.toNat := fun hle => h (UInt64.le_iff_toNat_le.mpr hle)
    exact (min_eq_right (Nat.le_of_not_le hle)).symm

end KvEngine.Lib
