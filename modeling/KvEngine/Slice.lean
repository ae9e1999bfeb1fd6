/-
  KvEngine.Slice
  ──────────────
  Byte strings, `Slice::compare`, and comparators.

  A `Slice` is a view of bytes and a `std::string` owns them; both are the
  byte list they show.  `Slice::compare` is `memcmp` on the common length and
  then the shorter string first.  `Slice.compare_cons` turns this into the
  usual recursion on the first byte, from which the default comparator is
  shown to be a total order (`bytewiseComparator`).
-/
import KvEngine.Lib.Comparison

namespace KvEngine

open Lib

/-- A `Slice`, or the string it points into. -/
abbrev Bytes := List UInt8

/-! ## §1. `Slice::compare`. -/

/-- `memcmp(a, b, n)`: the sign of the first difference of unsigned bytes. -/
def memcmp : Nat → Bytes → Bytes → Int
  | n + 1, x :: a, y :: b =>
      if x = y then memcmp n a b else if x < y then -1 else 1
  | _, _, _ => 0

/-- `Slice::compare`. -/
def Slice.compare (a b : Bytes) : Int :=
  let minSize := if a.length < b.length then a.length else b.length
  let r := memcmp minSize a b
  if r = 0 then
    if a.length < b.length then -1
    else if a.length > b.length then 1
    else r
  else r

theorem Slice.compare_nil_nil : Slice.compare [] [] = 0 := rfl

theorem Slice.compare_nil_cons (y : UInt8) (b : Bytes) : Slice.compare [] (y :: b) = -1 := by
  simp [Slice.compare, memcmp]

theorem Slice.compare_cons_nil (x : UInt8) (a : Bytes) : Slice.compare (x :: a) [] = 1 := by
  simp [Slice.compare, memcmp]

theorem Slice.compare_cons (x y : UInt8) (a b : Bytes) :
    Slice.compare (x :: a) (y :: b)
      = if x = y then Slice.compare a b else if x < y then -1 else 1 := by
  have hmin : (if (x :: a).length < (y :: b).length then (x :: a).length else (y :: b).length)
      = (if a.length < b.length then a.length else b.length) + 1 := by
    simp only [List.length_cons]
    split <;> split <;> omega
  simp only [Slice.compare]
  simp only [hmin, memcmp]
  simp only [List.length_cons]
  by_cases hxy : x = y
  · simp only [if_pos hxy, Nat.add_lt_add_iff_right, gt_iff_lt]
  · simp only [if_neg hxy]
    by_cases hlt : x < y <;> simp [hlt]

/-- Slices that compare equal are equal. -/
theorem Slice.eq_of_compare_eq_zero : ∀ a b : Bytes, Slice.compare a b = 0 → a = b := by
  intro a
  induction a with
  | nil =>
      intro b h
      cases b with
      | nil => rfl
      | cons y b => rw [Slice.compare_nil_cons] at h; omega
  | cons x a ih =>
      intro b h
      cases b with
      | nil => rw [Slice.compare_cons_nil] at h; omega
      | cons y b =>
          rw [Slice.compare_cons] at h
          split at h
          next hxy => rw [hxy, ih b h]
          next => split at h <;> omega

/-- The comparison is antisymmetric. -/
theorem Slice.compare_neg_iff : ∀ a b : Bytes,
    Slice.compare a b < 0 ↔ 0 < Slice.compare b a := by
  intro a
  induction a with
  | nil =>
      intro b
      cases b with
      | nil => simp [Slice.compare_nil_nil]
      | cons y b => simp [Slice.compare_nil_cons, Slice.compare_cons_nil]
  | cons x a ih =>
      intro b
      cases b with
      | nil => simp [Slice.compare_nil_cons, Slice.compare_cons_nil]
      | cons y b =>
          rw [Slice.compare_cons, Slice.compare_cons]
          -- Equal first bytes: the rest decides. Else the first bytes do.
          by_cases hxy : x = y
          · subst hxy
            simpa using ih b
          · have hyx : ¬ y = x := fun h => hxy h.symm
            rw [if_neg hxy, if_neg hyx]
            by_cases hlt : x < y
            · rw [if_pos hlt, if_neg (UInt8.lt_asymm hlt)]
              omega
            · have hgt : y < x := by
                rcases UInt8.lt_or_lt_of_ne hxy with h | h
                · exact absurd h hlt
                · exact h
              rw [if_neg hlt, if_pos hgt]
              omega

/-- The comparison is transitive. -/
theorem Slice.compare_neg_trans : ∀ a b d : Bytes,
    Slice.compare a b < 0 → Slice.compare b d < 0 → Slice.compare a d < 0 := by
  intro a
  induction a with
  | nil =>
      intro b d h₁ h₂
      cases d with
      | nil =>
          rw [Slice.compare_neg_iff] at h₂
          cases b with
          | nil => rw [Slice.compare_nil_nil] at h₂; omega
          | cons y b => rw [Slice.compare_nil_cons] at h₂; omega
      | cons z d => rw [Slice.compare_nil_cons]; omega
  | cons x a ih =>
      intro b d h₁ h₂
      cases b with
      | nil => rw [Slice.compare_cons_nil] at h₁; omega
      | cons y b =>
          cases d with
          | nil => rw [Slice.compare_cons_nil] at h₂; omega
          | cons z d =>
              rw [Slice.compare_cons] at h₁ h₂ ⊢
              -- compare the three first bytes
              by_cases hxy : x = y
              · subst hxy
                rw [if_pos rfl] at h₁
                split
                next hxz => rw [if_pos hxz] at h₂; exact ih b d h₁ h₂
                next hxz => rwa [if_neg hxz] at h₂
              · rw [if_neg hxy] at h₁
                have hlt : x < y := by
                  by_contra hnlt
                  rw [if_neg hnlt] at h₁
                  omega
                have hxz : x < z := by
                  by_cases hyz : y = z
                  · exact hyz ▸ hlt
                  · rw [if_neg hyz] at h₂
                    have hlt' : y < z := by
                      by_contra hnlt
                      rw [if_neg hnlt] at h₂
                      omega
                    exact UInt8.lt_trans hlt hlt'
                rw [if_neg (UInt8.ne_of_lt hxz), if_pos hxz]
                omega

/-! ## §2. Comparators. -/

/-- A user comparator: a total order on byte strings. -/
abbrev Comparator := TotalCompare Bytes

/-- `BytewiseComparator`, and the order used when no comparator is set. -/
def bytewiseComparator : Comparator where
  compare := Slice.compare
  eq_of_compare_eq_zero := Slice.eq_of_compare_eq_zero
  compare_neg_iff := Slice.compare_neg_iff
  compare_neg_trans := Slice.compare_neg_trans

/-- `Compare(comparator, a, b)`: a null comparator means bytewise. -/
def compareKeys (comparator : Option Comparator) (a b : Bytes) : Int :=
  match comparator with
  | some c => c.compare a b
  | none => Slice.compare a b

/-- The order a comparator option stands for. -/
def keyOrder (comparator : Option Comparator) : Comparator :=
  comparator.getD bytewiseComparator

@[simp] theorem compareKeys_eq (comparator : Option Comparator) (a b : Bytes) :
    compareKeys comparator a b = (keyOrder comparator).compare a b := by
  cases comparator <;> rfl

end KvEngine
