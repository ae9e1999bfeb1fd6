/-
  KvEngine.Lib.Footprint
  ──────────────────────
  **What a program changed in a heap, by the ids it owns.**

  A heap is a partial function from ids to cells.  `Footprint h h' xs ys`
  says that a program owning the ids `xs` in `h` ended owning `ys` in `h'`:
  ids outside both are untouched, ids gained were not in use, ids given up
  are not in use any more.  Footprints compose (`trans`) and can be widened
  by ids the program did not own (`widen`, the frame rule); writing,
  allocating and releasing one cell are the three basic ones.
-/
import Mathlib.Data.List.Basic
import Mathlib.Logic.Function.Basic
import Mathlib.Tactic.Common

namespace KvEngine.Lib

variable {α : Type}

/-- Ids `xs` owned before, `ys` owned after, everything else untouched. -/
structure Footprint (h h' : Nat → Option α) (xs ys : List Nat) : Prop where
  frame : ∀ j, j ∉ xs → j ∉ ys → h' j = h j
  fresh : ∀ j ∈ ys, j ∉ xs → h j = none
  freed : ∀ j ∈ xs, j ∉ ys → h' j = none

namespace Footprint

variable {h h' h'' : Nat → Option α} {xs ys zs : List Nat}

theorem refl (h : Nat → Option α) (xs : List Nat) : Footprint h h xs xs :=
  ⟨fun _ _ _ => rfl, fun _ hj hn => absurd hj hn, fun _ hj hn => absurd hj hn⟩

theorem trans (f : Footprint h h' xs ys) (g : Footprint h' h'' ys zs) :
    Footprint h h'' xs zs where
  frame := by
    intro j hx hz
    by_cases hy : j ∈ ys
    · rw [g.freed j hy hz, f.fresh j hy hx]
    · rw [g.frame j hy hz, f.frame j hx hy]
  fresh := by
    intro j hz hx
    by_cases hy : j ∈ ys
    · exact f.fresh j hy hx
    · rw [← f.frame j hx hy]
      exact g.fresh j hz hy
  freed := by
    intro j hx hz
    by_cases hy : j ∈ ys
    · exact g.freed j hy hz
    · rw [g.frame j hy hz]
      exact f.freed j hx hy

/-- Only membership of the owned ids matters. -/
theorem congr {xs' ys' : List Nat} (f : Footprint h h' xs ys)
    (hx : ∀ j, j ∈ xs' ↔ j ∈ xs) (hy : ∀ j, j ∈ ys' ↔ j ∈ ys) :
    Footprint h h' xs' ys' where
  frame j hjx hjy := f.frame j (fun hj => hjx ((hx j).mpr hj)) (fun hj => hjy ((hy j).mpr hj))
  fresh j hjy hjx := f.fresh j ((hy j).mp hjy) (fun hj => hjx ((hx j).mpr hj))
  freed j hjx hjy := f.freed j ((hx j).mp hjx) (fun hj => hjy ((hy j).mpr hj))

/-- **Frame rule**: ids around the owned ones may be added on both sides. -/
theorem widen (f : Footprint h h' xs ys) (us vs : List Nat) :
    Footprint h h' (us ++ xs ++ vs) (us ++ ys ++ vs) where
  frame := by
    intro j hx hy
    simp only [List.mem_append, not_or] at hx hy
    exact f.frame j hx.1.2 hy.1.2
  fresh := by
    intro j hy hx
    simp only [List.mem_append, not_or] at hx hy
    rcases hy with (hy | hy) | hy
    · exact absurd hy hx.1.1
    · exact f.fresh j hy hx.1.2
    · exact absurd hy hx.2
  freed := by
    intro j hx hy
    simp only [List.mem_append, not_or] at hx hy
    rcases hx with (hx | hx) | hx
    · exact absurd hx hy.1.1
    · exact f.freed j hx hy.1.2
    · exact absurd hx hy.2

/-- Writing an owned cell. -/
theorem write {id : Nat} (hid : id ∈ xs) (x : Option α) :
    Footprint h (Function.update h id x) xs xs where
  frame _ hj _ := Function.update_of_ne (ne_of_mem_of_not_mem hid hj).symm _ _
  fresh _ hj hn := absurd hj hn
  freed _ hj hn := absurd hj hn

/-- Taking an unused cell. -/
theorem alloc {id : Nat} (hid : h id = none) (x : Option α) (xs : List Nat) :
    Footprint h (Function.update h id x) xs (id :: xs) where
  frame _ _ hj := Function.update_of_ne (ne_of_mem_of_not_mem List.mem_cons_self hj).symm _ _
  fresh := by
    intro j hj hn
    rcases List.mem_cons.mp hj with rfl | hj
    · exact hid
    · exact absurd hj hn
  freed _ hj hn := absurd (List.mem_cons_of_mem _ hj) hn

/-- Giving a cell up. -/
theorem release {id : Nat} (xs : List Nat) :
    Footprint h (Function.update h id none) (id :: xs) xs where
  frame _ hj _ := Function.update_of_ne (ne_of_mem_of_not_mem List.mem_cons_self hj).symm _ _
  fresh _ hj hn := absurd (List.mem_cons_of_mem _ hj) hn
  freed := by
    intro j hj hn
    rcases List.mem_cons.mp hj with rfl | hj
    · exact Function.update_self ..
    · exact absurd hj hn

/-- A cell in use before and not owned is in use after, unchanged. -/
theorem get_of_used (f : Footprint h h' xs ys) {j : Nat} {x : α} (hj : h j = some x)
    (hx : j ∉ xs) : h' j = some x := by
  have hy : j ∉ ys := by
    intro hy
    have := f.fresh j hy hx
    rw [hj] at this
    exact absurd this (by simp)
  rw [f.frame j hx hy, hj]

/-- Ids owned afterwards avoid the cells that were in use and not owned. -/
theorem not_mem_of_used (f : Footprint h h' xs ys) {j : Nat} {x : α} (hj : h j = some x)
    (hx : j ∉ xs) : j ∉ ys := by
  intro hy
  have := f.fresh j hy hx
  rw [hj] at this
  exact absurd this (by simp)

end Footprint

/-! ## Replacing the middle of a list -/

/-- An entry is in the middle or around it. -/
theorem mem_window {a : α} {xs us ys : List α} : a ∈ xs ++ us ++ ys ↔ a ∈ xs ++ ys ∨ a ∈ us := by
  rw [List.mem_append, List.mem_append, List.mem_append]
  exact or_right_comm

/-- New ids that avoid the neighbours keep the whole list free of repeats. -/
theorem nodup_window {us xs ys vs : List Nat} (h : (us ++ xs ++ vs).Nodup) (hy : ys.Nodup)
    (hu : ∀ j ∈ us, j ∉ ys) (hv : ∀ j ∈ vs, j ∉ ys) : (us ++ ys ++ vs).Nodup := by
  rw [List.nodup_append, List.nodup_append] at h ⊢
  obtain ⟨⟨hus, _, _⟩, hvs, hxv⟩ := h
  refine ⟨⟨hus, hy, ?_⟩, hvs, ?_⟩
  · rintro a ha b hb rfl
    exact hu a ha hb
  · rintro a ha b hb rfl
    rcases List.mem_append.mp ha with ha | ha
    · exact hxv a (by simp [ha]) a hb rfl
    · exact hv a hb ha

end KvEngine.Lib
