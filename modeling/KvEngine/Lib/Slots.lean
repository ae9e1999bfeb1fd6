/-
  KvEngine.Lib.Slots
  ──────────────────
  **Weights summed over a list of slots.**

  A list holds the states of many parties, one slot each, and a step of one
  party writes its slot only.  `total_set` says what such a step does to a
  sum over all slots; the other lemmas read parts off a sum.
-/
import Mathlib.Tactic.Common

namespace KvEngine.Lib

variable {α : Type}

/-- The sum of the weights of all slots. -/
def total (g : α → Nat) (l : List α) : Nat := l.foldr (fun a n => g a + n) 0

variable {g : α → Nat}

@[simp] theorem total_nil : total g [] = 0 := rfl

@[simp] theorem total_cons (a : α) (l : List α) : total g (a :: l) = g a + total g l := rfl

theorem total_append (l m : List α) : total g (l ++ m) = total g l + total g m := by
  induction l with
  | nil => rw [List.nil_append, total_nil, Nat.zero_add]
  | cons a l ih => rw [List.cons_append, total_cons, total_cons, ih, Nat.add_assoc]

/-- **One slot written.** -/
theorem total_set {l : List α} {i : Nat} {a : α} (h : l[i]? = some a) (b : α) :
    total g (l.set i b) + g a = total g l + g b := by
  induction l generalizing i with
  | nil => cases h
  | cons x l ih =>
      cases i with
      | zero =>
          obtain rfl : x = a := Option.some.inj h
          show g b + total g l + g x = g x + total g l + g b
          omega
      | succ i =>
          have := ih h
          show g x + total g (l.set i b) + g a = g x + total g l + g b
          omega

/-- No slot weighs more than all. -/
theorem le_total {l : List α} {a : α} (h : a ∈ l) : g a ≤ total g l := by
  induction l with
  | nil => cases h
  | cons x l ih =>
      rw [total_cons]
      rcases List.mem_cons.mp h with rfl | h
      · omega
      · have := ih h
        omega

/-- Nor do two different slots. -/
theorem le_total_two {l : List α} {i j : Nat} {a b : α} (hi : l[i]? = some a)
    (hj : l[j]? = some b) (hij : i ≠ j) : g a + g b ≤ total g l := by
  induction l generalizing i j with
  | nil => cases hi
  | cons x l ih =>
      rw [total_cons]
      cases i with
      | zero =>
          obtain ⟨j, rfl⟩ := Nat.exists_eq_succ_of_ne_zero hij.symm
          obtain rfl : x = a := Option.some.inj hi
          have := le_total (g := g) (List.mem_of_getElem? (show l[j]? = some b from hj))
          omega
      | succ i =>
          cases j with
          | zero =>
              obtain rfl : x = b := Option.some.inj hj
              have := le_total (g := g) (List.mem_of_getElem? (show l[i]? = some a from hi))
              omega
          | succ j =>
              have := ih (show l[i]? = some a from hi) (show l[j]? = some b from hj) (by omega)
              omega

/-- Nothing in sum is nothing in every slot. -/
theorem total_eq_zero_iff {l : List α} : total g l = 0 ↔ ∀ a ∈ l, g a = 0 := by
  induction l with
  | nil => simp
  | cons a l ih => rw [total_cons, Nat.add_eq_zero_iff, ih, List.forall_mem_cons]

theorem exists_of_total_pos {l : List α} (h : 0 < total g l) : ∃ a ∈ l, 0 < g a := by
  by_contra hnone
  have hzero : total g l = 0 := total_eq_zero_iff.mpr fun a ha =>
    Nat.eq_zero_of_not_pos fun hpos => hnone ⟨a, ha, hpos⟩
  omega

/-- What a slot holds after one was written. -/
theorem set_cases {l : List α} {i j : Nat} {a b : α} (h : (l.set i b)[j]? = some a) :
    j = i ∧ a = b ∨ j ≠ i ∧ l[j]? = some a := by
  by_cases hij : j = i
  · subst hij
    rw [List.getElem?_set_self (by simpa using (List.getElem?_eq_some_iff.mp h).1)] at h
    exact Or.inl ⟨rfl, (Option.some.inj h).symm⟩
  · rw [List.getElem?_set_ne (Ne.symm hij)] at h
    exact Or.inr ⟨hij, h⟩

end KvEngine.Lib
