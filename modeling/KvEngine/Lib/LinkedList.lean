/-
  KvEngine.Lib.LinkedList
  ───────────────────────
  **Singly linked lists in a store.**

  `next i` is what the cell `i` points to: `none` where there is no such
  cell, `some none` for a null pointer.  `Follows next p ids` says that the
  pointers lead from `p` through exactly the cells `ids` and then to null.
  A list is changed by splicing a new cell in behind one of its cells
  (`follows_splice`); cells outside the list do not matter
  (`Follows.congr`).  `walk` is the traversal itself.
-/
import Mathlib.Data.List.Nodup
import Mathlib.Tactic.Common

namespace KvEngine.Lib

variable {I : Type}

/-- From the pointer `p` the list runs through `ids` and ends. -/
def Follows (next : I → Option (Option I)) : Option I → List I → Prop
  | p, [] => p = none
  | p, i :: ids => p = some i ∧ ∃ q, next i = some q ∧ Follows next q ids

/-- Following the pointers from `p`, at most `steps` of them: `none` if one
leads to no cell, or if the end is not reached. -/
def walk (next : I → Option (Option I)) : Nat → Option I → Option (List I)
  | _, none => some []
  | 0, some _ => none
  | steps + 1, some i => do
      let q ← next i
      let ids ← walk next steps q
      some (i :: ids)

variable {next next' : I → Option (Option I)}

theorem follows_nil {p : Option I} : Follows next p [] ↔ p = none := Iff.rfl

theorem follows_cons {p : Option I} {i : I} {ids : List I} :
    Follows next p (i :: ids) ↔ p = some i ∧ ∃ q, next i = some q ∧ Follows next q ids := Iff.rfl

/-- A list is walked in as many steps as it has cells. -/
theorem walk_follows {ids : List I} {p : Option I} {steps : Nat} (h : Follows next p ids)
    (hlen : ids.length ≤ steps) : walk next steps p = some ids := by
  induction ids generalizing p steps with
  | nil =>
      rw [follows_nil.mp h]
      unfold walk
      rfl
  | cons i ids ih =>
      obtain ⟨rfl, q, hq, hrest⟩ := follows_cons.mp h
      cases steps with
      | zero => simp at hlen
      | succ steps =>
          have htail := ih hrest (by simpa using hlen)
          show (next i).bind (fun q => (walk next steps q).bind (fun ids => some (i :: ids))) = _
          rw [hq, Option.bind_some, htail, Option.bind_some]

/-- Only the cells of the list matter. -/
theorem Follows.congr {ids : List I} {p : Option I} (h : Follows next p ids)
    (heq : ∀ i ∈ ids, next' i = next i) : Follows next' p ids := by
  induction ids generalizing p with
  | nil => exact h
  | cons i ids ih =>
      obtain ⟨hp, q, hq, hrest⟩ := h
      refine ⟨hp, q, ?_, ih hrest (fun j hj => heq j (List.mem_cons_of_mem i hj))⟩
      rw [heq i List.mem_cons_self, hq]

/-- What a list looks like behind one of its cells. -/
theorem Follows.split {front rest : List I} {p : Option I} {i : I}
    (h : Follows next p (front ++ i :: rest)) : ∃ q, next i = some q ∧ Follows next q rest := by
  induction front generalizing p with
  | nil => exact h.2
  | cons j front ih =>
      obtain ⟨-, q, -, hrest⟩ := h
      exact ih hrest

/-- **Splicing in a cell.**  The new cell takes over the pointer of the cell
before it, which then points to the new one. -/
theorem follows_splice {front rest : List I} {p : Option I} {i new : I}
    (h : Follows next p (front ++ i :: rest)) (hnodup : (front ++ i :: rest).Nodup)
    (hnew : next' new = next i) (hi : next' i = some (some new))
    (hother : ∀ j ∈ front ++ i :: rest, j ≠ i → next' j = next j) :
    Follows next' p (front ++ i :: new :: rest) := by
  induction front generalizing p with
  | nil =>
      obtain ⟨hp, q, hq, hrest⟩ := h
      have hne : ∀ j ∈ rest, j ≠ i := by
        rintro j hj rfl
        exact (List.nodup_cons.mp hnodup).1 hj
      refine ⟨hp, some new, hi, rfl, q, hnew.trans hq, hrest.congr fun j hj => ?_⟩
      exact hother j (List.mem_cons_of_mem i hj) (hne j hj)
  | cons j front ih =>
      obtain ⟨hp, q, hq, hrest⟩ := h
      obtain ⟨hj, hnodup⟩ := List.nodup_cons.mp hnodup
      have hji : j ≠ i := by
        rintro rfl
        exact hj (by simp)
      refine ⟨hp, q, ?_, ih hrest hnodup fun m hm => hother m (List.mem_cons_of_mem j hm)⟩
      rw [hother j List.mem_cons_self hji, hq]

end KvEngine.Lib
