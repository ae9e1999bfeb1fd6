/-
  KvEngine.Lib.Vector
  ───────────────────
  **Vector operations with a precondition.**

  Indexing, inserting, erasing or splitting a vector outside its bounds has
  no defined result.  Each operation here returns `none` in that case, so a
  program written with them and shown to return `some` has also been shown
  to stay inside its vectors.
-/
import Mathlib.Data.List.Basic

namespace KvEngine.Lib

variable {α : Type}

/-- `xs[i] = x`. -/
def setAt? (xs : List α) (i : Nat) (x : α) : Option (List α) :=
  if i < xs.length then some (xs.set i x) else none

/-- `xs.insert(xs.begin() + i, x)`. -/
def insertAt? (xs : List α) (i : Nat) (x : α) : Option (List α) :=
  if i ≤ xs.length then some (xs.take i ++ x :: xs.drop i) else none

/-- `xs.erase(xs.begin() + i)`. -/
def eraseAt? (xs : List α) (i : Nat) : Option (List α) :=
  if i < xs.length then some (xs.eraseIdx i) else none

/-- The ranges before and from `xs.begin() + i`. -/
def splitAt? (xs : List α) (i : Nat) : Option (List α × List α) :=
  if i ≤ xs.length then some (xs.take i, xs.drop i) else none

/-! ## In-range results, on a list cut at the index -/

/-- The element behind `xs` is replaced. -/
theorem setAt?_append (xs : List α) (y x : α) (zs : List α) {i : Nat} (hi : i = xs.length) :
    setAt? (xs ++ y :: zs) i x = some (xs ++ x :: zs) := by
  subst hi
  simp [setAt?]

/-- An element is put between `xs` and `zs`. -/
theorem insertAt?_append (xs zs : List α) (x : α) {i : Nat} (hi : i = xs.length) :
    insertAt? (xs ++ zs) i x = some (xs ++ x :: zs) := by
  subst hi
  simp [insertAt?]

/-- The element behind `xs` is taken out. -/
theorem eraseAt?_append (xs : List α) (y : α) (zs : List α) {i : Nat} (hi : i = xs.length) :
    eraseAt? (xs ++ y :: zs) i = some (xs ++ zs) := by
  subst hi
  simp [eraseAt?, List.eraseIdx_append_of_length_le]

/-- Any index up to the end cuts a list in two. -/
theorem splitAt?_of_le {xs : List α} {i : Nat} (hi : i ≤ xs.length) :
    splitAt? xs i = some (xs.take i, xs.drop i) :=
  if_pos hi

theorem getElem?_append_cons (xs : List α) (y : α) (zs : List α) {i : Nat} (hi : i = xs.length) :
    (xs ++ y :: zs)[i]? = some y := by
  subst hi
  simp

/-! ## One column of a vector of records

A record is kept in several vectors; the same operation on each of them is one
operation on the records. -/

variable {β : Type} (f : α → β)

theorem setAt?_map (xs : List α) (y x : α) (zs : List α) :
    setAt? ((xs ++ y :: zs).map f) xs.length (f x) = some ((xs ++ x :: zs).map f) := by
  rw [List.map_append, List.map_cons, setAt?_append _ _ _ _ (List.length_map f).symm,
    List.map_append, List.map_cons]

theorem insertAt?_map (xs zs : List α) (x : α) :
    insertAt? ((xs ++ zs).map f) xs.length (f x) = some ((xs ++ x :: zs).map f) := by
  rw [List.map_append, insertAt?_append _ _ _ (List.length_map f).symm, List.map_append,
    List.map_cons]

theorem eraseAt?_map (xs : List α) (y : α) (zs : List α) :
    eraseAt? ((xs ++ y :: zs).map f) xs.length = some ((xs ++ zs).map f) := by
  rw [List.map_append, List.map_cons, eraseAt?_append _ _ _ (List.length_map f).symm,
    List.map_append]

theorem splitAt?_map {xs : List α} {i : Nat} (hi : i ≤ xs.length) :
    splitAt? (xs.map f) i = some ((xs.take i).map f, (xs.drop i).map f) := by
  have hmap : i ≤ (xs.map f).length := by rwa [List.length_map]
  rw [splitAt?_of_le hmap, List.map_take, List.map_drop]

theorem getElem?_map_append_cons (xs : List α) (y : α) (zs : List α) :
    ((xs ++ y :: zs).map f)[xs.length]? = some (f y) := by
  rw [List.getElem?_map, getElem?_append_cons _ _ _ rfl]
  rfl

end KvEngine.Lib
