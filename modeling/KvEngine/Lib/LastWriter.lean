/-
  KvEngine.Lib.LastWriter
  ───────────────────────
  **Overwriting a map, one write after another.**

  A list of writes sets keys of a map to values; a write may also set none.
  Of all writes to a key the last one decides (`overwriteAll_apply`), so the
  same list once more changes nothing (`overwriteAll_twice`).
-/
import Mathlib.Logic.Function.Basic
import Mathlib.Data.List.Induction

namespace KvEngine.Lib

variable {K V R : Type} [DecidableEq K] (writes : R → Option (K × V))

def overwrite (m : K → V) (r : R) : K → V :=
  match writes r with
  | none => m
  | some (key, value) => Function.update m key value

def overwriteAll (m : K → V) (rs : List R) : K → V := rs.foldl (overwrite writes) m

/-- The value of the last write to the key. -/
def lastWrite (rs : List R) (key : K) : Option V :=
  rs.foldl (fun last r =>
    match writes r with
    | none => last
    | some (key', value) => if key = key' then some value else last) none

theorem overwriteAll_append (m : K → V) (rs ss : List R) :
    overwriteAll writes m (rs ++ ss) = overwriteAll writes (overwriteAll writes m rs) ss := by
  unfold overwriteAll
  rw [List.foldl_append]

/-- **The last write to a key decides**; without one the key keeps its value. -/
theorem overwriteAll_apply (m : K → V) (rs : List R) (key : K) :
    overwriteAll writes m rs key = (lastWrite writes rs key).getD (m key) := by
  -- on the last write of the list, since it is the one that decides
  induction rs using List.reverseRecOn with
  | nil => rfl
  | append_singleton rs r ih =>
      rw [overwriteAll_append]
      show overwrite writes (overwriteAll writes m rs) r key = _
      unfold overwrite lastWrite
      rw [List.foldl_append, List.foldl_cons, List.foldl_nil]
      cases hr : writes r with
      | none => exact ih
      | some w =>
          obtain ⟨key', value⟩ := w
          by_cases hkey : key = key'
          · subst hkey
            simp only [Function.update_self, if_true, Option.getD_some]
          · simp only [Function.update_of_ne hkey, if_neg hkey]
            exact ih

/-- **The same writes once more change nothing.** -/
theorem overwriteAll_twice (m : K → V) (rs : List R) :
    overwriteAll writes (overwriteAll writes m rs) rs = overwriteAll writes m rs := by
  funext key
  rw [overwriteAll_apply, overwriteAll_apply]
  cases lastWrite writes rs key <;> rfl

end KvEngine.Lib
