/-
  KvEngine.Lib.FrontCoding
  ────────────────────────
  **Front coding: every key without the prefix it shares with the key before.**

  A code is the number of elements taken from the key before and the rest of
  the key.  The number is stored through `cap`, which keeps it or makes it
  smaller, as a field of fixed width does.

  Decoding a key from the key it was coded against gives it back if its
  number was kept (`decode_self`).  Decoding a list from the empty key finds
  all keys again only if the first shares nothing (`fresh_of_subset`): a key
  that has lost its prefix is shorter, and no other key grows.
-/
import Mathlib.Data.List.Perm.Subperm
import Mathlib.Algebra.BigOperators.Group.List.Basic
import Mathlib.Algebra.Ring.Nat
import Mathlib.Tactic.Common

namespace KvEngine.Lib

variable {α : Type} [DecidableEq α]

/-- How many elements two lists have in common at the front. -/
def commonPrefix : List α → List α → Nat
  | x :: a, y :: b => if x = y then commonPrefix a b + 1 else 0
  | _, _ => 0

theorem commonPrefix_le (a b : List α) : commonPrefix a b ≤ a.length := by
  induction a generalizing b with
  | nil => exact Nat.le_refl 0
  | cons x a ih =>
      cases b with
      | nil => exact Nat.zero_le _
      | cons y b =>
          unfold commonPrefix
          split
          · exact Nat.succ_le_succ (ih b)
          · exact Nat.zero_le _

theorem take_commonPrefix (a b : List α) :
    b.take (commonPrefix a b) = a.take (commonPrefix a b) := by
  induction a generalizing b with
  | nil => cases b <;> rfl
  | cons x a ih =>
      cases b with
      | nil => rfl
      | cons y b =>
          unfold commonPrefix
          by_cases h : x = y
          · rw [if_pos h, List.take_succ_cons, List.take_succ_cons, ih b, h]
          · rw [if_neg h]
            rfl

theorem commonPrefix_le_right (a b : List α) : commonPrefix a b ≤ b.length := by
  have hle := commonPrefix_le a b
  have hlen := congrArg List.length (take_commonPrefix a b)
  rw [List.length_take, List.length_take] at hlen
  omega

/-- A key decoded from the key it was coded against is itself. -/
theorem decode_self (k prev : List α) :
    prev.take (commonPrefix k prev) ++ k.drop (commonPrefix k prev) = k := by
  rw [take_commonPrefix, List.take_append_drop]

variable (cap : Nat → Nat)

def frontEncode : List α → List (List α) → List (Nat × List α)
  | _, [] => []
  | prev, k :: ks =>
      (cap (commonPrefix k prev), k.drop (commonPrefix k prev)) :: frontEncode k ks

def frontDecode : List α → List (Nat × List α) → List (List α)
  | _, [] => []
  | last, (n, rest) :: codes => (last.take n ++ rest) :: frontDecode (last.take n ++ rest) codes

variable {cap}

theorem length_frontDecode (last prev : List α) (ks : List (List α)) :
    (frontDecode last (frontEncode cap prev ks)).length = ks.length := by
  induction ks generalizing last prev with
  | nil => rfl
  | cons k ks ih =>
      unfold frontEncode frontDecode
      rw [List.length_cons, List.length_cons, ih]

omit [DecidableEq α] in
/-- No decoded key is longer than all that is stored. -/
theorem length_le_of_mem_frontDecode {codes : List (Nat × List α)} {last k : List α}
    (h : k ∈ frontDecode last codes) :
    k.length ≤ last.length + (codes.map (fun code => code.2.length)).sum := by
  induction codes generalizing last with
  | nil => exact absurd h (by simp [frontDecode])
  | cons code codes ih =>
      obtain ⟨n, rest⟩ := code
      unfold frontDecode at h
      have hcur : (last.take n ++ rest).length ≤ last.length + rest.length := by
        rw [List.length_append, List.length_take]
        omega
      rw [List.map_cons, List.sum_cons]
      show k.length ≤ last.length + (rest.length + _)
      rcases List.mem_cons.mp h with rfl | h
      · omega
      · have := ih h
        omega

section Cap

variable (hcap : ∀ n, cap n ≤ n)

include hcap

/-- No key grows, whatever it is decoded from. -/
theorem sum_frontDecode_le (last prev : List α) (ks : List (List α)) :
    ((frontDecode last (frontEncode cap prev ks)).map List.length).sum
      ≤ (ks.map List.length).sum := by
  induction ks generalizing last prev with
  | nil => exact Nat.le_refl _
  | cons k ks ih =>
      unfold frontEncode frontDecode
      have hle := commonPrefix_le k prev
      have hkeep := hcap (commonPrefix k prev)
      have hrest := ih (last.take (cap (commonPrefix k prev)) ++ k.drop (commonPrefix k prev)) k
      rw [List.map_cons, List.map_cons, List.sum_cons, List.sum_cons, List.length_append,
        List.length_take, List.length_drop] at *
      omega

/-- **All keys are found again only if the first shares nothing.** -/
theorem fresh_of_subset {prev k : List α} {ks : List (List α)} (hnodup : (k :: ks).Nodup)
    (hsub : k :: ks ⊆ frontDecode [] (frontEncode cap prev (k :: ks))) :
    commonPrefix k prev = 0 := by
  have hperm : (k :: ks).Perm (frontDecode [] (frontEncode cap prev (k :: ks))) :=
    (hnodup.subperm hsub).perm_of_length_le (Nat.le_of_eq (length_frontDecode [] prev (k :: ks)))
  have hsum := (hperm.map List.length).sum_eq
  unfold frontEncode frontDecode at hsum
  have hle := commonPrefix_le k prev
  have hrest := sum_frontDecode_le hcap
    (([] : List α).take (cap (commonPrefix k prev)) ++ k.drop (commonPrefix k prev)) k ks
  rw [List.map_cons, List.map_cons, List.sum_cons, List.sum_cons, List.length_append,
    List.take_nil, List.length_drop] at *
  simp only [List.length_nil] at hsum
  omega

end Cap

/-- Fewer codes than keys do not give all keys. -/
theorem length_le_of_subset {last prev : List α} {ks ls : List (List α)} (hnodup : ks.Nodup)
    (hsub : ks ⊆ frontDecode last (frontEncode cap prev ls)) : ks.length ≤ ls.length := by
  have hle := (hnodup.subperm hsub).length_le
  rwa [length_frontDecode] at hle

end KvEngine.Lib
