/-
  KvEngine.Lib.LittleEndian
  ─────────────────────────
  **Numbers as bytes, least significant first.**

  `toBytes k n` is the number `n` in `k` bytes and `ofBytes` reads it back.
  On `k` bytes the two are inverse to each other, so bytes that differ read
  as different numbers.  The last section is the same number put together
  with shifts and disjunctions.
-/
import Mathlib.Data.Nat.Bitwise
import Mathlib.Tactic.Ring

namespace KvEngine.Lib

/-- The lowest `k` bytes of `n`. -/
def toBytes : Nat → Nat → List UInt8
  | 0, _ => []
  | k + 1, n => UInt8.ofNat n :: toBytes k (n / 256)

def ofBytes : List UInt8 → Nat
  | [] => 0
  | b :: bs => b.toNat + 256 * ofBytes bs

@[simp] theorem length_toBytes (k n : Nat) : (toBytes k n).length = k := by
  induction k generalizing n with
  | zero => rfl
  | succ k ih => rw [toBytes, List.length_cons, ih]

theorem ofBytes_toBytes {k n : Nat} (h : n < 256 ^ k) : ofBytes (toBytes k n) = n := by
  induction k generalizing n with
  | zero =>
      rw [pow_zero] at h
      rw [toBytes, ofBytes]
      omega
  | succ k ih =>
      have hdiv : n / 256 < 256 ^ k := by
        rw [pow_succ] at h
        exact Nat.div_lt_of_lt_mul (Nat.mul_comm _ _ ▸ h)
      rw [toBytes, ofBytes, ih hdiv, UInt8.toNat_ofNat']
      omega

theorem toBytes_ofBytes (bs : List UInt8) : toBytes bs.length (ofBytes bs) = bs := by
  induction bs with
  | nil => rfl
  | cons b bs ih =>
      have hb := b.toNat_lt
      have hlow : UInt8.ofNat (b.toNat + 256 * ofBytes bs) = b := by
        refine UInt8.toNat_inj.mp ?_
        rw [UInt8.toNat_ofNat']
        omega
      have hhigh : (b.toNat + 256 * ofBytes bs) / 256 = ofBytes bs := by omega
      rw [List.length_cons, toBytes, ofBytes, hlow, hhigh, ih]

/-- Numbers of equally many bytes determine the bytes. -/
theorem ofBytes_inj {as bs : List UInt8} (hlen : as.length = bs.length)
    (h : ofBytes as = ofBytes bs) : as = bs := by
  rw [← toBytes_ofBytes as, ← toBytes_ofBytes bs, hlen, h]

/-! ## Shifts and disjunctions -/

/-- A low part below `2 ^ i` and a part shifted above it do not overlap. -/
theorem or_shiftLeft {i a : Nat} (h : a < 2 ^ i) (b : Nat) :
    a ||| b <<< i = a + 2 ^ i * b :=
  calc
    a ||| b <<< i = b <<< i + a := by rw [Nat.shiftLeft_add_eq_or_of_lt h b, Nat.or_comm]
    _ = a + 2 ^ i * b := by rw [Nat.shiftLeft_eq]; ring

end KvEngine.Lib
