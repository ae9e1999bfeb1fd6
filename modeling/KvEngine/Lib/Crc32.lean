/-
  KvEngine.Lib.Crc32
  ──────────────────
  **The reflected CRC-32, bit by bit.**

  Polynomial `0xEDB88320`, initial value and final exclusive or
  `0xFFFFFFFF`: the checksum zlib's `crc32` computes.  One step of the
  register loses nothing, so a change of exactly one byte of the input always
  changes the checksum (`crc32_change`).  The register is linear
  (`iterate_shift_xor`), so its low byte decides what eight steps change the
  rest by (`iterate_shift_eight`), which is what a table of 256 entries holds.
-/
import Mathlib.Algebra.Ring.Nat
import Mathlib.Logic.Function.Iterate
import Mathlib.Tactic.Common

namespace KvEngine.Lib

namespace Crc32

/-- One bit through the register. -/
def shift (c : UInt32) : UInt32 :=
  if c &&& 1 = 1 then (c >>> 1) ^^^ 0xEDB88320 else c >>> 1

/-- One byte through the register. -/
def byte (c : UInt32) (b : UInt8) : UInt32 :=
  shift (shift (shift (shift (shift (shift (shift (shift (c ^^^ b.toUInt32))))))))

end Crc32

def crc32 (bytes : List UInt8) : UInt32 :=
  bytes.foldl Crc32.byte 0xFFFFFFFF ^^^ 0xFFFFFFFF

namespace Crc32

theorem and_one_eq (c : UInt32) : (c &&& 1 = 1) ↔ c.toBitVec.getLsbD 0 = true := by
  have hval : (c &&& 1).toNat = c.toNat % 2 := by
    rw [UInt32.toNat_and]
    exact Nat.and_one_is_mod _
  rw [← UInt32.toNat_inj, hval, BitVec.getLsbD, Nat.testBit_zero, decide_eq_true_iff]
  rfl

theorem toBitVec_shift (c : UInt32) : (shift c).toBitVec
    = if c.toBitVec.getLsbD 0 then (c.toBitVec >>> 1) ^^^ 0xEDB88320#32 else c.toBitVec >>> 1 := by
  unfold shift
  by_cases h : c &&& 1 = 1
  · rw [if_pos h, if_pos ((and_one_eq c).mp h)]
    rfl
  · rw [if_neg h, if_neg (fun h' => h ((and_one_eq c).mpr h'))]
    rfl

/-- The lowest bit decides the highest bit of the result. -/
theorem high_shift (c : UInt32) : (shift c).toBitVec.getLsbD 31 = c.toBitVec.getLsbD 0 := by
  rw [toBitVec_shift]
  cases h : c.toBitVec.getLsbD 0 with
  | true => simp
  | false => simp

theorem shift_injective : Function.Injective shift := by
  intro c d h
  have hlow : c.toBitVec.getLsbD 0 = d.toBitVec.getLsbD 0 := by
    rw [← high_shift, ← high_shift, h]
  have hrest : c.toBitVec >>> 1 = d.toBitVec >>> 1 := by
    have hshift := congrArg UInt32.toBitVec h
    rw [toBitVec_shift, toBitVec_shift, hlow] at hshift
    split at hshift
    next => exact (BitVec.xor_left_inj _).mp hshift
    next => exact hshift
  refine UInt32.toBitVec_inj.mp (BitVec.eq_of_getLsbD_eq (fun i hi => ?_))
  cases i with
  | zero => exact hlow
  | succ i =>
      have := congrArg (fun v : BitVec 32 => v.getLsbD i) hrest
      simpa [Nat.add_comm] using this

theorem toUInt32_injective : Function.Injective UInt8.toUInt32 := by
  intro a b h
  refine UInt8.toNat_inj.mp ?_
  rw [← UInt8.toNat_toUInt32, h, UInt8.toNat_toUInt32]

theorem byte_eq {c d : UInt32} {a b : UInt8} (h : byte c a = byte d b) :
    c ^^^ a.toUInt32 = d ^^^ b.toUInt32 := by
  have hinj := shift_injective
  exact hinj (hinj (hinj (hinj (hinj (hinj (hinj (hinj h)))))))

theorem xor_cancel {a b c : UInt32} (h : a ^^^ c = b ^^^ c) : a = b := by
  have := congrArg UInt32.toBitVec h
  rw [UInt32.toBitVec_xor, UInt32.toBitVec_xor] at this
  exact UInt32.toBitVec_inj.mp ((BitVec.xor_left_inj _).mp this)

theorem byte_left {c d : UInt32} {a : UInt8} (h : byte c a = byte d a) : c = d :=
  xor_cancel (byte_eq h)

theorem byte_right {c : UInt32} {a b : UInt8} (h : byte c a = byte c b) : a = b :=
  toUInt32_injective (xor_cancel (by rw [UInt32.xor_comm, byte_eq h, UInt32.xor_comm]))

theorem foldl_byte_injective (bytes : List UInt8) :
    Function.Injective (fun c => bytes.foldl byte c) := by
  induction bytes with
  | nil => exact fun _ _ h => h
  | cons b bytes ih => exact fun c d h => byte_left (ih h)

theorem shift_xor (c d : UInt32) : shift (c ^^^ d) = shift c ^^^ shift d := by
  refine UInt32.toBitVec_inj.mp ?_
  rw [UInt32.toBitVec_xor, toBitVec_shift, toBitVec_shift, toBitVec_shift, UInt32.toBitVec_xor,
    BitVec.getLsbD_xor, BitVec.ushiftRight_xor_distrib]
  generalize c.toBitVec >>> 1 = x
  generalize d.toBitVec >>> 1 = y
  -- the polynomial is added on both sides or cancels
  cases c.toBitVec.getLsbD 0 <;> cases d.toBitVec.getLsbD 0
  · rfl
  · exact BitVec.xor_assoc x y _
  · show x ^^^ y ^^^ 0xEDB88320#32 = x ^^^ 0xEDB88320#32 ^^^ y
    rw [BitVec.xor_assoc, BitVec.xor_comm y, ← BitVec.xor_assoc]
  · show x ^^^ y = x ^^^ 0xEDB88320#32 ^^^ (y ^^^ 0xEDB88320#32)
    rw [BitVec.xor_comm y 0xEDB88320#32, BitVec.xor_assoc, ← BitVec.xor_assoc 0xEDB88320#32,
      BitVec.xor_self, BitVec.zero_xor]

/-- **The register is linear.** -/
theorem iterate_shift_xor (n : Nat) (c d : UInt32) :
    shift^[n] (c ^^^ d) = shift^[n] c ^^^ shift^[n] d := by
  induction n generalizing c d with
  | zero => rfl
  | succ n ih => rw [Function.iterate_succ_apply, Function.iterate_succ_apply,
      Function.iterate_succ_apply, shift_xor, ih]

theorem toNat_shift_of_even {c : UInt32} (h : c.toNat % 2 = 0) : (shift c).toNat = c.toNat / 2 := by
  have hlow : ¬ (c &&& 1 = 1) := by
    rw [and_one_eq, BitVec.getLsbD, Nat.testBit_zero, decide_eq_true_iff]
    show ¬ c.toNat % 2 = 1
    omega
  rw [shift, if_neg hlow, UInt32.toNat_shiftRight]
  exact Nat.shiftRight_eq_div_pow _ 1

/-- Zero bits leave the register without a trace. -/
theorem toNat_iterate_shift {n : Nat} {c : UInt32} (h : c.toNat % 2 ^ n = 0) :
    (shift^[n] c).toNat = c.toNat / 2 ^ n := by
  induction n generalizing c with
  | zero => simp
  | succ n ih =>
      have hdvd := Nat.dvd_of_mod_eq_zero h
      obtain ⟨k, hk⟩ := hdvd
      have heven : c.toNat % 2 = 0 := by
        rw [hk, Nat.pow_succ', Nat.mul_assoc]
        exact Nat.mul_mod_right 2 _
      have hhalf : c.toNat / 2 = 2 ^ n * k := by
        rw [hk, Nat.pow_succ', Nat.mul_assoc, Nat.mul_div_cancel_left _ (by decide)]
      have hshift := toNat_shift_of_even heven
      rw [Function.iterate_succ_apply, ih (by rw [hshift, hhalf]; exact Nat.mul_mod_right _ _),
        hshift, Nat.div_div_eq_div_mul, Nat.pow_succ']

/-- **Eight steps at once**: the low byte decides what the rest, moved down, is
changed by. -/
theorem iterate_shift_eight (c : UInt32) :
    shift^[8] c = shift^[8] (c &&& 0xFF) ^^^ (c >>> 8) := by
  have hlow : (c &&& 0xFF).toNat = c.toNat % 2 ^ 8 := by
    rw [UInt32.toNat_and]
    exact Nat.and_two_pow_sub_one_eq_mod c.toNat 8
  let high := (c &&& 0xFF) ^^^ c
  have hvalue : high.toNat = (c.toNat % 2 ^ 8) ^^^ c.toNat := by
    rw [UInt32.toNat_xor, hlow]
  have hzero : high.toNat % 2 ^ 8 = 0 := by
    rw [hvalue, Nat.xor_mod_two_pow, Nat.mod_mod, Nat.xor_self]
  have hdiv : high.toNat / 2 ^ 8 = c.toNat / 2 ^ 8 := by
    rw [hvalue, Nat.xor_div_two_pow, Nat.div_eq_of_lt (Nat.mod_lt _ (by decide)), Nat.zero_xor]
  have hrest : shift^[8] high = c >>> 8 := by
    refine UInt32.toNat_inj.mp ?_
    rw [toNat_iterate_shift hzero, hdiv, UInt32.toNat_shiftRight]
    exact (Nat.shiftRight_eq_div_pow _ 8).symm
  rw [← hrest, ← iterate_shift_xor, ← UInt32.xor_assoc, UInt32.xor_self, UInt32.zero_xor]

end Crc32

/-- **A change of one byte changes the checksum.** -/
theorem crc32_change (xs ys : List UInt8) {a b : UInt8} (h : a ≠ b) :
    crc32 (xs ++ a :: ys) ≠ crc32 (xs ++ b :: ys) := by
  intro heq
  have hreg := Crc32.xor_cancel heq
  rw [List.foldl_append, List.foldl_append, List.foldl_cons, List.foldl_cons] at hreg
  exact h (Crc32.byte_right (Crc32.foldl_byte_injective ys hreg))

/-- The check value of the ASCII digits `123456789`. -/
example : crc32 [49, 50, 51, 52, 53, 54, 55, 56, 57] = 0xCBF43926 := by decide +kernel

end KvEngine.Lib
