/-
  KvEngine.Lib.Bits
  ─────────────────
  **Sets of numbers as bits in bytes.**

  The number `i` is bit `i % 8` of byte `i / 8`.  Setting a bit adds its
  number and nothing else (`bitAt_setBit`), setting several adds them all
  (`bitAt_setBits`).  `mask_iff` reads a bit the way a program does.
-/
import Mathlib.Data.Nat.Bitwise
import Mathlib.Tactic.Common

namespace KvEngine.Lib

/-- The bit number `i`; no bits behind the bytes. -/
def bitAt (bytes : List UInt8) (i : Nat) : Bool := (bytes.getD (i / 8) 0).toNat.testBit (i % 8)

/-- Sets the bit number `i`. -/
def setBit (bytes : List UInt8) (i : Nat) : List UInt8 :=
  bytes.modify (i / 8) (fun b => b ||| (1 <<< UInt8.ofNat (i % 8)))

@[simp] theorem length_setBit (bytes : List UInt8) (i : Nat) :
    (setBit bytes i).length = bytes.length := List.length_modify _ _ _

theorem toNat_mask {i : Nat} (h : i < 8) : ((1 : UInt8) <<< UInt8.ofNat i).toNat = 2 ^ i := by
  have hpow : 2 ^ i < 2 ^ 8 := Nat.pow_lt_pow_right (by decide) h
  have hi : (UInt8.ofNat i).toNat = i := by
    rw [UInt8.toNat_ofNat']
    exact Nat.mod_eq_of_lt (by omega)
  rw [UInt8.toNat_shiftLeft, hi, Nat.mod_eq_of_lt h]
  show 1 <<< i % 2 ^ 8 = 2 ^ i
  rw [Nat.one_shiftLeft, Nat.mod_eq_of_lt hpow]

/-- A bit, read through a mask. -/
theorem mask_iff (b : UInt8) {i : Nat} (h : i < 8) :
    b &&& (1 <<< UInt8.ofNat i) ≠ 0 ↔ b.toNat.testBit i = true := by
  have hand : (b &&& (1 <<< UInt8.ofNat i)).toNat = b.toNat &&& 2 ^ i := by
    rw [UInt8.toNat_and, toNat_mask h]
  rw [Ne, ← UInt8.toNat_inj, hand, show (0 : UInt8).toNat = 0 from rfl, Nat.and_two_pow]
  cases b.toNat.testBit i with
  | true => simp
  | false => simp

/-- **Setting a bit adds its number.** -/
theorem bitAt_setBit {bytes : List UInt8} {i j : Nat} (h : i / 8 < bytes.length) :
    bitAt (setBit bytes i) j = true ↔ j = i ∨ bitAt bytes j = true := by
  have hi : i % 8 < 8 := Nat.mod_lt _ (by decide)
  unfold bitAt setBit
  by_cases hbyte : i / 8 = j / 8
  · rw [← hbyte, List.getD_eq_getElem?_getD, List.getD_eq_getElem?_getD, List.getElem?_modify_eq,
      List.getElem?_eq_getElem h]
    show (bytes[i / 8] ||| _).toNat.testBit _ = true ↔ _ ∨ (bytes[i / 8]).toNat.testBit _ = true
    rw [UInt8.toNat_or, toNat_mask hi, Nat.testBit_or, Nat.testBit_two_pow, Bool.or_eq_true,
      decide_eq_true_eq]
    have hbit : i % 8 = j % 8 ↔ j = i := by omega
    rw [hbit]
    exact or_comm
  · have hne : j ≠ i := fun heq => hbyte (by rw [heq])
    rw [List.getD_eq_getElem?_getD, List.getElem?_modify_ne _ bytes hbyte,
      ← List.getD_eq_getElem?_getD, or_iff_right hne]

/-- **Setting several bits adds them all.** -/
theorem bitAt_setBits {is : List Nat} {j : Nat} : ∀ {bytes : List UInt8},
    (∀ i ∈ is, i / 8 < bytes.length) →
      (bitAt (is.foldl setBit bytes) j = true ↔ j ∈ is ∨ bitAt bytes j = true) := by
  induction is with
  | nil =>
      intro bytes _
      exact (or_iff_right List.not_mem_nil).symm
  | cons i is ih =>
      intro bytes h
      rw [List.foldl_cons, ih fun x hx => by
        rw [length_setBit]
        exact h x (List.mem_cons_of_mem _ hx), bitAt_setBit (h i List.mem_cons_self),
        List.mem_cons, or_left_comm, or_assoc]

theorem length_setBits (is : List Nat) (bytes : List UInt8) :
    (is.foldl setBit bytes).length = bytes.length := by
  induction is generalizing bytes with
  | nil => rfl
  | cons i is ih => rw [List.foldl_cons, ih, length_setBit]

/-- No bit is set to begin with. -/
theorem bitAt_replicate (n i : Nat) : bitAt (List.replicate n 0) i = false := by
  unfold bitAt
  rw [List.getD_eq_getElem?_getD, List.getElem?_replicate]
  split
  · exact Nat.zero_testBit _
  · exact Nat.zero_testBit _

end KvEngine.Lib
