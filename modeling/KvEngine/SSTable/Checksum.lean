/-
  KvEngine.SSTable.Checksum
  ─────────────────────────
  `ComputeCRC32` against the reflected CRC-32 computed bit by bit.

  Eight steps of the register are one look into a table of 256 entries.  Five
  of the entries of `ComputeCRC32` are wrong.  An input that selects one of
  them gets an error into the register, which the following bytes carry on
  and may add to (`drift`).

  Main results:
    * `tableByte_eq` — one round of the loop;
    * `computeCRC32_exact` — which checksums are right.
-/
import KvEngine.Lib.Crc32
import KvEngine.SSTable.Format
import Mathlib.Data.List.Induction

namespace KvEngine

open Lib Lib.Crc32

namespace SSTable

/-! ## §1. One round of the loop. -/

/-- `data[i]` as an operand: a `char` is sign-extended where it is signed. -/
def charValue (signed : Bool) (b : UInt8) : UInt32 :=
  if signed then b.toInt8.toInt32.toUInt32 else b.toUInt32

/-- `(crc ^ data[i]) & 0xFF`. -/
def entryIndex (signed : Bool) (crc : UInt32) (b : UInt8) : UInt32 :=
  (crc ^^^ charValue signed b) &&& 0xFF

/-- One round of the loop. -/
def tableByte (signed : Bool) (crc : UInt32) (b : UInt8) : UInt32 :=
  crcTable.getD (entryIndex signed crc b).toNat 0 ^^^ (crc >>> 8)

/-- `ComputeCRC32` where `char` is signed, or is not. -/
def computeCRC32Char (signed : Bool) (data : Bytes) : UInt32 :=
  ~~~ data.foldl (tableByte signed) 0xFFFFFFFF

theorem computeCRC32_eq (data : Bytes) : computeCRC32 data = computeCRC32Char false data := rfl

/-- The entries that are not eight steps of the register. -/
def wrongEntries : List Nat := [176, 177, 204, 205, 233]

/-- What is wrong with the entry of an index. -/
def entryError (index : UInt32) : UInt32 :=
  crcTable.getD index.toNat 0 ^^^ shift^[8] index

theorem entryError_eq_zero_iff {index : UInt32} (h : index.toNat < 256) :
    entryError index = 0 ↔ index.toNat ∉ wrongEntries := by
  have hall : ∀ n < 256, entryError (UInt32.ofNat n) = 0 ↔ n ∉ wrongEntries := by decide +kernel
  have := hall index.toNat h
  rwa [UInt32.ofNat_toNat] at this

theorem toNat_entryIndex (signed : Bool) (crc : UInt32) (b : UInt8) :
    (entryIndex signed crc b).toNat = (crc ^^^ b.toUInt32).toNat % 2 ^ 8 := by
  have hvalue : (charValue signed b).toNat % 2 ^ 8 = b.toUInt32.toNat % 2 ^ 8 := by
    have hall : ∀ n < 256, ∀ signed, (charValue signed (UInt8.ofNat n)).toNat % 2 ^ 8
        = (UInt8.ofNat n).toUInt32.toNat % 2 ^ 8 := by decide +kernel
    have := hall b.toNat b.toNat_lt signed
    rwa [UInt8.ofNat_toNat] at this
  have hmask : (entryIndex signed crc b).toNat = (crc ^^^ charValue signed b).toNat % 2 ^ 8 := by
    rw [entryIndex, UInt32.toNat_and]
    exact Nat.and_two_pow_sub_one_eq_mod _ 8
  rw [hmask, UInt32.toNat_xor, UInt32.toNat_xor, Nat.xor_mod_two_pow, Nat.xor_mod_two_pow, hvalue]

theorem entryIndex_lt (signed : Bool) (crc : UInt32) (b : UInt8) :
    (entryIndex signed crc b).toNat < 256 := by
  rw [toNat_entryIndex]
  exact Nat.mod_lt _ (by decide)

/-- The sign of `char` does not matter. -/
theorem entryIndex_signed (signed : Bool) (crc : UInt32) (b : UInt8) :
    entryIndex signed crc b = (crc ^^^ b.toUInt32) &&& 0xFF := by
  refine UInt32.toNat_inj.mp ?_
  rw [toNat_entryIndex, UInt32.toNat_and]
  exact (Nat.and_two_pow_sub_one_eq_mod _ 8).symm

/-- **One round**: the byte goes through the register, and the error of the
entry into it. -/
theorem tableByte_eq (signed : Bool) (crc : UInt32) (b : UInt8) :
    tableByte signed crc b = byte crc b ^^^ entryError (entryIndex signed crc b) := by
  have hbyte : b.toUInt32 >>> 8 = 0 := by
    refine UInt32.toNat_inj.mp ?_
    rw [UInt32.toNat_shiftRight, UInt8.toNat_toUInt32]
    show b.toNat >>> 8 = 0
    rw [Nat.shiftRight_eq_div_pow]
    exact Nat.div_eq_of_lt b.toNat_lt
  have height : byte crc b = shift^[8] (entryIndex signed crc b) ^^^ (crc >>> 8) := by
    have h := iterate_shift_eight (crc ^^^ b.toUInt32)
    rw [UInt32.shiftRight_xor, hbyte, UInt32.xor_zero] at h
    rw [entryIndex_signed]
    exact h
  rw [height, tableByte, entryError]
  generalize shift^[8] (entryIndex signed crc b) = e
  rw [UInt32.xor_comm e, UInt32.xor_assoc, UInt32.xor_comm _ e, ← UInt32.xor_assoc e,
    UInt32.xor_self, UInt32.zero_xor, UInt32.xor_comm]

/-! ## §2. Runs of the loop. -/

/-- The error in the register behind some bytes: `crc` is what the register
should hold, `error` by how much it is off. -/
def drift (signed : Bool) : UInt32 → UInt32 → Bytes → UInt32
  | _, error, [] => error
  | crc, error, b :: bs =>
      drift signed (byte crc b)
        (shift^[8] error ^^^ entryError (entryIndex signed (crc ^^^ error) b)) bs

theorem foldl_tableByte (signed : Bool) (data : Bytes) :
    ∀ crc error : UInt32, data.foldl (tableByte signed) (crc ^^^ error)
      = data.foldl byte crc ^^^ drift signed crc error data := by
  induction data with
  | nil => exact fun _ _ => rfl
  | cons b bs ih =>
      intro crc error
      have hbyte : byte (crc ^^^ error) b = byte crc b ^^^ shift^[8] error := by
        show shift^[8] (crc ^^^ error ^^^ b.toUInt32) = shift^[8] (crc ^^^ b.toUInt32) ^^^ _
        rw [UInt32.xor_assoc, UInt32.xor_comm error, ← UInt32.xor_assoc, iterate_shift_xor]
      rw [List.foldl_cons, List.foldl_cons, tableByte_eq, hbyte, UInt32.xor_assoc, ih]
      rfl

theorem drift_snoc (signed : Bool) (bs : Bytes) (b : UInt8) :
    ∀ crc error : UInt32, drift signed crc error (bs ++ [b])
      = shift^[8] (drift signed crc error bs)
        ^^^ entryError (entryIndex signed (bs.foldl byte crc ^^^ drift signed crc error bs) b) := by
  induction bs with
  | nil => exact fun _ _ => rfl
  | cons c bs ih => exact fun crc error => ih _ _

/-- **The checksum is right if and only if the register is**, at the end. -/
theorem computeCRC32Char_iff (signed : Bool) (data : Bytes) :
    computeCRC32Char signed data = crc32 data ↔ drift signed 0xFFFFFFFF 0 data = 0 := by
  have hfold := foldl_tableByte signed data 0xFFFFFFFF 0
  rw [UInt32.xor_zero] at hfold
  rw [computeCRC32Char, hfold, crc32, ← UInt32.xor_neg_one]
  show _ ^^^ (0xFFFFFFFF : UInt32) = _ ↔ _
  rw [UInt32.xor_left_inj]
  generalize data.foldl byte 0xFFFFFFFF = crc
  generalize drift signed 0xFFFFFFFF 0 data = error
  rw [← UInt32.xor_right_inj crc (a := error), UInt32.xor_zero]

/-- No byte selects a wrong entry; the register before it is the right one. -/
def Clean (data : Bytes) : Prop :=
  ∀ bs b, bs ++ [b] <+: data →
    ((bs.foldl byte 0xFFFFFFFF ^^^ b.toUInt32) &&& 0xFF).toNat ∉ wrongEntries

theorem Clean.drift {data : Bytes} (h : Clean data) (signed : Bool) :
    SSTable.drift signed 0xFFFFFFFF 0 data = 0 := by
  induction data using List.reverseRecOn with
  | nil => rfl
  | append_singleton bs b ih =>
      have hbs := ih (fun cs c hc => h cs c (hc.trans (List.prefix_append bs [b])))
      have hright := (entryError_eq_zero_iff (entryIndex_lt signed _ b)).mpr
        ((entryIndex_signed signed _ b).symm ▸ h bs b (List.prefix_refl _))
      rw [drift_snoc, hbs, UInt32.xor_zero, hright]
      rfl

/-- **Which checksums `ComputeCRC32` gets right**: those of an input and all its
beginnings exactly if no byte of it selects a wrong entry; and of an input alone
exactly if the errors cancel in the register. -/
theorem computeCRC32_exact (signed : Bool) (data : Bytes) :
    ((∀ bs, bs <+: data → computeCRC32Char signed bs = crc32 bs) ↔ Clean data) ∧
      (computeCRC32Char signed data = crc32 data ↔ drift signed 0xFFFFFFFF 0 data = 0) := by
  refine ⟨⟨fun h bs b hpre => ?_, fun h bs hpre => ?_⟩, computeCRC32Char_iff signed data⟩
  · have hbefore := (computeCRC32Char_iff signed bs).mp
      (h bs ((List.prefix_append bs [b]).trans hpre))
    have hbehind := (computeCRC32Char_iff signed (bs ++ [b])).mp (h _ hpre)
    -- With a right register before the byte, only its entry can put an error into it.
    rw [drift_snoc, hbefore, UInt32.xor_zero] at hbehind
    have hentry : entryError (entryIndex signed (bs.foldl byte 0xFFFFFFFF) b) = 0 := by
      rw [← hbehind]
      exact (UInt32.zero_xor (a := _)).symm
    rw [← entryIndex_signed signed]
    exact (entryError_eq_zero_iff (entryIndex_lt signed _ b)).mp hentry
  · have hclean : Clean bs := fun cs c hc => h cs c (hc.trans hpre)
    exact (computeCRC32Char_iff signed bs).mpr (hclean.drift signed)

/-- The letter `O` selects entry 176. -/
theorem computeCRC32_exact_letter :
    ¬ ∀ data : Bytes, computeCRC32 data = crc32 data := by
  intro h
  exact absurd (h [79]) (by decide +kernel)

end SSTable

end KvEngine
