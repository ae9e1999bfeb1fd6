/-
  KvEngine.Api.Percent
  ────────────────────
  `DecodePathComponent`: percent escapes of keys and of query values.

  `Unescapes` says what an escaped text is and what it stands for, piece by
  piece from the left; `decodePathComponent_eq_some_iff` that the loop accepts
  these texts and no others.  `percentEncode` is the other side: a text in
  which the writer chooses the bytes to escape and the case of each digit.
-/
import KvEngine.Lib.Escapes
import KvEngine.Slice

namespace KvEngine

open Lib

namespace Api

/-! ## §1. The code. -/

/-- `hex_value`; a negative result is `none`. -/
def hexValue (c : UInt8) : Option Nat :=
  if 48 ≤ c ∧ c ≤ 57 then some (c.toNat - 48)
  else if 97 ≤ c ∧ c ≤ 102 then some (c.toNat - 97 + 10)
  else if 65 ≤ c ∧ c ≤ 70 then some (c.toNat - 65 + 10)
  else none

/-- The loop; the last argument is `input` from `i` on.  `none` is a false
`*ok`. -/
def decodeLoop (out : Bytes) : Bytes → Option Bytes
  | [] => some out
  | 37 :: rest =>
      match rest with
      | hi :: lo :: rest =>
          match hexValue hi, hexValue lo with
          | some hi, some lo => decodeLoop (out ++ [UInt8.ofNat (hi <<< 4 ||| lo)]) rest
          | _, _ => none
      | _ => none
  | c :: rest => if c = 63 then none else decodeLoop (out ++ [c]) rest

def decodePathComponent (input : Bytes) : Option Bytes := decodeLoop [] input

/-! ## §2. Hexadecimal digits. -/

theorem hexValue_hexDigit (upper : Bool) {n : Nat} (h : n < 16) :
    hexValue (hexDigit upper n) = some n := by
  revert upper n
  decide

theorem hexValue_eq_some_iff {c : UInt8} {n : Nat} : hexValue c = some n ↔ IsHexDigit c n := by
  constructor
  · have hall : ∀ c < 256, ∀ n ∈ hexValue (UInt8.ofNat c),
        n < 16 ∧ ∃ upper, UInt8.ofNat c = hexDigit upper n := by decide +kernel
    intro h
    have := hall c.toNat c.toNat_lt n
    rw [UInt8.ofNat_toNat] at this
    exact this h
  · rintro ⟨hn, upper, rfl⟩
    exact hexValue_hexDigit upper hn

/-- The two digits put together. -/
theorem shiftLeft_or_digit {h l : Nat} (hl : l < 16) : h <<< 4 ||| l = 16 * h + l := by
  rw [Nat.shiftLeft_eq, Nat.mul_comm]
  exact (Nat.two_pow_add_eq_or_of_lt (i := 4) hl h).symm

/-! ## §3. What is accepted. -/

/-- `s` is a text in which every `%` begins an escape of three bytes and `?`
does not occur, and `t` has the byte denoted by each escape in its place. -/
inductive Unescapes : Bytes → Bytes → Prop
  | nil : Unescapes [] []
  | plain {c : UInt8} {s t : Bytes} (hpercent : c ≠ 37) (hquery : c ≠ 63) (rest : Unescapes s t) :
      Unescapes (c :: s) (c :: t)
  | escape {hi lo : UInt8} {h l : Nat} {s t : Bytes} (hhi : IsHexDigit hi h)
      (hlo : IsHexDigit lo l) (rest : Unescapes s t) :
      Unescapes (37 :: hi :: lo :: s) (UInt8.ofNat (16 * h + l) :: t)

theorem decodeLoop_plain {c : UInt8} {out rest : Bytes} (hpercent : c ≠ 37) (hquery : c ≠ 63) :
    decodeLoop out (c :: rest) = decodeLoop (out ++ [c]) rest := by
  rw [decodeLoop.eq_def]
  split
  next h => exact absurd h (by simp)
  next h => exact absurd (List.cons.inj h).1 hpercent
  next h =>
    obtain ⟨rfl, rfl⟩ := List.cons.inj h
    rw [if_neg hquery]

theorem decodeLoop_escape {hi lo : UInt8} {h l : Nat} {out rest : Bytes} (hhi : IsHexDigit hi h)
    (hlo : IsHexDigit lo l) :
    decodeLoop out (37 :: hi :: lo :: rest)
      = decodeLoop (out ++ [UInt8.ofNat (16 * h + l)]) rest := by
  rw [decodeLoop]
  simp only [hexValue_eq_some_iff.mpr hhi, hexValue_eq_some_iff.mpr hlo,
    shiftLeft_or_digit hlo.1]

theorem Unescapes.decodeLoop {s t : Bytes} (h : Unescapes s t) :
    ∀ out, Api.decodeLoop out s = some (out ++ t) := by
  induction h with
  | nil => intro out; rw [List.append_nil]; rfl
  | plain hpercent hquery _ ih =>
      intro out
      rw [decodeLoop_plain hpercent hquery, ih, List.append_assoc]
      rfl
  | escape hhi hlo _ ih =>
      intro out
      rw [decodeLoop_escape hhi hlo, ih, List.append_assoc]
      rfl

theorem unescapes_of_decodeLoop {v : Bytes} (out s : Bytes) (hv : Api.decodeLoop out s = some v) :
    ∃ t, v = out ++ t ∧ Unescapes s t := by
  fun_induction Api.decodeLoop out s with
  | case1 out => exact ⟨[], by rw [List.append_nil]; exact (Option.some.inj hv).symm, .nil⟩
  | case2 out hi lo rest h l hlo hhi ih =>
      have hdigit := hexValue_eq_some_iff.mp hlo
      rw [shiftLeft_or_digit hdigit.1] at ih hv
      obtain ⟨t, rfl, ht⟩ := ih hv
      refine ⟨UInt8.ofNat (16 * h + l) :: t, List.append_assoc _ _ _, ?_⟩
      exact .escape (hexValue_eq_some_iff.mp hhi) hdigit ht
  | case3 | case4 | case5 => exact absurd hv (by simp)
  | case6 out c rest hpercent hquery ih =>
      obtain ⟨t, rfl, ht⟩ := ih hv
      exact ⟨c :: t, List.append_assoc _ _ _, .plain (fun h => hpercent h) hquery ht⟩

/-- **The loop decodes the escaped texts** and refuses the others. -/
theorem decodePathComponent_eq_some_iff {s t : Bytes} :
    decodePathComponent s = some t ↔ Unescapes s t := by
  constructor
  · intro h
    obtain ⟨t, rfl, ht⟩ := unescapes_of_decodeLoop [] s h
    exact ht
  · exact fun h => h.decodeLoop []

/-! ## §4. Escaping. -/

/-- How one byte is written: as it is, or as an escape whose digits are in
upper case or not. -/
inductive Writing where
  | plain
  | escaped (hi lo : Bool)
  deriving DecidableEq, Repr

def writeByte (c : UInt8) : Writing → Bytes
  | .plain => [c]
  | .escaped hi lo => [37, hexDigit hi (c.toNat / 16), hexDigit lo (c.toNat % 16)]

/-- The text for some bytes, each with the way it is written. -/
def percentEncode (key : List (UInt8 × Writing)) : Bytes := key.flatMap (fun p => writeByte p.1 p.2)

/-- None of the `reserved` bytes is written as it is. -/
def Escapes (reserved : Bytes) (key : List (UInt8 × Writing)) : Prop :=
  ∀ p ∈ key, p.1 ∈ reserved → p.2 ≠ .plain

instance (reserved : Bytes) (key : List (UInt8 × Writing)) : Decidable (Escapes reserved key) :=
  inferInstanceAs (Decidable (∀ p ∈ key, _))

@[simp] theorem percentEncode_cons (p : UInt8 × Writing) (key : List (UInt8 × Writing)) :
    percentEncode (p :: key) = writeByte p.1 p.2 ++ percentEncode key := List.flatMap_cons

theorem Escapes.tail {reserved : Bytes} {p : UInt8 × Writing} {key : List (UInt8 × Writing)}
    (h : Escapes reserved (p :: key)) : Escapes reserved key :=
  fun q hq => h q (List.mem_cons_of_mem p hq)

/-- A byte is a multiple of 16 and a rest. -/
theorem ofNat_digits (c : UInt8) : UInt8.ofNat (16 * (c.toNat / 16) + c.toNat % 16) = c := by
  rw [Nat.div_add_mod, UInt8.ofNat_toNat]

/-- What is written is a text for the bytes. -/
theorem Escapes.unescapes {key : List (UInt8 × Writing)} (h : Escapes [37, 63] key) :
    Unescapes (percentEncode key) (key.map Prod.fst) := by
  induction key with
  | nil => exact .nil
  | cons p key ih =>
      obtain ⟨c, w⟩ := p
      have hc : c ∈ [37, 63] → w ≠ .plain := h (c, w) (List.mem_cons_self ..)
      rw [percentEncode_cons, List.map_cons]
      cases w with
      | plain =>
          have hplain : c ≠ 37 ∧ c ≠ 63 := by simpa using fun hmem => hc hmem rfl
          exact .plain hplain.1 hplain.2 (ih h.tail)
      | escaped hi lo =>
          have hlt := c.toNat_lt
          have hescape : Unescapes (writeByte c (.escaped hi lo) ++ percentEncode key)
              (UInt8.ofNat (16 * (c.toNat / 16) + c.toNat % 16) :: key.map Prod.fst) :=
            .escape ⟨by omega, hi, rfl⟩ ⟨Nat.mod_lt _ (by omega), lo, rfl⟩ (ih h.tail)
          rw [ofNat_digits] at hescape
          exact hescape

/-- **`DecodePathComponent` decodes the escaped texts and refuses the others**,
so that a key comes back from every text with `%` and `?` escaped that is
written for it. -/
theorem decodePathComponent_exact :
    (∀ s t, decodePathComponent s = some t ↔ Unescapes s t) ∧
      ∀ key, Escapes [37, 63] key →
        decodePathComponent (percentEncode key) = some (key.map Prod.fst) :=
  ⟨fun _ _ => decodePathComponent_eq_some_iff,
    fun _ hkey => decodePathComponent_eq_some_iff.mpr hkey.unescapes⟩

/-- The key `?%a`, its first two bytes escaped in either case. -/
theorem decodePathComponent_exact_reserved :
    decodePathComponent [37, 51, 70, 37, 50, 53, 97] = some [63, 37, 97] :=
  decodePathComponent_exact.2
    [(63, .escaped false true), (37, .escaped false false), (97, .plain)] (by decide)

end Api

end KvEngine
