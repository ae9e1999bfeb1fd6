/-
  KvEngine.Lib.Escapes
  ────────────────────
  **Hexadecimal digits, and JSON strings as bytes.**

  `readString` reads a JSON string from behind its opening quote: it decodes
  up to the quote that ends the string and gives what follows it.  Bytes from
  0x80 up stand for themselves.  For an encoder that writes byte by byte,
  `readString_flatMap` asks one fact of each byte (`Reads`): the piece written
  for it reads as that byte, whatever comes after.

  `bareQuote` finds a quote that belongs to no escape; `readString_content`
  says that the string read contains none.
-/
import Mathlib.Data.List.Basic
import Mathlib.Tactic.Common

namespace KvEngine.Lib

/-! ## §1. Hexadecimal digits. -/

/-- `"0123456789abcdef"`. -/
def lowerHex : List UInt8 := [48, 49, 50, 51, 52, 53, 54, 55, 56, 57, 97, 98, 99, 100, 101, 102]

/-- `"0123456789ABCDEF"`. -/
def upperHex : List UInt8 := [48, 49, 50, 51, 52, 53, 54, 55, 56, 57, 65, 66, 67, 68, 69, 70]

/-- The digit of a value below 16. -/
def hexDigit (upper : Bool) (n : Nat) : UInt8 := (if upper then upperHex else lowerHex).getD n 0

/-- `c` is a digit and `n` is its value. -/
def IsHexDigit (c : UInt8) (n : Nat) : Prop := n < 16 ∧ ∃ upper, c = hexDigit upper n

/-- The value of a digit. -/
def digitValue (c : UInt8) : Option Nat := (lowerHex.idxOf? c).or (upperHex.idxOf? c)

/-! ## §2. Reading a string. -/

/-- The byte behind a backslash, `u` apart, and what the two stand for. -/
def shortEscape (c : UInt8) : Option UInt8 :=
  if c = 34 ∨ c = 92 ∨ c = 47 then some c
  else if c = 98 then some 8
  else if c = 102 then some 12
  else if c = 110 then some 10
  else if c = 114 then some 13
  else if c = 116 then some 9
  else none

/-- A code unit in UTF-8; half of a surrogate pair has no encoding. -/
def encodeUnit (n : Nat) : Option (List UInt8) :=
  if n < 0x80 then some [UInt8.ofNat n]
  else if n < 0x800 then some [UInt8.ofNat (0xC0 + n / 64), UInt8.ofNat (0x80 + n % 64)]
  else if 0xD800 ≤ n ∧ n < 0xE000 then none
  else some [UInt8.ofNat (0xE0 + n / 4096), UInt8.ofNat (0x80 + n / 64 % 64),
    UInt8.ofNat (0x80 + n % 64)]

/-- The four digits behind `\u`. -/
def longEscape (a b c d : UInt8) : Option (List UInt8) := do
  let a ← digitValue a
  let b ← digitValue b
  let c ← digitValue c
  let d ← digitValue d
  encodeUnit (4096 * a + 256 * b + 16 * c + d)

/-- The bytes of a string and what follows its quote, from what follows its
opening quote. -/
def readString : List UInt8 → Option (List UInt8 × List UInt8)
  | [] => none
  | c :: rest =>
      if c = 34 then some ([], rest)
      else if c = 92 then
        match rest with
        | [] => none
        | e :: rest =>
            if e = 117 then
              match rest with
              | a :: b :: c :: d :: rest =>
                  match longEscape a b c d with
                  | some bytes => (readString rest).map (fun r => (bytes ++ r.1, r.2))
                  | none => none
              | _ => none
            else
              match shortEscape e with
              | some c => (readString rest).map (fun r => ([c] ++ r.1, r.2))
              | none => none
      else if c < 32 then none
      else (readString rest).map (fun r => ([c] ++ r.1, r.2))

/-- The bytes of a string from all that stands between its quotes. -/
def decodeString (content : List UInt8) : Option (List UInt8) :=
  match readString (content ++ [34]) with
  | some (bytes, []) => some bytes
  | _ => none

/-- The piece stands for the bytes, whatever follows it. -/
def Reads (piece bytes : List UInt8) : Prop :=
  ∀ rest, readString (piece ++ rest) = (readString rest).map (fun r => (bytes ++ r.1, r.2))

theorem readString_quote (rest : List UInt8) : readString (34 :: rest) = some ([], rest) := by
  rw [readString.eq_def]
  rfl

theorem reads_plain {c : UInt8} (hquote : c ≠ 34) (hbackslash : c ≠ 92) (hcontrol : ¬ c < 32) :
    Reads [c] [c] := by
  intro rest
  rw [List.singleton_append, readString.eq_def]
  simp only [if_neg hquote, if_neg hbackslash, if_neg hcontrol]

theorem reads_shortEscape {e c : UInt8} (he : e ≠ 117) (h : shortEscape e = some c) :
    Reads [92, e] [c] := by
  intro rest
  show readString (92 :: e :: rest) = _
  rw [readString.eq_def]
  simp only [show (92 : UInt8) ≠ 34 by decide, if_false, if_true, if_neg he, h]

theorem reads_longEscape {a b c d : UInt8} {bytes : List UInt8}
    (h : longEscape a b c d = some bytes) : Reads [92, 117, a, b, c, d] bytes := by
  intro rest
  show readString (92 :: 117 :: a :: b :: c :: d :: rest) = _
  rw [readString.eq_def]
  simp only [show (92 : UInt8) ≠ 34 by decide, if_false, if_true, h]

variable {encode : UInt8 → List UInt8}

/-- **A string written byte by byte reads as these bytes**, and ends at the
quote behind it. -/
theorem readString_flatMap (h : ∀ c, Reads (encode c) [c]) (bytes rest : List UInt8) :
    readString (bytes.flatMap encode ++ 34 :: rest) = some (bytes, rest) := by
  induction bytes with
  | nil => exact readString_quote rest
  | cons c bytes ih =>
      rw [List.flatMap_cons, List.append_assoc, h c, ih]
      rfl

theorem decodeString_flatMap (h : ∀ c, Reads (encode c) [c]) (bytes : List UInt8) :
    decodeString (bytes.flatMap encode) = some bytes := by
  rw [decodeString, readString_flatMap h bytes []]

/-! ## §3. Quotes. -/

/-- There is a quote that is not part of an escape. -/
def bareQuote : List UInt8 → Bool
  | [] => false
  | c :: rest =>
      if c = 92 then
        match rest with
        | [] => false
        | _ :: rest => bareQuote rest
      else c == 34 || bareQuote rest

theorem bareQuote_escape (e : UInt8) (rest : List UInt8) :
    bareQuote (92 :: e :: rest) = bareQuote rest := by
  rw [bareQuote.eq_def]
  rfl

theorem bareQuote_plain {c : UInt8} {rest : List UInt8} (hquote : c ≠ 34) (hbackslash : c ≠ 92) :
    bareQuote (c :: rest) = bareQuote rest := by
  rw [bareQuote.eq_def]
  simp only [if_neg hbackslash, beq_false_of_ne hquote, Bool.false_or]

theorem bareQuote_digit {c : UInt8} {n : Nat} {rest : List UInt8} (h : digitValue c = some n) :
    bareQuote (c :: rest) = bareQuote rest := by
  refine bareQuote_plain ?_ ?_
  · rintro rfl
    rw [show digitValue 34 = none by decide] at h
    exact absurd h (by simp)
  · rintro rfl
    rw [show digitValue 92 = none by decide] at h
    exact absurd h (by simp)

theorem bareQuote_longEscape {a b c d : UInt8} {bytes rest : List UInt8}
    (h : longEscape a b c d = some bytes) :
    bareQuote (92 :: 117 :: a :: b :: c :: d :: rest) = bareQuote rest := by
  unfold longEscape at h
  simp only [Option.bind_eq_bind, Option.bind_eq_some_iff] at h
  obtain ⟨_, ha, _, hb, _, hc, _, hd, -⟩ := h
  rw [bareQuote_escape, bareQuote_digit ha, bareQuote_digit hb, bareQuote_digit hc,
    bareQuote_digit hd]

/-- **A string ends at its first bare quote.** -/
theorem readString_content {s bytes rest : List UInt8} (h : readString s = some (bytes, rest)) :
    ∃ content, s = content ++ 34 :: rest ∧ bareQuote content = false := by
  fun_induction readString s generalizing bytes with
  | case1 | case3 | case5 | case6 | case8 | case9 => exact absurd h (by simp)
  | case2 rest' =>
      obtain ⟨-, rfl⟩ := Prod.mk.inj (Option.some.inj h)
      exact ⟨[], rfl, rfl⟩
  | case4 a b c d rest' bytes' hescape _ ih =>
      obtain ⟨r, hr, heq⟩ := Option.map_eq_some_iff.mp h
      obtain ⟨-, rfl⟩ := Prod.mk.inj heq
      obtain ⟨content, rfl, hbare⟩ := ih hr
      exact ⟨92 :: 117 :: a :: b :: c :: d :: content, rfl,
        (bareQuote_longEscape hescape).trans hbare⟩
  | case7 e rest' _ _ _ _ ih =>
      obtain ⟨r, hr, heq⟩ := Option.map_eq_some_iff.mp h
      obtain ⟨-, rfl⟩ := Prod.mk.inj heq
      obtain ⟨content, rfl, hbare⟩ := ih hr
      exact ⟨92 :: e :: content, rfl, (bareQuote_escape e content).trans hbare⟩
  | case10 c rest' hquote hbackslash _ ih =>
      obtain ⟨r, hr, heq⟩ := Option.map_eq_some_iff.mp h
      obtain ⟨-, rfl⟩ := Prod.mk.inj heq
      obtain ⟨content, rfl, hbare⟩ := ih hr
      exact ⟨c :: content, rfl, (bareQuote_plain hquote hbackslash).trans hbare⟩

theorem bareQuote_flatMap (h : ∀ c, Reads (encode c) [c]) (bytes : List UInt8) :
    bareQuote (bytes.flatMap encode) = false := by
  obtain ⟨content, heq, hbare⟩ := readString_content (readString_flatMap h bytes [])
  rwa [List.append_cancel_right heq]

end KvEngine.Lib
