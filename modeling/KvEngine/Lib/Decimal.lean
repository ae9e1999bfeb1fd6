/-
  KvEngine.Lib.Decimal
  ────────────────────
  **Decimal numbers in byte strings**: `std::to_string` and `std::stoull`.

  `stoull` skips white space, takes a sign and then digits; it throws (`none`)
  if there are no digits or the number does not fit into 64 bits, negates
  modulo 2⁶⁴ behind a minus, and tells how many bytes it used.  `unsignedPart`
  is what follows white space and sign: `stoull_all` says that all of a string
  is used exactly if this part is a `Numeral`, and `stoull_numeral` that a
  string which is a numeral itself denotes its value.
-/
import Mathlib.Data.List.TakeWhile
import Mathlib.Data.Nat.Digits.Defs

namespace KvEngine.Lib

/-! ## §1. Digits. -/

/-- `std::isdigit`. -/
def isDigit (b : UInt8) : Bool := 48 ≤ b && b ≤ 57

/-- `std::isspace` in the C locale. -/
def isSpace (b : UInt8) : Bool := b == 32 || (9 ≤ b && b ≤ 13)

/-- The number a string of digits denotes. -/
def decimalValue (ds : List UInt8) : Nat := ds.foldl (fun n d => 10 * n + (d.toNat - 48)) 0

/-- One or more digits that denote a 64-bit number. -/
structure Numeral (s : List UInt8) : Prop where
  nonempty : s ≠ []
  digits : ∀ b ∈ s, isDigit b = true
  fits : decimalValue s < 2 ^ 64

/-- `std::to_string` of an unsigned number. -/
def decimal (n : Nat) : List UInt8 :=
  if n = 0 then [48] else (Nat.digits 10 n).reverse.map (fun d => UInt8.ofNat (48 + d))

theorem decimalValue_reverse {ds : List Nat} (h : ∀ d ∈ ds, d < 10) :
    decimalValue (ds.reverse.map (fun d => UInt8.ofNat (48 + d))) = Nat.ofDigits 10 ds := by
  induction ds with
  | nil => rfl
  | cons d ds ih =>
      have hd : d < 10 := h d List.mem_cons_self
      have hbyte : (UInt8.ofNat (48 + d)).toNat - 48 = d := by
        rw [UInt8.toNat_ofNat_of_lt' (by rw [UInt8.size]; omega)]
        omega
      have hrest := ih (fun d hd => h d (List.mem_cons_of_mem _ hd))
      rw [decimalValue, List.reverse_cons, List.map_append, List.foldl_append, ← decimalValue,
        hrest, Nat.ofDigits_cons]
      simp only [List.map_cons, List.map_nil, List.foldl_cons, List.foldl_nil, hbyte]
      exact Nat.add_comm _ _

/-- **`std::to_string` writes the number.** -/
theorem decimalValue_decimal (n : Nat) : decimalValue (decimal n) = n := by
  unfold decimal
  split
  next h => rw [h]; rfl
  next h =>
    rw [decimalValue_reverse (fun d hd => Nat.digits_lt_base (by decide) hd), Nat.ofDigits_digits]

theorem numeral_decimal {n : Nat} (h : n < 2 ^ 64) : Numeral (decimal n) where
  nonempty := by
    unfold decimal
    split
    · exact List.cons_ne_nil _ _
    next hn => simp [Nat.digits_ne_nil_iff_ne_zero.mpr hn]
  digits b hb := by
    unfold decimal at hb
    split at hb
    · rw [List.mem_singleton.mp hb]
      decide
    · obtain ⟨d, hd, rfl⟩ := List.mem_map.mp hb
      have hlt : d < 10 := Nat.digits_lt_base (by decide) (List.mem_reverse.mp hd)
      have : ∀ d < 10, isDigit (UInt8.ofNat (48 + d)) = true := by decide
      exact this d hlt
  fits := by rw [decimalValue_decimal]; exact h

/-! ## §2. `std::stoull`. -/

/-- A sign, and what follows it. -/
def takeSign : List UInt8 → Bool × List UInt8
  | 43 :: rest => (false, rest)
  | 45 :: rest => (true, rest)
  | rest => (false, rest)

/-- What follows white space and a sign. -/
def unsignedPart (s : List UInt8) : List UInt8 := (takeSign (s.dropWhile isSpace)).2

/-- Negation in 64 bits, behind a minus. -/
def signed (negative : Bool) (n : Nat) : Nat := if negative then (2 ^ 64 - n) % 2 ^ 64 else n

/-- `std::stoull(s, &used)`: the number and `used`; `none` is an exception. -/
def stoull (s : List UInt8) : Option (Nat × Nat) :=
  let (negative, rest) := takeSign (s.dropWhile isSpace)
  let digits := rest.takeWhile isDigit
  if digits.isEmpty then none
  else if decimalValue digits ≥ 2 ^ 64 then none
  else some (signed negative (decimalValue digits), s.length - rest.length + digits.length)

theorem takeSign_suffix (s : List UInt8) : (takeSign s).2 <:+ s := by
  unfold takeSign
  split
  · exact List.suffix_cons _ _
  · exact List.suffix_cons _ _
  · exact List.suffix_refl _

theorem unsignedPart_suffix (s : List UInt8) : unsignedPart s <:+ s :=
  (takeSign_suffix _).trans (List.dropWhile_suffix _)

theorem isSpace_of_isDigit {b : UInt8} (h : isDigit b = true) : isSpace b = false := by
  simp only [isDigit, Bool.and_eq_true, decide_eq_true_eq, UInt8.le_iff_toNat_le] at h
  obtain ⟨hlow, -⟩ := h
  have h48 : 48 ≤ b.toNat := hlow
  have hne : b ≠ 32 := by
    rintro rfl
    exact absurd h48 (by decide)
  have hhigh : ¬ b ≤ 13 := by
    rw [UInt8.le_iff_toNat_le]
    show ¬ b.toNat ≤ 13
    omega
  simp [isSpace, hne, hhigh]

/-- A digit is neither white space nor a sign. -/
theorem takeSign_of_digit {b : UInt8} (h : isDigit b = true) (s : List UInt8) :
    takeSign ((b :: s).dropWhile isSpace) = (false, b :: s) := by
  have hspace : isSpace b = false := isSpace_of_isDigit h
  have hplus : b ≠ 43 := by
    rintro rfl
    exact absurd h (by decide)
  have hminus : b ≠ 45 := by
    rintro rfl
    exact absurd h (by decide)
  rw [List.dropWhile_cons_of_neg (by rw [hspace]; exact Bool.false_ne_true)]
  unfold takeSign
  split
  next heq => exact absurd (List.cons.inj heq).1 hplus
  next heq => exact absurd (List.cons.inj heq).1 hminus
  next => rfl

theorem Numeral.unsignedPart_eq {s : List UInt8} (h : Numeral s) : unsignedPart s = s := by
  cases s with
  | nil => exact absurd rfl h.nonempty
  | cons b s => rw [unsignedPart, takeSign_of_digit (h.digits b List.mem_cons_self)]

/-- **All of a string is used** exactly if a numeral follows white space and
sign. -/
theorem stoull_all (s : List UInt8) :
    (∃ n, stoull s = some (n, s.length)) ↔ Numeral (unsignedPart s) := by
  have hle := (unsignedPart_suffix s).length_le
  unfold unsignedPart at hle
  constructor
  · rintro ⟨n, h⟩
    unfold stoull at h
    simp only at h
    split at h
    · exact absurd h (by simp)
    next hne =>
      split at h
      · exact absurd h (by simp)
      next hfits =>
        obtain ⟨-, hused⟩ := Prod.mk.inj (Option.some.inj h)
        -- No byte of the rest is left, so they are all digits.
        have hall := (List.takeWhile_prefix isDigit).eq_of_length
          (show _ = (takeSign (s.dropWhile isSpace)).2.length by omega)
        rw [hall] at hne hfits
        exact ⟨fun hnil => hne (by rw [unsignedPart] at hnil; rw [hnil]; rfl),
          fun b hb => List.takeWhile_eq_self_iff.mp hall b hb, Nat.lt_of_not_ge hfits⟩
  · intro h
    have hall := List.takeWhile_eq_self_iff.mpr h.digits
    unfold unsignedPart at hall
    have hne : (takeSign (s.dropWhile isSpace)).2.isEmpty = false :=
      Bool.eq_false_iff.mpr (fun he => h.nonempty (List.isEmpty_iff.mp he))
    have hfits : ¬ decimalValue (takeSign (s.dropWhile isSpace)).2 ≥ 2 ^ 64 := Nat.not_le.mpr h.fits
    refine ⟨signed (takeSign (s.dropWhile isSpace)).1
      (decimalValue (takeSign (s.dropWhile isSpace)).2), ?_⟩
    unfold stoull
    simp only [hall, hne, Bool.false_eq_true, if_false, hfits]
    rw [Nat.sub_add_cancel hle]

/-- **A numeral denotes its value.** -/
theorem stoull_numeral {s : List UInt8} (h : Numeral s) :
    stoull s = some (decimalValue s, s.length) := by
  cases s with
  | nil => exact absurd rfl h.nonempty
  | cons b s =>
      have hsign := takeSign_of_digit (h.digits b List.mem_cons_self) s
      have hall := List.takeWhile_eq_self_iff.mpr h.digits
      have hfits : ¬ decimalValue (b :: s) ≥ 2 ^ 64 := Nat.not_le.mpr h.fits
      unfold stoull
      simp only [hsign, hall, List.isEmpty_cons, Bool.false_eq_true, if_false, hfits, signed]
      rw [Nat.sub_self, Nat.zero_add]

end KvEngine.Lib
