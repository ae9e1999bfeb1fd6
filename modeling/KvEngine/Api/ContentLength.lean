/-
  KvEngine.Api.ContentLength
  ──────────────────────────
  `ParseContentLength`: the length a block of header lines announces.

  The loop cuts the block at each CRLF and stops at the first line whose name
  is `content-length`, in any case; `std::stoull` then reads its value, less
  spaces and tabs on both sides.  `parseContentLength_eq` describes it by the
  lines of the block (`crlfLines`), `parseContentLength_exact` compares it
  with a strict reading of the value, digits only.
-/
import KvEngine.Lib.Decimal
import KvEngine.Lib.Search
import KvEngine.Slice
import Mathlib.Data.List.DropRight

namespace KvEngine

open Lib

namespace Api

/-! ## §1. The code. -/

/-- `"\r\n"`. -/
def crlf : Bytes := [13, 10]

/-- `std::tolower`. -/
def toLower (c : UInt8) : UInt8 := if 65 ≤ c ∧ c ≤ 90 then c + 32 else c

/-- `"content-length"`. -/
def contentLength : Bytes := [99, 111, 110, 116, 101, 110, 116, 45, 108, 101, 110, 103, 116, 104]

/-- A space or a tab. -/
def isBlank (c : UInt8) : Bool := c == 32 || c == 9

/-- From the first to the last byte that is no space and no tab. -/
def trim (value : Bytes) : Bytes := (value.dropWhile isBlank).rdropWhile isBlank

/-- What follows the first colon, if the name before it is `content-length`. -/
def contentLengthOf (line : Bytes) : Option Bytes :=
  match search [58] line with
  | some colon =>
      if (line.take colon).map toLower = contentLength then some (line.drop (colon + 1)) else none
  | none => none

/-- The number in the value of the line; `none` is `false`. -/
def parseValue (value : Bytes) : Option Nat :=
  if value.all isBlank then none
  else
    let value := trim value
    match stoull value with
    | some (n, consumed) => if consumed = value.length then some n else none
    | none => none

/-- The loop; `rest` is `headers` from `pos` on. -/
def parseLines : Nat → Bytes → Option Nat
  | 0, _ => none
  | fuel + 1, rest =>
      if rest.isEmpty then some 0
      else
        let stop := (search crlf rest).getD rest.length
        match contentLengthOf (rest.take stop) with
        | some value => parseValue value
        | none => if stop = rest.length then some 0 else parseLines fuel (rest.drop (stop + 2))

/-- The length where the function returns `true`. -/
def parseContentLength (headers : Bytes) : Option Nat := parseLines (headers.length + 1) headers

/-! ## §2. Lines. -/

/-- The lines of a block, cut at each CRLF. -/
def crlfLines : Bytes → List Bytes
  | [] => [[]]
  | 13 :: 10 :: rest => [] :: crlfLines rest
  | c :: rest =>
      match crlfLines rest with
      | line :: lines => (c :: line) :: lines
      | [] => [[c]]

/-- Lines with CRLF between them. -/
def joinLines : List Bytes → Bytes
  | [] => []
  | [line] => line
  | line :: lines => line ++ crlf ++ joinLines lines

theorem crlfLines_ne_nil (s : Bytes) : crlfLines s ≠ [] := by
  unfold crlfLines
  split
  · exact List.cons_ne_nil _ _
  · exact List.cons_ne_nil _ _
  · split <;> exact List.cons_ne_nil _ _

/-- A byte that begins no CRLF. -/
theorem crlfLines_cons {c : UInt8} {rest : Bytes} (h : ¬ crlf <+: c :: rest) :
    ∃ line lines, crlfLines rest = line :: lines ∧
      crlfLines (c :: rest) = (c :: line) :: lines := by
  obtain ⟨line, lines, hrest⟩ := List.exists_cons_of_ne_nil (crlfLines_ne_nil rest)
  refine ⟨line, lines, hrest, ?_⟩
  rw [crlfLines]
  · rw [hrest]
  · rintro rest' rfl rfl
    exact h (List.prefix_append crlf rest')

theorem crlfLines_of_search_none :
    ∀ {s : Bytes}, search crlf s = none → crlfLines s = [s] := by
  intro s
  induction s with
  | nil => exact fun _ => rfl
  | cons c rest ih =>
      intro h
      have hnone := search_eq_none_iff.mp h
      obtain ⟨line, lines, hrest, hcons⟩ := crlfLines_cons (hnone 0 (Nat.zero_le _))
      have hih := ih (search_eq_none_iff.mpr
        (fun j hj => hnone (j + 1) (Nat.succ_le_succ hj)))
      obtain ⟨rfl, rfl⟩ := List.cons.inj (hrest.symm.trans hih)
      exact hcons

/-- **The first CRLF ends the first line.** -/
theorem crlfLines_of_search :
    ∀ {s : Bytes} {i : Nat}, search crlf s = some i →
      crlfLines s = s.take i :: crlfLines (s.drop (i + 2)) := by
  intro s
  induction s with
  | nil => intro i h; exact absurd h (by simp [search, crlf])
  | cons c rest ih =>
      intro i h
      have hfirst := search_eq_some_iff.mp h
      cases i with
      | zero =>
          obtain ⟨tail, htail⟩ := hfirst.here
          rw [List.drop_zero] at htail
          rw [← htail]
          rfl
      | succ i =>
          have hno : ¬ crlf <+: c :: rest := hfirst.before 0 (Nat.succ_pos i)
          obtain ⟨line, lines, hrest, hcons⟩ := crlfLines_cons hno
          have hih := ih (search_eq_some_iff.mpr ((FirstAt.cons hno).mp hfirst))
          obtain ⟨rfl, rfl⟩ := List.cons.inj (hrest.symm.trans hih)
          rw [hcons]
          rfl

/-- The lines make up the block, -/
theorem joinLines_crlfLines : ∀ s : Bytes, joinLines (crlfLines s) = s := by
  intro s
  induction h : s.length using Nat.strong_induction_on generalizing s with
  | _ n ih =>
      cases hs : search crlf s with
      | none => rw [crlfLines_of_search_none hs, joinLines]
      | some i =>
          have hend := (search_eq_some_iff.mp hs).end_le
          have hlen : crlf.length = 2 := rfl
          have hrest := ih (s.drop (i + 2)).length (by rw [List.length_drop]; omega) _ rfl
          obtain ⟨line, lines, hlines⟩ := List.exists_cons_of_ne_nil
            (crlfLines_ne_nil (s.drop (i + 2)))
          rw [crlfLines_of_search hs, hlines, joinLines, ← hlines, hrest]
          · exact (search_split hs).symm
          · exact List.cons_ne_nil _ _

/-- and none of them holds a CRLF. -/
theorem search_crlfLines : ∀ s : Bytes, ∀ line ∈ crlfLines s, search crlf line = none := by
  intro s
  induction h : s.length using Nat.strong_induction_on generalizing s with
  | _ n ih =>
      cases hs : search crlf s with
      | none =>
          intro line hline
          rw [crlfLines_of_search_none hs, List.mem_singleton] at hline
          rw [hline, hs]
      | some i =>
          have hfirst := search_eq_some_iff.mp hs
          have hend := hfirst.end_le
          have hlen : crlf.length = 2 := rfl
          intro line hline
          rw [crlfLines_of_search hs] at hline
          rcases List.mem_cons.mp hline with rfl | hline
          · refine search_eq_none_iff.mpr (fun j hj hpre => ?_)
            -- A CRLF within the line would be an earlier one.
            have hfit := hpre.length_le
            rw [List.length_drop, List.length_take] at hfit
            refine hfirst.before j (by omega) (hpre.trans ?_)
            rw [List.drop_take]
            exact List.take_prefix _ _
          · exact ih (s.drop (i + 2)).length (by rw [List.length_drop]; omega) _ rfl line hline

/-! ## §3. The loop by lines. -/

/-- The value of the first line with this name decides. -/
def parseOf (lines : List Bytes) : Option Nat :=
  match lines.findSome? contentLengthOf with
  | some value => parseValue value
  | none => some 0

theorem parseLines_eq :
    ∀ {fuel : Nat} {rest : Bytes}, rest.length < fuel →
      parseLines fuel rest = parseOf (crlfLines rest) := by
  intro fuel
  induction fuel with
  | zero => intro rest h; exact absurd h (Nat.not_lt_zero _)
  | succ fuel ih =>
      intro rest hfuel
      rw [parseLines]
      split
      next hempty =>
        obtain rfl := List.isEmpty_iff.mp hempty
        rfl
      next hne =>
        cases hs : search crlf rest with
        | none =>
            -- the last line
            simp only [Option.getD_none, List.take_length, crlfLines_of_search_none hs, parseOf,
              List.findSome?_cons, List.findSome?_nil]
            cases contentLengthOf rest with
            | some value => rfl
            | none => simp only [if_true]
        | some i =>
            have hend := (search_eq_some_iff.mp hs).end_le
            have hlen : crlf.length = 2 := rfl
            have hshort : (rest.drop (i + 2)).length < fuel := by
              rw [List.length_drop]
              omega
            simp only [Option.getD_some, crlfLines_of_search hs, parseOf, List.findSome?_cons]
            cases contentLengthOf (rest.take i) with
            | some value => rfl
            | none =>
                simp only
                rw [if_neg (by omega), ih hshort]
                rfl

/-- **`ParseContentLength` by the lines of the block.** -/
theorem parseContentLength_eq (headers : Bytes) :
    parseContentLength headers = parseOf (crlfLines headers) :=
  parseLines_eq (Nat.lt_succ_self _)

/-! ## §4. A strict reading. -/

/-- The line's name, the text before its first colon, is `content-length` in
any case; `value` is the rest. -/
def IsContentLength (line value : Bytes) : Prop :=
  ∃ name, line = name ++ 58 :: value ∧ 58 ∉ name ∧ name.map toLower = contentLength

/-- The value of the first such line. -/
def FirstContentLength (lines : List Bytes) (value : Bytes) : Prop :=
  ∃ before line after, lines = before ++ line :: after ∧
    (∀ l ∈ before, ∀ v, ¬ IsContentLength l v) ∧ IsContentLength line value

/-- `n` is the length of a body that the block announces: 0 without such a
line, else the number in the value of the first one, digits only. -/
def Announces (headers : Bytes) (n : Nat) : Prop :=
  ((∀ line ∈ crlfLines headers, ∀ v, ¬ IsContentLength line v) ∧ n = 0) ∨
    ∃ value, FirstContentLength (crlfLines headers) value ∧ Numeral (trim value) ∧
      n = decimalValue (trim value)

theorem contentLengthOf_eq_some {line value : Bytes} :
    contentLengthOf line = some value ↔ IsContentLength line value := by
  unfold contentLengthOf
  constructor
  · intro h
    split at h
    next colon hs =>
      split at h
      next hname =>
        obtain rfl := Option.some.inj h
        obtain ⟨name, value, rfl, hcolon, rfl⟩ := search_singleton_eq_some_iff.mp hs
        rw [List.take_left] at hname
        refine ⟨name, ?_, hcolon, hname⟩
        rw [← List.drop_drop, List.drop_left]
        rfl
      next => exact absurd h (by simp)
    next => exact absurd h (by simp)
  · rintro ⟨name, rfl, hcolon, hname⟩
    rw [search_singleton hcolon]
    simp only [List.take_left, hname, if_true]
    rw [← List.drop_drop, List.drop_left]
    rfl

theorem contentLengthOf_eq_none {line : Bytes} :
    contentLengthOf line = none ↔ ∀ v, ¬ IsContentLength line v := by
  rw [Option.eq_none_iff_forall_ne_some]
  exact forall_congr' (fun v => not_congr contentLengthOf_eq_some)

/-- The lines before the first one with a value have none. -/
theorem findSome_contentLength {lines : List Bytes} {value : Bytes} :
    lines.findSome? contentLengthOf = some value ↔ FirstContentLength lines value := by
  rw [List.findSome?_eq_some_iff]
  constructor
  · rintro ⟨before, line, after, heq, hvalue, hbefore⟩
    exact ⟨before, line, after, heq, fun l hl => contentLengthOf_eq_none.mp (hbefore l hl),
      contentLengthOf_eq_some.mp hvalue⟩
  · rintro ⟨before, line, after, heq, hbefore, hvalue⟩
    exact ⟨before, line, after, heq, contentLengthOf_eq_some.mpr hvalue,
      fun l hl => contentLengthOf_eq_none.mpr (hbefore l hl)⟩

theorem findSome_contentLength_none {lines : List Bytes} :
    lines.findSome? contentLengthOf = none ↔ ∀ line ∈ lines, ∀ v, ¬ IsContentLength line v := by
  rw [List.findSome?_eq_none_iff]
  exact forall₂_congr (fun line _ => contentLengthOf_eq_none)

theorem trim_eq_nil {value : Bytes} (h : value.all isBlank = true) : trim value = [] := by
  rw [trim, List.dropWhile_eq_nil_iff.mpr (List.all_eq_true.mp h)]
  rfl

/-- **What the code reads of a value**: a numeral behind white space and a
sign. -/
theorem parseValue_isSome {value : Bytes} :
    (∃ n, parseValue value = some n) ↔ Numeral (unsignedPart (trim value)) := by
  rw [← stoull_all]
  unfold parseValue
  split
  next hblank =>
    have hthrows : stoull [] = none := rfl
    rw [trim_eq_nil hblank, hthrows]
    simp
  next =>
    simp only
    constructor
    · rintro ⟨n, h⟩
      split at h
      next m used hread =>
        split at h
        next hused => exact ⟨m, by rw [hread, hused]⟩
        next => exact absurd h (by simp)
      next => exact absurd h (by simp)
    · rintro ⟨n, h⟩
      exact ⟨n, by simp only [h, if_true]⟩

theorem parseValue_numeral {value : Bytes} (h : Numeral (trim value)) :
    parseValue value = some (decimalValue (trim value)) := by
  unfold parseValue
  rw [if_neg (fun hblank => h.nonempty (trim_eq_nil hblank))]
  simp only [stoull_numeral h, if_true]

/-- **`ParseContentLength` reads exactly what the block announces** if and only
if the value of the first content-length line is not a numeral behind a sign or
further white space. -/
theorem parseContentLength_exact (headers : Bytes) :
    (∀ n, parseContentLength headers = some n ↔ Announces headers n) ↔
      ∀ value, FirstContentLength (crlfLines headers) value →
        Numeral (unsignedPart (trim value)) → unsignedPart (trim value) = trim value := by
  rw [parseContentLength_eq, parseOf]
  cases hfind : (crlfLines headers).findSome? contentLengthOf with
  | none =>
      have hnone := findSome_contentLength_none.mp hfind
      have hno : ∀ value, ¬ FirstContentLength (crlfLines headers) value := by
        intro value hvalue
        rw [findSome_contentLength.mpr hvalue] at hfind
        exact absurd hfind (by simp)
      refine ⟨fun _ value hvalue => absurd hvalue (hno value), fun _ n => ?_⟩
      simp only [Option.some.injEq]
      constructor
      · rintro rfl
        exact Or.inl ⟨hnone, rfl⟩
      · rintro (⟨-, rfl⟩ | ⟨value, hvalue, -⟩)
        · rfl
        · exact absurd hvalue (hno value)
  | some value =>
      have hfirst := findSome_contentLength.mp hfind
      -- There is one first content-length line, so both sides speak about `value`.
      have hunique : ∀ v, FirstContentLength (crlfLines headers) v → v = value := fun v hv =>
        Option.some.inj ((findSome_contentLength.mpr hv).symm.trans hfind)
      have hsome : ¬ ∀ line ∈ crlfLines headers, ∀ v, ¬ IsContentLength line v := fun hall =>
        absurd (hfind.symm.trans (findSome_contentLength_none.mpr hall)) (by simp)
      have hannounces : ∀ n, Announces headers n ↔
          Numeral (trim value) ∧ n = decimalValue (trim value) := by
        intro n
        constructor
        · rintro (⟨hall, -⟩ | ⟨v, hv, hnum⟩)
          · exact absurd hall hsome
          · exact hunique v hv ▸ hnum
        · exact fun hnum => Or.inr ⟨value, hfirst, hnum⟩
      simp only [hannounces]
      constructor
      · intro h v hv hnum
        obtain rfl := hunique v hv
        obtain ⟨n, hn⟩ := parseValue_isSome.mpr hnum
        exact ((h n).mp hn).1.unsignedPart_eq
      · intro h n
        constructor
        · intro hn
          have hnum := parseValue_isSome.mp ⟨n, hn⟩
          rw [h value hfirst hnum] at hnum
          exact ⟨hnum, Option.some.inj (hn.symm.trans (parseValue_numeral hnum))⟩
        · rintro ⟨hnum, rfl⟩
          exact parseValue_numeral hnum

/-- `Content-Length: +5` -/
theorem parseContentLength_signed :
    ¬ ∀ headers n, parseContentLength headers = some n ↔ Announces headers n := by
  intro hall
  have hread : parseContentLength ([67, 111, 110, 116, 101, 110, 116, 45, 76, 101, 110, 103, 116,
      104, 58, 32, 43, 53] : Bytes) = some 5 := by decide
  have hfind : (crlfLines [67, 111, 110, 116, 101, 110, 116, 45, 76, 101, 110, 103, 116, 104, 58,
      32, 43, 53]).findSome? contentLengthOf = some [32, 43, 53] := by decide
  rcases (hall _ _).mp hread with ⟨hnone, -⟩ | ⟨value, hvalue, hnum, -⟩
  · rw [findSome_contentLength_none.mpr hnone] at hfind
    exact absurd hfind (by simp)
  · rw [← findSome_contentLength, hfind] at hvalue
    obtain rfl := Option.some.inj hvalue
    exact absurd (hnum.digits 43 (by decide)) (by decide)

end Api

end KvEngine
