/-
  KvEngine.Api.Json
  ─────────────────
  `JsonEscape`, and the texts of statuses.
-/
import KvEngine.Lib.Escapes
import KvEngine.Slice
import KvEngine.Status

namespace KvEngine

open Lib

/-- `Status::ToString`. -/
def Status.toString (s : Status) : String :=
  if s.ok then "OK"
  else
    let type := match s.code with
      | .notFound => "NotFound"
      | .corruption => "Corruption"
      | .notSupported => "NotSupported"
      | .invalidArgument => "InvalidArgument"
      | .ioError => "IOError"
      | .alreadyExists => "AlreadyExists"
      | .aborted => "Aborted"
      | .busy => "Busy"
      | .expired => "Expired"
      | .full => "Full"
      | .outOfMemory => "OutOfMemory"
      | .internalError => "InternalError"
      | .ok => "Unknown"
    if s.msg.isEmpty then type else type ++ ": " ++ s.msg

namespace Api

/-! ## §1. The code. -/

/-- The bytes of a string of the source. -/
def text (s : String) : Bytes := s.toUTF8.data.toList

/-- The branches of the `switch`. -/
def escapeByte (ch : UInt8) : Bytes :=
  if ch = 34 then [92, 34]
  else if ch = 92 then [92, 92]
  else if ch = 8 then [92, 98]
  else if ch = 12 then [92, 102]
  else if ch = 10 then [92, 110]
  else if ch = 13 then [92, 114]
  else if ch = 9 then [92, 116]
  else if ch < 0x20 then
    [92, 117, 48, 48, hexDigit false ((ch >>> 4) &&& 0x0f).toNat,
      hexDigit false (ch &&& 0x0f).toNat]
  else [ch]

def jsonEscape (value : Bytes) : Bytes := value.flatMap escapeByte

def statusHttpCode (status : Status) : Nat :=
  match status.code with
  | .ok => 200
  | .notFound => 404
  | .invalidArgument => 400
  | .alreadyExists => 409
  | .busy => 409
  | .ioError => 500
  | .corruption => 500
  | .internalError => 500
  | _ => 500

def errorJson (message : Bytes) : Bytes :=
  text "\x7b\"error\":\"" ++ jsonEscape message ++ text "\"\x7d"

/-! ## §2. What a byte is written as. -/

theorem escapeByte_ge (ch : UInt8) : ∀ c ∈ escapeByte ch, 0x20 ≤ c := by
  have hall : ((List.range 256).all fun n =>
      (escapeByte (UInt8.ofNat n)).all fun c => decide (0x20 ≤ c)) = true := by decide +kernel
  have hch := List.all_eq_true.mp hall ch.toNat (List.mem_range.mpr ch.toNat_lt)
  rw [UInt8.ofNat_toNat] at hch
  exact fun c hc => of_decide_eq_true (List.all_eq_true.mp hch c hc)

/-- The four digits of a control byte. -/
theorem longEscape_control {ch : UInt8} (h : ch < 0x20) :
    longEscape 48 48 (hexDigit false ((ch >>> 4) &&& 0x0f).toNat)
      (hexDigit false (ch &&& 0x0f).toNat) = some [ch] := by
  have hall : ∀ n < 32, longEscape 48 48 (hexDigit false ((UInt8.ofNat n >>> 4) &&& 0x0f).toNat)
      (hexDigit false (UInt8.ofNat n &&& 0x0f).toNat) = some [UInt8.ofNat n] := by decide +kernel
  have := hall ch.toNat (UInt8.lt_iff_toNat_lt.mp h)
  rwa [UInt8.ofNat_toNat] at this

/-- **Each byte reads as itself.** -/
theorem reads_escapeByte (ch : UInt8) : Reads (escapeByte ch) [ch] := by
  unfold escapeByte
  split
  next h => subst h; exact reads_shortEscape (by decide) rfl
  next hquote =>
    split
    next h => subst h; exact reads_shortEscape (by decide) rfl
    next hbackslash =>
      split
      next h => subst h; exact reads_shortEscape (by decide) rfl
      split
      next h => subst h; exact reads_shortEscape (by decide) rfl
      split
      next h => subst h; exact reads_shortEscape (by decide) rfl
      split
      next h => subst h; exact reads_shortEscape (by decide) rfl
      split
      next h => subst h; exact reads_shortEscape (by decide) rfl
      split
      next h => exact reads_longEscape (longEscape_control h)
      next hcontrol => exact reads_plain hquote hbackslash hcontrol

/-! ## §3. What a string is written as. -/

theorem jsonEscape_ge (value : Bytes) : ∀ c ∈ jsonEscape value, 0x20 ≤ c := by
  intro c hc
  obtain ⟨ch, -, hc⟩ := List.mem_flatMap.mp hc
  exact escapeByte_ge ch c hc

theorem bareQuote_jsonEscape (value : Bytes) : bareQuote (jsonEscape value) = false :=
  bareQuote_flatMap reads_escapeByte value

theorem decodeString_jsonEscape (value : Bytes) : decodeString (jsonEscape value) = some value :=
  decodeString_flatMap reads_escapeByte value

/-- The string ends behind the value. -/
theorem readString_jsonEscape (value rest : Bytes) :
    readString (jsonEscape value ++ 34 :: rest) = some (value, rest) :=
  readString_flatMap reads_escapeByte value rest

end Api

end KvEngine
