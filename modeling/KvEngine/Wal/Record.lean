/-
  KvEngine.Wal.Record
  ───────────────────
  WAL records as bytes: `EncodeFixed32/64`, `DecodeFixed32/64`, the record
  header, and the checksum over header, key and value.

  A record is a header of 29 bytes, the key and the value.  Lengths, the
  sequence number, the timestamp and the checksum are little-endian.
-/
import KvEngine.Slice
import KvEngine.Status
import KvEngine.Lib.Framing
import KvEngine.Lib.LittleEndian

namespace KvEngine

open Lib

/-! ## §1. Fixed-width integers. -/

/-- `EncodeFixed32`: the low byte first. -/
def encodeFixed32 (value : UInt32) : Bytes :=
  [(value &&& 0xff).toUInt8, ((value >>> 8) &&& 0xff).toUInt8, ((value >>> 16) &&& 0xff).toUInt8,
    ((value >>> 24) &&& 0xff).toUInt8]

/-- `EncodeFixed64`. -/
def encodeFixed64 (value : UInt64) : Bytes :=
  encodeFixed32 (value &&& 0xffffffff).toUInt32 ++ encodeFixed32 (value >>> 32).toUInt32

/-- Reads the first four bytes of `buf`, which holds at least four. -/
def decodeFixed32 (buf : Bytes) : UInt32 :=
  match buf with
  | b₀ :: b₁ :: b₂ :: b₃ :: _ =>
      b₀.toUInt32 ||| (b₁.toUInt32 <<< 8) ||| (b₂.toUInt32 <<< 16) ||| (b₃.toUInt32 <<< 24)
  | _ => 0

def decodeFixed64 (buf : Bytes) : UInt64 :=
  (decodeFixed32 buf).toUInt64 ||| ((decodeFixed32 (buf.drop 4)).toUInt64 <<< 32)

/-! ## §2. Records. -/

/-- `WalRecordType`: one byte; a reader may meet any value. -/
structure WalRecordType where
  value : UInt8
  deriving DecidableEq, Repr

namespace WalRecordType

def kPut : WalRecordType := ⟨1⟩
def kDelete : WalRecordType := ⟨2⟩
def kBeginTransaction : WalRecordType := ⟨3⟩
def kCommitTransaction : WalRecordType := ⟨4⟩
def kRollbackTransaction : WalRecordType := ⟨5⟩

end WalRecordType

/-- `WalRecordHeader`. -/
structure WalRecordHeader where
  type : WalRecordType
  sequenceNumber : UInt64
  timestamp : UInt64
  keySize : UInt32
  valueSize : UInt32
  crc32 : UInt32
  deriving DecidableEq, Repr

/-- `kHeaderSize`. -/
def kHeaderSize : Nat := 1 + 8 + 8 + 4 + 4 + 4

/-- `kMaxFieldSize`: no key or value read back is longer. -/
def kMaxFieldSize : UInt32 := 256 * 1024 * 1024

/-- The header up to the checksum. -/
def WalRecordHeader.encodeFields (h : WalRecordHeader) : Bytes :=
  h.type.value :: (encodeFixed64 h.sequenceNumber ++ encodeFixed64 h.timestamp
    ++ encodeFixed32 h.keySize ++ encodeFixed32 h.valueSize)

/-- The header in a file; the checksum is at its end. -/
def WalRecordHeader.encode (h : WalRecordHeader) : Bytes :=
  h.encodeFields ++ encodeFixed32 h.crc32

/-- The header in a buffer of `kHeaderSize` bytes. -/
def WalRecordHeader.parse (buf : Bytes) : WalRecordHeader where
  type := ⟨buf.headD 0⟩
  sequenceNumber := decodeFixed64 (buf.drop 1)
  timestamp := decodeFixed64 (buf.drop 9)
  keySize := decodeFixed32 (buf.drop 17)
  valueSize := decodeFixed32 (buf.drop 21)
  crc32 := decodeFixed32 (buf.drop 25)

/-- A header with the key and the value that follow it. -/
structure WalRecord where
  header : WalRecordHeader
  key : Bytes
  value : Bytes
  deriving DecidableEq, Repr

/-- A record in a file. -/
def WalRecord.encode (r : WalRecord) : Bytes := r.header.encode ++ r.key ++ r.value

/-- `CalculateCRC32`: zlib takes the length as a 32-bit `uInt`. -/
def calculateCRC32 (crc32 : Bytes → UInt32) (data : Bytes) : UInt32 :=
  crc32 (data.take (data.length % 2 ^ 32))

section Checksum

variable (crc32 : Bytes → UInt32)

/-- The record `WriteRecord` puts together. -/
def WalRecord.make (type : WalRecordType) (sequenceNumber timestamp : UInt64)
    (key value : Bytes) : WalRecord :=
  let header : WalRecordHeader := {
    type, sequenceNumber, timestamp
    keySize := UInt32.ofNat key.length
    valueSize := UInt32.ofNat value.length
    crc32 := 0 }
  { header := { header with
      crc32 := calculateCRC32 crc32 (header.encodeFields ++ key ++ value) }
    key, value }

/-- One round of the loop of `Recover`: a record from the bytes not yet
read, of the file `path`. -/
def readRecord (path : String) (file : Bytes) : Found WalRecord Status UInt8 :=
  let headerBuf := file.take kHeaderSize
  if headerBuf.length ≠ kHeaderSize then .stop
  else
    let header := WalRecordHeader.parse headerBuf
    if header.keySize > kMaxFieldSize ∨ header.valueSize > kMaxFieldSize then
      .bad (.corruption "WAL record contains an invalid field size")
    else
      let file := file.drop kHeaderSize
      let key := file.take header.keySize.toNat
      let file := file.drop header.keySize.toNat
      let value := file.take header.valueSize.toNat
      let file := file.drop header.valueSize.toNat
      -- a trailing partial record is tolerated
      if key.length ≠ header.keySize.toNat ∨ value.length ≠ header.valueSize.toNat then .stop
      else
        let crcData := headerBuf.take (kHeaderSize - 4) ++ key ++ value
        if calculateCRC32 crc32 crcData ≠ header.crc32 then
          .bad (.corruption ("WAL CRC32 mismatch in " ++ path))
        else .frame ⟨header, key, value⟩ file

end Checksum

/-! ## §3. Integers are read back. -/

theorem toUInt8_and (n : UInt32) : (n &&& 0xff).toUInt8 = UInt8.ofNat n.toNat := by
  refine UInt8.toNat_inj.mp ?_
  rw [UInt32.toNat_toUInt8, UInt32.toNat_and, UInt8.toNat_ofNat',
    show (0xff : UInt32).toNat = 2 ^ 8 - 1 from rfl, Nat.and_two_pow_sub_one_eq_mod, Nat.mod_mod]

/-- The bytes are those of the number in base 256. -/
theorem encodeFixed32_eq (value : UInt32) : encodeFixed32 value = toBytes 4 value.toNat := by
  have h8 : (value >>> 8).toNat = value.toNat / 256 := by
    rw [UInt32.toNat_shiftRight]
    exact Nat.shiftRight_eq_div_pow _ 8
  have h16 : (value >>> 16).toNat = value.toNat / 256 / 256 := by
    rw [UInt32.toNat_shiftRight, Nat.div_div_eq_div_mul]
    exact Nat.shiftRight_eq_div_pow _ 16
  have h24 : (value >>> 24).toNat = value.toNat / 256 / 256 / 256 := by
    rw [UInt32.toNat_shiftRight, Nat.div_div_eq_div_mul, Nat.div_div_eq_div_mul]
    exact Nat.shiftRight_eq_div_pow _ 24
  simp only [encodeFixed32, toUInt8_and, h8, h16, h24, toBytes]

@[simp] theorem length_encodeFixed32 (value : UInt32) : (encodeFixed32 value).length = 4 := rfl

@[simp] theorem length_encodeFixed64 (value : UInt64) : (encodeFixed64 value).length = 8 := rfl

theorem toNat_decodeFixed32 (b₀ b₁ b₂ b₃ : UInt8) (bs : Bytes) :
    (decodeFixed32 (b₀ :: b₁ :: b₂ :: b₃ :: bs)).toNat = ofBytes [b₀, b₁, b₂, b₃] := by
  have h₀ := b₀.toNat_lt
  have h₁ := b₁.toNat_lt
  have h₂ := b₂.toNat_lt
  have h₃ := b₃.toNat_lt
  -- no shift loses bits
  have hshift : ∀ (b : UInt8) (k : UInt32), k.toNat < 32 → b.toNat <<< k.toNat < 2 ^ 32 →
      (b.toUInt32 <<< k).toNat = b.toNat <<< k.toNat := by
    intro b k hk hlt
    rw [UInt32.toNat_shiftLeft, UInt8.toNat_toUInt32, Nat.mod_eq_of_lt hk, Nat.mod_eq_of_lt hlt]
  have e₁ : (b₁.toUInt32 <<< 8).toNat = b₁.toNat <<< 8 :=
    hshift b₁ 8 (by decide) (by
      rw [show (8 : UInt32).toNat = 8 from rfl, Nat.shiftLeft_eq]
      omega)
  have e₂ : (b₂.toUInt32 <<< 16).toNat = b₂.toNat <<< 16 :=
    hshift b₂ 16 (by decide) (by
      rw [show (16 : UInt32).toNat = 16 from rfl, Nat.shiftLeft_eq]
      omega)
  have e₃ : (b₃.toUInt32 <<< 24).toNat = b₃.toNat <<< 24 :=
    hshift b₃ 24 (by decide) (by
      rw [show (24 : UInt32).toNat = 24 from rfl, Nat.shiftLeft_eq]
      omega)
  simp only [decodeFixed32, UInt32.toNat_or, UInt8.toNat_toUInt32, e₁, e₂, e₃]
  rw [or_shiftLeft (i := 8) (by omega), or_shiftLeft (i := 16) (by omega),
    or_shiftLeft (i := 24) (by omega)]
  simp only [ofBytes]
  omega

/-- Four bytes as a list. -/
theorem exists_four {bs : Bytes} (h : bs.length = 4) : ∃ b₀ b₁ b₂ b₃, bs = [b₀, b₁, b₂, b₃] := by
  match bs, h with
  | [b₀, b₁, b₂, b₃], _ => exact ⟨b₀, b₁, b₂, b₃, rfl⟩

/-- Only the first four bytes are read. -/
theorem decodeFixed32_append {bs : Bytes} (h : bs.length = 4) (rest : Bytes) :
    decodeFixed32 (bs ++ rest) = decodeFixed32 bs := by
  obtain ⟨b₀, b₁, b₂, b₃, rfl⟩ := exists_four h
  rfl

theorem toNat_decodeFixed32_of_length {bs : Bytes} (h : bs.length = 4) :
    (decodeFixed32 bs).toNat = ofBytes bs := by
  obtain ⟨b₀, b₁, b₂, b₃, rfl⟩ := exists_four h
  exact toNat_decodeFixed32 b₀ b₁ b₂ b₃ []

/-- A number that is written is read back. -/
theorem decodeFixed32_encode (value : UInt32) : decodeFixed32 (encodeFixed32 value) = value := by
  refine UInt32.toNat_inj.mp ?_
  rw [toNat_decodeFixed32_of_length (length_encodeFixed32 value), encodeFixed32_eq,
    ofBytes_toBytes value.toNat_lt]

/-- Different bytes are different numbers. -/
theorem decodeFixed32_inj {as bs : Bytes} (ha : as.length = 4) (hb : bs.length = 4)
    (h : decodeFixed32 as = decodeFixed32 bs) : as = bs := by
  refine ofBytes_inj (ha.trans hb.symm) ?_
  rw [← toNat_decodeFixed32_of_length ha, ← toNat_decodeFixed32_of_length hb, h]

theorem decodeFixed64_append {bs : Bytes} (h : bs.length = 8) (rest : Bytes) :
    decodeFixed64 (bs ++ rest) = decodeFixed64 bs := by
  have hlow : (bs.take 4).length = 4 := by rw [List.length_take, h]; rfl
  have hhigh : (bs.drop 4).length = 4 := by rw [List.length_drop, h]
  have hsplit : bs = bs.take 4 ++ bs.drop 4 := (List.take_append_drop 4 bs).symm
  have hdrop : (bs ++ rest).drop 4 = bs.drop 4 ++ rest := List.drop_append_of_le_length (by omega)
  have hhead : decodeFixed32 (bs ++ rest) = decodeFixed32 bs := by
    rw [hsplit, List.append_assoc, decodeFixed32_append hlow, decodeFixed32_append hlow]
  rw [decodeFixed64, decodeFixed64, hdrop, decodeFixed32_append hhigh, hhead]

theorem decodeFixed64_encode (value : UInt64) : decodeFixed64 (encodeFixed64 value) = value := by
  have hlow : (value &&& 0xffffffff).toUInt32.toNat = value.toNat % 2 ^ 32 := by
    rw [UInt64.toNat_toUInt32, UInt64.toNat_and,
      show (0xffffffff : UInt64).toNat = 2 ^ 32 - 1 from rfl, Nat.and_two_pow_sub_one_eq_mod,
      Nat.mod_mod]
  have hhigh : (value >>> 32).toUInt32.toNat = value.toNat / 2 ^ 32 := by
    have hlt := value.toNat_lt
    rw [UInt64.toNat_toUInt32, UInt64.toNat_shiftRight,
      show (32 : UInt64).toNat % 64 = 32 from rfl, Nat.shiftRight_eq_div_pow]
    omega
  have hdrop : (encodeFixed64 value).drop 4 = encodeFixed32 (value >>> 32).toUInt32 := rfl
  refine UInt64.toNat_inj.mp ?_
  rw [decodeFixed64, hdrop, encodeFixed64, decodeFixed32_append (length_encodeFixed32 _),
    decodeFixed32_encode, decodeFixed32_encode, UInt64.toNat_or, UInt64.toNat_shiftLeft,
    UInt32.toNat_toUInt64, UInt32.toNat_toUInt64, hlow, hhigh,
    show (32 : UInt64).toNat % 64 = 32 from rfl]
  have hlt := value.toNat_lt
  have hfits : (value.toNat / 2 ^ 32) <<< 32 % 2 ^ 64 = (value.toNat / 2 ^ 32) <<< 32 := by
    rw [Nat.shiftLeft_eq]
    omega
  rw [hfits, or_shiftLeft (Nat.mod_lt _ (by decide)), Nat.mod_add_div]

/-! ## §4. What a round of the loop finds. -/

theorem length_encodeFields (h : WalRecordHeader) : h.encodeFields.length = 25 := rfl

theorem length_encode_header (h : WalRecordHeader) : h.encode.length = kHeaderSize := rfl

theorem WalRecord.length_encode (r : WalRecord) :
    r.encode.length = kHeaderSize + r.key.length + r.value.length := by
  rw [WalRecord.encode, List.length_append, List.length_append, length_encode_header]

/-- A header cut into its fields. -/
theorem parse_parts {t : UInt8} {s ts ks vs c : Bytes} (hs : s.length = 8) (hts : ts.length = 8)
    (hks : ks.length = 4) (hvs : vs.length = 4) :
    WalRecordHeader.parse (t :: (s ++ ts ++ ks ++ vs) ++ c)
      = ⟨⟨t⟩, decodeFixed64 s, decodeFixed64 ts, decodeFixed32 ks, decodeFixed32 vs,
          decodeFixed32 c⟩ := by
  have d₁ : (t :: (s ++ ts ++ ks ++ vs) ++ c).drop 1 = s ++ (ts ++ ks ++ vs ++ c) := by simp
  have d₉ : (t :: (s ++ ts ++ ks ++ vs) ++ c).drop 9 = ts ++ (ks ++ vs ++ c) := by
    rw [show 9 = 1 + 8 from rfl, ← List.drop_drop, d₁, List.drop_left' hs]
    simp
  have d₁₇ : (t :: (s ++ ts ++ ks ++ vs) ++ c).drop 17 = ks ++ (vs ++ c) := by
    rw [show 17 = 9 + 8 from rfl, ← List.drop_drop, d₉, List.drop_left' hts]
    simp
  have d₂₁ : (t :: (s ++ ts ++ ks ++ vs) ++ c).drop 21 = vs ++ c := by
    rw [show 21 = 17 + 4 from rfl, ← List.drop_drop, d₁₇, List.drop_left' hks]
  have d₂₅ : (t :: (s ++ ts ++ ks ++ vs) ++ c).drop 25 = c := by
    rw [show 25 = 21 + 4 from rfl, ← List.drop_drop, d₂₁, List.drop_left' hvs]
  simp only [WalRecordHeader.parse, d₁, d₉, d₁₇, d₂₁, d₂₅, decodeFixed64_append hs,
    decodeFixed64_append hts, decodeFixed32_append hks, decodeFixed32_append hvs]
  rfl

/-- **A header that is written is read back.** -/
theorem parse_encode (h : WalRecordHeader) : WalRecordHeader.parse h.encode = h := by
  rw [WalRecordHeader.encode, WalRecordHeader.encodeFields,
    parse_parts (length_encodeFixed64 _) (length_encodeFixed64 _) (length_encodeFixed32 _)
      (length_encodeFixed32 _)]
  simp only [decodeFixed64_encode, decodeFixed32_encode]

section Read

variable {crc32 : Bytes → UInt32} {path : String}

/-- Too few bytes for a header. -/
theorem readRecord_short {file : Bytes} (h : file.length < kHeaderSize) :
    readRecord crc32 path file = .stop := by
  have : (file.take kHeaderSize).length ≠ kHeaderSize := by
    rw [List.length_take]
    omega
  rw [readRecord]
  exact if_pos this

/-- **A round of the loop, on a header and what follows it.** -/
theorem readRecord_eq {head body : Bytes} (hh : head.length = kHeaderSize) :
    readRecord crc32 path (head ++ body)
      = (let h := WalRecordHeader.parse head
        if h.keySize > kMaxFieldSize ∨ h.valueSize > kMaxFieldSize then
          .bad (.corruption "WAL record contains an invalid field size")
        else if body.length < h.keySize.toNat + h.valueSize.toNat then .stop
        else if calculateCRC32 crc32
            (head.take 25 ++ body.take (h.keySize.toNat + h.valueSize.toNat)) ≠ h.crc32 then
          .bad (.corruption ("WAL CRC32 mismatch in " ++ path))
        else .frame ⟨h, body.take h.keySize.toNat,
            (body.drop h.keySize.toNat).take h.valueSize.toNat⟩
          (body.drop (h.keySize.toNat + h.valueSize.toNat))) := by
  have htake : (head ++ body).take kHeaderSize = head := List.take_left' hh
  have hdrop : (head ++ body).drop kHeaderSize = body := List.drop_left' hh
  have hpartial : ∀ k v : Nat, ((body.take k).length ≠ k ∨ ((body.drop k).take v).length ≠ v)
      ↔ body.length < k + v := by
    intro k v
    rw [List.length_take, List.length_take, List.length_drop]
    omega
  have hcrc : ∀ k v : Nat, head.take (kHeaderSize - 4) ++ body.take k ++ (body.drop k).take v
      = head.take 25 ++ body.take (k + v) := by
    intro k v
    rw [List.append_assoc, ← List.take_add]
    rfl
  simp only [readRecord, htake, hdrop, hh, ne_eq, not_true_eq_false, if_false]
  simp only [← ne_eq, hpartial, hcrc, List.drop_drop]

end Read

end KvEngine
