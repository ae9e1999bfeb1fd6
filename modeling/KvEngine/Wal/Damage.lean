/-
  KvEngine.Wal.Damage
  ───────────────────
  **What `Recover` makes of a damaged log.**

  One byte of a record changed (`recover_changed`): the checksum finds every
  change outside the two length fields.  A changed length moves the end of
  the record instead; `Recover` finds it if the length is impossible or if
  the bytes it now covers have another checksum, and takes it for a torn
  tail if they run past the end of the file.

  One file cut short within a record (`recover_lost`): what follows in that
  file is lost, and the later files are read as if nothing were missing.
-/
import KvEngine.Wal.Truncate

namespace KvEngine

open Lib

/-! ## §1. A list with one symbol changed. -/

section Change

variable {β : Type} {xs ys : List β}

theorem take_change_before {n : Nat} (h : n ≤ xs.length) (c : β) :
    (xs ++ c :: ys).take n = xs.take n := List.take_append_of_le_length h

theorem take_change_behind {n : Nat} (h : xs.length < n) (c : β) :
    (xs ++ c :: ys).take n = xs ++ c :: ys.take (n - xs.length - 1) := by
  rw [List.take_append, List.take_of_length_le (Nat.le_of_lt h)]
  obtain ⟨k, hk⟩ : ∃ k, n - xs.length = k + 1 := ⟨n - xs.length - 1, by omega⟩
  rw [hk, List.take_succ_cons, Nat.add_sub_cancel]

theorem drop_change_before {n : Nat} (h : n ≤ xs.length) (c : β) :
    (xs ++ c :: ys).drop n = xs.drop n ++ c :: ys := List.drop_append_of_le_length h

theorem drop_change_behind {n : Nat} (h : xs.length < n) (c : β) :
    (xs ++ c :: ys).drop n = ys.drop (n - xs.length - 1) := by
  rw [List.drop_append, List.drop_of_length_le (Nat.le_of_lt h), List.nil_append]
  obtain ⟨k, hk⟩ : ∃ k, n - xs.length = k + 1 := ⟨n - xs.length - 1, by omega⟩
  rw [hk, List.drop_succ_cons, Nat.add_sub_cancel]

/-- One element has the property, if any. -/
theorem exists_mem_middle {a : β} {P : β → Prop} (hx : ∀ b ∈ xs, ¬ P b) (hy : ∀ b ∈ ys, ¬ P b) :
    (∃ b ∈ xs ++ a :: ys, P b) ↔ P a := by
  refine ⟨fun ⟨b, hb, hP⟩ => ?_, fun hP => ⟨a, by simp, hP⟩⟩
  rcases List.mem_append.mp hb with hb | hb
  · exact absurd hP (hx b hb)
  · rcases List.mem_cons.mp hb with rfl | hb
    · exact hP
    · exact absurd hP (hy b hb)

end Change

/-! ## §2. The loop body on a whole file. -/

section Read

variable {crc32 : Bytes → UInt32} {path : String}

/-- Where the two lengths are stored. -/
def lengthBytes (file : Bytes) : Bytes := (file.drop 17).take 8

/-- The lengths in the header at the start of a file. -/
def storedKeySize (file : Bytes) : UInt32 := decodeFixed32 (lengthBytes file)

def storedValueSize (file : Bytes) : UInt32 := decodeFixed32 ((lengthBytes file).drop 4)

/-- The checksum in that header. -/
def storedCrc (file : Bytes) : UInt32 := decodeFixed32 ((file.drop 25).take 4)

/-- The bytes the checksum is taken of if the fields have `len` bytes. -/
def checkedBytes (file : Bytes) (len : Nat) : Bytes := file.take 25 ++ (file.drop 29).take len

theorem parse_stored {file : Bytes} (h : kHeaderSize ≤ file.length) :
    (WalRecordHeader.parse (file.take kHeaderSize)).keySize = storedKeySize file ∧
      (WalRecordHeader.parse (file.take kHeaderSize)).valueSize = storedValueSize file ∧
      (WalRecordHeader.parse (file.take kHeaderSize)).crc32 = storedCrc file := by
  have hk : kHeaderSize = 29 := rfl
  -- each field is four bytes somewhere in the header
  have hfield : ∀ n, n + 4 ≤ 29 →
      decodeFixed32 ((file.take 29).drop n) = decodeFixed32 ((file.drop n).take 4) := by
    intro n hn
    have hlen : ((file.drop n).take 4).length = 4 := by
      rw [List.length_take, List.length_drop]
      omega
    rw [List.drop_take, ← decodeFixed32_append hlen ((file.drop n).drop 4 |>.take (29 - n - 4)),
      ← List.take_add, show 4 + (29 - n - 4) = 29 - n by omega]
  have hkey : lengthBytes file = (file.drop 17).take 4 ++ ((file.drop 17).drop 4).take 4 := by
    rw [lengthBytes, ← List.take_add]
  have hlen : ((file.drop 17).take 4).length = 4 := by
    rw [List.length_take, List.length_drop]
    omega
  refine ⟨?_, ?_, hfield 25 (by omega)⟩
  · rw [storedKeySize, hkey, decodeFixed32_append hlen]
    exact hfield 17 (by omega)
  · rw [storedValueSize, hkey, List.drop_left' hlen, List.drop_drop]
    exact hfield 21 (by omega)

/-- **The loop body by what is stored at the start of the file.** -/
theorem readRecord_stored {file : Bytes} (h : kHeaderSize ≤ file.length) :
    readRecord crc32 path file
      = (let len := (storedKeySize file).toNat + (storedValueSize file).toNat
        if storedKeySize file > kMaxFieldSize ∨ storedValueSize file > kMaxFieldSize then
          .bad (.corruption "WAL record contains an invalid field size")
        else if file.length < 29 + len then .stop
        else if calculateCRC32 crc32 (checkedBytes file len) ≠ storedCrc file then
          .bad (.corruption ("WAL CRC32 mismatch in " ++ path))
        else .frame ⟨WalRecordHeader.parse (file.take 29),
            (file.drop 29).take (storedKeySize file).toNat,
            ((file.drop 29).drop (storedKeySize file).toNat).take (storedValueSize file).toNat⟩
          (file.drop (29 + len))) := by
  have hk : kHeaderSize = 29 := rfl
  have hhead : (file.take kHeaderSize).length = kHeaderSize := List.length_take_of_le h
  obtain ⟨hkey, hvalue, hcrc⟩ := parse_stored h
  have htake : (file.take kHeaderSize).take 25 = file.take 25 := by
    rw [List.take_take]
    rfl
  have hlen : ∀ n, (file.drop kHeaderSize).length < n ↔ file.length < 29 + n := by
    intro n
    rw [List.length_drop]
    omega
  have heq : readRecord crc32 path (file.take kHeaderSize ++ file.drop kHeaderSize) = _ :=
    readRecord_eq hhead
  rw [List.take_append_drop] at heq
  rw [heq]
  simp only [hkey, hvalue, hcrc, htake, hlen, List.drop_drop]
  rfl

/-- A valid record at the start of a file. -/
theorem stored_encode {r : WalRecord} (h : r.Valid crc32) (rest : Bytes) :
    (storedKeySize (r.encode ++ rest)).toNat = r.key.length ∧
      (storedValueSize (r.encode ++ rest)).toNat = r.value.length ∧
      calculateCRC32 crc32 (checkedBytes (r.encode ++ rest) (r.key.length + r.value.length))
        = storedCrc (r.encode ++ rest) := by
  have hlen : kHeaderSize ≤ (r.encode ++ rest).length := by
    rw [List.length_append, WalRecord.length_encode]
    omega
  have hhead : (r.encode ++ rest).take kHeaderSize = r.header.encode := by
    rw [WalRecord.encode, List.append_assoc, List.append_assoc,
      List.take_left' (length_encode_header _)]
  obtain ⟨hkey, hvalue, -⟩ := parse_stored hlen
  rw [hhead, parse_encode] at hkey hvalue
  have hread : readRecord crc32 "" (r.encode ++ rest) = .frame r rest := readRecord_encode h rest
  rw [readRecord_stored hlen, ← hkey, ← hvalue] at hread
  simp only [if_neg h.sizes, h.keySize, h.valueSize] at hread
  refine ⟨hkey ▸ h.keySize, hvalue ▸ h.valueSize, ?_⟩
  -- Reading the encoding back delivers the record, which a differing checksum would forbid.
  by_contra hcrc
  rw [if_pos hcrc] at hread
  split at hread
  · cases hread
  · cases hread

/-- What `Recover` finds of a header with these lengths: the lengths are
impossible, or the bytes they cover are there and have another checksum, or
they have the same one and an error comes later. -/
def LengthsRefused (crc32 : Bytes → UInt32) (path : String) (file : Bytes) : Prop :=
  let len := (storedKeySize file).toNat + (storedValueSize file).toNat
  storedKeySize file > kMaxFieldSize ∨ storedValueSize file > kMaxFieldSize ∨
    29 + len ≤ file.length ∧
      (calculateCRC32 crc32 (checkedBytes file len) ≠ storedCrc file ∨
        Fails (readRecord crc32 path) (file.drop (29 + len)))

theorem fails_iff {file : Bytes} (h : kHeaderSize ≤ file.length) :
    Fails (readRecord crc32 path) file ↔ LengthsRefused crc32 path file := by
  have heq : readRecord crc32 path file = _ := readRecord_stored h
  simp only at heq
  unfold LengthsRefused
  -- The checks in the order of `Recover`: sizes, then length, then checksum.
  by_cases hsize : storedKeySize file > kMaxFieldSize ∨ storedValueSize file > kMaxFieldSize
  · rw [if_pos hsize] at heq
    refine ⟨fun _ => ?_, fun _ => .bad heq⟩
    exact hsize.elim Or.inl (fun hv => Or.inr (Or.inl hv))
  · rw [if_neg hsize] at heq
    rw [← or_assoc, or_iff_right hsize]
    by_cases hlen : file.length < 29 + ((storedKeySize file).toNat + (storedValueSize file).toNat)
    · rw [if_pos hlen] at heq
      refine ⟨fun hf => ?_, fun hf => absurd hf.1 (Nat.not_le_of_lt hlen)⟩
      cases hf with
      | bad h => exact nomatch heq.symm.trans h
      | later h _ => exact nomatch heq.symm.trans h
    · rw [if_neg hlen] at heq
      rw [and_iff_right (Nat.le_of_not_lt hlen)]
      by_cases hcrc : calculateCRC32 crc32 (checkedBytes file
          ((storedKeySize file).toNat + (storedValueSize file).toNat)) ≠ storedCrc file
      · rw [if_pos hcrc] at heq
        exact ⟨fun _ => Or.inl hcrc, fun _ => .bad heq⟩
      · rw [if_neg hcrc] at heq
        -- A matching checksum: the record is delivered and reading goes on behind it.
        rw [or_iff_right hcrc]
        refine ⟨fun hf => ?_, .later heq⟩
        cases hf with
        | bad h => exact nomatch heq.symm.trans h
        | later h hrest =>
            injection heq.symm.trans h with _ hdrop
            exact hdrop ▸ hrest

end Read

/-! ## §3. One byte of a record changed. -/

/-- The byte `old` of a record, which has `pre` before it and `post` behind
it, becomes `new`. -/
structure ByteChange (r : WalRecord) where
  pre : Bytes
  old : UInt8
  new : UInt8
  post : Bytes
  encode_eq : r.encode = pre ++ old :: post
  differs : old ≠ new

namespace ByteChange

variable {crc32 : Bytes → UInt32} {path : String} {r : WalRecord}

def bytes (c : ByteChange r) : Bytes := c.pre ++ c.new :: c.post

/-- The byte in a file that goes on with `rest`; `b` is its value. -/
theorem file_old (c : ByteChange r) (rest : Bytes) :
    r.encode ++ rest = c.pre ++ c.old :: (c.post ++ rest) := by
  rw [c.encode_eq, List.append_assoc, List.cons_append]

theorem file_new (c : ByteChange r) (rest : Bytes) :
    c.bytes ++ rest = c.pre ++ c.new :: (c.post ++ rest) := by
  rw [bytes, List.append_assoc, List.cons_append]

/-- The byte belongs to one of the two lengths. -/
def InLength (c : ByteChange r) : Prop := 17 ≤ c.pre.length ∧ c.pre.length < 25

theorem length_bytes (c : ByteChange r) :
    c.pre.length + 1 + c.post.length = kHeaderSize + r.key.length + r.value.length := by
  rw [← WalRecord.length_encode, c.encode_eq, List.length_append, List.length_cons]
  omega

/-- Outside the lengths a change leaves them as they are. -/
theorem lengthBytes_change {c : ByteChange r} (h : ¬ c.InLength) (a b : UInt8) (rest : Bytes) :
    lengthBytes (c.pre ++ a :: rest) = lengthBytes (c.pre ++ b :: rest) := by
  rw [InLength, not_and_or, Nat.not_le, Nat.not_lt] at h
  unfold lengthBytes
  rcases h with h | h
  · rw [drop_change_behind h, drop_change_behind h]
  · have hlen : 8 ≤ (c.pre.drop 17).length := by
      rw [List.length_drop]
      omega
    rw [drop_change_before (by omega), drop_change_before (by omega), take_change_before hlen,
      take_change_before hlen]

end ByteChange

/-- Checksums that tell inputs apart which differ in one byte. -/
def DetectsChange (crc32 : Bytes → UInt32) : Prop :=
  ∀ (xs ys : Bytes) (a b : UInt8), a ≠ b → crc32 (xs ++ a :: ys) ≠ crc32 (xs ++ b :: ys)

theorem detectsChange_crc32 : DetectsChange Lib.crc32 := fun xs ys _ _ h => crc32_change xs ys h

/-- The length of what is checked is not cut off. -/
theorem calculateCRC32_eq (crc32 : Bytes → UInt32) {data : Bytes} (h : data.length < 2 ^ 32) :
    calculateCRC32 crc32 data = crc32 data := by
  rw [calculateCRC32, Nat.mod_eq_of_lt h, List.take_length]

section Stored

variable {xs ys : Bytes}

theorem storedCrc_change (h : xs.length < 25 ∨ 29 ≤ xs.length) (a b : UInt8) :
    storedCrc (xs ++ a :: ys) = storedCrc (xs ++ b :: ys) := by
  unfold storedCrc
  rcases h with h | h
  · rw [drop_change_behind h, drop_change_behind h]
  · have hfour : 4 ≤ (xs.drop 25).length := by
      rw [List.length_drop]
      omega
    rw [drop_change_before (by omega), drop_change_before (by omega), take_change_before hfour,
      take_change_before hfour]

theorem storedCrc_differs (h : 25 ≤ xs.length) (h' : xs.length < 29)
    (hlen : 28 ≤ xs.length + ys.length) {a b : UInt8} (hab : a ≠ b) :
    storedCrc (xs ++ a :: ys) ≠ storedCrc (xs ++ b :: ys) := by
  have hfour : ∀ c : UInt8, (((xs ++ c :: ys).drop 25).take 4).length = 4 := by
    intro c
    rw [List.length_take, List.length_drop, List.length_append, List.length_cons]
    omega
  intro heq
  have hbytes := decodeFixed32_inj (hfour a) (hfour b) heq
  rw [drop_change_before h, drop_change_before h,
    take_change_behind (by rw [List.length_drop]; omega),
    take_change_behind (by rw [List.length_drop]; omega)] at hbytes
  exact hab (List.cons.inj (List.append_cancel_left hbytes)).1

/-- What is checked differs in the byte, unless the byte is checksum. -/
theorem checkedBytes_change (ys : Bytes) {len : Nat}
    (h : xs.length < 25 ∨ 29 ≤ xs.length ∧ xs.length < 29 + len) :
    ∃ us vs, ∀ b : UInt8, checkedBytes (xs ++ b :: ys) len = us ++ b :: vs := by
  rcases h with h | ⟨h, h'⟩
  · refine ⟨xs, ys.take (25 - xs.length - 1) ++ (ys.drop (29 - xs.length - 1)).take len, ?_⟩
    intro b
    rw [checkedBytes, take_change_behind h, drop_change_behind (by omega), List.append_assoc,
      List.cons_append]
  · refine ⟨xs.take 25 ++ xs.drop 29, ys.take (len - (xs.drop 29).length - 1), ?_⟩
    intro b
    rw [checkedBytes, take_change_before (by omega), drop_change_before h,
      take_change_behind (by rw [List.length_drop]; omega), List.append_assoc]

theorem checkedBytes_checksum {len : Nat} (h : 25 ≤ xs.length) (h' : xs.length < 29)
    (a b : UInt8) : checkedBytes (xs ++ a :: ys) len = checkedBytes (xs ++ b :: ys) len := by
  rw [checkedBytes, checkedBytes, take_change_before h, take_change_before h,
    drop_change_behind h', drop_change_behind h']

end Stored

namespace ByteChange

variable {crc32 : Bytes → UInt32} {path : String} {r : WalRecord}

/-- **A change outside the lengths is found.** -/
theorem fails (hv : r.Valid crc32) (hdetects : DetectsChange crc32) {c : ByteChange r}
    (hout : ¬ c.InLength) (rest : Bytes) : Fails (readRecord crc32 path) (c.bytes ++ rest) := by
  obtain ⟨hkey, hvalue, hcrc⟩ := stored_encode hv rest
  have hbytes := c.length_bytes
  have hmax := hv.keyMax
  have hmax' := hv.valueMax
  rw [kMaxFieldSize_toNat] at hmax hmax'
  have hk : kHeaderSize = 29 := rfl
  have hlengths := lengthBytes_change hout c.new c.old (c.post ++ rest)
  have hlen : (c.bytes ++ rest).length = 29 + (r.key.length + r.value.length) + rest.length := by
    rw [file_new, List.length_append, List.length_cons, List.length_append]
    omega
  -- the lengths that are read are the right ones
  rw [c.file_old] at hkey hvalue hcrc
  have hkey' : storedKeySize (c.pre ++ c.new :: (c.post ++ rest))
      = storedKeySize (c.pre ++ c.old :: (c.post ++ rest)) := congrArg decodeFixed32 hlengths
  have hvalue' : storedValueSize (c.pre ++ c.new :: (c.post ++ rest))
      = storedValueSize (c.pre ++ c.old :: (c.post ++ rest)) :=
    congrArg (fun bs : Bytes => decodeFixed32 (bs.drop 4)) hlengths
  rw [fails_iff (by omega), LengthsRefused, hlen, file_new]
  simp only [hkey', hvalue', hkey, hvalue]
  refine Or.inr (Or.inr ⟨by omega, Or.inl ?_⟩)
  rw [InLength, not_and_or, Nat.not_le, Nat.not_lt] at hout
  -- either the stored checksum is another one, or what it is taken of
  by_cases hin : 25 ≤ c.pre.length ∧ c.pre.length < 29
  · rw [checkedBytes_checksum hin.1 hin.2 c.new c.old, hcrc]
    exact storedCrc_differs hin.1 hin.2 (by rw [List.length_append]; omega) c.differs
  · have hplace : c.pre.length < 25 ∨
        29 ≤ c.pre.length ∧ c.pre.length < 29 + (r.key.length + r.value.length) := by omega
    obtain ⟨us, vs, hchecked⟩ := checkedBytes_change (c.post ++ rest) hplace
    have hsmall : ∀ b : UInt8, (us ++ b :: vs).length < 2 ^ 32 := by
      intro b
      rw [← hchecked b, checkedBytes, List.length_append, List.length_take, List.length_take]
      omega
    rw [hchecked, calculateCRC32_eq crc32 (hsmall _)] at hcrc ⊢
    rw [storedCrc_change (by omega) c.new c.old, ← hcrc]
    exact hdetects us vs _ _ (Ne.symm c.differs)

end ByteChange

namespace WriteAheadLog

variable {env : Env} {w : WriteAheadLog}

/-- The contents of the files by number. -/
def contents (w : WriteAheadLog) : List (Nat × Bytes) :=
  w.disk.files.entries.map (fun e => (e.1, e.2.content))

/-- A callback that always returns is run on all records. -/
theorem replay_total {σ : Type} (callback : σ → WalRecordHeader → Bytes → Bytes → σ) (s : σ)
    (rs : List WalRecord) : replay (fun s h k v => some (callback s h k v)) s rs
      = some (rs.foldl (fun s r => callback s r.header r.key r.value) s) := by
  induction rs generalizing s with
  | nil => rfl
  | cons r rs ih => exact ih (callback s r.header r.key r.value)

/-- **`Recover` returns OK or Corruption**, the latter exactly if the loop
meets an error in some file. -/
theorem recover_status (hok : env.Fine) {σ : Type}
    (callback : σ → WalRecordHeader → Bytes → Bytes → σ) (s : σ) (w : WriteAheadLog) :
    ∃ status m s' w', w.recover env (fun s h k v => some (callback s h k v)) s
        = some (status, m, s', w') ∧
      (status = .okStatus ∨ status.code = .corruption) ∧
      (status.code = .corruption ↔ ∃ e ∈ w.contents,
        Fails (readRecord env.crc32 (filePath w.options e.1)) e.2) := by
  obtain ⟨requests, hrec⟩ := recover_eq (fun s h k v => some (callback s h k v)) hok w s
  have hfails := recordsOf_fails env.crc32 w.options w.disk.files.entries
  have herror := @recordsOf_error env.crc32 w.options w.disk.files.entries
  simp only [replay_total, Option.map_some] at hrec
  refine ⟨_, _, _, _, hrec, ?_⟩
  -- `contents` names the same bytes as the files of the disk.
  have hmem : (∃ e ∈ w.contents, Fails (readRecord env.crc32 (filePath w.options e.1)) e.2)
      ↔ ∃ e ∈ w.disk.files.entries,
        Fails (readRecord env.crc32 (filePath w.options e.1)) e.2.content := by
    simp only [contents, List.mem_map, exists_exists_and_eq_and]
  rw [hmem, ← hfails]
  cases herr : (recordsOf env.crc32 w.options w.disk.files.entries).2 with
  | none => exact ⟨Or.inl rfl, ⟨fun h => (nomatch h), fun h => (nomatch h)⟩⟩
  | some status =>
      have hcode := herror herr
      exact ⟨Or.inr hcode, fun _ => rfl, fun _ => hcode⟩

/-- A file of valid records is read without an error. -/
theorem Segment.Ok.not_fails {crc32 : Bytes → UInt32} {options : WalOptions} {g : Segment}
    (h : g.Ok crc32 options) :
    ¬ Fails (readRecord crc32 (filePath options g.number)) g.content := by
  intro hf
  have := ((walFraming crc32 (filePath options g.number)).fails_encodeAll h.valid g.tail).mp hf
  cases this with
  | bad hb => exact nomatch h.stops.symm.trans hb
  | later hl _ => exact nomatch h.stops.symm.trans hl

/-- A log in which one byte of one record was changed. -/
structure DamagedLog where
  before : List Segment
  number : Nat
  recordsBefore : List WalRecord
  record : WalRecord
  recordsAfter : List WalRecord
  tail : Bytes := []
  after : List Segment
  change : ByteChange record

namespace DamagedLog

/-- The log before the change. -/
def original (log : DamagedLog) : List Segment :=
  log.before ++ ⟨log.number, log.recordsBefore ++ log.record :: log.recordsAfter, log.tail⟩
    :: log.after

/-- What follows the record in its file. -/
def rest (log : DamagedLog) : Bytes := encodeAll WalRecord.encode log.recordsAfter ++ log.tail

/-- The files after the change. -/
def files (log : DamagedLog) : List (Nat × Bytes) :=
  log.before.map (fun g => (g.number, g.content)) ++
    (log.number, encodeAll WalRecord.encode log.recordsBefore ++ (log.change.bytes ++ log.rest))
      :: log.after.map (fun g => (g.number, g.content))

end DamagedLog

/-- **When `Recover` reports a changed byte.**  It does if the byte is none of
the two lengths; if it is, then exactly if the new length is impossible, or
the bytes it covers are all there and their checksum is not the stored one,
or what follows them is refused. -/
theorem recover_changed (env : Env) (hok : env.Fine) (hdetects : DetectsChange env.crc32)
    (w : WriteAheadLog) (log : DamagedLog) (hvalid : ∀ g ∈ log.original, g.Ok env.crc32 w.options)
    (hfiles : w.contents = log.files) {σ : Type}
    (callback : σ → WalRecordHeader → Bytes → Bytes → σ) (s : σ) :
    ∃ status m s' w', w.recover env (fun s h k v => some (callback s h k v)) s
        = some (status, m, s', w') ∧
      (status = .okStatus ∨ status.code = .corruption) ∧
      (status.code = .corruption ↔ ¬ log.change.InLength ∨
        LengthsRefused env.crc32 (filePath w.options log.number)
          (log.change.bytes ++ log.rest)) := by
  obtain ⟨status, m, s', w', hrec, hstatus, hiff⟩ := recover_status hok callback s w
  refine ⟨status, m, s', w', hrec, hstatus, hiff.trans ?_⟩
  have hg := hvalid _ (List.mem_append_right _ List.mem_cons_self)
  have hr : log.record.Valid env.crc32 := hg.valid _ (by simp)
  have hlen : kHeaderSize ≤ (log.change.bytes ++ log.rest).length := by
    have := log.change.length_bytes
    rw [List.length_append, ByteChange.bytes, List.length_append, List.length_cons]
    omega
  -- the other files are read without an error
  have hothers : ∀ gs : List Segment, (∀ g ∈ gs, g ∈ log.original) →
      ∀ e ∈ gs.map (fun g => (g.number, g.content)),
        ¬ Fails (readRecord env.crc32 (filePath w.options e.1)) e.2 := by
    intro gs hsub e he hf
    obtain ⟨g, hmem, rfl⟩ := List.mem_map.mp he
    exact (hvalid g (hsub g hmem)).not_fails hf
  have hfile : Fails (readRecord env.crc32 (filePath w.options log.number))
      (encodeAll WalRecord.encode log.recordsBefore ++ (log.change.bytes ++ log.rest)) ↔ _ :=
    (walFraming env.crc32 (filePath w.options log.number)).fails_encodeAll
      (fun q hq => hg.valid q (List.mem_append_left _ hq)) (log.change.bytes ++ log.rest)
  rw [hfiles, DamagedLog.files, exists_mem_middle
    (hothers _ (fun g hmem => List.mem_append_left _ hmem))
    (hothers _ (fun g hmem => List.mem_append_right _ (List.mem_cons_of_mem _ hmem)))]
  refine hfile.trans ?_
  by_cases hin : log.change.InLength
  · rw [or_iff_right (not_not_intro hin)]
    exact fails_iff hlen
  · exact ⟨fun _ => Or.inl hin, fun _ => log.change.fails hr hdetects hin log.rest⟩

/-- A log of one record; the lowest byte of its key length, 1, becomes 2. -/
def lengthenedKey : DamagedLog where
  before := []
  number := 0
  recordsBefore := []
  record := .make Lib.crc32 .kPut 1 0 [1] [2]
  recordsAfter := []
  after := []
  change := {
    pre := (WalRecord.make Lib.crc32 .kPut 1 0 [1] [2]).encode.take 17
    old := 1
    new := 2
    post := (WalRecord.make Lib.crc32 .kPut 1 0 [1] [2]).encode.drop 18
    encode_eq := rfl
    differs := by decide }

/-- A log object on the damaged files. -/
def lengthenedKeyLog : WriteAheadLog where
  options := {}
  currentFileNumber := 0
  disk := { files := {
    entries := [(0, { content := lengthenedKey.change.bytes })]
    sorted := List.pairwise_singleton _ _ } }

theorem lengthenedKey_ok : ∀ g ∈ lengthenedKey.original, g.Ok Lib.crc32 {} := by
  intro g hg
  rw [List.mem_singleton.mp hg]
  refine ⟨fun r hr => ?_, readRecord_nil _ _⟩
  rw [List.mem_singleton.mp hr]
  exact WalRecord.make_valid _ _ _ _ (by decide) (by decide)

theorem lengthenedKey_files : lengthenedKeyLog.contents = lengthenedKey.files := by
  simp [contents, lengthenedKeyLog, DamagedLog.files, DamagedLog.rest, lengthenedKey]

/-- The record is taken for a torn tail: OK, and nothing recovered. -/
theorem recover_changed_missed :
    (∀ g ∈ lengthenedKey.original, g.Ok Env.undisturbed.crc32 lengthenedKeyLog.options) ∧
      lengthenedKeyLog.contents = lengthenedKey.files ∧
      (lengthenedKeyLog.recover .undisturbed collect []).map (fun r => (r.1.code, r.2.2.1))
        = some (.ok, []) :=
  ⟨lengthenedKey_ok, lengthenedKey_files, by decide +kernel⟩

theorem recover_changed_lengthened :
    ∃ status m s' w', lengthenedKeyLog.recover .undisturbed
        (fun rs h k v => some (rs ++ [(⟨h, k, v⟩ : WalRecord)])) [] = some (status, m, s', w') ∧
      (status = .okStatus ∨ status.code = .corruption) ∧
      (status.code = .corruption ↔ ¬ lengthenedKey.change.InLength ∨
        LengthsRefused Lib.crc32 (filePath {} lengthenedKey.number)
          (lengthenedKey.change.bytes ++ lengthenedKey.rest)) :=
  recover_changed .undisturbed Env.fine_undisturbed detectsChange_crc32 lengthenedKeyLog
    lengthenedKey lengthenedKey_ok lengthenedKey_files (fun rs h k v => rs ++ [⟨h, k, v⟩]) []

/-! ## §4. One file cut short. -/

theorem segments_contents {gs : List Segment} :
    Segments w.disk.files.entries gs ↔ w.contents = gs.map (fun g => (g.number, g.content)) :=
  Iff.rfl

/-- A list is a prefix of itself behind another one exactly if it repeats that one. -/
theorem prefix_append_self_iff {α : Type} {ls ms : List α} (hne : ms ≠ []) :
    ls <+: ms ++ ls ↔ ∀ i < ls.length, ls[i]? = ms[i % ms.length]? := by
  have hpos : 0 < ms.length := List.length_pos_of_ne_nil hne
  have hback : ∀ i, ms.length ≤ i → (i - ms.length) % ms.length = i % ms.length := by
    intro i hi
    conv_rhs => rw [← Nat.sub_add_cancel hi, Nat.add_mod_right]
  rw [List.prefix_iff_getElem?]
  constructor
  · intro h i
    -- on the place: behind the first copy it is one copy nearer
    induction i using Nat.strongRecOn with
    | ind i ih =>
        intro hi
        have hplace := h i hi
        rw [← List.getElem?_eq_getElem hi] at hplace
        rcases Nat.lt_or_ge i ms.length with hlow | hhigh
        · rw [Nat.mod_eq_of_lt hlow, ← hplace, List.getElem?_append_left hlow]
        · rw [← hplace, List.getElem?_append_right hhigh, ih _ (by omega) (by omega), hback i hhigh]
  · intro h i hi
    rw [← List.getElem?_eq_getElem hi]
    rcases Nat.lt_or_ge i ms.length with hlow | hhigh
    · rw [List.getElem?_append_left hlow, h i hi, Nat.mod_eq_of_lt hlow]
    · rw [List.getElem?_append_right hhigh, h _ (by omega), h i hi, hback i hhigh]

/-- **When a cut is noticed.**  A file that is cut within the record `r` loses
`r` and all that follows it in this file, and `Recover` still returns OK.
What it delivers is a prefix of what was written exactly if the records of
the later files repeat what was lost, over and over, or there are none; with
distinct sequence numbers, exactly if there are none. -/
theorem recover_lost (env : Env) (hok : env.Fine) (w : WriteAheadLog) (before after : List Segment)
    (g : Segment) (hclean : Clean (before ++ g :: after))
    (hvalid : ∀ q ∈ before ++ g :: after, q.Ok env.crc32 w.options)
    (kept lost : List WalRecord) (r : WalRecord) (hrecords : g.records = kept ++ r :: lost)
    (len : Nat) (hlow : (encodeAll WalRecord.encode kept).length < len)
    (hhigh : len < (encodeAll WalRecord.encode kept).length + r.encode.length)
    (hfiles : w.contents = before.map (fun q => (q.number, q.content)) ++
      (g.number, g.content.take len) :: after.map (fun q => (q.number, q.content))) :
    ∃ status m rs w', w.recover env collect [] = some (status, m, rs, w') ∧
      rs = before.flatMap Segment.records ++ kept ++ after.flatMap Segment.records ∧
      ((status.ok = true → rs <+: (before ++ g :: after).flatMap Segment.records) ↔
        after.flatMap Segment.records <+: r :: lost ++ after.flatMap Segment.records) ∧
      ((status.ok = true → rs <+: (before ++ g :: after).flatMap Segment.records) ↔
        ∀ i < (after.flatMap Segment.records).length,
          (after.flatMap Segment.records)[i]? = (r :: lost)[i % (r :: lost).length]?) ∧
      (((before ++ g :: after).flatMap Segment.records).Pairwise
          (fun p q => p.header.sequenceNumber ≠ q.header.sequenceNumber) →
        ((status.ok = true → rs <+: (before ++ g :: after).flatMap Segment.records) ↔
          after.flatMap Segment.records = [])) := by
  have hg := hvalid g (by simp)
  have hr : r.Valid env.crc32 := hg.valid r (by simp [hrecords])
  -- what is left of the file
  have hcut : g.content.take len = encodeAll WalRecord.encode kept
      ++ r.encode.take (len - (encodeAll WalRecord.encode kept).length) := by
    rw [Segment.content, hclean g (by simp), List.append_nil, hrecords, encodeAll_append,
      encodeAll_cons, List.take_append, List.take_of_length_le (Nat.le_of_lt hlow),
      List.take_append_of_le_length (by omega)]
  have hsegs : Segments w.disk.files.entries (before ++
      ⟨g.number, kept,
        r.encode.take (len - (encodeAll WalRecord.encode kept).length)⟩ :: after) := by
    rw [segments_contents, hfiles, hcut, List.map_append, List.map_cons]
    rfl
  have hoks : ∀ q ∈ before ++
      ⟨g.number, kept, r.encode.take (len - (encodeAll WalRecord.encode kept).length)⟩ :: after,
      q.Ok env.crc32 w.options := by
    intro q hq
    rcases List.mem_append.mp hq with hq | hq
    · exact hvalid q (List.mem_append_left _ hq)
    · rcases List.mem_cons.mp hq with rfl | hq
      · refine ⟨fun p hp => hg.valid p ?_, readRecord_cut hr (by omega)⟩
        rw [hrecords]
        exact List.mem_append_left _ hp
      · exact hvalid q (List.mem_append_right _ (List.mem_cons_of_mem _ hq))
  obtain ⟨m, w', hrec, -⟩ := recover_segments hok hsegs hoks
  rw [List.flatMap_append, List.flatMap_cons, ← List.append_assoc] at hrec
  have hwritten : (before ++ g :: after).flatMap Segment.records = before.flatMap Segment.records
      ++ kept ++ (r :: lost ++ after.flatMap Segment.records) := by
    rw [List.flatMap_append, List.flatMap_cons, hrecords]
    simp only [List.append_assoc]
  generalize after.flatMap Segment.records = later at *
  -- the records before the cut are both delivered and written
  have hprefix : (Status.okStatus.ok = true → before.flatMap Segment.records ++ kept ++ later
      <+: (before ++ g :: after).flatMap Segment.records) ↔ later <+: r :: lost ++ later := by
    rw [imp_iff_right Status.ok_okStatus, hwritten, List.prefix_append_right_inj]
  refine ⟨_, _, _, w', hrec, rfl, hprefix,
    hprefix.trans (prefix_append_self_iff (List.cons_ne_nil r lost)), fun hdistinct => ?_⟩
  refine hprefix.trans ⟨fun hrepeats => ?_, fun hnil => hnil ▸ List.nil_prefix⟩
  cases later with
  | nil => rfl
  | cons q rest =>
      -- the first later record would be the first one lost
      obtain ⟨rfl, -⟩ := (List.cons_prefix_cons).mp hrepeats
      rw [hwritten] at hdistinct
      have hbehind := (List.pairwise_append.mp hdistinct).2.1
      exact absurd rfl ((List.pairwise_append.mp hbehind).2.2 q List.mem_cons_self q
        List.mem_cons_self)

/-- Two files with a record each, numbered 1 and 2; the first is cut after
ten bytes. -/
def cutFirstFile : WriteAheadLog where
  options := {}
  currentFileNumber := 1
  disk := { files := {
    entries := [(0, { content := (WalRecord.make Lib.crc32 .kPut 1 0 [1] [2]).encode.take 10 }),
      (1, { content := (WalRecord.make Lib.crc32 .kPut 2 0 [1] [3]).encode })]
    sorted := List.pairwise_pair.mpr (TotalCompare.nat_lt_iff.mpr Nat.zero_lt_one) } }

/-- The second record alone is delivered. -/
theorem recover_lost_first : ((cutFirstFile.recover .undisturbed collect []).map
      (fun r => (r.1.code, r.2.2.1.map (fun q => q.header.sequenceNumber)))) = some (.ok, [2]) ∧
    ¬ [2] <+: [1, 2] := by decide +kernel

theorem recover_lost_cutFirstFile :
    ∃ status m rs w', cutFirstFile.recover .undisturbed collect [] = some (status, m, rs, w') ∧
      rs = [WalRecord.make Lib.crc32 .kPut 2 0 [1] [3]] ∧
      ((status.ok = true → rs <+: [WalRecord.make Lib.crc32 .kPut 1 0 [1] [2],
          WalRecord.make Lib.crc32 .kPut 2 0 [1] [3]]) ↔
        [WalRecord.make Lib.crc32 .kPut 2 0 [1] [3]] <+:
          [WalRecord.make Lib.crc32 .kPut 1 0 [1] [2],
            WalRecord.make Lib.crc32 .kPut 2 0 [1] [3]]) := by
  have hvalid : ∀ q ∈ [(⟨0, [.make Lib.crc32 .kPut 1 0 [1] [2]], []⟩ : Segment),
      ⟨1, [.make Lib.crc32 .kPut 2 0 [1] [3]], []⟩], q.Ok Lib.crc32 {} := by
    intro q hq
    rcases List.mem_pair.mp hq with rfl | rfl
    · refine ⟨fun r hr => ?_, readRecord_nil _ _⟩
      rw [List.mem_singleton.mp hr]
      exact WalRecord.make_valid _ _ _ _ (by decide) (by decide)
    · refine ⟨fun r hr => ?_, readRecord_nil _ _⟩
      rw [List.mem_singleton.mp hr]
      exact WalRecord.make_valid _ _ _ _ (by decide) (by decide)
  have h := recover_lost .undisturbed Env.fine_undisturbed cutFirstFile []
    [⟨1, [.make Lib.crc32 .kPut 2 0 [1] [3]], []⟩] ⟨0, [.make Lib.crc32 .kPut 1 0 [1] [2]], []⟩
    (by simp [Clean]) hvalid [] [] (.make Lib.crc32 .kPut 1 0 [1] [2]) rfl 10 (by decide)
    (by rw [WalRecord.length_encode]; decide) (by simp [contents, cutFirstFile, Segment.content])
  obtain ⟨status, m, rs, w', hrec, hdelivered, hiff, -⟩ := h
  exact ⟨status, m, rs, w', hrec, hdelivered, hiff⟩

end WriteAheadLog

end KvEngine
