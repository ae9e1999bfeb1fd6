/-
  KvEngine.Wal.Decode
  ───────────────────
  **`Recover` reads back what `WriteRecord` encodes.**

  `walFraming` makes the encoder and the loop body of `Recover` a framing:
  a valid record is read back whatever follows it, and one that is cut short
  ends the loop.  `recover_eq` describes `Recover` on any directory by the
  records its loop reads (`recordsOf`), and `recordsOf_segments` says which
  they are where every file is encoded records and at most a torn tail.
-/
import KvEngine.Wal.Log

namespace KvEngine

open Lib

/-! ## §1. Valid records. -/

/-- The header tells the lengths and the checksum; the fields are not too
long to be read back. -/
structure WalRecord.Valid (crc32 : Bytes → UInt32) (r : WalRecord) : Prop where
  keySize : r.header.keySize.toNat = r.key.length
  valueSize : r.header.valueSize.toNat = r.value.length
  keyMax : r.key.length ≤ kMaxFieldSize.toNat
  valueMax : r.value.length ≤ kMaxFieldSize.toNat
  crc : r.header.crc32 = calculateCRC32 crc32 (r.header.encodeFields ++ r.key ++ r.value)

theorem kMaxFieldSize_toNat : kMaxFieldSize.toNat = 2 ^ 28 := by decide

/-- **`WriteRecord` puts valid records together**, up to 256 MiB a field. -/
theorem WalRecord.make_valid (crc32 : Bytes → UInt32) (type : WalRecordType) (seq time : UInt64)
    {key value : Bytes} (hk : key.length ≤ 2 ^ 28) (hv : value.length ≤ 2 ^ 28) :
    (WalRecord.make crc32 type seq time key value).Valid crc32 where
  keySize := UInt32.toNat_ofNat_of_lt' (Nat.lt_of_le_of_lt hk (by decide))
  valueSize := UInt32.toNat_ofNat_of_lt' (Nat.lt_of_le_of_lt hv (by decide))
  keyMax := by rw [kMaxFieldSize_toNat]; exact hk
  valueMax := by rw [kMaxFieldSize_toNat]; exact hv
  crc := rfl

section Framing

variable {crc32 : Bytes → UInt32} {path : String} {r : WalRecord}

theorem WalRecord.Valid.sizes (h : r.Valid crc32) :
    ¬ (r.header.keySize > kMaxFieldSize ∨ r.header.valueSize > kMaxFieldSize) := by
  rw [gt_iff_lt, gt_iff_lt, UInt32.lt_iff_toNat_lt, UInt32.lt_iff_toNat_lt, h.keySize, h.valueSize]
  have hk := h.keyMax
  have hv := h.valueMax
  omega

/-- The loop body on the bytes of a valid record's header. -/
theorem readRecord_header (h : r.Valid crc32) (body : Bytes) :
    readRecord crc32 path (r.header.encode ++ body)
      = if body.length < r.key.length + r.value.length then .stop
        else if calculateCRC32 crc32
            (r.header.encodeFields ++ body.take (r.key.length + r.value.length))
              ≠ r.header.crc32 then
          .bad (.corruption ("WAL CRC32 mismatch in " ++ path))
        else .frame ⟨r.header, body.take r.key.length,
            (body.drop r.key.length).take r.value.length⟩
          (body.drop (r.key.length + r.value.length)) := by
  have hfields : r.header.encode.take 25 = r.header.encodeFields :=
    List.take_left' (length_encodeFields _)
  rw [readRecord_eq (length_encode_header _)]
  simp only [parse_encode, if_neg h.sizes, h.keySize, h.valueSize, hfields]

theorem readRecord_encode (h : r.Valid crc32) (rest : Bytes) :
    readRecord crc32 path (r.encode ++ rest) = .frame r rest := by
  have hbody : r.encode ++ rest = r.header.encode ++ ((r.key ++ r.value) ++ rest) := by
    rw [WalRecord.encode, List.append_assoc, List.append_assoc, List.append_assoc]
  have hlen : (r.key ++ r.value).length = r.key.length + r.value.length := List.length_append
  have hfits : ¬ ((r.key ++ r.value) ++ rest).length < r.key.length + r.value.length := by
    rw [List.length_append, hlen]
    omega
  have htake : ((r.key ++ r.value) ++ rest).take (r.key.length + r.value.length)
      = r.key ++ r.value := List.take_left' hlen
  have hdrop : ((r.key ++ r.value) ++ rest).drop (r.key.length + r.value.length) = rest :=
    List.drop_left' hlen
  have hkey : ((r.key ++ r.value) ++ rest).take r.key.length = r.key := by
    rw [List.append_assoc, List.take_left]
  have hvalue : (((r.key ++ r.value) ++ rest).drop r.key.length).take r.value.length = r.value := by
    rw [List.append_assoc, List.drop_left, List.take_left]
  rw [hbody, readRecord_header h, if_neg hfits, htake, hdrop, hkey, hvalue, h.crc,
    ← List.append_assoc]
  exact if_neg (not_not.mpr rfl)

/-- A record that is cut short ends the loop. -/
theorem readRecord_cut (h : r.Valid crc32) {n : Nat} (hn : n < r.encode.length) :
    readRecord crc32 path (r.encode.take n) = .stop := by
  rw [WalRecord.length_encode] at hn
  by_cases hhead : n < kHeaderSize
  · refine readRecord_short ?_
    rw [List.length_take]
    omega
  · have hsplit : r.encode.take n
        = r.header.encode ++ (r.key ++ r.value).take (n - kHeaderSize) := by
      rw [WalRecord.encode, List.append_assoc, List.take_append, length_encode_header,
        List.take_of_length_le (by rw [length_encode_header]; omega)]
    have hlt : ((r.key ++ r.value).take (n - kHeaderSize)).length
        < r.key.length + r.value.length := by
      rw [List.length_take, List.length_append]
      omega
    rw [hsplit, readRecord_header h, if_pos hlt]

variable (crc32 path) in
/-- WAL records in one file as a stream of frames. -/
def walFraming : Framing WalRecord Status UInt8 where
  valid r := r.Valid crc32
  encode := WalRecord.encode
  next := readRecord crc32 path
  next_encode _ h rest := readRecord_encode h rest
  next_cut _ h _ hn := readRecord_cut h hn
  next_nil := readRecord_short (by decide)
  encode_ne_nil r h := by
    have := congrArg List.length h
    rw [WalRecord.length_encode] at this
    exact absurd this (by simp [kHeaderSize])

end Framing

/-- Encoded records cut off anywhere. -/
theorem take_records {crc32 : Bytes → UInt32} (path : String) {rs : List WalRecord}
    (hv : ∀ r ∈ rs, r.Valid crc32) (n : Nat) :
    ∃ tail, (encodeAll WalRecord.encode rs).take n
        = encodeAll WalRecord.encode (fitting WalRecord.encode n rs) ++ tail ∧
      readRecord crc32 path tail = .stop :=
  (walFraming crc32 path).take_encodeAll hv n

/-! ## §2. `Recover` by the records it reads. -/

theorem readRecord_shorter {crc32 : Bytes → UInt32} {path : String} {file rest : Bytes}
    {r : WalRecord} (h : readRecord crc32 path file = .frame r rest) :
    rest.length < file.length := by
  by_cases hshort : file.length < kHeaderSize
  · rw [readRecord_short hshort] at h
    exact nomatch h
  · have hlen : (file.take kHeaderSize).length = kHeaderSize := by
      rw [List.length_take]
      omega
    rw [← List.take_append_drop kHeaderSize file, readRecord_eq hlen] at h
    simp only at h
    split at h
    · exact nomatch h
    · split at h
      · exact nomatch h
      · split at h
        · exact nomatch h
        · injection h with _ hrest
          have hk : kHeaderSize = 29 := rfl
          rw [← hrest, List.length_drop, List.length_drop]
          omega

theorem readRecord_bad {crc32 : Bytes → UInt32} {path : String} {file : Bytes} {s : Status}
    (h : readRecord crc32 path file = .bad s) : s.code = .corruption := by
  unfold readRecord at h
  simp only at h
  split at h
  · exact nomatch h
  · split at h
    · injection h with h
      rw [← h]
      rfl
    · split at h
      · exact nomatch h
      · split at h
        · injection h with h
          rw [← h]
          rfl
        · exact nomatch h

namespace WriteAheadLog

/-- The largest sequence number so far, after one more record. -/
def maxSequence (maxSeq : UInt64) (r : WalRecord) : UInt64 :=
  if r.header.sequenceNumber > maxSeq then r.header.sequenceNumber else maxSeq

section Recover

variable {σ : Type} (env : Env) (callback : σ → WalRecordHeader → Bytes → Bytes → Option σ)

/-- The callback on a list of records. -/
def replay (s : σ) (rs : List WalRecord) : Option σ :=
  rs.foldlM (fun s r => callback s r.header r.key r.value) s

theorem replay_append (s : σ) (rs ss : List WalRecord) :
    replay callback s (rs ++ ss) = (replay callback s rs).bind (fun s => replay callback s ss) := by
  rw [replay, List.foldlM_append]
  rfl

theorem recoverFile_eq (path : String) :
    ∀ (fuel : Nat) (file : Bytes) (maxSeq : UInt64) (s : σ), file.length < fuel →
      recoverFile env callback path fuel file maxSeq s
        = (let r := readAll (readRecord env.crc32 path) fuel file
          (replay callback s r.1).map
            (fun s => (r.2.getD .okStatus, r.1.foldl maxSequence maxSeq, s))) := by
  intro fuel
  induction fuel with
  | zero => intro file _ _ h; exact absurd h (Nat.not_lt_zero _)
  | succ fuel ih =>
      intro file maxSeq s hfuel
      cases hread : readRecord env.crc32 path file with
      | stop => simp [recoverFile, readAll, hread, replay]
      | bad status => simp [recoverFile, readAll, hread, replay]
      | frame r rest =>
          have hrest := readRecord_shorter hread
          have hlt : rest.length < fuel := by omega
          simp only [recoverFile, readAll, hread, replay, List.foldlM_cons, List.foldl_cons,
            Option.bind_eq_bind]
          cases callback s r.header r.key r.value with
          | none => rfl
          | some s' => exact ih rest _ s' hlt

/-- Reading on, unless there was an error. -/
def andThen (r rest : List WalRecord × Option Status) : List WalRecord × Option Status :=
  match r.2 with
  | some status => (r.1, some status)
  | none => (r.1 ++ rest.1, rest.2)

/-- The records `Recover` reads from the files, and the error that ends it. -/
def recordsOf (crc32 : Bytes → UInt32) (options : WalOptions) :
    List (Nat × File) → List WalRecord × Option Status
  | [] => ([], none)
  | (n, f) :: files =>
      andThen (readAll (readRecord crc32 (filePath options n)) (f.content.length + 1) f.content)
        (recordsOf crc32 options files)

theorem read_error {crc32 : Bytes → UInt32} {path : String} :
    ∀ {fuel : Nat} {file : Bytes} {s : Status},
      (readAll (readRecord crc32 path) fuel file).2 = some s → s.code = .corruption := by
  intro fuel
  induction fuel with
  | zero => intro file s h; cases h
  | succ fuel ih =>
      intro file s h
      cases hread : readRecord crc32 path file with
      | stop =>
          rw [readAll, hread] at h
          cases h
      | bad status =>
          rw [readAll, hread] at h
          injection h with h
          exact h ▸ readRecord_bad hread
      | frame r rest =>
          rw [readAll, hread] at h
          exact ih h

theorem recordsOf_error {crc32 : Bytes → UInt32} {options : WalOptions} :
    ∀ {files : List (Nat × File)} {s : Status},
      (recordsOf crc32 options files).2 = some s → s.code = .corruption := by
  intro files
  induction files with
  | nil => intro s h; exact nomatch h
  | cons e files ih =>
      intro s h
      rw [recordsOf, andThen] at h
      split at h
      next status hstatus =>
        injection h with h
        exact h ▸ read_error hstatus
      next => exact ih h

theorem ok_of_error {o : Option Status} (h : ∀ s, o = some s → s.code = .corruption) :
    (o.getD .okStatus).ok = o.isNone := by
  cases o with
  | none => rfl
  | some s => simp [Status.ok, h s rfl]

/-- The files that open; the first is opened by request `i`. -/
def opened (env : Env) : Nat → List (Nat × File) → List (Nat × File)
  | _, [] => []
  | i, e :: files =>
      if (env.answer i).ok then e :: opened env (i + 1) files else opened env (i + 1) files

variable {env} in
theorem opened_of_ok :
    ∀ {files : List (Nat × File)} {i : Nat},
      (∀ j, i ≤ j → j < i + files.length → (env.answer j).ok = true) →
      opened env i files = files := by
  intro files
  induction files with
  | nil => exact fun _ => rfl
  | cons e files ih =>
      intro i hok
      rw [List.length_cons] at hok
      unfold opened
      rw [if_pos (hok i (Nat.le_refl _) (by omega)),
        ih (fun j hlow hhigh => hok j (Nat.le_of_succ_le hlow) (by omega))]

variable {env} in
theorem opened_of_fine (hok : ∀ i, (env.answer i).ok = true) (files : List (Nat × File)) (i : Nat) :
    opened env i files = files := opened_of_ok (fun j _ _ => hok j)

theorem recoverFiles_eq (options : WalOptions) :
    ∀ (files : List (Nat × File)) (d : Disk) (maxSeq : UInt64) (s : σ),
      ∃ requests, recoverFiles env callback options files d maxSeq s
        = (let r := recordsOf env.crc32 options (opened env d.requests files)
          (replay callback s r.1).map
            (fun s => (r.2.getD .okStatus, r.1.foldl maxSequence maxSeq, s,
              { d with requests }))) := by
  intro files
  induction files with
  | nil => exact fun d maxSeq s => ⟨d.requests, rfl⟩
  | cons e files ih =>
      obtain ⟨n, f⟩ := e
      intro d maxSeq s
      have hask : (d.ask env).1.ok = (env.answer d.requests).ok := rfl
      cases hopen : (env.answer d.requests).ok with
      | false =>
          -- the file is skipped
          obtain ⟨requests, hfiles⟩ := ih (d.ask env).2 maxSeq s
          refine ⟨requests, ?_⟩
          simp only [recoverFiles, hask, hopen, opened, Bool.not_false, if_true,
            Bool.false_eq_true, if_false]
          exact hfiles
      | true =>
          have hloop := recoverFile_eq env callback (filePath options n) (f.content.length + 1)
            f.content maxSeq s (Nat.lt_succ_self _)
          simp only at hloop
          cases herr : (readAll (readRecord env.crc32 (filePath options n)) (f.content.length + 1)
              f.content).2 with
          | some status =>
              have hbad : status.ok = false := by
                simp [Status.ok, read_error herr]
              refine ⟨d.requests + 1, ?_⟩
              simp only [recoverFiles, hask, hopen, hloop, herr, opened, recordsOf, andThen,
                Bool.not_true, Bool.false_eq_true, if_false, if_true, Option.bind_eq_bind]
              cases replay callback s _ with
              | none => rfl
              | some s' =>
                  simp only [Option.map_some, Option.bind_some, Option.getD_some, hbad,
                    Bool.not_false, if_true]
                  rfl
          | none =>
              cases hrep : replay callback s (readAll (readRecord env.crc32 (filePath options n))
                  (f.content.length + 1) f.content).1 with
              | none =>
                  refine ⟨0, ?_⟩
                  simp only [recoverFiles, hask, hopen, hloop, herr, hrep, opened, recordsOf,
                    andThen, Bool.not_true, Bool.false_eq_true, if_false, if_true,
                    Option.bind_eq_bind, Option.map_none, Option.bind_none, replay_append]
              | some s' =>
                  obtain ⟨requests, hfiles⟩ := ih (d.ask env).2
                    ((readAll (readRecord env.crc32 (filePath options n)) (f.content.length + 1)
                      f.content).1.foldl maxSequence maxSeq) s'
                  refine ⟨requests, ?_⟩
                  simp only [recoverFiles, hask, hopen, hloop, herr, hrep, opened, recordsOf,
                    andThen, Bool.not_true, Bool.false_eq_true, if_false, if_true,
                    Option.bind_eq_bind, Option.map_some, Option.bind_some, Option.getD_none,
                    Status.ok_okStatus, replay_append, hfiles, List.foldl_append]
                  rfl

/-- The records `Recover` would read now, and the error that would end it. -/
def onDisk (env : Env) (w : WriteAheadLog) : List WalRecord × Option Status :=
  recordsOf env.crc32 w.options (opened env w.disk.requests w.disk.files.entries)

/-- **`Recover` is the callback on the records on disk**, in order. -/
theorem recover_onDisk (w : WriteAheadLog) (s : σ) :
    ∃ requests, w.recover env callback s
      = (let r := w.onDisk env
        (replay callback s r.1).map
          (fun s => (r.2.getD .okStatus,
            if r.2.isNone then some (r.1.foldl maxSequence 0) else none,
            s, { w with disk := { w.disk with requests } }))) := by
  obtain ⟨requests, h⟩ := recoverFiles_eq env callback w.options w.disk.files.entries w.disk 0 s
  refine ⟨requests, ?_⟩
  simp only at h
  have herr := ok_of_error (@recordsOf_error env.crc32 w.options
    (opened env w.disk.requests w.disk.files.entries))
  simp only [recover, h, onDisk, Option.bind_eq_bind]
  cases replay callback s _ with
  | none => rfl
  | some s' =>
      simp only [Option.map_some, Option.bind_some, herr]
      rfl

variable {env} in
/-- No request fails: all files are read. -/
theorem recover_eq (hok : ∀ i, (env.answer i).ok = true) (w : WriteAheadLog) (s : σ) :
    ∃ requests, w.recover env callback s
      = (let r := recordsOf env.crc32 w.options w.disk.files.entries
        (replay callback s r.1).map
          (fun s => (r.2.getD .okStatus,
            if r.2.isNone then some (r.1.foldl maxSequence 0) else none,
            s, { w with disk := { w.disk with requests } }))) := by
  obtain ⟨requests, h⟩ := recover_onDisk env callback w s
  rw [onDisk, opened_of_fine hok] at h
  exact ⟨requests, h⟩

end Recover

/-- **`Recover` reports an error exactly if the loop meets one in some file.** -/
theorem recordsOf_fails (crc32 : Bytes → UInt32) (options : WalOptions) :
    ∀ files : List (Nat × File), (recordsOf crc32 options files).2.isSome = true ↔
      ∃ e ∈ files, Fails (readRecord crc32 (filePath options e.1)) e.2.content := by
  intro files
  induction files with
  | nil => exact ⟨fun h => (nomatch h), fun ⟨_, h, _⟩ => (nomatch h)⟩
  | cons e files ih =>
      have hshorter := @readRecord_shorter crc32 (filePath options e.1)
      have hfile := readAll_fails hshorter (e.2.content.length + 1) e.2.content
        (Nat.lt_succ_self _)
      rw [List.exists_mem_cons_iff, ← ih, ← hfile, recordsOf, andThen]
      split
      next status hstatus =>
        rw [hstatus]
        exact ⟨fun _ => Or.inl rfl, fun _ => rfl⟩
      next hstatus =>
        rw [hstatus]
        exact ⟨Or.inr, fun h => h.resolve_left (fun h => nomatch h)⟩

/-! ## §3. Directories of encoded records. -/

/-- The records in a file and what follows the last of them. -/
structure Segment where
  number : Nat
  records : List WalRecord
  tail : Bytes := []

/-- Valid records, and a tail that ends the loop of `Recover`. -/
structure Segment.Ok (crc32 : Bytes → UInt32) (options : WalOptions) (g : Segment) : Prop where
  valid : ∀ r ∈ g.records, r.Valid crc32
  stops : readRecord crc32 (filePath options g.number) g.tail = .stop

def Segment.content (g : Segment) : Bytes := encodeAll WalRecord.encode g.records ++ g.tail

/-- The files hold these segments. -/
def Segments (files : List (Nat × File)) (gs : List Segment) : Prop :=
  files.map (fun e => (e.1, e.2.content)) = gs.map (fun g => (g.number, g.content))

theorem Segments.append {files files' : List (Nat × File)} {gs gs' : List Segment}
    (h : Segments files gs) (h' : Segments files' gs') :
    Segments (files ++ files') (gs ++ gs') := by
  rw [Segments, List.map_append, List.map_append, h, h']

theorem segments_singleton {f : File} {g : Segment} (h : f.content = g.content) :
    Segments [(g.number, f)] [g] := by
  rw [Segments, List.map_singleton, List.map_singleton, h]

section Read

variable {crc32 : Bytes → UInt32} {options : WalOptions}

/-- The loop on a file of valid records that ends in some way. -/
theorem recordsOf_cons {n : Nat} {f : File} {rs : List WalRecord} {tail : Bytes}
    {error : Option Status} (hf : f.content = encodeAll WalRecord.encode rs ++ tail)
    (hv : ∀ r ∈ rs, r.Valid crc32)
    (ht : readRecord crc32 (filePath options n) tail = .ended error) (files : List (Nat × File)) :
    recordsOf crc32 options ((n, f) :: files)
      = andThen (rs, error) (recordsOf crc32 options files) := by
  have hread : readAll (readRecord crc32 (filePath options n))
      ((encodeAll WalRecord.encode rs ++ tail).length + 1) (encodeAll WalRecord.encode rs ++ tail)
      = (rs, error) :=
    (walFraming crc32 (filePath options n)).readAll_encodeAll hv ht (Nat.lt_succ_self _)
  rw [recordsOf, hf, hread]

/-- **All records of all segments are read**, in order; then the files that
follow. -/
theorem recordsOf_segments :
    ∀ {files : List (Nat × File)} {gs : List Segment}, Segments files gs →
      (∀ g ∈ gs, g.Ok crc32 options) → ∀ more : List (Nat × File),
      recordsOf crc32 options (files ++ more)
        = (gs.flatMap Segment.records ++ (recordsOf crc32 options more).1,
            (recordsOf crc32 options more).2) := by
  intro files
  induction files with
  | nil =>
      intro gs h _ more
      cases gs with
      | nil => rfl
      | cons g gs => exact nomatch h
  | cons e files ih =>
      intro gs h hok more
      cases gs with
      | nil => exact nomatch h
      | cons g gs =>
          obtain ⟨n, f⟩ := e
          obtain ⟨hhead, htail⟩ := List.cons.inj h
          obtain ⟨rfl, hcontent⟩ := Prod.mk.inj hhead
          have hg := hok g List.mem_cons_self
          have hends : readRecord crc32 (filePath options g.number) g.tail = .ended none := hg.stops
          rw [List.cons_append, recordsOf_cons hcontent hg.valid hends,
            ih htail (fun q hq => hok q (List.mem_cons_of_mem _ hq)), List.flatMap_cons,
            List.append_assoc, andThen]

theorem recordsOf_all {files : List (Nat × File)} {gs : List Segment} (h : Segments files gs)
    (hok : ∀ g ∈ gs, g.Ok crc32 options) :
    recordsOf crc32 options files = (gs.flatMap Segment.records, none) := by
  have := recordsOf_segments h hok []
  rwa [List.append_nil, recordsOf, List.append_nil] at this

end Read

end WriteAheadLog

end KvEngine
