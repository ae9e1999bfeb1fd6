/-
  KvEngine.Wal.Settled
  ────────────────────
  **What `Recover` would find once the log is closed**, while no request on
  the stream fails and whatever the directory held when the log was opened.

  `settled` are the files with everything that is on its way to the current
  one; `stored` is what `Recover` reads from them.  Opening, flushing,
  syncing and closing keep it; a record that is written adds itself at the
  end, if nothing in the files is corrupt and the record does not end up
  behind a torn one.
-/
import KvEngine.Wal.Decode
import KvEngine.Wal.Ledger

namespace KvEngine

open Lib

namespace WriteAheadLog

/-! ## §1. Reading lists of files. -/

section Files

variable {crc32 : Bytes → UInt32} {options : WalOptions}

theorem andThen_assoc (a b c : List WalRecord × Option Status) :
    andThen (andThen a b) c = andThen a (andThen b c) := by
  obtain ⟨as, ea⟩ := a
  obtain ⟨bs, eb⟩ := b
  unfold andThen
  cases ea with
  | some s => rfl
  | none =>
      cases eb with
      | some s => rfl
      | none => simp only [List.append_assoc]

theorem recordsOf_append (files more : List (Nat × File)) :
    recordsOf crc32 options (files ++ more)
      = andThen (recordsOf crc32 options files) (recordsOf crc32 options more) := by
  induction files with
  | nil =>
      unfold recordsOf andThen
      rw [List.nil_append, List.nil_append]
  | cons e files ih =>
      rw [List.cons_append, recordsOf, ih, recordsOf, andThen_assoc]

/-- Only names and contents are read. -/
theorem recordsOf_congr :
    ∀ {files files' : List (Nat × File)},
      files.map (fun e => (e.1, e.2.content)) = files'.map (fun e => (e.1, e.2.content)) →
      recordsOf crc32 options files = recordsOf crc32 options files' := by
  intro files
  induction files with
  | nil =>
      intro files' h
      rw [List.map_nil] at h
      rw [List.map_eq_nil_iff.mp h.symm]
  | cons e files ih =>
      intro files' h
      cases files' with
      | nil => cases h
      | cons e' files' =>
          obtain ⟨n, f⟩ := e
          obtain ⟨n', f'⟩ := e'
          obtain ⟨hhead, htail⟩ := List.cons.inj h
          obtain ⟨rfl, hcontent⟩ := Prod.mk.inj hhead
          rw [recordsOf, recordsOf, ih htail, show f.content = f'.content from hcontent]

/-- A file of records, and nothing else. -/
theorem recordsOf_encoded (n : Nat) {f : File} {rs : List WalRecord}
    (hf : f.content = encodeAll WalRecord.encode rs) (hv : ∀ r ∈ rs, r.Valid crc32) :
    recordsOf crc32 options [(n, f)] = (rs, none) := by
  have hends : readRecord crc32 (filePath options n) [] = .ended none :=
    readRecord_short (by decide)
  rw [recordsOf_cons (hf.trans (List.append_nil _).symm) hv hends, recordsOf, andThen,
    List.append_nil]

/-- The bytes are the records `rs`, and behind them at most one that is torn, with no
whole record anywhere in it. -/
structure HoldsRecords (crc32 : Bytes → UInt32) (bytes : Bytes) (rs : List WalRecord) : Prop where
  valid : ∀ r ∈ rs, r.Valid crc32
  torn : ∃ (r : WalRecord) (n : Nat), r.Valid crc32 ∧ n < r.encode.length ∧
    bytes = encodeAll WalRecord.encode rs ++ r.encode.take n ∧
    ∀ q : WalRecord, q.Valid crc32 → ¬ q.encode <:+: r.encode.take n

theorem holdsRecords_encoded {rs : List WalRecord} (hv : ∀ r ∈ rs, r.Valid crc32) (hrs : rs ≠ []) :
    HoldsRecords crc32 (encodeAll WalRecord.encode rs) rs := by
  obtain ⟨r, hr⟩ := List.exists_mem_of_ne_nil rs hrs
  refine ⟨hv, r, 0, hv r hr, ?_, ?_, fun q _ hin => ?_⟩
  · exact List.length_pos_iff.mpr ((walFraming crc32 "").encode_ne_nil r)
  · rw [List.take_zero, List.append_nil]
  · rw [List.take_zero, List.infix_nil] at hin
    exact (walFraming crc32 "").encode_ne_nil q hin

theorem HoldsRecords.recordsOf {f : File} {rs : List WalRecord} (n : Nat)
    (h : HoldsRecords crc32 f.content rs) (files : List (Nat × File)) :
    WriteAheadLog.recordsOf crc32 options ((n, f) :: files)
      = andThen (rs, none) (WriteAheadLog.recordsOf crc32 options files) := by
  obtain ⟨r, k, hr, hk, hcontent, -⟩ := h.torn
  have hends : readRecord crc32 (filePath options n) (r.encode.take k) = .ended none :=
    readRecord_cut hr hk
  exact recordsOf_cons hcontent h.valid hends files

/-- Files of records are read to the end, -/
theorem recordsOf_intact {files : List (Nat × File)}
    (h : ∀ e ∈ files, ∃ rs, HoldsRecords crc32 e.2.content rs) :
    (recordsOf crc32 options files).2 = none := by
  induction files with
  | nil => rfl
  | cons e files ih =>
      obtain ⟨n, f⟩ := e
      obtain ⟨rs, hrs⟩ := h _ List.mem_cons_self
      rw [hrs.recordsOf n]
      exact ih (fun e he => h e (List.mem_cons_of_mem _ he))

/-- and all their records are found. -/
theorem mem_recordsOf {files : List (Nat × File)} (h : (recordsOf crc32 options files).2 = none)
    {e : Nat × File} (he : e ∈ files) {rs : List WalRecord}
    (hrs : HoldsRecords crc32 e.2.content rs) {r : WalRecord} (hr : r ∈ rs) :
    r ∈ (recordsOf crc32 options files).1 := by
  induction files with
  | nil => cases he
  | cons e' files ih =>
      obtain ⟨n, f⟩ := e'
      rcases List.mem_cons.mp he with rfl | he
      · rw [hrs.recordsOf n]
        exact List.mem_append_left _ hr
      · rw [recordsOf] at h ⊢
        unfold andThen at h ⊢
        split at h
        next => cases h
        next hnone =>
          exact List.mem_append_right _ (ih h he)

theorem recordsOf_empty (n : Nat) : recordsOf crc32 options [(n, { content := [] })] = ([], none) :=
  recordsOf_encoded n (show ([] : Bytes) = encodeAll WalRecord.encode [] from rfl) (by simp)

end Files

/-! ## §2. The settled log. -/

variable {env : Env} {options : WalOptions} {w w' : WriteAheadLog} {closed : List (Nat × File)}
  {f : File} {cur : Bytes}

/-- The files once everything on its way to the current one has arrived. -/
def settled (w : WriteAheadLog) : List (Nat × File) :=
  w.disk.files.entries.map (fun e => (e.1,
    if e.1 = w.currentFileNumber then
      { e.2 with content := e.2.content ++ w.currentFile.pending ++ w.buffer }
    else e.2))

/-- What `Recover` would read then. -/
def stored (env : Env) (w : WriteAheadLog) : List WalRecord × Option Status :=
  recordsOf env.crc32 w.options w.settled

/-- The current file will hold complete records and nothing behind them. -/
def Aligned (env : Env) (w : WriteAheadLog) : Prop :=
  ∀ e ∈ w.settled, e.1 = w.currentFileNumber →
    ∃ rs : List WalRecord, (∀ r ∈ rs, r.Valid env.crc32) ∧
      e.2.content = encodeAll WalRecord.encode rs

theorem Writing.settled_eq (h : Writing w closed f cur) :
    w.settled = closed ++ [(w.currentFileNumber, { f with content := cur })] := by
  have hlt := Disk.closed_lt h.entries
  unfold settled
  rw [h.entries, List.map_append, List.map_singleton, if_pos rfl, h.bytes]
  congr 1
  refine (List.map_congr_left (fun e he => ?_)).trans (List.map_id closed)
  rw [if_neg (Nat.ne_of_lt (hlt e he))]
  rfl

theorem Writing.stored_eq (h : Writing w closed f cur) :
    w.stored env = andThen (recordsOf env.crc32 w.options closed)
      (recordsOf env.crc32 w.options [(w.currentFileNumber, { content := cur })]) := by
  unfold stored
  rw [h.settled_eq, recordsOf_append]
  congr 1

/-- The stream is open and good, on the last file of the directory. -/
def Live (options : WalOptions) (w : WriteAheadLog) : Prop :=
  w.currentFile.good = true ∧ w.options = options ∧ ∃ closed f cur, Writing w closed f cur

/-- A call that only moves bytes, and leaves the stream good. -/
theorem Live.moved (h : Live options w) (hsame : Same env w w')
    (hgood' : w'.currentFile.good = true)
    (hholds : ∀ closed cur, Holds w closed cur → Holds w' closed cur) :
    Live options w' ∧ w'.stored env = w.stored env := by
  obtain ⟨hgood, hoptions, closed, f, cur, hw⟩ := h
  obtain ⟨f', hw'⟩ := (hholds _ _ hw.holds).good hgood'
  refine ⟨⟨hgood', hsame.options.trans hoptions, closed, f', cur, hw'⟩, ?_⟩
  rw [hw'.stored_eq, hw.stored_eq, hsame.options, hsame.number]

theorem Live.flush (h : Live options w)
    (hok : env.Ok w.disk.requests (w.flushBuffer env).disk.requests) :
    Live options (w.flush env).2 ∧ (w.flush env).2.stored env = w.stored env := by
  obtain ⟨hgood, -, closed, f, cur, hw⟩ := id h
  exact h.moved (Same.flushBuffer env w) (flushBuffer_good hw.isOpen hgood hok)
    (fun _ _ hw => hw.flushBuffer env)

theorem Live.sync (h : Live options w) (hok : Flushes env w) :
    Live options (w.sync env).2 ∧ (w.sync env).2.stored env = w.stored env := by
  obtain ⟨hgood, -, closed, f, cur, hw⟩ := id h
  exact h.moved (hw.holds.sync env).2.1 (hw.good_sync hgood hok) (fun _ _ hw => (hw.sync env).1)

/-- Requests that touch no file. -/
theorem Live.asked (env : Env) (h : Live options w) (requests : Nat) :
    Live options { w with disk := { w.disk with requests } } ∧
      stored env { w with disk := { w.disk with requests } } = w.stored env := by
  obtain ⟨hgood, hoptions, closed, f, cur, hw⟩ := h
  exact ⟨⟨hgood, hoptions, closed, f, cur, hw.isOpen, hw.entries, hw.bytes⟩, rfl⟩

/-- **Opening**: the log stores what the directory holds. -/
theorem new_live (options : WalOptions) (d : Disk) (hok : (env.answer d.requests).ok = true) :
    Live options (new env options d) ∧
      (new env options d).stored env = recordsOf env.crc32 options d.files.entries := by
  rcases List.eq_nil_or_concat' d.files.entries with hd | ⟨closed, ⟨n, f⟩, hd⟩
  · obtain ⟨f, hw, hgood, hoptions, -, -⟩ := writing_new_empty options hd hok
    refine ⟨⟨hgood, hoptions, [], f, [], hw⟩, ?_⟩
    rw [hw.stored_eq, hd, recordsOf_empty]
    rfl
  · obtain ⟨hw, hgood, hoptions, hnumber, -⟩ := new_last options hd hok
    refine ⟨⟨hgood, hoptions, closed, f, _, hw⟩, ?_⟩
    rw [hw.stored_eq, hd, recordsOf_append, hoptions, hnumber]
    congr 1

/-- **Closing**: the files hold what the log stores. -/
theorem Live.destroy (h : Live options w)
    (hok : env.Ok w.disk.requests (w.destroy env).requests) :
    recordsOf env.crc32 options (w.destroy env).files.entries = w.stored env := by
  obtain ⟨hgood, hoptions, closed, f, cur, hw⟩ := h
  obtain ⟨f', hentries, hcontent⟩ := hw.destroy hgood hok
  rw [hw.stored_eq, hentries, recordsOf_append, hoptions]
  congr 1
  exact recordsOf_congr (by rw [List.map_singleton, List.map_singleton, hcontent])

/-- The requests of opening a directory and reading it back: one for the file to be
written, and one for each file that is there by then. -/
def openingRequests (d : Disk) : Nat := 1 + max 1 d.files.entries.length

/-- What `Recover` reads right after opening. -/
theorem onDisk_new (options : WalOptions) (d : Disk)
    (hok : env.Ok d.requests (d.requests + openingRequests d)) :
    (new env options d).onDisk env = recordsOf env.crc32 options d.files.entries := by
  unfold openingRequests at hok
  have hfirst : (env.answer d.requests).ok = true := hok _ (Nat.le_refl _) (by omega)
  rw [onDisk, requests_new]
  rcases List.eq_nil_or_concat' d.files.entries with hd | ⟨closed, ⟨n, f⟩, hd⟩
  · obtain ⟨f, hw, -, -, -, hempty⟩ := writing_new_empty options hd hfirst
    have hcontent : f.content = encodeAll WalRecord.encode [] := hempty
    rw [hw.entries, List.nil_append, opened_of_ok (hok.mono (Nat.le_succ _) (by
      rw [List.length_singleton]
      omega)), hd, recordsOf_encoded _ hcontent (by simp)]
    rfl
  · obtain ⟨hw, -, hoptions, hnumber, -⟩ := new_last options hd hfirst
    rw [hw.entries, hnumber, hoptions, hd, opened_of_ok (hok.mono (Nat.le_succ _) (by
      rw [← hd]
      omega))]

/-! ## §3. Writing a record. -/

/-- Reading on behind files that end well. -/
theorem andThen_none {a b : List WalRecord × Option Status} (h : (andThen a b).2 = none) :
    a.2 = none ∧ b.2 = none := by
  unfold andThen at h
  split at h
  next => cases h
  next ha => exact ⟨ha, h⟩

/-- No request on the stream fails while a record is written: those of a rotation,
of the writes, and of the flush that `sync_on_write` adds.  The `fsync` may. -/
structure WritesThrough (env : Env) (w : WriteAheadLog) (type : WalRecordType)
    (key value : Bytes) (seq : UInt64) : Prop where
  rotation : env.Ok w.disk.requests (w.rotated env key value).disk.requests
  append : ∀ w₁, (w.rotated env key value).appendRecord env type key value seq = some w₁ →
    env.Ok (w.rotated env key value).disk.requests w₁.disk.requests ∧
      (w₁.options.syncOnWrite = true → Flushes env w₁)

theorem writesThrough_of_fine (hok : env.Fine) (w : WriteAheadLog) (type : WalRecordType)
    (key value : Bytes) (seq : UInt64) : WritesThrough env w type key value seq :=
  ⟨hok.ok _ _, fun _ _ => ⟨hok.ok _ _, fun _ => hok.ok _ _⟩⟩

/-- The log a record is appended to, after any rotation. -/
theorem Live.rotated (h : Live options w) {key value : Bytes}
    (hok : env.Ok w.disk.requests (w.rotated env key value).disk.requests) :
    ∃ closed f cur, Writing (w.rotated env key value) closed f cur ∧
      (w.rotated env key value).currentFile.good = true ∧
      (w.rotated env key value).options = options ∧
      ((w.stored env).2 = none → Aligned env w ∨ w.rotates key value →
        ∃ rs : List WalRecord, (∀ r ∈ rs, r.Valid env.crc32) ∧
          cur = encodeAll WalRecord.encode rs ∧
          andThen (recordsOf env.crc32 options closed) (rs, none) = w.stored env) := by
  obtain ⟨hgood, hoptions, closed, f, cur, hw⟩ := h
  have hstored := (hw.stored_eq : w.stored env = _)
  rw [hoptions] at hstored
  unfold WriteAheadLog.rotated at hok ⊢
  split
  next hr =>
    rw [if_pos hr] at hok
    obtain ⟨f', f'', hcontent, hw', hgood', hoptions', -⟩ := hw.rotate hgood hok
    refine ⟨_, f'', [], hw', hgood', hoptions'.trans hoptions,
      fun hnone _ => ⟨[], by simp, rfl, ?_⟩⟩
    -- the file left behind holds all that was on its way to it
    have hclosed : recordsOf env.crc32 options (closed ++ [(w.currentFileNumber, f')])
        = w.stored env := by
      rw [hstored, recordsOf_append]
      congr 1
      exact recordsOf_congr (by rw [List.map_singleton, List.map_singleton, hcontent])
    rw [hclosed]
    unfold andThen
    simp only [hnone, List.append_nil]
    rw [← hnone]
  next hstays =>
    refine ⟨closed, f, cur, hw, hgood, hoptions, fun _ hplace => ?_⟩
    have haligned := hplace.resolve_right hstays
    have hmem : (w.currentFileNumber, { f with content := cur }) ∈ w.settled := by
      rw [hw.settled_eq]
      exact List.mem_append_right _ List.mem_cons_self
    obtain ⟨rs, hvalid, hcur⟩ := haligned _ hmem rfl
    refine ⟨rs, hvalid, hcur, ?_⟩
    rw [hstored, recordsOf_encoded w.currentFileNumber
      (show ({ content := cur } : File).content = _ from hcur) hvalid]

/-- **A record that is written is stored**, behind all others. -/
theorem Live.write (h : Live options w) {type : WalRecordType} {key value : Bytes}
    {seq : UInt64} {s : Status} (hok : WritesThrough env w type key value seq)
    (hrun : w.writeRecord env type key value seq = some (s, w')) :
    Live options w' ∧ (s.ok = false → w'.stored env = w.stored env) ∧
      (s.ok = true → key.length ≤ 2 ^ 28 → value.length ≤ 2 ^ 28 → (w.stored env).2 = none →
        Aligned env w ∨ w.rotates key value →
        w'.stored env = ((w.stored env).1 ++ [w.loggedRecord env type key value seq], none)) := by
  by_cases hlarge : key.length > uint32Max ∨ value.length > uint32Max
  · rw [writeRecord_large hlarge] at hrun
    obtain ⟨rfl, rfl⟩ := Prod.mk.inj (Option.some.inj hrun)
    exact ⟨h, fun _ => rfl, fun hs => absurd hs (by simp)⟩
  · rw [writeRecord_eq hlarge] at hrun
    obtain ⟨w₁, happend, heq⟩ := Option.map_eq_some_iff.mp hrun
    obtain ⟨rfl, rfl⟩ := Prod.mk.inj heq
    -- Whatever the rotation did, the record lands behind `cur`.
    obtain ⟨closed, f, cur, hw, hgood, hoptions, hreads⟩ := h.rotated hok.rotation
    obtain ⟨⟨f', hw'⟩, hrec⟩ := hw.record hgood happend (hok.append _ happend).1
      (hok.append _ happend).2
    have hoptions' := hrec.options.trans hoptions
    refine ⟨⟨hrec.good, hoptions', closed, f', _, hw'⟩, fun hs => absurd hs (by simp),
      fun _ hkey hvalue hnone hplace => ?_⟩
    obtain ⟨rs, hvalid, hcur, hstored⟩ := hreads hnone hplace
    have hnew : (w.loggedRecord env type key value seq).Valid env.crc32 :=
      WalRecord.make_valid _ _ _ _ hkey hvalue
    -- The file then is a sequence of complete records with the new one last.
    have hcontent : cur ++ ((w.rotated env key value).nextRecord env type key value seq).encode
        = encodeAll WalRecord.encode (rs ++ [w.loggedRecord env type key value seq]) := by
      rw [hcur, encodeAll_append, encodeAll_singleton]
      rfl
    have hvalid' : ∀ r ∈ rs ++ [w.loggedRecord env type key value seq], r.Valid env.crc32 := by
      intro r hr
      rcases List.mem_append.mp hr with hr | hr
      · exact hvalid r hr
      · rw [List.mem_singleton.mp hr]
        exact hnew
    rw [hw'.stored_eq, hoptions', recordsOf_encoded _ hcontent hvalid', ← hstored]
    rw [← hstored] at hnone
    unfold andThen
    rw [(andThen_none hnone).1, List.append_assoc]

end WriteAheadLog

end KvEngine
