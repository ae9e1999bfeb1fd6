/-
  KvEngine.Wal.Limits
  ───────────────────
  **The writer's limit on keys and values, and the reader's.**

  `WriteRecord` accepts keys and values of up to 2³² − 1 bytes; `Recover`
  reports corruption at a field of more than 256 MiB.  `Kept` says of a log
  whose failing requests hand nothing over (`Env.AllOrNothing`) that its files
  hold the beginnings of what was written to them, so that records within the
  reader's limit are read back or found cut short (`Legible`), never corrupt.
  While no request fails, one record beyond the limit makes `Recover` report
  corruption.

  A flush that fails halfway is another matter: the stream keeps its whole
  buffer and hands it over again when it is closed, so the file goes on in the
  middle of a record with that record's beginning.
-/
import KvEngine.Wal.FileSizes

namespace KvEngine

open Lib

namespace OFStream

variable {env : Env} {s : OFStream} {d : Disk} {closed : List (Nat × File)} {n : Nat} {f : File}

/-- The last file with what the stream keeps for it is the beginning of
`total`. -/
def CarriesPart (s : OFStream) (d : Disk) (closed : List (Nat × File)) (n : Nat)
    (total : Bytes) : Prop :=
  ∃ f, s.file = some n ∧ d.files.entries = closed ++ [(n, f)] ∧ f.content ++ s.pending <+: total

theorem Carries.part {total : Bytes} (h : Carries s d closed n total f) (hg : s.good = true) :
    CarriesPart s d closed n total :=
  ⟨f, h.file, h.entries, h.bytes hg ▸ List.prefix_refl _⟩

/-- A write that fails, and hands nothing over, leaves the stream what it had. -/
theorem write_part (henv : env.AllOrNothing) (hs : s.file = some n) (hg : s.good = true)
    (hd : d.files.entries = closed ++ [(n, f)]) (bytes : Bytes) :
    CarriesPart (s.write env bytes d).1 (s.write env bytes d).2 closed n
      (f.content ++ s.pending ++ bytes) := by
  obtain ⟨f', hc⟩ := write_spec env hs hg hd bytes
  cases hok : (env.answer d.requests).ok with
  | true => exact hc.part ((good_write env hg bytes).1.trans hok)
  | false =>
      have hans : (d.ask env).1.ok = false := hok
      have hmoved : (d.ask env).1.moved = 0 := henv _ hok
      simp only [write, hg, hans, hmoved, if_true, Bool.false_eq_true, if_false, List.take_zero]
      refine ⟨_, hs, deliver_last hs (d := (d.ask env).2) hd _, ?_⟩
      rw [List.append_nil]
      exact List.prefix_append _ _

theorem flush_part (henv : env.AllOrNothing) (hs : s.file = some n) (hg : s.good = true)
    (hd : d.files.entries = closed ++ [(n, f)]) :
    CarriesPart (s.flush env d).1 (s.flush env d).2 closed n (f.content ++ s.pending) := by
  obtain ⟨f', hc⟩ := flush_spec env hs hg hd
  cases hok : (env.answer d.requests).ok with
  | true => exact hc.part ((good_flush env hg).1.trans hok)
  | false =>
      have hans : (d.ask env).1.ok = false := hok
      have hmoved : (d.ask env).1.moved = 0 := henv _ hok
      simp only [flush, hg, hans, hmoved, if_true, Bool.false_eq_true, if_false, List.take_zero]
      refine ⟨_, hs, deliver_last hs (d := (d.ask env).2) hd _, ?_⟩
      rw [List.append_nil]

end OFStream

namespace WriteAheadLog

variable {env : Env} {w w' : WriteAheadLog} {closed : List (Nat × File)} {f : File}
  {cur cur' : Bytes}

/-! ## §1. Beginnings. -/

/-- The current file, with what its stream keeps, is the beginning of `cur`. -/
def Begins (w : WriteAheadLog) (closed : List (Nat × File)) (cur : Bytes) : Prop :=
  ∀ f, w.currentFile.file = some w.currentFileNumber →
    w.disk.files.entries = closed ++ [(w.currentFileNumber, f)] →
    f.content ++ w.currentFile.pending <+: cur

/-- `Holds`, and what a bad stream leaves of `cur`. -/
structure Kept (w : WriteAheadLog) (closed : List (Nat × File)) (cur : Bytes) : Prop where
  holds : Holds w closed cur
  begins : Begins w closed cur

theorem begins_of_part
    (h : w.currentFile.CarriesPart w.disk closed w.currentFileNumber cur) :
    Begins w closed cur := by
  obtain ⟨f, -, hentries, hpre⟩ := h
  intro f' _ hentries'
  obtain rfl : f' = f := (Prod.mk.inj (List.singleton_inj.mp
    (List.append_cancel_left (hentries'.symm.trans hentries)))).2
  exact hpre

theorem Writing.part (h : Writing w closed f cur) :
    w.currentFile.CarriesPart w.disk closed w.currentFileNumber cur :=
  ⟨f, h.isOpen, h.entries, h.bytes ▸ List.prefix_append _ _⟩

theorem Writing.kept (h : Writing w closed f cur) : Kept w closed cur :=
  ⟨h.holds, begins_of_part h.part⟩

/-- A stream that was just opened is good. -/
theorem Holds.kept (h : Holds w closed cur)
    (hgood : w.currentFile.isOpen = true → w.currentFile.good = true) : Kept w closed cur := by
  refine ⟨h, fun f hopen hentries => ?_⟩
  obtain ⟨f', hw⟩ := h.good (hgood (by simp [OFStream.isOpen, hopen]))
  exact hw.kept.begins f hopen hentries

/-- An operation that takes a beginning from a good stream, and leaves a bad
one alone. -/
theorem Kept.step (h : Kept w closed cur) (hholds : Holds w' closed cur')
    (hgood : ∀ f, Writing w closed f cur → w.currentFile.good = true →
      w'.currentFile.CarriesPart w'.disk closed w'.currentFileNumber cur')
    (hbad : w.currentFile.good = false → w'.currentFile = w.currentFile ∧
      w'.disk.files = w.disk.files ∧ w'.currentFileNumber = w.currentFileNumber)
    (hcur : cur <+: cur') : Kept w' closed cur' := by
  cases hg : w.currentFile.good with
  | true =>
      obtain ⟨f, hw⟩ := h.holds.good hg
      exact ⟨hholds, begins_of_part (hgood f hw hg)⟩
  | false =>
      obtain ⟨hfile, hdisk, hnumber⟩ := hbad hg
      refine ⟨hholds, fun f hopen hentries => ?_⟩
      rw [hfile, hnumber] at hopen
      rw [hdisk, hnumber] at hentries
      rw [hfile]
      exact (h.begins f hopen hentries).trans hcur

theorem flushBuffer_bad (h : w.currentFile.good = false) :
    (w.flushBuffer env).currentFile = w.currentFile ∧
      (w.flushBuffer env).disk = w.disk := by
  unfold flushBuffer
  split
  · simp only [OFStream.write_bad h, and_self]
  · exact ⟨rfl, rfl⟩

theorem Kept.flushBuffer (henv : env.AllOrNothing) (h : Kept w closed cur) :
    Kept (w.flushBuffer env) closed cur := by
  refine h.step (h.holds.flushBuffer env) (fun f hw hg => ?_)
    (fun hg => ⟨(flushBuffer_bad hg).1, by rw [(flushBuffer_bad hg).2],
      flushBuffer_currentFileNumber⟩) (List.prefix_refl _)
  by_cases hb : w.buffer = []
  · rw [flushBuffer_of_nil hb]
    exact hw.part
  · rw [flushBuffer_eq hw.isOpen hb, ← hw.bytes]
    exact OFStream.write_part henv hw.isOpen hg hw.entries w.buffer

theorem Kept.withBytes (h : Kept w closed cur) (bytes : Bytes) :
    Kept (w.withBytes bytes) closed (cur ++ bytes) := by
  refine h.step (h.holds.withBytes bytes) (fun f hw _ => ?_)
    (fun _ => ⟨rfl, rfl, rfl⟩) (List.prefix_append _ _)
  obtain ⟨f', hopen, hentries, hpre⟩ := hw.part
  exact ⟨f', hopen, hentries, hpre.trans (List.prefix_append _ _)⟩

theorem Kept.flushStream (henv : env.AllOrNothing) (h : Kept w closed cur) :
    Kept (w.flushStream env) closed cur := by
  refine h.step (h.holds.flushStream env) (fun f hw hg => ?_) (fun hg => ?_) (List.prefix_refl _)
  · obtain ⟨f', hopen, hentries, hpre⟩ := OFStream.flush_part henv hw.isOpen hg hw.entries
    exact ⟨f', hopen, hentries, hpre.trans (hw.bytes ▸ List.prefix_append _ _)⟩
  · rw [WriteAheadLog.flushStream, OFStream.flush_bad hg]
    exact ⟨rfl, rfl, rfl⟩

/-- **`Sync` moves bytes**, as far as it gets. -/
theorem Kept.sync (henv : env.AllOrNothing) (h : Kept w closed cur) :
    Kept (w.sync env).2 closed cur := by
  cases hopen : w.currentFile.isOpen with
  | false =>
      rw [sync_shut (by simpa [OFStream.isOpen] using hopen)]
      exact h
  | true =>
      have hflush := (h.flushBuffer henv).flushStream henv
      rw [sync_open (h.holds.isOpen hopen)]
      split
      next => exact hflush
      next hgood =>
        obtain ⟨f, hw⟩ := hflush.holds.good (by simpa using hgood)
        obtain ⟨f', -, hw', -⟩ := hw.syncFile env
        exact hw'.kept

theorem Kept.autoSync (henv : env.AllOrNothing) (h : Kept w closed cur) :
    Kept (w.autoSync env) closed cur := by
  unfold WriteAheadLog.autoSync
  split
  · exact (h.flushBuffer henv).sync henv
  · exact h

theorem Kept.bufferField (henv : env.AllOrNothing) {bytes : Bytes} (h : Kept w closed cur)
    (hrun : w.bufferField env bytes = some w') : Kept w' closed (cur ++ bytes) := by
  rw [bufferField_eq hrun]
  refine Kept.withBytes ?_ bytes
  unfold roomFor
  split
  · exact h.flushBuffer henv
  · exact h

/-- **A record enters the file whole, or as far as the stream took it.** -/
theorem Kept.appendRecord (henv : env.AllOrNothing) {type : WalRecordType} {key value : Bytes}
    {seq : UInt64} (h : Kept w closed cur)
    (hrun : w.appendRecord env type key value seq = some w') :
    Kept w' closed (cur ++ (w.nextRecord env type key value seq).encode) := by
  obtain ⟨w₁, hrec, rfl⟩ := Option.map_eq_some_iff.mp hrun
  obtain ⟨w₂, w₃, h₁, h₂, h₃⟩ := bufferRecord_split hrec
  have hask : Kept { w with disk := (w.disk.ask env).2 } closed cur :=
    ⟨h.holds.asked rfl, h.begins⟩
  have hkept := ((hask.bufferField henv h₁).bufferField henv h₂).bufferField henv h₃
  rw [List.append_assoc, List.append_assoc, ← List.append_assoc (WalRecordHeader.encode _)] at hkept
  exact ⟨(h.holds.appendRecord hrun).1, hkept.begins⟩

/-! ## §2. Opening and closing files. -/

theorem openNewLogFile_good (h : (w.openNewLogFile env).currentFile.isOpen = true) :
    (w.openNewLogFile env).currentFile.good = true := by
  unfold openNewLogFile OFStream.openAppend at h ⊢
  simp only at h ⊢
  split
  · rfl
  next hfails =>
    rw [if_neg hfails] at h
    exact absurd h (by simp [OFStream.isOpen])

/-- A rotation closes a file with the beginning of `cur` in it; with no file
open, `cur` is still in the buffer. -/
theorem Kept.rotate (henv : env.AllOrNothing) (h : Kept w closed cur) :
    (∃ f', Kept (w.rotateLog env).2 (closed ++ [(w.currentFileNumber, f')]) [] ∧
      f'.content <+: cur) ∨ Kept (w.rotateLog env).2 closed cur := by
  cases hopen : w.currentFile.isOpen with
  | true =>
      have hfile := h.holds.isOpen hopen
      obtain ⟨f, hd⟩ := h.holds.entries hopen
      obtain ⟨f', hop, -, -, -, f₁, hf₁, hpart⟩ := rotateLog_open env cur hfile hd
      refine Or.inl ⟨f', hop.holds.kept openNewLogFile_good, hpart.trans ?_⟩
      refine (h.flushBuffer henv).begins f₁ ?_ ?_
      · rw [flushBuffer_isOpen, hfile, flushBuffer_currentFileNumber]
      · rw [hf₁, flushBuffer_currentFileNumber]
  | false =>
      cases h.holds with
      | writing f h _ => exact absurd hopen (by simp [OFStream.isOpen, h.isOpen])
      | broken f isOpen => exact absurd hopen (by simp [OFStream.isOpen, isOpen])
      | absent shut bad entries last bytes =>
          have hop := (rotateLog_shut env shut (entries ▸ last)).1
          rw [entries, bytes] at hop
          exact Or.inr (hop.holds.kept openNewLogFile_good)

theorem kept_new (env : Env) (options : WalOptions) {d : Disk} (hd : d.files.entries = []) :
    Kept (new env options d) [] [] :=
  (new_empty env options hd).1.holds.kept openNewLogFile_good

/-- Opening a directory leaves its files as they are; one it creates is empty. -/
theorem mem_new (options : WalOptions) (d : Disk) {e : Nat × File}
    (he : e ∈ (new env options d).disk.files.entries) : e ∈ d.files.entries ∨ e.2.content = [] := by
  rw [new, openNewLogFile_eq rfl] at he
  unfold OFStream.openAppend at he
  simp only at he
  split at he
  · split at he
    · rcases (mem_insertEntry d.files.sorted e).mp he with rfl | ⟨he, -⟩
      · exact Or.inr rfl
      · exact Or.inl he
    · exact Or.inl he
  · exact Or.inl he

/-- **Closing a log** leaves the beginning of `cur` in its current file. -/
theorem Kept.destroy (henv : env.AllOrNothing) (h : Kept w closed cur) :
    ∀ e ∈ (w.destroy env).files.entries, e ∈ closed ∨ e.2.content <+: cur := by
  cases hopen : w.currentFile.isOpen with
  | true =>
      have hflush := h.flushBuffer henv
      have hfile₁ : (w.flushBuffer env).currentFile.file
          = some (w.flushBuffer env).currentFileNumber := by
        rw [flushBuffer_isOpen, h.holds.isOpen hopen, flushBuffer_currentFileNumber]
      obtain ⟨f₁, hd₁⟩ := hflush.holds.entries (by rw [OFStream.isOpen, hfile₁]; rfl)
      obtain ⟨f', hd', -, -, hpart⟩ := OFStream.close_spec env hfile₁ hd₁
      intro e he
      rw [WriteAheadLog.destroy, if_pos hopen, closeFile_open hfile₁] at he
      rw [hd'] at he
      rcases List.mem_append.mp he with he | he
      · exact Or.inl he
      · rw [List.mem_singleton.mp he]
        exact Or.inr (hpart.trans (hflush.begins f₁ hfile₁ hd₁))
  | false =>
      intro e he
      rw [WriteAheadLog.destroy, if_neg (by simp [hopen])] at he
      cases h.holds with
      | writing f h _ => exact absurd hopen (by simp [OFStream.isOpen, h.isOpen])
      | broken f isOpen => exact absurd hopen (by simp [OFStream.isOpen, isOpen])
      | absent _ _ entries => exact Or.inl (entries ▸ he)

/-! ## §3. What can be read back. -/

/-- The beginning of valid records. -/
def Legible (crc32 : Bytes → UInt32) (bytes : Bytes) : Prop :=
  ∃ rs : List WalRecord, (∀ r ∈ rs, r.Valid crc32) ∧ bytes <+: batchBytes rs

theorem legible_nil (crc32 : Bytes → UInt32) : Legible crc32 [] := ⟨[], by simp, List.nil_prefix⟩

theorem Legible.not_fails {crc32 : Bytes → UInt32} {bytes : Bytes} (h : Legible crc32 bytes)
    (path : String) : ¬ Fails (readRecord crc32 path) bytes := by
  obtain ⟨rs, hv, hpre⟩ := h
  exact (walFraming crc32 path).not_fails_of_cut hv hpre

/-- Every file holds the beginning of valid records. -/
def Readable (env : Env) (w : WriteAheadLog) : Prop :=
  ∃ closed cur, Kept w closed (batchBytes cur) ∧ (∀ r ∈ cur, r.Valid env.crc32) ∧
    ∀ e ∈ closed, Legible env.crc32 e.2.content

theorem readable_new (env : Env) (options : WalOptions) : Readable env (new env options {}) :=
  ⟨[], [], kept_new env options rfl, by simp, by simp⟩

theorem Readable.rotate (henv : env.AllOrNothing) (h : Readable env w) :
    Readable env (w.rotateLog env).2 := by
  obtain ⟨closed, cur, hkept, hv, hclosed⟩ := h
  rcases hkept.rotate henv with ⟨f', hkept', hpre⟩ | hkept'
  · refine ⟨_, [], hkept', by simp, fun e he => ?_⟩
    rcases List.mem_append.mp he with he | he
    · exact hclosed e he
    · rw [List.mem_singleton.mp he]
      exact ⟨cur, hv, hpre⟩
  · exact ⟨closed, cur, hkept', hv, hclosed⟩

/-- **A record within the reader's limit** leaves the log readable, also if its
bytes stay behind. -/
theorem Readable.write (henv : env.AllOrNothing) (h : Readable env w) {type : WalRecordType}
    {key value : Bytes} {seq : UInt64} {s : Status}
    (hsize : key.length ≤ uint32Max → value.length ≤ uint32Max →
      key.length ≤ kMaxFieldSize.toNat ∧ value.length ≤ kMaxFieldSize.toNat)
    (hrun : w.writeRecord env type key value seq = some (s, w')) : Readable env w' := by
  by_cases hlarge : key.length > uint32Max ∨ value.length > uint32Max
  · rw [writeRecord_large hlarge] at hrun
    obtain ⟨-, rfl⟩ := Prod.mk.inj (Option.some.inj hrun)
    exact h
  · rw [writeRecord_eq hlarge] at hrun
    obtain ⟨w₁, happend, heq⟩ := Option.map_eq_some_iff.mp hrun
    obtain ⟨-, rfl⟩ := Prod.mk.inj heq
    have hrot : Readable env (w.rotated env key value) := by
      unfold rotated
      split
      · exact h.rotate henv
      · exact h
    obtain ⟨closed, cur, hkept, hv, hclosed⟩ := hrot
    have hkept' := (hkept.appendRecord henv happend).autoSync henv
    rw [← batchBytes_snoc] at hkept'
    obtain ⟨hk, hval⟩ := hsize (by omega) (by omega)
    refine ⟨closed, _, hkept', fun r hr => ?_, hclosed⟩
    rcases List.mem_append.mp hr with hr | hr
    · exact hv r hr
    · rw [List.mem_singleton.mp hr]
      rw [kMaxFieldSize_toNat] at hk hval
      exact WalRecord.make_valid _ _ _ _ hk hval

end WriteAheadLog

/-- The reader takes what the writer takes: a record is refused, or its key and
value are at most 256 MiB long. -/
def WalOp.Readable : WalOp → Prop
  | .write _ key value _ =>
      key.length ≤ WriteAheadLog.uint32Max → value.length ≤ WriteAheadLog.uint32Max →
        key.length ≤ kMaxFieldSize.toNat ∧ value.length ≤ kMaxFieldSize.toNat
  | _ => True

namespace WriteAheadLog

variable {env : Env} {w w' : WriteAheadLog}

theorem Readable.apply (henv : env.AllOrNothing) (h : Readable env w) {op : WalOp} {s : Status}
    (hop : op.Readable) (hrun : w.apply env op = some (s, w')) : Readable env w' := by
  cases op with
  | write type key value seq => exact h.write henv hop hrun
  | rotate =>
      obtain ⟨-, rfl⟩ := Prod.mk.inj (Option.some.inj hrun)
      exact h.rotate henv
  | flush =>
      obtain ⟨-, rfl⟩ := Prod.mk.inj (Option.some.inj hrun)
      obtain ⟨closed, cur, hkept, hrest⟩ := h
      exact ⟨closed, cur, hkept.flushBuffer henv, hrest⟩
  | sync =>
      obtain ⟨-, rfl⟩ := Prod.mk.inj (Option.some.inj hrun)
      obtain ⟨closed, cur, hkept, hrest⟩ := h
      exact ⟨closed, cur, hkept.sync henv, hrest⟩

theorem Readable.run (henv : env.AllOrNothing) {ops : List WalOp} {outs : List Status}
    (h : Readable env w) (hops : ∀ op ∈ ops, op.Readable)
    (hrun : run? (WriteAheadLog.apply env) w ops = some (outs, w')) : Readable env w' :=
  run?_invariant (fun _ _ _ _ hop h hstep => h.apply henv (hops _ hop) hstep) h hrun

/-- The files a closed log leaves, and those that are there once it is opened
again. -/
theorem Readable.reopened (henv : env.AllOrNothing) (h : Readable env w) (options : WalOptions) :
    ∀ e ∈ (new env options (w.destroy env)).disk.files.entries,
      Legible env.crc32 e.2.content := by
  obtain ⟨closed, cur, hkept, hv, hclosed⟩ := h
  intro e he
  rcases mem_new options _ he with he | hnil
  · rcases hkept.destroy henv e he with he | hpre
    · exact hclosed e he
    · exact ⟨cur, hv, hpre⟩
  · rw [hnil]
    exact legible_nil _

/-! ## §4. A record beyond the limit. -/

/-- The record's key and value are within the reader's limit. -/
def Within (r : WalRecord) : Prop :=
  r.key.length ≤ kMaxFieldSize.toNat ∧ r.value.length ≤ kMaxFieldSize.toNat

theorem Made.valid {crc32 : Bytes → UInt32} {r : WalRecord} (h : Made crc32 r) (hr : Within r) :
    r.Valid crc32 := by
  obtain ⟨type, seq, time, hmake, -⟩ := h
  rw [hmake]
  exact WalRecord.make_valid _ _ _ _ (kMaxFieldSize_toNat ▸ hr.1) (kMaxFieldSize_toNat ▸ hr.2)

theorem readRecord_oversize {crc32 : Bytes → UInt32} {path : String} {r : WalRecord}
    (h : Made crc32 r) (hr : ¬ Within r) (rest : Bytes) :
    readRecord crc32 path (r.encode ++ rest)
      = .bad (.corruption "WAL record contains an invalid field size") := by
  obtain ⟨type, seq, time, hmake, hk, hv⟩ := h
  have hkey : r.header.keySize.toNat = r.key.length := by
    rw [hmake]
    exact UInt32.toNat_ofNat_of_lt' (Nat.lt_succ_of_le hk)
  have hvalue : r.header.valueSize.toNat = r.value.length := by
    rw [hmake]
    exact UInt32.toNat_ofNat_of_lt' (Nat.lt_succ_of_le hv)
  have hsizes : r.header.keySize > kMaxFieldSize ∨ r.header.valueSize > kMaxFieldSize := by
    rw [gt_iff_lt, gt_iff_lt, UInt32.lt_iff_toNat_lt, UInt32.lt_iff_toNat_lt, hkey, hvalue]
    unfold Within at hr
    omega
  rw [WalRecord.encode, List.append_assoc, List.append_assoc,
    readRecord_eq (length_encode_header _)]
  simp only [parse_encode, if_pos hsizes]

/-- **One record beyond the limit** makes the reader fail. -/
theorem fails_batchBytes {crc32 : Bytes → UInt32} (path : String) {rs : List WalRecord}
    (hmade : ∀ r ∈ rs, Made crc32 r) (h : ∃ r ∈ rs, ¬ Within r) :
    Fails (readRecord crc32 path) (batchBytes rs) := by
  induction rs with
  | nil =>
      obtain ⟨r, hr, -⟩ := h
      exact absurd hr (by simp)
  | cons r rs ih =>
      rw [batchBytes, encodeAll_cons]
      by_cases hr : Within r
      · refine .later (readRecord_encode ((hmade r List.mem_cons_self).valid hr) _) ?_
        obtain ⟨q, hq, hwide⟩ := h
        rcases List.mem_cons.mp hq with rfl | hq
        · exact absurd hr hwide
        · exact ih (fun q hq => hmade q (List.mem_cons_of_mem _ hq)) ⟨q, hq, hwide⟩
      · exact .bad (readRecord_oversize (hmade r List.mem_cons_self) hr _)

/-- The files of a log that was closed and opened again. -/
theorem Whole.reopened {batches : List (List WalRecord)} {cur : List WalRecord}
    (h : Whole env w batches cur) (hok : env.Fine) (options : WalOptions) :
    (new env options (w.destroy env)).disk.files.entries.map (fun e => e.2.content)
      = (batches ++ [cur]).map batchBytes := by
  obtain ⟨closed, f, hentries, hclosed, hcontent⟩ := h.destroy hok
  obtain ⟨hw, -, -, -, -⟩ := new_last options hentries (hok (w.destroy env).requests)
  rw [hw.entries, List.map_append, List.map_append, hclosed, List.map_singleton,
    List.map_singleton, hcontent]

/-! ## §5. `Recover` on a log that was flushed and closed. -/

theorem mem_opened {e : Nat × File} :
    ∀ {files : List (Nat × File)} {i : Nat}, e ∈ opened env i files → e ∈ files := by
  intro files
  induction files with
  | nil => exact fun h => h
  | cons d files ih =>
      intro i h
      rw [opened] at h
      split at h
      · rcases List.mem_cons.mp h with rfl | h
        · exact List.mem_cons_self
        · exact List.mem_cons_of_mem _ (ih h)
      · exact List.mem_cons_of_mem _ (ih h)

/-- **`Recover` returns Corruption** exactly if the reader fails on a file that
opens. -/
theorem recover_corruption {σ : Type}
    {callback : σ → WalRecordHeader → Bytes → Bytes → Option σ} {s s' : σ} {status : Status}
    {m : Option UInt64} (h : w.recover env callback s = some (status, m, s', w')) :
    status.code = .corruption ↔ ∃ e ∈ opened env w.disk.requests w.disk.files.entries,
      Fails (readRecord env.crc32 (filePath w.options e.1)) e.2.content := by
  obtain ⟨requests, hrec⟩ := recover_onDisk env callback w s
  rw [← recordsOf_fails]
  simp only [h, onDisk] at hrec
  obtain ⟨s₁, -, heq⟩ := Option.map_eq_some_iff.mp hrec.symm
  obtain ⟨rfl, -⟩ := Prod.mk.inj heq
  cases herr : (recordsOf env.crc32 w.options
      (opened env w.disk.requests w.disk.files.entries)).2 with
  | none => exact ⟨fun h => absurd h (by decide), fun h => absurd h (by simp)⟩
  | some status => exact ⟨fun _ => rfl, fun _ => recordsOf_error herr⟩

/-- The calls of a session without a reopening. -/
theorem steps_of_run :
    ∀ {ops : List WalOp} {w w' : WriteAheadLog} {outs : List Status},
      run? (WriteAheadLog.apply env) w ops = some (outs, w') →
      steps (WriteAheadLog.session env) w (ops.map SessionOp.call) = some w' := by
  intro ops
  induction ops with
  | nil =>
      intro w w' outs hrun
      obtain ⟨-, rfl⟩ := Prod.mk.inj (Option.some.inj hrun)
      rfl
  | cons op ops ih =>
      intro w w' outs hrun
      obtain ⟨s, w₁, outs', hstep, hrest, -⟩ := run?_cons.mp hrun
      rw [List.map_cons, steps_cons, session, hstep]
      exact ih hrest

/-- While no request fails, a record beyond the limit is found corrupt. -/
theorem recover_oversize (hok : env.Fine) {options reopened : WalOptions} {ops : List WalOp}
    {outs : List Status}
    (hrun : run? (WriteAheadLog.apply env) (new env options {}) ops = some (outs, w))
    {σ : Type} {callback : σ → WalRecordHeader → Bytes → Bytes → Option σ} {s s' : σ}
    {status : Status} {m : Option UInt64}
    (hrec : (new env reopened (w.destroy env)).recover env callback s = some (status, m, s', w'))
    (h : ¬ ∀ op ∈ ops, op.Readable) : status.code = .corruption := by
  obtain ⟨batches, cur, rs, hw, -, hflat, hfields⟩ :=
    Whole.run hok _ (whole_new options rfl hok).1 (steps_of_run hrun)
  rw [List.nil_append, List.flatten_singleton, List.nil_append] at hflat
  -- the record, and the file it is in
  obtain ⟨r, hr, hwide⟩ : ∃ r ∈ rs, ¬ Within r := by
    obtain ⟨op, hop, hlarge⟩ := not_forall₂.mp h
    cases op with
    | write type key value seq =>
        have hsmall : ¬ (key.length > uint32Max ∨ value.length > uint32Max) := by
          unfold WalOp.Readable at hlarge
          omega
        have haccepted : (type, seq, key, value) ∈ (ops.map SessionOp.call).filterMap
            SessionOp.accepted := by
          rw [List.filterMap_map]
          exact List.mem_filterMap.mpr ⟨_, hop, if_neg hsmall⟩
        rw [← hfields] at haccepted
        obtain ⟨r, hr, heq⟩ := List.mem_map.mp haccepted
        obtain ⟨-, -, rfl, rfl⟩ : _ ∧ _ ∧ r.key = key ∧ r.value = value := by
          simpa [WalRecord.fields] using heq
        exact ⟨r, hr, fun hin => hlarge (fun _ _ => hin)⟩
    | rotate => exact absurd trivial hlarge
    | flush => exact absurd trivial hlarge
    | sync => exact absurd trivial hlarge
  rw [← hflat] at hr
  obtain ⟨batch, hbatch, hr⟩ := List.mem_flatten.mp hr
  have hcontent := List.mem_map_of_mem (f := batchBytes) hbatch
  rw [← hw.reopened hok reopened] at hcontent
  obtain ⟨e, he, hcontent⟩ := List.mem_map.mp hcontent
  refine (recover_corruption hrec).mpr ⟨e, ?_, ?_⟩
  · rw [opened_of_fine hok]
    exact he
  · rw [hcontent]
    exact fails_batchBytes _ (fun q hq => hw.made q (List.mem_flatten.mpr ⟨_, hbatch, hq⟩))
      ⟨r, hr, hwide⟩

/-- **`Recover` accepts what `WriteRecord` accepts**, up to the reader's limit.
While no request fails, a log is not found corrupt once it is closed exactly if
all its records are within the limit; and that is enough also if requests fail,
as long as none fails halfway. -/
theorem recover_accepts (env : Env) (options reopened : WalOptions) (ops : List WalOp)
    {outs : List Status} {w w' : WriteAheadLog}
    (hrun : run? (WriteAheadLog.apply env) (new env options {}) ops = some (outs, w))
    {σ : Type} (callback : σ → WalRecordHeader → Bytes → Bytes → Option σ) {s s' : σ}
    {status : Status} {m : Option UInt64}
    (hrec : (new env reopened (w.destroy env)).recover env callback s
      = some (status, m, s', w')) :
    (env.Fine → (status.code ≠ .corruption ↔ ∀ op ∈ ops, op.Readable)) ∧
      (env.AllOrNothing → (∀ op ∈ ops, op.Readable) → status.code ≠ .corruption) := by
  have hread : env.AllOrNothing → (∀ op ∈ ops, op.Readable) → status.code ≠ .corruption := by
    intro henv hops hcorrupt
    obtain ⟨e, he, hfails⟩ := (recover_corruption hrec).mp hcorrupt
    exact (((readable_new env options).run henv hops hrun).reopened henv reopened e
      (mem_opened he)).not_fails _ hfails
  refine ⟨fun hok => ⟨fun hstatus => ?_, hread hok.allOrNothing⟩, hread⟩
  by_contra hlarge
  exact hstatus (recover_oversize hok hrun hrec hlarge)

theorem recover_collect (env : Env) (w : WriteAheadLog) (rs : List WalRecord) :
    ∃ status m rs' w', w.recover env collect rs = some (status, m, rs', w') := by
  obtain ⟨requests, h⟩ := recover_onDisk env collect w rs
  simp only [replay_collect, Option.map_some] at h
  exact ⟨_, _, _, _, h⟩

/-- Two records, the second of them empty. -/
theorem recover_accepts_two :
    ∃ outs w status m rs w',
      run? (WriteAheadLog.apply .undisturbed) (new .undisturbed {} {})
        [.write .kPut [1] [2] 1, .write .kCommitTransaction [] [] 2] = some (outs, w) ∧
      (new .undisturbed {} (w.destroy .undisturbed)).recover .undisturbed collect []
        = some (status, m, rs, w') ∧ status.code ≠ .corruption := by
  have hdefined : (run? (WriteAheadLog.apply .undisturbed) (new .undisturbed {} {})
      [.write .kPut [1] [2] 1, .write .kCommitTransaction [] [] 2]).isSome = true := by
    decide +kernel
  obtain ⟨⟨outs, w⟩, hrun⟩ := Option.isSome_iff_exists.mp hdefined
  obtain ⟨status, m, rs, w', hrec⟩ := recover_collect .undisturbed
    (new .undisturbed {} (w.destroy .undisturbed)) []
  refine ⟨outs, w, status, m, rs, w', hrun, hrec, ?_⟩
  refine ((recover_accepts .undisturbed {} {} _ hrun collect hrec).1 Env.fine_undisturbed).mpr ?_
  simp [WalOp.Readable, kMaxFieldSize_toNat]

/-- A stream's flush that fails after ten of 31 bytes: closing the log hands over all
of them, and the file is found corrupt. -/
example : ((run? (WriteAheadLog.apply .halfway) (new .halfway { syncOnWrite := false } {})
    [.write .kPut [1] [2] 1, .sync]).bind fun r =>
      ((new .halfway {} (r.2.destroy .halfway)).recover .halfway collect []).map (·.1.code))
      = some .corruption := by
  decide +kernel

/-- A key of 256 MiB and one byte, in files and with a buffer that hold it. -/
theorem recover_accepts_long : ¬ ∀ (env : Env) (options : WalOptions) (ops : List WalOp)
    (outs : List Status) (w : WriteAheadLog), env.Fine →
    run? (WriteAheadLog.apply env) (new env options {}) ops = some (outs, w) →
    (∀ s ∈ outs, s = .okStatus) →
    ∀ status m rs w', (new env options (w.destroy env)).recover env collect []
      = some (status, m, rs, w') → status.code ≠ .corruption := by
  intro hall
  obtain ⟨key, hkey⟩ : ∃ key : Bytes, key.length = 2 ^ 28 + 1 :=
    ⟨List.replicate (2 ^ 28 + 1) 0, List.length_replicate⟩
  have hok := Env.fine_undisturbed
  have hsmall : ¬ (key.length > uint32Max ∨ ([] : Bytes).length > uint32Max) := by
    rw [hkey]
    decide
  obtain ⟨hnew, hoptions⟩ := whole_new { bufferSize := 2 ^ 29 } (d := {}) rfl hok
  -- The record is accepted.
  obtain ⟨batches, cur, hrot, -, hoptions', -⟩ := hnew.rotated hok key []
  obtain ⟨closed, f, hw, -⟩ := hrot.writing
  have hcap : ((new .undisturbed { bufferSize := 2 ^ 29 } {}).rotated .undisturbed key
      []).bufferCapacity = 2 ^ 29 := by
    rw [bufferCapacity, hoptions', hoptions]
    rfl
  obtain ⟨w₁, happend⟩ : ∃ w₁, ((new .undisturbed { bufferSize := 2 ^ 29 } {}).rotated .undisturbed
      key []).appendRecord .undisturbed .kPut key [] 1 = some w₁ :=
    appendRecord_isSome .undisturbed .kPut 1 hw.isOpen (by rw [hcap]; decide) (by omega)
      (Nat.zero_le _)
  have hrun : run? (WriteAheadLog.apply .undisturbed)
      (new .undisturbed { bufferSize := 2 ^ 29 } {}) [.write .kPut key [] 1]
      = some ([.okStatus], w₁.autoSync .undisturbed) := by
    refine run?_cons.mpr ⟨.okStatus, _, [], ?_, rfl, rfl⟩
    rw [WriteAheadLog.apply, writeRecord_eq hsmall, happend]
    rfl
  obtain ⟨status, m, rs, w', hrec⟩ := recover_collect .undisturbed
    (new .undisturbed { bufferSize := 2 ^ 29 }
      ((w₁.autoSync .undisturbed).destroy .undisturbed)) []
  refine hall _ _ _ _ _ hok hrun (by simp) _ _ _ _ hrec (recover_oversize hok hrun hrec ?_)
  intro hread
  have hlarge := (hread _ List.mem_cons_self (hkey ▸ by decide) (Nat.zero_le _)).1
  rw [hkey, kMaxFieldSize_toNat] at hlarge
  omega

end WriteAheadLog

end KvEngine
