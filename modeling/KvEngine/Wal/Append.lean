/-
  KvEngine.Wal.Append
  ───────────────────
  `Sync`, `RotateLog`, `WriteRecord`, the constructor and the destructor in
  terms of `Holds`: where the bytes of the log are after each of them,
  whatever the operating system answers, and when the stream stays good.
-/
import KvEngine.Wal.Writing

namespace KvEngine

open Lib

namespace WriteAheadLog

variable {env : Env} {w : WriteAheadLog} {closed : List (Nat × File)} {f : File} {cur : Bytes}

/-! ## §1. `Sync`. -/

/-- The stream's own flush inside `Sync`. -/
def flushStream (env : Env) (w : WriteAheadLog) : WriteAheadLog :=
  { w with
    currentFile := (w.currentFile.flush env w.disk).1
    disk := (w.currentFile.flush env w.disk).2 }

/-- What `Sync` does after the flush: open the file and `fsync` it. -/
def syncFile (env : Env) (w : WriteAheadLog) : Status × WriteAheadLog :=
  let (a, disk) := w.disk.ask env
  let w := { w with disk }
  match a.ok, disk.file w.currentFileNumber with
  | true, some f =>
      let (a, disk) := disk.ask env
      if a.ok then
        (.okStatus, { w with
          disk := disk.setFile w.currentFileNumber { f with synced := f.content.length }
          totalSyncs := w.totalSyncs + 1 })
      else (.ioError "Failed to sync WAL to disk", { w with disk })
  | _, _ => (.ioError "Failed to open WAL for durable sync", w)

theorem sync_shut (h : w.currentFile.file = none) :
    w.sync env = (.ioError "WAL file is not open", w) := by
  simp [sync, OFStream.isOpen, h]

theorem sync_open (h : w.currentFile.file = some w.currentFileNumber) :
    w.sync env = (if !((w.flushBuffer env).flushStream env).currentFile.good then
      (.ioError "Failed to flush WAL", (w.flushBuffer env).flushStream env)
    else ((w.flushBuffer env).flushStream env).syncFile env) := by
  have hopen : w.currentFile.isOpen = true := by simp [OFStream.isOpen, h]
  simp only [sync, hopen, Bool.not_true, Bool.false_eq_true, if_false]
  rfl

theorem requests_le_flush (s : OFStream) (d : Disk) : d.requests ≤ (s.flush env d).2.requests := by
  cases hg : s.good with
  | true => rw [(OFStream.good_flush env hg).2.2]; exact Nat.le_succ _
  | false => rw [OFStream.flush_bad hg]

theorem Same.flushStream (env : Env) (w : WriteAheadLog) : Same env w (w.flushStream env) where
  options := rfl
  number := rfl
  size := rfl
  file := by
    show (w.currentFile.flush env w.disk).1.file = _
    unfold OFStream.flush
    split
    · simp only []
      split <;> rfl
    · rfl
  requests := requests_le_flush _ _
  good _ hg hok := by
    obtain ⟨hgood, -, hreq⟩ := OFStream.good_flush env (d := w.disk) hg
    exact hgood.trans (hok _ (Nat.le_refl _) (hreq ▸ Nat.lt_succ_self _))

theorem Holds.flushStream (env : Env) (h : Holds w closed cur) :
    Holds (w.flushStream env) closed cur := by
  cases h with
  | writing f h good =>
      obtain ⟨f', hc⟩ := OFStream.flush_spec env h.isOpen good h.entries
      refine .carried hc.file hc.entries (fun hgood => ?_)
      rw [← h.bytes, ← hc.bytes hgood]
      rfl
  | broken f isOpen entries bad =>
      rw [WriteAheadLog.flushStream, OFStream.flush_bad bad]
      exact .broken f isOpen entries bad
  | absent shut bad entries last bytes =>
      rw [WriteAheadLog.flushStream, OFStream.flush_bad bad]
      exact .absent shut bad entries last bytes

/-- Opening the file again and syncing it leaves the stream alone. -/
theorem syncFile_currentFile (env : Env) (w : WriteAheadLog) :
    (w.syncFile env).2.currentFile = w.currentFile := by
  unfold syncFile
  simp only []
  split
  · split <;> rfl
  · rfl

/-- `fsync` covers all the current file holds. -/
theorem Writing.syncFile (env : Env) (h : Writing w closed f cur) :
    ∃ f', f'.content = f.content ∧ Writing (w.syncFile env).2 closed f' cur ∧
      (w.syncFile env).2.buffer = w.buffer ∧ Same env w (w.syncFile env).2 ∧
      ((w.syncFile env).1.ok = true → f'.synced = f.content.length) ∧
      (env.Ok w.disk.requests (w.syncFile env).2.disk.requests → (w.syncFile env).1.ok = true) := by
  have hfile : (w.disk.ask env).2.file w.currentFileNumber = some f :=
    Disk.file_last (d := (w.disk.ask env).2) h.entries
  have hsame : ∀ d : Disk, w.disk.requests ≤ d.requests → Same env w { w with disk := d } :=
    fun d hd => ⟨rfl, rfl, rfl, rfl, hd, fun _ hg _ => hg⟩
  -- Two requests: the descriptor is opened, then synced.
  by_cases hopen : (env.answer w.disk.requests).ok = true
  · have hopen' : (w.disk.ask env).1.ok = true := hopen
    by_cases hsync : (env.answer (w.disk.requests + 1)).ok = true
    · have hsync' : ((w.disk.ask env).2.ask env).1.ok = true := hsync
      simp only [WriteAheadLog.syncFile, hopen', hfile, hsync', if_true]
      refine ⟨{ f with synced := f.content.length }, rfl, ⟨h.isOpen, ?_, h.bytes⟩, trivial, ?_,
        fun _ => rfl, fun _ => rfl⟩
      · exact Disk.setFile_last (d := ((w.disk.ask env).2.ask env).2) h.entries _
      · exact ⟨rfl, rfl, rfl, rfl, Nat.le_add_right _ 2, fun _ hg _ => hg⟩
    · have hsync' : ((w.disk.ask env).2.ask env).1.ok = false := Bool.eq_false_iff.mpr hsync
      simp only [WriteAheadLog.syncFile, hopen', hfile, hsync', Bool.false_eq_true, if_false]
      refine ⟨f, rfl, ⟨h.isOpen, h.entries, h.bytes⟩, trivial, hsame _ (Nat.le_add_right _ 2),
        fun hs => absurd hs (by simp), fun hok => ?_⟩
      exact absurd (hok _ (Nat.le_succ _) (Nat.lt_succ_self _)) hsync
  · have hopen' : (w.disk.ask env).1.ok = false := Bool.eq_false_iff.mpr hopen
    simp only [WriteAheadLog.syncFile, hopen']
    refine ⟨f, rfl, ⟨h.isOpen, h.entries, h.bytes⟩, trivial, hsame _ (Nat.le_succ _),
      fun hs => absurd hs (by simp), fun hok => ?_⟩
    exact absurd (hok _ (Nat.le_refl _) (Nat.lt_succ_self _)) hopen

/-- All of `cur` is in the current file and covered by an `fsync`. -/
structure Durable (w : WriteAheadLog) (closed : List (Nat × File)) (cur : Bytes) : Prop where
  file : ∃ f, w.disk.files.entries = closed ++ [(w.currentFileNumber, f)] ∧
    f.content = cur ∧ f.synced = cur.length
  buffer : w.buffer = []
  pending : w.currentFile.pending = []
  good : w.currentFile.good = true

/-- **`Sync` that returns OK leaves every byte of the current file durable**;
one that fails changes no byte. -/
theorem Holds.sync (env : Env) (h : Holds w closed cur) :
    Holds (w.sync env).2 closed cur ∧ Same env w (w.sync env).2 ∧
      ((w.sync env).1.ok = true → Durable (w.sync env).2 closed cur) := by
  have hflush := (h.flushBuffer env).flushStream env
  have hsame := (Same.flushBuffer env w).trans (Same.flushStream env _)
  -- The log has its file open, in a good or a bad stream.
  have hopened : w.currentFile.file = some w.currentFileNumber →
      Holds (w.sync env).2 closed cur ∧ Same env w (w.sync env).2 ∧
        ((w.sync env).1.ok = true → Durable (w.sync env).2 closed cur) := by
    intro hopen
    rw [sync_open hopen]
    cases hg : ((w.flushBuffer env).flushStream env).currentFile.good with
    | false =>
        rw [Bool.not_false, if_pos rfl]
        exact ⟨hflush, hsame, fun hs => absurd hs (by simp)⟩
    | true =>
        obtain ⟨f, hw⟩ := hflush.good hg
        obtain ⟨f', hcontent, hw', hbuffer, hsame', hsynced, -⟩ := hw.syncFile env
        have hbuf : ((w.flushBuffer env).flushStream env).buffer = [] := flushBuffer_buffer hopen
        have hgood₁ : (w.flushBuffer env).currentFile.good = true := by
          cases hg₁ : (w.flushBuffer env).currentFile.good with
          | true => rfl
          | false =>
              rw [WriteAheadLog.flushStream, OFStream.flush_bad hg₁] at hg
              exact absurd (hg₁.symm.trans hg) (by simp)
        -- A stream still good after its flush has handed everything over.
        have hpending : ((w.flushBuffer env).flushStream env).currentFile.pending = [] :=
          (OFStream.good_flush env hgood₁).2.1 hg
        have hcur : f.content = cur := by
          have := hw.bytes
          rw [hbuf, hpending, List.append_nil, List.append_nil] at this
          exact this
        rw [Bool.not_true, if_neg Bool.false_ne_true]
        refine ⟨hw'.holds, hsame.trans hsame', fun hs => ⟨⟨f', hw'.entries, ?_, ?_⟩, ?_, ?_, ?_⟩⟩
        · rw [hcontent, hcur]
        · rw [hsynced hs, hcur]
        · rw [hbuffer, hbuf]
        · rw [syncFile_currentFile, hpending]
        · rw [syncFile_currentFile, hg]
  -- With no file open `Sync` refuses at once.
  cases h with
  | writing f h _ => exact hopened h.isOpen
  | broken _ isOpen => exact hopened isOpen
  | absent shut bad entries last bytes =>
      rw [sync_shut shut]
      exact ⟨.absent shut bad entries last bytes, Same.refl w, fun hs => absurd hs (by simp)⟩

/-- There is one status that is OK. -/
theorem sync_status (h : (w.sync env).1.ok = true) : (w.sync env).1 = .okStatus := by
  have hfile : ∀ u : WriteAheadLog, (u.syncFile env).1.ok = true →
      (u.syncFile env).1 = .okStatus := by
    intro u
    unfold WriteAheadLog.syncFile
    simp only []
    split
    · split
      · exact fun _ => rfl
      · exact fun hs => absurd hs (by simp)
    · exact fun hs => absurd hs (by simp)
  unfold sync at h ⊢
  simp only [] at h ⊢
  split at h
  next => exact absurd h (by simp)
  next hopen =>
    rw [if_neg hopen]
    split at h
    next => exact absurd h (by simp)
    next hgood =>
      rw [if_neg hgood]
      exact hfile ((w.flushBuffer env).flushStream env) h

/-- `Sync` succeeds on a good stream if its requests do. -/
theorem Writing.sync_ok (h : Writing w closed f cur) (hg : w.currentFile.good = true)
    (hok : env.Ok w.disk.requests (w.sync env).2.disk.requests) : (w.sync env).1.ok = true := by
  have hsame := (Same.flushBuffer env w).trans (Same.flushStream env _)
  rw [sync_open h.isOpen] at hok ⊢
  cases hgood : ((w.flushBuffer env).flushStream env).currentFile.good with
  | false =>
      rw [hgood, Bool.not_false, if_pos rfl] at hok
      exact absurd (hgood.symm.trans (hsame.good h.isOpen hg hok)) (by simp)
  | true =>
      obtain ⟨f', hw⟩ := ((h.holds.flushBuffer env).flushStream env).good hgood
      obtain ⟨-, -, -, -, -, -, hstatus⟩ := hw.syncFile env
      rw [hgood, Bool.not_true, if_neg Bool.false_ne_true] at hok
      rw [Bool.not_true, if_neg Bool.false_ne_true]
      exact hstatus (hok.mono hsame.requests (Nat.le_refl _))

/-! ## §2. Closing and opening files. -/

theorem closeFile_shut (h : w.currentFile.file = none) : w.closeFile env = w := by
  simp [closeFile, OFStream.isOpen, h]

theorem closeFile_open (h : w.currentFile.file = some w.currentFileNumber) :
    w.closeFile env = { w with
      currentFile := (w.currentFile.close env w.disk).1
      disk := (w.currentFile.close env w.disk).2 } := by
  simp [closeFile, OFStream.isOpen, h]

theorem requests_close (s : OFStream) (d : Disk) :
    (s.close env d).2.requests = d.requests + 1 := OFStream.requests_deliver s _ _

/-- The log after a file was opened: it is empty or continued, or no file
is open. -/
structure Opened (env : Env) (w w' : WriteAheadLog) (closed : List (Nat × File)) (cur : Bytes) :
    Prop where
  holds : Holds w' closed cur
  options : w'.options = w.options
  requests : w.disk.requests ≤ w'.disk.requests
  good : env.Ok w.disk.requests w'.disk.requests → w'.currentFile.good = true

theorem openNewLogFile_eq (h : w.currentFile.file = none) : w.openNewLogFile env = { w with
    currentFile := (OFStream.openAppend env w.currentFileNumber w.disk).1
    disk := (OFStream.openAppend env w.currentFileNumber w.disk).2
    currentFileSize := if (OFStream.openAppend env w.currentFileNumber w.disk).1.isOpen then
      (((OFStream.openAppend env w.currentFileNumber w.disk).2.file w.currentFileNumber).map
        (·.content.length)).getD 0 else 0 } := by
  rw [openNewLogFile, closeFile_shut h]

/-- A file behind all others. -/
theorem openNewLogFile_fresh (env : Env) (h : w.currentFile.file = none)
    (hd : ∀ e ∈ w.disk.files.entries, e.1 < w.currentFileNumber) :
    Opened env w (w.openNewLogFile env) w.disk.files.entries w.buffer ∧
      (w.openNewLogFile env).currentFileSize = 0 := by
  have hreq : (w.openNewLogFile env).disk.requests = w.disk.requests + 1 := by
    rw [openNewLogFile_eq h]
    exact OFStream.requests_open
  -- The one request is the open itself.
  cases hans : (env.answer w.disk.requests).ok with
  | true =>
      obtain ⟨hs, hentries⟩ := OFStream.open_fresh hd hans
      have hfile : (OFStream.openAppend env w.currentFileNumber w.disk).2.file w.currentFileNumber
          = some {} := Disk.file_last hentries
      refine ⟨⟨?_, ?_, by omega, ?_⟩, ?_⟩
      · rw [openNewLogFile_eq h, hs]
        exact .writing {} ⟨rfl, hentries, rfl⟩ rfl
      · rw [openNewLogFile_eq h]
      · rw [openNewLogFile_eq h, hs]
        exact fun _ => rfl
      · rw [openNewLogFile_eq h, hs, hfile]
        rfl
  | false =>
      have hs := OFStream.open_fails (n := w.currentFileNumber) hans
      refine ⟨⟨?_, ?_, by omega, fun hok => ?_⟩, ?_⟩
      · rw [openNewLogFile_eq h, hs]
        exact .absent rfl rfl rfl (fun e he => Nat.le_of_lt (hd e he)) rfl
      · rw [openNewLogFile_eq h]
      · exact absurd (hans.symm.trans (hok _ (Nat.le_refl _) (by omega))) (by simp)
      · rw [openNewLogFile_eq h, hs]
        rfl

/-- The last file, continued; `before` is what counts as closed. -/
theorem openNewLogFile_last (h : w.currentFile.file = none) (hb : w.buffer = [])
    (hd : w.disk.files.entries = closed ++ [(w.currentFileNumber, f)])
    (hans : (env.answer w.disk.requests).ok = true) :
    Writing (w.openNewLogFile env) closed f f.content ∧
      (w.openNewLogFile env).currentFile.good = true ∧
      (w.openNewLogFile env).options = w.options ∧
      (w.openNewLogFile env).currentFileNumber = w.currentFileNumber ∧
      (w.openNewLogFile env).currentFileSize = f.content.length := by
  obtain ⟨hs, hentries⟩ := OFStream.open_last hd hans
  have hfile : (OFStream.openAppend env w.currentFileNumber w.disk).2.file w.currentFileNumber
      = some f := Disk.file_last (hentries.trans hd)
  rw [openNewLogFile_eq h, hs, hfile]
  refine ⟨⟨rfl, hentries.trans hd, ?_⟩, rfl, rfl, rfl, rfl⟩
  show f.content ++ [] ++ w.buffer = f.content
  rw [hb, List.append_nil, List.append_nil]

/-! ## §3. `RotateLog`. -/

/-- **A rotation closes the current file**, with all its bytes in it if
nothing fails, unchanged if nothing was on its way to it, and in any case with
no more than the stream had for it. -/
theorem rotateLog_open (env : Env) {f : File} (cur : Bytes)
    (hopen : w.currentFile.file = some w.currentFileNumber)
    (hd : w.disk.files.entries = closed ++ [(w.currentFileNumber, f)]) :
    ∃ f', Opened env w (w.rotateLog env).2 (closed ++ [(w.currentFileNumber, f')]) [] ∧
      (w.rotateLog env).2.currentFileSize = 0 ∧
      (Writing w closed f cur → w.currentFile.good = true →
        env.Ok w.disk.requests (w.rotateLog env).2.disk.requests → f'.content = cur) ∧
      (w.buffer = [] → w.currentFile.pending = [] → f' = f) ∧
      ∃ f₁, (w.flushBuffer env).disk.files.entries = closed ++ [(w.currentFileNumber, f₁)] ∧
        f'.content <+: f₁.content ++ (w.flushBuffer env).currentFile.pending := by
  have hfl : Same env w (w.flushBuffer env) := Same.flushBuffer env w
  have hopen₁ : (w.flushBuffer env).currentFile.file
      = some (w.flushBuffer env).currentFileNumber := by
    rw [hfl.file, hopen, hfl.number]
  -- the file after the flush, whatever came of it
  obtain ⟨f₁, hd₁⟩ : ∃ f₁, (w.flushBuffer env).disk.files.entries
      = closed ++ [((w.flushBuffer env).currentFileNumber, f₁)] := by
    have hholds := (Writing.holds ⟨hopen, hd, rfl⟩).flushBuffer env
    exact hholds.entries (by rw [OFStream.isOpen, hopen₁]; rfl)
  obtain ⟨f', hd₂, hcontent, hsame, hpart⟩ := OFStream.close_spec env hopen₁ hd₁
  let w₂ : WriteAheadLog := { (w.flushBuffer env).closeFile env with
    currentFileNumber := w.currentFileNumber + 1 }
  have hshut₂ : w₂.currentFile.file = none := by
    show ((w.flushBuffer env).closeFile env).currentFile.file = none
    rw [closeFile_open hopen₁]
    rfl
  have hbuffer₂ : w₂.buffer = [] := by
    show ((w.flushBuffer env).closeFile env).buffer = []
    rw [closeFile_open hopen₁]
    exact flushBuffer_buffer hopen
  have hentries₂ : w₂.disk.files.entries = closed ++ [(w.currentFileNumber, f')] := by
    show ((w.flushBuffer env).closeFile env).disk.files.entries = _
    rw [closeFile_open hopen₁, ← hfl.number]
    exact hd₂
  have hoptions₂ : w₂.options = w.options := by
    show ((w.flushBuffer env).closeFile env).options = _
    rw [closeFile_open hopen₁]
    exact hfl.options
  have hrequests₂ : w₂.disk.requests = (w.flushBuffer env).disk.requests + 1 := by
    show ((w.flushBuffer env).closeFile env).disk.requests = _
    rw [closeFile_open hopen₁]
    exact requests_close _ _
  have hlast : ∀ e ∈ w₂.disk.files.entries, e.1 < w₂.currentFileNumber := by
    intro e he
    rw [hentries₂] at he
    rcases List.mem_append.mp he with he | he
    · exact Nat.lt_succ_of_lt (Disk.closed_lt hd e he)
    · rw [List.mem_singleton.mp he]
      exact Nat.lt_succ_self _
  have hrun : (w.rotateLog env).2 = w₂.openNewLogFile env := by
    have hnum : ((w.flushBuffer env).closeFile env).currentFileNumber = w.currentFileNumber := by
      rw [closeFile_open hopen₁]
      exact hfl.number
    show ({ (w.flushBuffer env).closeFile env with
      currentFileNumber := ((w.flushBuffer env).closeFile env).currentFileNumber + 1 } :
        WriteAheadLog).openNewLogFile env = _
    rw [hnum]
  obtain ⟨hop, hsize⟩ := openNewLogFile_fresh env hshut₂ hlast
  have hle : w.disk.requests ≤ w₂.disk.requests := by
    have := hfl.requests
    omega
  rw [hrun]
  rw [hbuffer₂, hentries₂] at hop
  refine ⟨f', ⟨hop.holds, hop.options.trans hoptions₂, Nat.le_trans hle hop.requests,
    fun hok => hop.good (hok.mono hle (Nat.le_refl _))⟩, hsize, ?_, ?_, f₁, hfl.number ▸ hd₁,
    hpart⟩
  · intro h hg hok
    have hgood₁ := hfl.good hopen hg (hok.mono (Nat.le_refl _)
      (Nat.le_trans (by omega) hop.requests))
    obtain ⟨f₁', h₁⟩ := (h.holds.flushBuffer env).good hgood₁
    have hsame₁ : f₁' = f₁ := by
      have := h₁.entries.symm.trans hd₁
      exact (Prod.mk.inj (List.singleton_inj.mp (List.append_cancel_left this))).2
    have hreq := hop.requests
    rw [hcontent (hok _ hfl.requests (by omega)), ← hsame₁, ← h₁.bytes, flushBuffer_buffer hopen,
      List.append_nil]
  · intro hb hp
    rw [flushBuffer_of_nil hb] at hsame hd₁
    rw [hsame hp]
    exact (Prod.mk.inj (List.singleton_inj.mp
      (List.append_cancel_left (hd₁.symm.trans hd)))).2

/-- With no open file the buffer goes to the next one. -/
theorem rotateLog_shut (env : Env) (hshut : w.currentFile.file = none)
    (hlast : ∀ e ∈ w.disk.files.entries, e.1 ≤ w.currentFileNumber) :
    Opened env w (w.rotateLog env).2 w.disk.files.entries w.buffer ∧
      (w.rotateLog env).2.currentFileSize = 0 := by
  have hrun : (w.rotateLog env).2
      = { w with currentFileNumber := w.currentFileNumber + 1 }.openNewLogFile env := by
    simp only [rotateLog, flushBuffer_of_shut hshut, closeFile_shut hshut]
  obtain ⟨hop, hsize⟩ := openNewLogFile_fresh env
    (w := { w with currentFileNumber := w.currentFileNumber + 1 }) hshut
    (fun e he => Nat.lt_succ_of_le (hlast e he))
  rw [hrun]
  exact ⟨⟨hop.holds, hop.options, hop.requests, hop.good⟩, hsize⟩

/-! ## §4. `WriteRecord`. -/

/-- The record does not fit into the current file. -/
def rotates (w : WriteAheadLog) (key value : Bytes) : Prop :=
  w.currentFileSize + (kHeaderSize + key.length + value.length) > w.options.maxFileSize

instance (w : WriteAheadLog) (key value : Bytes) : Decidable (w.rotates key value) :=
  inferInstanceAs (Decidable (_ > _))

/-- A rotation finds the next number among those of 64 bits; the source's counter
would start at 0 again. -/
def NumbersFile (w : WriteAheadLog) (key value : Bytes) : Prop :=
  w.rotates key value → w.currentFileNumber + 1 < 2 ^ 64

/-- The log a record is appended to. -/
def rotated (env : Env) (w : WriteAheadLog) (key value : Bytes) : WriteAheadLog :=
  if w.rotates key value then (w.rotateLog env).2 else w

/-- The record put together next. -/
def nextRecord (env : Env) (w : WriteAheadLog) (type : WalRecordType) (key value : Bytes)
    (seq : UInt64) : WalRecord :=
  WalRecord.make env.crc32 type seq (env.answer w.disk.requests).time key value

/-- The counters after a record of this size. -/
def counted (w : WriteAheadLog) (recordSize : Nat) : WriteAheadLog :=
  { w with
    currentFileSize := w.currentFileSize + recordSize
    totalWrites := w.totalWrites + 1
    totalBytesWritten := w.totalBytesWritten + recordSize }

/-- Appending without the sync. -/
def appendRecord (env : Env) (w : WriteAheadLog) (type : WalRecordType) (key value : Bytes)
    (seq : UInt64) : Option WriteAheadLog :=
  ({ w with disk := (w.disk.ask env).2 }.bufferRecord env
    (w.nextRecord env type key value seq)).map
      (fun w => counted w (kHeaderSize + key.length + value.length))

/-- The sync of `sync_on_write`, whose status is dropped. -/
def autoSync (env : Env) (w : WriteAheadLog) : WriteAheadLog :=
  if w.options.syncOnWrite then ((w.flushBuffer env).sync env).2 else w

theorem writeRecord_large {type : WalRecordType} {key value : Bytes} {seq : UInt64}
    (h : key.length > uint32Max ∨ value.length > uint32Max) :
    w.writeRecord env type key value seq
      = some (.invalidArgument "WAL key/value is too large", w) := if_pos h

/-- **`WriteRecord` in its parts.** -/
theorem writeRecord_eq {type : WalRecordType} {key value : Bytes} {seq : UInt64}
    (h : ¬ (key.length > uint32Max ∨ value.length > uint32Max)) :
    w.writeRecord env type key value seq
      = ((w.rotated env key value).appendRecord env type key value seq).map
          (fun w => (.okStatus, w.autoSync env)) := by
  have hsplit : (if w.currentFileSize + (kHeaderSize + key.length + value.length)
        > w.options.maxFileSize then w.rotateLog env else (.okStatus, w))
      = (.okStatus, w.rotated env key value) := by
    by_cases hr : w.rotates key value
    · rw [rotated, if_pos hr, if_pos (show _ > _ from hr)]
      rfl
    · rw [rotated, if_neg hr, if_neg (show ¬ _ > _ from hr)]
  rw [writeRecord, if_neg h]
  simp only [hsplit, Status.ok_okStatus, Bool.not_true, Bool.false_eq_true, if_false, appendRecord,
    nextRecord, autoSync, Option.map_map]
  rw [Option.map_eq_bind]
  rfl

/-- The log after an append. -/
structure Appended (env : Env) (w w' : WriteAheadLog) : Prop where
  options : w'.options = w.options
  number : w'.currentFileNumber = w.currentFileNumber
  file : w'.currentFile.file = w.currentFile.file
  requests : w.disk.requests ≤ w'.disk.requests
  good : w.currentFile.file = some w.currentFileNumber → w.currentFile.good = true →
    env.Ok w.disk.requests w'.disk.requests → w'.currentFile.good = true

theorem Holds.appendRecord {type : WalRecordType} {key value : Bytes} {seq : UInt64}
    {w' : WriteAheadLog} (h : Holds w closed cur)
    (hrun : w.appendRecord env type key value seq = some w') :
    Holds w' closed (cur ++ (w.nextRecord env type key value seq).encode) ∧ Appended env w w' ∧
      w'.currentFileSize = w.currentFileSize + (kHeaderSize + key.length + value.length) := by
  obtain ⟨w₁, hrec, rfl⟩ := Option.map_eq_some_iff.mp hrun
  have hask : Holds { w with disk := (w.disk.ask env).2 } closed cur := h.asked rfl
  have hsame := Same.bufferRecord hrec
  refine ⟨?_, ⟨hsame.options, hsame.number, hsame.file, Nat.le_trans (Nat.le_succ _) hsame.requests,
    fun hf hg hok => hsame.good hf hg (hok.mono (Nat.le_succ _) (Nat.le_refl _))⟩, ?_⟩
  · cases hask.bufferRecord hrec with
    | writing f h good => exact .writing f ⟨h.isOpen, h.entries, h.bytes⟩ good
    | broken f isOpen entries bad => exact .broken f isOpen entries bad
    | absent shut bad entries last bytes => exact .absent shut bad entries last bytes
  · show w₁.currentFileSize + _ = _
    rw [hsame.size]

theorem appendRecord_isSome (env : Env) (type : WalRecordType) {key value : Bytes} (seq : UInt64)
    (h : w.currentFile.file = some w.currentFileNumber) (hhead : kHeaderSize ≤ w.bufferCapacity)
    (hkey : key.length ≤ w.bufferCapacity) (hvalue : value.length ≤ w.bufferCapacity) :
    ∃ w', w.appendRecord env type key value seq = some w' := by
  obtain ⟨w₁, h₁⟩ := bufferRecord_isSome env
    (w := { w with disk := (w.disk.ask env).2 })
    (r := w.nextRecord env type key value seq) h hhead hkey hvalue
  exact ⟨_, by rw [appendRecord, h₁]; rfl⟩

/-- The sync after an append changes no byte; if its requests succeed on a
good stream, everything is durable. -/
theorem Holds.autoSync (env : Env) (h : Holds w closed cur) :
    Holds (w.autoSync env) closed cur ∧ Same env w (w.autoSync env) ∧
      (w.options.syncOnWrite = true → w.currentFile.good = true →
        env.Ok w.disk.requests (w.autoSync env).disk.requests →
        Durable (w.autoSync env) closed cur) := by
  unfold WriteAheadLog.autoSync
  cases hs : w.options.syncOnWrite with
  | false =>
      rw [if_neg Bool.false_ne_true]
      exact ⟨h, Same.refl w, fun hf => nomatch hf⟩
  | true =>
      rw [if_pos rfl]
      obtain ⟨h₂, hsame, hdurable⟩ := (h.flushBuffer env).sync env
      have hfl : Same env w (w.flushBuffer env) := Same.flushBuffer env w
      refine ⟨h₂, hfl.trans hsame, fun _ hg hok => hdurable ?_⟩
      obtain ⟨f, hw⟩ := h.good hg
      have hgood := hfl.good hw.isOpen hg (hok.mono (Nat.le_refl _) hsame.requests)
      obtain ⟨f₁, hw₁⟩ := (hw.flushBuffer env hg).good hgood
      exact hw₁.sync_ok hgood (hok.mono hfl.requests (Nat.le_refl _))

/-! ## §5. The constructor and the destructor. -/

theorem highestNumber_last {d : Disk} {n : Nat} (h : d.files.entries = closed ++ [(n, f)]) :
    highestNumber d = some n := by
  have hlt := Disk.closed_lt h
  rw [highestNumber, h, List.map_append]
  refine List.max?_eq_some_iff.mpr ⟨?_, ?_⟩
  · simp
  · intro m hm
    rcases List.mem_append.mp hm with hm | hm
    · obtain ⟨e, he, rfl⟩ := List.mem_map.mp hm
      exact Nat.le_of_lt (hlt e he)
    · rw [List.map_singleton, List.mem_singleton] at hm
      exact Nat.le_of_eq hm

theorem requests_new (env : Env) (options : WalOptions) (d : Disk) :
    (new env options d).disk.requests = d.requests + 1 := by
  rw [new, openNewLogFile_eq rfl]
  exact OFStream.requests_open

/-- Opening an empty directory. -/
theorem new_empty (env : Env) (options : WalOptions) {d : Disk} (hd : d.files.entries = []) :
    Opened env { options, currentFileNumber := 0, disk := d } (new env options d) [] [] ∧
      (new env options d).currentFileSize = 0 := by
  have hhigh : (highestNumber d).getD 0 = 0 := by
    rw [highestNumber, hd]
    rfl
  have := openNewLogFile_fresh env
    (w := { options, currentFileNumber := 0, disk := d }) rfl (by
      show ∀ e ∈ d.files.entries, e.1 < 0
      rw [hd]
      simp)
  rw [new, hhigh]
  exact hd ▸ this

/-- Opening a directory continues its last file. -/
theorem new_last (options : WalOptions) {d : Disk} {n : Nat}
    (hd : d.files.entries = closed ++ [(n, f)]) (hans : (env.answer d.requests).ok = true) :
    Writing (new env options d) closed f f.content ∧
      (new env options d).currentFile.good = true ∧ (new env options d).options = options ∧
      (new env options d).currentFileNumber = n ∧
      (new env options d).currentFileSize = f.content.length := by
  have hhigh : (highestNumber d).getD 0 = n := by
    rw [highestNumber_last hd]
    rfl
  rw [new, hhigh]
  exact openNewLogFile_last (w := { options, currentFileNumber := n, disk := d }) rfl rfl hd hans

theorem requests_le_destroy (env : Env) (w : WriteAheadLog) :
    w.disk.requests ≤ (w.destroy env).requests := by
  have hclose : (w.flushBuffer env).disk.requests
      ≤ ((w.flushBuffer env).closeFile env).disk.requests := by
    unfold closeFile
    split
    · show _ ≤ ((w.flushBuffer env).currentFile.close env (w.flushBuffer env).disk).2.requests
      rw [requests_close]
      exact Nat.le_succ _
    · exact Nat.le_refl _
  unfold destroy
  split
  · exact Nat.le_trans requests_le_flushBuffer hclose
  · exact Nat.le_refl _

/-- **Closing a log leaves all its bytes in the files**, if nothing fails. -/
theorem Writing.destroy (h : Writing w closed f cur) (hg : w.currentFile.good = true)
    (hok : env.Ok w.disk.requests (w.destroy env).requests) :
    ∃ f', (w.destroy env).files.entries = closed ++ [(w.currentFileNumber, f')] ∧
      f'.content = cur := by
  have hopen : w.currentFile.isOpen = true := by
    simp [OFStream.isOpen, h.isOpen]
  have hfl : Same env w (w.flushBuffer env) := Same.flushBuffer env w
  have hopen₁ : (w.flushBuffer env).currentFile.file
      = some (w.flushBuffer env).currentFileNumber := by
    rw [hfl.file, h.isOpen, hfl.number]
  -- The destructor flushes the buffer and closes the stream, which flushes it once more.
  have hrun : w.destroy env
      = ((w.flushBuffer env).currentFile.close env (w.flushBuffer env).disk).2 := by
    rw [WriteAheadLog.destroy, if_pos hopen, closeFile_open hopen₁]
  have hreq : (w.destroy env).requests = (w.flushBuffer env).disk.requests + 1 := by
    rw [hrun]
    exact requests_close _ _
  have hgood₁ := hfl.good h.isOpen hg (hok.mono (Nat.le_refl _) (by omega))
  obtain ⟨f₁, h₁⟩ := (h.holds.flushBuffer env).good hgood₁
  obtain ⟨f', hd', hcontent, -⟩ := OFStream.close_spec env h₁.isOpen h₁.entries
  refine ⟨f', ?_, ?_⟩
  · rw [hrun, hd', hfl.number]
  · rw [hcontent (hok _ hfl.requests (by omega)), ← h₁.bytes, flushBuffer_buffer h.isOpen,
      List.append_nil]

/-! ## §6. While no request on the stream fails. -/

/-- The requests a sync makes on the stream succeed, whatever becomes of the `fsync`. -/
def Flushes (env : Env) (w : WriteAheadLog) : Prop :=
  env.Ok w.disk.requests ((w.flushBuffer env).flushStream env).disk.requests

/-- An operation that moves bytes only. -/
theorem Writing.moved {w' : WriteAheadLog} (h : Writing w closed f cur)
    (hg : w.currentFile.good = true) (hok : env.Ok w.disk.requests w'.disk.requests)
    (hsame : Same env w w') (hholds : Holds w' closed cur) :
    w'.currentFile.good = true ∧ ∃ f', Writing w' closed f' cur := by
  have hgood := hsame.good h.isOpen hg hok
  exact ⟨hgood, hholds.good hgood⟩

theorem Writing.good_sync (h : Writing w closed f cur) (hg : w.currentFile.good = true)
    (hok : Flushes env w) : (w.sync env).2.currentFile.good = true := by
  have hgood := ((Same.flushBuffer env w).trans (Same.flushStream env _)).good h.isOpen hg hok
  rw [sync_open h.isOpen, hgood, Bool.not_true, if_neg Bool.false_ne_true, syncFile_currentFile,
    hgood]

theorem Writing.good_autoSync (h : Writing w closed f cur) (hg : w.currentFile.good = true)
    (hok : w.options.syncOnWrite = true → Flushes env w) :
    (w.autoSync env).currentFile.good = true := by
  unfold WriteAheadLog.autoSync
  split
  next hs =>
    have hfl : Same env w (w.flushBuffer env) := Same.flushBuffer env w
    have hgood := hfl.good h.isOpen hg ((hok hs).mono (Nat.le_refl _) (requests_le_flush _ _))
    obtain ⟨f₁, hw₁⟩ := (h.flushBuffer env hg).good hgood
    refine hw₁.good_sync hgood ?_
    -- the buffer is empty by now
    unfold Flushes
    rw [flushBuffer_of_nil (flushBuffer_buffer h.isOpen)]
    exact (hok hs).mono hfl.requests (Nat.le_refl _)
  next => exact hg

/-- A rotation leaves `cur` in the file it closes, and an empty one open. -/
theorem Writing.rotate (h : Writing w closed f cur) (hg : w.currentFile.good = true)
    (hok : env.Ok w.disk.requests (w.rotateLog env).2.disk.requests) :
    ∃ f' f'', f'.content = cur ∧
      Writing (w.rotateLog env).2 (closed ++ [(w.currentFileNumber, f')]) f'' [] ∧
      (w.rotateLog env).2.currentFile.good = true ∧
      (w.rotateLog env).2.options = w.options ∧ (w.rotateLog env).2.currentFileSize = 0 := by
  obtain ⟨f', hop, hsize, hcontent, -⟩ := rotateLog_open env cur h.isOpen h.entries
  have hgood := hop.good hok
  obtain ⟨f'', hw'⟩ := hop.holds.good hgood
  exact ⟨f', f'', hcontent h hg hok, hw', hgood, hop.options, hsize⟩

/-- A record, and the sync after it. -/
structure Recorded (w w' : WriteAheadLog) (key value : Bytes) : Prop where
  good : w'.currentFile.good = true
  options : w'.options = w.options
  number : w'.currentFileNumber = w.currentFileNumber
  size : w'.currentFileSize = w.currentFileSize + (kHeaderSize + key.length + value.length)

theorem Writing.record {type : WalRecordType} {key value : Bytes} {seq : UInt64}
    {w' : WriteAheadLog} (h : Writing w closed f cur) (hg : w.currentFile.good = true)
    (hrun : w.appendRecord env type key value seq = some w')
    (hok : env.Ok w.disk.requests w'.disk.requests)
    (hsync : w'.options.syncOnWrite = true → Flushes env w') :
    (∃ f', Writing (w'.autoSync env) closed f'
        (cur ++ (w.nextRecord env type key value seq).encode)) ∧
      Recorded w (w'.autoSync env) key value := by
  obtain ⟨hholds, happ, hsize⟩ := h.holds.appendRecord hrun
  have hgood := happ.good h.isOpen hg hok
  obtain ⟨f₁, hw₁⟩ := hholds.good hgood
  obtain ⟨hholds', hsame, -⟩ := hholds.autoSync env
  have hgood' := hw₁.good_autoSync hgood hsync
  exact ⟨hholds'.good hgood', hgood', hsame.options.trans happ.options,
    hsame.number.trans happ.number, hsame.size.trans hsize⟩

/-- Opening an empty directory. -/
theorem writing_new_empty (options : WalOptions) {d : Disk} (hd : d.files.entries = [])
    (hok : (env.answer d.requests).ok = true) :
    ∃ f, Writing (new env options d) [] f [] ∧ (new env options d).currentFile.good = true ∧
      (new env options d).options = options ∧ (new env options d).currentFileSize = 0 ∧
      f.content = [] := by
  obtain ⟨hop, hsize⟩ := new_empty env options hd
  have hgood := hop.good (fun i hlow hhigh => ?_)
  · obtain ⟨f, hw⟩ := hop.holds.good hgood
    exact ⟨f, hw, hgood, hop.options, hsize,
      (List.append_eq_nil_iff.mp (List.append_eq_nil_iff.mp hw.bytes).1).1⟩
  -- opening a file is one request
  · have hreq : (new env options d).disk.requests = d.requests + 1 := requests_new env options d
    rw [hreq] at hhigh
    obtain rfl : i = d.requests := Nat.le_antisymm (Nat.le_of_lt_succ hhigh) hlow
    exact hok

end WriteAheadLog

end KvEngine
