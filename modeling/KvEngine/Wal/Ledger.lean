/-
  KvEngine.Wal.Ledger
  ───────────────────
  **Where the records of a run are**, whatever the operating system answers.

  A ledger lists, for every file the log has written to since it was opened,
  what the file held then and the records appended to it.  Of a file only
  some bytes may count: all it contains for a reader, those an `fsync` has
  covered for a power loss.  `Disk.Keeps part d rs` says that the records
  `rs` lie in the bytes that count.

  Every call keeps the ledger; a rotation does so if all bytes of the file
  it closes count already, or will once it is closed.
-/
import KvEngine.Lib.Simulation
import KvEngine.Wal.Append

namespace KvEngine

open Lib

/-! ## §1. Calls on the log, and where its records are. -/

/-- A call on a `WriteAheadLog`. -/
inductive WalOp where
  | write (type : WalRecordType) (key value : Bytes) (seq : UInt64)
  | rotate
  | flush
  | sync
  deriving DecidableEq, Repr

def WriteAheadLog.apply (env : Env) (w : WriteAheadLog) : WalOp → Option (Status × WriteAheadLog)
  | .write type key value seq => w.writeRecord env type key value seq
  | .rotate => some (w.rotateLog env)
  | .flush => some (w.flush env)
  | .sync => some (w.sync env)

/-- A file by number: what it held when the log was opened, and the records
appended to it since. -/
structure Share where
  number : Nat
  base : Bytes
  records : List WalRecord

def Share.content (s : Share) : Bytes := s.base ++ encodeAll WalRecord.encode s.records

/-- The bytes of a file that survive a power loss. -/
def File.guaranteed (f : File) : Bytes := f.content.take f.synced

/-- The files hold these shares in the bytes that count. -/
def Shares (part : File → Bytes) (files : List (Nat × File)) (shares : List Share) : Prop :=
  files.map (fun e => (e.1, part e.2)) = shares.map (fun s => (s.number, s.content))

/-- The records `rs` lie in the bytes that count, in order and each within one
file. -/
def Disk.Keeps (part : File → Bytes) (d : Disk) (rs : List WalRecord) : Prop :=
  ∃ old new shares, d.files.entries = old ++ new ∧ Shares part new shares ∧
    rs.Sublist (shares.flatMap Share.records)

@[simp] theorem encodeAll_singleton (r : WalRecord) :
    encodeAll WalRecord.encode [r] = r.encode := List.flatMap_singleton _ _

theorem Shares.snoc {part : File → Bytes} {files : List (Nat × File)} {shares : List Share}
    (h : Shares part files shares) {n : Nat} {f : File} {base : Bytes} {rs : List WalRecord}
    (hf : part f = base ++ encodeAll WalRecord.encode rs) :
    Shares part (files ++ [(n, f)]) (shares ++ [⟨n, base, rs⟩]) := by
  rw [Shares, List.map_append, List.map_append, h, List.map_singleton, List.map_singleton, hf]
  rfl

namespace WriteAheadLog

variable {env : Env} {part : File → Bytes} {w w' : WriteAheadLog} {rs : List WalRecord}

/-! ## §2. Opening. -/

/-- Whatever the directory holds and whether or not its last file opens. -/
theorem new_holds (env : Env) (options : WalOptions) (d : Disk) :
    ∃ closed cur, Holds (new env options d) closed cur := by
  rcases List.eq_nil_or_concat' d.files.entries with hd | ⟨closed, ⟨n, f⟩, hd⟩
  · exact ⟨[], [], (new_empty env options hd).1.holds⟩
  · cases hans : (env.answer d.requests).ok with
    | true => exact ⟨closed, f.content, (new_last options hd hans).1.holds⟩
    | false =>
        have hhigh : (highestNumber d).getD 0 = n := by
          rw [highestNumber_last hd]
          rfl
        have hopen := OFStream.open_fails (n := n) hans
        refine ⟨d.files.entries, [], ?_⟩
        rw [new, hhigh, openNewLogFile_eq rfl, hopen]
        refine .absent rfl rfl rfl (fun e he => ?_) rfl
        rw [hd] at he
        rcases List.mem_append.mp he with he | he
        · exact Nat.le_of_lt (Disk.closed_lt hd e he)
        · rw [List.mem_singleton.mp he]

/-- `Recover` touches no file, whatever requests fail. -/
theorem recoverFiles_files {σ : Type} (callback : σ → WalRecordHeader → Bytes → Bytes → Option σ)
    (options : WalOptions) :
    ∀ (files : List (Nat × File)) (d : Disk) (maxSeq : UInt64) (s : σ) {status : Status}
      {maxSeq' : UInt64} {s' : σ} {d' : Disk},
      recoverFiles env callback options files d maxSeq s = some (status, maxSeq', s', d') →
        d'.files = d.files := by
  intro files
  induction files with
  | nil =>
      intro d maxSeq s status maxSeq' s' d' h
      rw [recoverFiles] at h
      obtain ⟨-, -, -, rfl⟩ := Option.some.inj h
      rfl
  | cons e files ih =>
      obtain ⟨n, f⟩ := e
      intro d maxSeq s status maxSeq' s' d' h
      rw [recoverFiles] at h
      simp only [Option.bind_eq_bind] at h
      split at h
      · exact (ih _ _ _ h).trans (Disk.files_ask env d)
      · obtain ⟨⟨st, m, s₁⟩, -, h⟩ := Option.bind_eq_some_iff.mp h
        simp only [] at h
        split at h
        · obtain ⟨-, -, -, rfl⟩ := Option.some.inj h
          rfl
        · exact (ih _ _ _ h).trans (Disk.files_ask env d)

theorem recover_log {σ : Type} {callback : σ → WalRecordHeader → Bytes → Bytes → Option σ}
    {s s' : σ}
    {status : Status} {m : Option UInt64}
    (h : w.recover env callback s = some (status, m, s', w')) :
    ∃ d, d.files = w.disk.files ∧ w' = { w with disk := d } := by
  unfold recover at h
  obtain ⟨⟨st, m₁, s₁, d⟩, hfiles, h⟩ := Option.bind_eq_some_iff.mp h
  obtain ⟨-, -, -, rfl⟩ := Option.some.inj h
  exact ⟨d, recoverFiles_files callback w.options _ _ _ _ hfiles, rfl⟩

/-! ## §3. The ledger. -/

/-- The records `rs` are in the closed files or on their way to the current
one. -/
def Ledger (part : File → Bytes) (w : WriteAheadLog) (rs : List WalRecord) : Prop :=
  ∃ old new shares base cur, Holds w (old ++ new) (base ++ encodeAll WalRecord.encode cur) ∧
    Shares part new shares ∧ rs.Sublist (shares.flatMap Share.records ++ cur)

theorem ledger_new (part : File → Bytes) (env : Env) (options : WalOptions) (d : Disk) :
    Ledger part (new env options d) [] := by
  obtain ⟨closed, cur, h⟩ := new_holds env options d
  refine ⟨closed, [], [], cur, [], ?_, rfl, List.nil_sublist _⟩
  rw [List.append_nil, encodeAll_nil, List.append_nil]
  exact h

/-- A call that only moves bytes. -/
theorem Ledger.moved (h : Ledger part w rs)
    (hholds : ∀ closed cur, Holds w closed cur → Holds w' closed cur) : Ledger part w' rs := by
  obtain ⟨old, new, shares, base, cur, hw, hnew, hrs⟩ := h
  exact ⟨old, new, shares, base, cur, hholds _ _ hw, hnew, hrs⟩

theorem Ledger.flush (h : Ledger part w rs) : Ledger part (w.flush env).2 rs :=
  h.moved (fun _ _ hw => hw.flushBuffer env)

theorem Ledger.sync (h : Ledger part w rs) : Ledger part (w.sync env).2 rs :=
  h.moved (fun _ _ hw => (hw.sync env).1)

/-- What a rotation can do to the file it closes: `f` becomes `f'`. -/
structure Closes (env : Env) (w : WriteAheadLog) (cur : Bytes) (f f' : File) : Prop where
  handed : env.Ok w.disk.requests (w.rotateLog env).2.disk.requests → f'.content = cur
  same : w.buffer = [] → w.currentFile.pending = [] → f' = f

/-- A rotation now closes a file of which all bytes count. -/
def ClosesKept (env : Env) (part : File → Bytes) (w : WriteAheadLog) : Prop :=
  w.currentFile.isOpen = true → w.currentFile.good = true ∧
    ∀ closed f f' cur, Writing w closed f cur → Closes env w cur f f' → part f' = cur

theorem Ledger.rotate (h : Ledger part w rs) (hkept : ClosesKept env part w) :
    Ledger part (w.rotateLog env).2 rs := by
  obtain ⟨old, new, shares, base, cur, hw, hnew, hrs⟩ := h
  have hopened : ∀ f, Writing w (old ++ new) f (base ++ encodeAll WalRecord.encode cur) →
      Ledger part (w.rotateLog env).2 rs := by
    intro f hf
    obtain ⟨hgood, hpart⟩ := hkept (by simp [OFStream.isOpen, hf.isOpen])
    obtain ⟨f', hop, -, hhanded, hsame, -⟩ := rotateLog_open env _ hf.isOpen hf.entries
    -- The file that is closed keeps its share; the new one starts with none.
    refine ⟨old, new ++ [(w.currentFileNumber, f')],
      shares ++ [⟨w.currentFileNumber, base, cur⟩], [], [], ?_, ?_, ?_⟩
    · rw [← List.append_assoc]
      exact hop.holds
    · exact hnew.snoc (hpart _ f f' _ hf ⟨hhanded hf hgood, hsame⟩)
    · rw [List.flatMap_append, List.flatMap_singleton, List.append_nil]
      exact hrs
  cases hw with
  | writing f hf _ => exact hopened f hf
  | broken f isOpen entries bad =>
      -- A bad stream is what `ClosesKept` rules out.
      have hgood := (hkept (by simp [OFStream.isOpen, isOpen])).1
      exact absurd (hgood.symm.trans bad) (by simp)
  | absent shut bad entries last bytes =>
      have hop := (rotateLog_shut env shut (entries ▸ last)).1
      rw [entries, bytes] at hop
      exact ⟨old, new, shares, base, cur, hop.holds, hnew, hrs⟩

/-- The file is closed with all its bytes in it: they are there already, or
no request of the rotation fails. -/
def ClosesFull (env : Env) (w : WriteAheadLog) : Prop :=
  w.currentFile.isOpen = true → w.currentFile.good = true ∧
    (w.buffer = [] ∧ w.currentFile.pending = [] ∨
      env.Ok w.disk.requests (w.rotateLog env).2.disk.requests)

/-- All bytes of the current file are covered by an `fsync`. -/
def Covered (w : WriteAheadLog) : Prop :=
  w.currentFile.isOpen = true → w.currentFile.good = true ∧ w.buffer = [] ∧
    w.currentFile.pending = [] ∧
    ∀ f, w.disk.file w.currentFileNumber = some f → f.content.length ≤ f.synced

theorem Writing.content {closed : List (Nat × File)} {f : File} {cur : Bytes}
    (h : Writing w closed f cur) (hb : w.buffer = []) (hp : w.currentFile.pending = []) :
    f.content = cur := by
  rw [← h.bytes, hb, hp, List.append_nil, List.append_nil]

theorem ClosesFull.kept (h : ClosesFull env w) : ClosesKept env File.content w := by
  intro hopen
  obtain ⟨hgood, hreach⟩ := h hopen
  refine ⟨hgood, fun closed f f' cur hw hc => ?_⟩
  rcases hreach with ⟨hb, hp⟩ | hok
  · rw [hc.same hb hp]
    exact hw.content hb hp
  · exact hc.handed hok

theorem Covered.kept (h : Covered w) : ClosesKept env File.guaranteed w := by
  intro hopen
  obtain ⟨hgood, hb, hp, hsynced⟩ := h hopen
  refine ⟨hgood, fun closed f f' cur hw hc => ?_⟩
  rw [hc.same hb hp, File.guaranteed,
    List.take_of_length_le (hsynced f (Disk.file_last hw.entries))]
  exact hw.content hb hp

/-! ## §4. Records. -/

/-- The record `WriteRecord` puts together, after any rotation. -/
def loggedRecord (env : Env) (w : WriteAheadLog) (type : WalRecordType) (key value : Bytes)
    (seq : UInt64) : WalRecord :=
  (w.rotated env key value).nextRecord env type key value seq

theorem Ledger.rotated (h : Ledger part w rs) {key value : Bytes}
    (hkept : w.rotates key value → ClosesKept env part w) :
    Ledger part (w.rotated env key value) rs := by
  unfold WriteAheadLog.rotated
  split
  next hr => exact h.rotate (hkept hr)
  next => exact h

/-- **An accepted record enters the ledger.** -/
theorem Ledger.write (h : Ledger part w rs) {type : WalRecordType} {key value : Bytes}
    {seq : UInt64} {s : Status} (hkept : w.rotates key value → ClosesKept env part w)
    (hrun : w.writeRecord env type key value seq = some (s, w')) :
    Ledger part w' rs ∧
      (s.ok = true → Ledger part w' (rs ++ [w.loggedRecord env type key value seq])) := by
  by_cases hlarge : key.length > uint32Max ∨ value.length > uint32Max
  · rw [writeRecord_large hlarge] at hrun
    obtain ⟨rfl, rfl⟩ := Prod.mk.inj (Option.some.inj hrun)
    exact ⟨h, fun hs => absurd hs (by simp)⟩
  · rw [writeRecord_eq hlarge] at hrun
    obtain ⟨w₁, happend, heq⟩ := Option.map_eq_some_iff.mp hrun
    obtain ⟨rfl, rfl⟩ := Prod.mk.inj heq
    obtain ⟨old, new, shares, base, cur, hw, hnew, hrs⟩ := h.rotated hkept
    have hw₁ := (((hw.appendRecord happend).1).autoSync env).1
    rw [List.append_assoc, ← encodeAll_singleton, ← encodeAll_append] at hw₁
    refine ⟨⟨old, new, shares, base, _, hw₁, hnew, ?_⟩, fun _ => ⟨old, new, shares, base, _, hw₁,
      hnew, ?_⟩⟩
    · rw [← List.append_assoc]
      exact hrs.trans (List.sublist_append_left _ _)
    · rw [← List.append_assoc]
      exact hrs.append (List.Sublist.refl _)

/-! ## §5. What the ledger says of the files. -/

/-- A file with nothing on its way to it. -/
theorem Ledger.keeps (h : Ledger part w rs)
    (hpart : ∀ closed f cur, Writing w closed f cur → part f = cur)
    (hgood : w.currentFile.isOpen = true → w.currentFile.good = true)
    (hshut : w.currentFile.isOpen = false → w.buffer = []) : w.disk.Keeps part rs := by
  obtain ⟨old, new, shares, base, cur, hw, hnew, hrs⟩ := h
  cases hw with
  | writing f hf _ =>
      refine ⟨old, new ++ [(w.currentFileNumber, f)],
        shares ++ [⟨w.currentFileNumber, base, cur⟩], ?_, hnew.snoc (hpart _ f _ hf), ?_⟩
      · rw [hf.entries, List.append_assoc]
      · rw [List.flatMap_append, List.flatMap_singleton]
        exact hrs
  | broken f isOpen entries bad =>
      exact absurd ((hgood (by simp [OFStream.isOpen, isOpen])).symm.trans bad) (by simp)
  | absent shut bad entries last bytes =>
      have hbuffer := hshut (by simp [OFStream.isOpen, shut])
      -- No file is open and the buffer is empty, so no record is on its way.
      have hcur : cur = [] := by
        cases cur with
        | nil => rfl
        | cons r cur =>
            rw [hbuffer] at bytes
            have := congrArg List.length bytes
            rw [encodeAll_cons, List.length_append, List.length_append,
              WalRecord.length_encode] at this
            rw [List.length_nil, show kHeaderSize = 29 from rfl] at this
            omega
      rw [hcur, List.append_nil] at hrs
      exact ⟨old, new, shares, entries, hnew, hrs⟩

/-- A flush hands everything to the file: nothing is left, or the one write it
makes succeeds and takes all there is. -/
structure FlushReaches (env : Env) (w : WriteAheadLog) : Prop where
  opened : w.currentFile.isOpen = true → w.currentFile.good = true ∧
    (w.buffer = [] → w.currentFile.pending = []) ∧
    (w.buffer ≠ [] → (env.answer w.disk.requests).ok = true ∧
      w.currentFile.pending.length + w.buffer.length ≤ (env.answer w.disk.requests).moved)
  shut : w.currentFile.isOpen = false → w.buffer = []

/-- **What a flush that reaches the file leaves.** -/
theorem Ledger.flush_keeps (h : Ledger File.content w rs) (hreach : FlushReaches env w) :
    (w.flush env).2.disk.Keeps File.content rs := by
  by_cases hopen : w.currentFile.isOpen = true
  · obtain ⟨hgood, hnil, hall⟩ := hreach.opened hopen
    -- afterwards nothing is on its way to the file
    obtain ⟨hgood', hbuffer', hpending'⟩ : (w.flushBuffer env).currentFile.good = true ∧
        (w.flushBuffer env).buffer = [] ∧ (w.flushBuffer env).currentFile.pending = [] := by
      by_cases hb : w.buffer = []
      · rw [flushBuffer_of_nil hb]
        exact ⟨hgood, hb, hnil hb⟩
      · obtain ⟨hok, hmoved⟩ := hall hb
        have hlen : w.buffer.length > 0 := List.length_pos_iff.mpr hb
        simp only [flushBuffer, hlen, hopen, and_self, if_true, OFStream.write, hgood]
        refine ⟨hok, trivial, ?_⟩
        rw [if_pos (show (w.disk.ask env).1.ok = true from hok)]
        refine List.drop_of_length_le ?_
        rw [List.length_append]
        exact hmoved
    exact h.flush.keeps (fun closed f cur hw => hw.content hbuffer' hpending') (fun _ => hgood')
      (fun _ => hbuffer')
  · have hshut : w.currentFile.isOpen = false := Bool.eq_false_iff.mpr hopen
    have hbuffer := hreach.shut hshut
    have hsame : (w.flush env).2 = w := flushBuffer_of_nil hbuffer
    rw [hsame]
    exact h.keeps (fun closed f cur hw => absurd (by simp [OFStream.isOpen, hw.isOpen]) hopen)
      (fun h => absurd h hopen) (fun _ => hbuffer)

/-- **A successful `Sync`** leaves every record of the ledger to survive a power
loss. -/
theorem Ledger.sync_keeps (h : Ledger File.guaranteed w rs) (hs : (w.sync env).1.ok = true) :
    (w.sync env).2.disk.Keeps File.guaranteed rs := by
  obtain ⟨old, new, shares, base, cur, hw, -⟩ := id h
  have hd := (hw.sync env).2.2 hs
  obtain ⟨f, hentries, hcontent, hsynced⟩ := hd.file
  refine h.sync.keeps (fun closed g cur' hg => ?_) (fun _ => hd.good) (fun _ => hd.buffer)
  have hsame : g = f := by
    have hg' := Disk.file_last hg.entries
    rw [Disk.file_last hentries] at hg'
    exact (Option.some.inj hg').symm
  have hfull := hg.content hd.buffer hd.pending
  rw [File.guaranteed, hsame, List.take_of_length_le (by rw [hcontent, hsynced]), ← hsame]
  exact hfull

/-! ## §6. `sync_on_write`. -/

/-- What every log keeps that was opened with these options. -/
structure Tracked (options : WalOptions) (w : WriteAheadLog) : Prop where
  options : w.options = options
  holds : ∃ closed cur, Holds w closed cur

section Tracked

variable {options : WalOptions}

theorem options_openNewLogFile (env : Env) (w : WriteAheadLog) :
    (w.openNewLogFile env).options = w.options := by
  unfold openNewLogFile closeFile
  split <;> rfl

theorem tracked_new (env : Env) (options : WalOptions) (d : Disk) :
    Tracked options (new env options d) := by
  refine ⟨?_, new_holds env options d⟩
  rw [new, options_openNewLogFile]

theorem Tracked.flush (h : Tracked options w) : Tracked options (w.flush env).2 := by
  obtain ⟨hoptions, closed, cur, hw⟩ := h
  exact ⟨flushBuffer_options.trans hoptions, closed, cur, hw.flushBuffer env⟩

theorem Tracked.sync (h : Tracked options w) : Tracked options (w.sync env).2 := by
  obtain ⟨hoptions, closed, cur, hw⟩ := h
  obtain ⟨hw', hsame, -⟩ := hw.sync env
  exact ⟨hsame.options.trans hoptions, closed, cur, hw'⟩

theorem Tracked.rotate (h : Tracked options w) : Tracked options (w.rotateLog env).2 := by
  obtain ⟨hoptions, closed, cur, hw⟩ := h
  have hopened : ∀ {f : File}, w.currentFile.file = some w.currentFileNumber →
      w.disk.files.entries = closed ++ [(w.currentFileNumber, f)] →
      Tracked options (w.rotateLog env).2 := by
    intro f isOpen entries
    obtain ⟨f', hop, -⟩ := rotateLog_open env cur isOpen entries
    exact ⟨hop.options.trans hoptions, _, _, hop.holds⟩
  cases hw with
  | writing f hf _ => exact hopened hf.isOpen hf.entries
  | broken f isOpen entries bad => exact hopened isOpen entries
  | absent shut bad entries last bytes =>
      have hop := (rotateLog_shut env shut (entries ▸ last)).1
      exact ⟨hop.options.trans hoptions, _, _, hop.holds⟩

theorem Tracked.rotated (h : Tracked options w) (env : Env) (key value : Bytes) :
    Tracked options (w.rotated env key value) := by
  unfold WriteAheadLog.rotated
  split
  · exact h.rotate
  · exact h

/-- The log has a good stream once any rotation is done, and the requests the
call makes from then on succeed. -/
structure SyncsThrough (env : Env) (w w' : WriteAheadLog) (key value : Bytes) : Prop where
  good : (w.rotated env key value).currentFile.good = true
  requests : env.Ok (w.rotated env key value).disk.requests w'.disk.requests

/-- **`WriteRecord`** keeps a log tracked; with `sync_on_write` and requests
that succeed, all of the current file is durable and ends with the record. -/
theorem Tracked.write (h : Tracked options w) {type : WalRecordType} {key value : Bytes}
    {seq : UInt64} {s : Status} (hrun : w.writeRecord env type key value seq = some (s, w')) :
    Tracked options w' ∧ (s.ok = true → options.syncOnWrite = true →
      SyncsThrough env w w' key value → ∃ closed cur,
        Holds w' closed (cur ++ (w.loggedRecord env type key value seq).encode) ∧
        Durable w' closed (cur ++ (w.loggedRecord env type key value seq).encode)) := by
  by_cases hlarge : key.length > uint32Max ∨ value.length > uint32Max
  · rw [writeRecord_large hlarge] at hrun
    obtain ⟨rfl, rfl⟩ := Prod.mk.inj (Option.some.inj hrun)
    exact ⟨h, fun hs => absurd hs (by simp)⟩
  · rw [writeRecord_eq hlarge] at hrun
    obtain ⟨w₁, happend, heq⟩ := Option.map_eq_some_iff.mp hrun
    obtain ⟨rfl, rfl⟩ := Prod.mk.inj heq
    obtain ⟨hoptions, closed, cur, hw⟩ := h.rotated env key value
    obtain ⟨hw₁, happ, -⟩ := hw.appendRecord happend
    obtain ⟨hw₂, hsame, hdurable⟩ := hw₁.autoSync env
    refine ⟨⟨hsame.options.trans (happ.options.trans hoptions), closed, _, hw₂⟩,
      fun _ hsync hthrough => ⟨closed, cur, hw₂, hdurable ?_ ?_ ?_⟩⟩
    · rw [happ.options, hoptions, hsync]
    · obtain ⟨f, hf⟩ := hw.good hthrough.good
      exact happ.good hf.isOpen hthrough.good
        (hthrough.requests.mono (Nat.le_refl _) hsame.requests)
    · exact hthrough.requests.mono happ.requests (Nat.le_refl _)

theorem Tracked.apply (h : Tracked options w) {op : WalOp} {s : Status}
    (hrun : w.apply env op = some (s, w')) : Tracked options w' := by
  cases op with
  | write type key value seq => exact (h.write hrun).1
  | rotate =>
      obtain ⟨-, rfl⟩ := Prod.mk.inj (Option.some.inj hrun)
      exact h.rotate
  | flush =>
      obtain ⟨-, rfl⟩ := Prod.mk.inj (Option.some.inj hrun)
      exact h.flush
  | sync =>
      obtain ⟨-, rfl⟩ := Prod.mk.inj (Option.some.inj hrun)
      exact h.sync

theorem Tracked.run (ops : List WalOp) {outs : List Status} (h : Tracked options w)
    (hrun : run? (WriteAheadLog.apply env) w ops = some (outs, w')) : Tracked options w' :=
  run?_invariant (fun _ _ _ _ _ h hstep => h.apply hstep) h hrun

/-- The file being written ends with the record, and an `fsync` has covered all
of it. -/
def RecordDurable (w : WriteAheadLog) (r : WalRecord) : Prop :=
  ∃ f pre, w.disk.file w.currentFileNumber = some f ∧ f.content = pre ++ r.encode ∧
    f.guaranteed = f.content

theorem Durable.record {closed : List (Nat × File)} {cur : Bytes} {r : WalRecord}
    (h : Durable w closed (cur ++ r.encode)) : RecordDurable w r := by
  obtain ⟨f, hentries, hcontent, hsynced⟩ := h.file
  refine ⟨f, cur, Disk.file_last hentries, hcontent, ?_⟩
  rw [File.guaranteed, List.take_of_length_le (by rw [hcontent, hsynced])]

end Tracked

end WriteAheadLog

end KvEngine
