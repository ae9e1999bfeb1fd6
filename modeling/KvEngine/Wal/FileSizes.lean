/-
  KvEngine.Wal.FileSizes
  ──────────────────────
  **Which records lie in which file, and how long the files get**, while no
  request fails.

  `Whole env w batches cur`: each closed file is the encoding of a batch of
  records, the current file with all that is on its way to it is the encoding
  of `cur`, and `current_file_size` is its length.  A batch is `Bounded` if it
  is a single record or no longer than `max_file_size`.  Every call of a log
  that is written, rotated, flushed, synced, and closed and opened again keeps
  this, however the bytes are spread over buffer, stream and file.
-/
import KvEngine.Lib.Steps
import KvEngine.Wal.Settled
import KvEngine.Wal.Truncate

namespace KvEngine

open Lib

/-! ## §1. Sessions. -/

/-- The record a call adds to the log; a key or value that is too large is
refused. -/
def WalOp.accepted : WalOp → Option (WalRecordType × UInt64 × Bytes × Bytes)
  | .write type key value seq =>
      if key.length > WriteAheadLog.uint32Max ∨ value.length > WriteAheadLog.uint32Max then none
      else some (type, seq, key, value)
  | _ => none

/-- What can happen to a log directory: a call, or the log is closed and opened
again with the same `max_file_size`. -/
inductive SessionOp where
  | call (op : WalOp)
  | reopen (bufferSize : Nat) (syncOnWrite : Bool)
  deriving DecidableEq, Repr

def SessionOp.accepted : SessionOp → Option (WalRecordType × UInt64 × Bytes × Bytes)
  | .call op => op.accepted
  | .reopen _ _ => none

namespace WriteAheadLog

def session (env : Env) (w : WriteAheadLog) : SessionOp → Option WriteAheadLog
  | .call op => (w.apply env op).map Prod.snd
  | .reopen bufferSize syncOnWrite =>
      some (new env { w.options with bufferSize, syncOnWrite } (w.destroy env))

/-! ## §2. Batches. -/

/-- The bytes of a batch of records. -/
def batchBytes (rs : List WalRecord) : Bytes := encodeAll WalRecord.encode rs

theorem batchBytes_snoc (rs : List WalRecord) (r : WalRecord) :
    batchBytes (rs ++ [r]) = batchBytes rs ++ r.encode := by
  rw [batchBytes, encodeAll_append, encodeAll_singleton]
  rfl

/-- One record, or at most `maxFileSize` bytes. -/
def Bounded (maxFileSize : Nat) (rs : List WalRecord) : Prop :=
  (batchBytes rs).length ≤ maxFileSize ∨ rs.length = 1

theorem bounded_nil (maxFileSize : Nat) : Bounded maxFileSize [] := Or.inl (Nat.zero_le _)

/-- A record `WriteRecord` has put together. -/
def Made (crc32 : Bytes → UInt32) (r : WalRecord) : Prop :=
  ∃ type seq time, r = WalRecord.make crc32 type seq time r.key r.value ∧
    r.key.length ≤ uint32Max ∧ r.value.length ≤ uint32Max

/-- Whole records in every file. -/
structure Whole (env : Env) (w : WriteAheadLog) (batches : List (List WalRecord))
    (cur : List WalRecord) : Prop where
  writing : ∃ closed f, Writing w closed f (batchBytes cur) ∧
    closed.map (fun e => e.2.content) = batches.map batchBytes
  good : w.currentFile.good = true
  size : w.currentFileSize = (batchBytes cur).length
  bounded : ∀ rs ∈ batches ++ [cur], Bounded w.options.maxFileSize rs
  made : ∀ r ∈ (batches ++ [cur]).flatten, Made env.crc32 r

variable {env : Env} {w w' : WriteAheadLog} {batches : List (List WalRecord)}
  {cur : List WalRecord}

/-- The log after an operation that moves bytes only. -/
theorem Whole.moved (h : Whole env w batches cur)
    (hholds : ∀ closed cur, Holds w closed cur → Holds w' closed cur) (hsame : Same env w w')
    (hok : env.Fine) : Whole env w' batches cur := by
  obtain ⟨closed, f, hw, hclosed⟩ := h.writing
  obtain ⟨hgood, f', hw'⟩ := hw.moved h.good (hok.ok _ _) hsame (hholds _ _ hw.holds)
  exact ⟨⟨closed, f', hw', hclosed⟩, hgood, hsame.size.trans h.size, hsame.options ▸ h.bounded,
    h.made⟩

theorem Whole.flush (h : Whole env w batches cur) (hok : env.Fine) :
    Whole env (w.flush env).2 batches cur :=
  h.moved (fun _ _ hh => hh.flushBuffer env) (Same.flushBuffer env w) hok

theorem Whole.sync (h : Whole env w batches cur) (hok : env.Fine) :
    Whole env (w.sync env).2 batches cur := by
  obtain ⟨closed, f, hw, -⟩ := h.writing
  exact h.moved (fun _ _ hh => (hh.sync env).1) (hw.holds.sync env).2.1 hok

/-- **A rotation starts a new batch.** -/
theorem Whole.rotate (h : Whole env w batches cur) (hok : env.Fine) :
    Whole env (w.rotateLog env).2 (batches ++ [cur]) [] ∧
      (w.rotateLog env).2.options = w.options := by
  obtain ⟨closed, f, hw, hclosed⟩ := h.writing
  obtain ⟨f', f'', hcontent, hw', hgood, hoptions, hsize⟩ := hw.rotate h.good (hok.ok _ _)
  refine ⟨⟨⟨_, f'', hw', ?_⟩, hgood, hsize, ?_, ?_⟩, hoptions⟩
  · rw [List.map_append, hclosed, List.map_append, List.map_singleton, List.map_singleton,
      hcontent]
  · intro rs hrs
    rw [hoptions]
    rcases List.mem_append.mp hrs with hrs | hrs
    · exact h.bounded rs hrs
    · rw [List.mem_singleton.mp hrs]
      exact bounded_nil _
  · intro r hr
    rw [List.flatten_append, List.flatten_singleton, List.append_nil] at hr
    exact h.made r hr

/-- The log a record is appended to has room for it, or an empty file. -/
theorem Whole.rotated (h : Whole env w batches cur) (hok : env.Fine) (key value : Bytes) :
    ∃ batches₁ cur₁, Whole env (w.rotated env key value) batches₁ cur₁ ∧
      (batches₁ ++ [cur₁]).flatten = (batches ++ [cur]).flatten ∧
      (w.rotated env key value).options = w.options ∧
      (cur₁ = [] ∨ (batchBytes cur₁).length + (kHeaderSize + key.length + value.length)
        ≤ w.options.maxFileSize) := by
  unfold WriteAheadLog.rotated
  split
  next =>
    obtain ⟨hrot, hoptions⟩ := h.rotate hok
    exact ⟨_, _, hrot, by simp, hoptions, Or.inl rfl⟩
  next hno =>
    refine ⟨batches, cur, h, rfl, rfl, Or.inr ?_⟩
    rw [← h.size]
    exact Nat.le_of_not_gt hno

/-- A record is appended to the current batch.  One that did not cause a
rotation fits; one that did is alone. -/
theorem Whole.record (h : Whole env w batches cur) (hok : env.Fine) {type : WalRecordType}
    {key value : Bytes} {seq : UInt64} (hrun : w.appendRecord env type key value seq = some w')
    (hkey : key.length ≤ uint32Max) (hvalue : value.length ≤ uint32Max)
    (hroom : cur = [] ∨ (batchBytes cur).length + (kHeaderSize + key.length + value.length)
      ≤ w.options.maxFileSize) :
    Whole env (w'.autoSync env) batches (cur ++ [w.nextRecord env type key value seq]) ∧
      (w'.autoSync env).options = w.options := by
  obtain ⟨closed, f, hw, hclosed⟩ := h.writing
  obtain ⟨⟨f', hw'⟩, hrec⟩ := hw.record h.good hrun (hok.ok _ _) (fun _ => hok.ok _ _)
  have hlen : (batchBytes (cur ++ [w.nextRecord env type key value seq])).length
      = (batchBytes cur).length + (kHeaderSize + key.length + value.length) := by
    rw [batchBytes_snoc, List.length_append, WalRecord.length_encode]
    rfl
  rw [← batchBytes_snoc] at hw'
  refine ⟨⟨⟨closed, f', hw', hclosed⟩, hrec.good, ?_, ?_, ?_⟩, hrec.options⟩
  · rw [hrec.size, h.size, hlen]
  · intro rs hrs
    rw [hrec.options]
    rcases List.mem_append.mp hrs with hrs | hrs
    · exact h.bounded rs (List.mem_append_left _ hrs)
    · rw [List.mem_singleton.mp hrs]
      rcases hroom with rfl | hroom
      · exact Or.inr rfl
      · exact Or.inl (hlen ▸ hroom)
  · intro r hr
    rw [List.flatten_append, List.flatten_singleton, ← List.append_assoc] at hr
    rcases List.mem_append.mp hr with hr | hr
    · exact h.made r (by rwa [List.flatten_append, List.flatten_singleton])
    · rw [List.mem_singleton.mp hr]
      exact ⟨type, seq, _, rfl, hkey, hvalue⟩

/-- **A record is written whole**, into one file. -/
theorem Whole.write (h : Whole env w batches cur) (hok : env.Fine) {type : WalRecordType}
    {key value : Bytes} {seq : UInt64} {s : Status}
    (hrun : w.writeRecord env type key value seq = some (s, w')) :
    ∃ batches' cur' rs, Whole env w' batches' cur' ∧ w'.options = w.options ∧
      (batches' ++ [cur']).flatten = (batches ++ [cur]).flatten ++ rs ∧
      rs.map WalRecord.fields = (WalOp.write type key value seq).accepted.toList := by
  by_cases hlarge : key.length > uint32Max ∨ value.length > uint32Max
  · rw [writeRecord_large hlarge] at hrun
    obtain ⟨-, rfl⟩ := Prod.mk.inj (Option.some.inj hrun)
    refine ⟨batches, cur, [], h, rfl, (List.append_nil _).symm, ?_⟩
    rw [WalOp.accepted, if_pos hlarge]
    rfl
  · rw [writeRecord_eq hlarge] at hrun
    obtain ⟨w₂, happend, heq⟩ := Option.map_eq_some_iff.mp hrun
    obtain ⟨-, rfl⟩ := Prod.mk.inj heq
    obtain ⟨batches₁, cur₁, h₁, hflat, hoptions₁, hroom⟩ := h.rotated hok key value
    obtain ⟨hwhole, hoptions⟩ := h₁.record hok happend
      (Nat.le_of_not_gt (fun hk => hlarge (Or.inl hk)))
      (Nat.le_of_not_gt (fun hv => hlarge (Or.inr hv))) (hoptions₁ ▸ hroom)
    refine ⟨batches₁, _, [w.loggedRecord env type key value seq], hwhole,
      hoptions.trans hoptions₁, ?_, ?_⟩
    · rw [← hflat, List.flatten_append, List.flatten_append, List.flatten_singleton,
        List.flatten_singleton, List.append_assoc]
      rfl
    · rw [WalOp.accepted, if_neg hlarge]
      rfl

theorem Whole.apply (h : Whole env w batches cur) (hok : env.Fine) {op : WalOp} {s : Status}
    (hrun : w.apply env op = some (s, w')) :
    ∃ batches' cur' rs, Whole env w' batches' cur' ∧ w'.options = w.options ∧
      (batches' ++ [cur']).flatten = (batches ++ [cur]).flatten ++ rs ∧
      rs.map WalRecord.fields = op.accepted.toList := by
  cases op with
  | write type key value seq => exact h.write hok hrun
  | rotate =>
      obtain ⟨-, rfl⟩ := Prod.mk.inj (Option.some.inj hrun)
      obtain ⟨hrot, hoptions⟩ := h.rotate hok
      exact ⟨_, _, [], hrot, hoptions, by simp, rfl⟩
  | flush =>
      obtain ⟨-, rfl⟩ := Prod.mk.inj (Option.some.inj hrun)
      exact ⟨_, _, [], h.flush hok, flushBuffer_options, by simp, rfl⟩
  | sync =>
      obtain ⟨-, rfl⟩ := Prod.mk.inj (Option.some.inj hrun)
      obtain ⟨closed, f, hw, -⟩ := h.writing
      exact ⟨_, _, [], h.sync hok, (hw.holds.sync env).2.1.options, by simp, rfl⟩

/-! ## §3. Opening and closing. -/

theorem whole_new (options : WalOptions) {d : Disk} (hd : d.files.entries = []) (hok : env.Fine) :
    Whole env (new env options d) [] [] ∧ (new env options d).options = options := by
  obtain ⟨f, hw, hgood, hoptions, hsize, -⟩ := writing_new_empty options hd (hok _)
  refine ⟨⟨⟨[], f, hw, rfl⟩, hgood, hsize, ?_, by simp⟩, hoptions⟩
  intro rs hrs
  rw [List.nil_append] at hrs
  rw [List.mem_singleton.mp hrs]
  exact bounded_nil _

/-- The files a closed log leaves. -/
theorem Whole.destroy (h : Whole env w batches cur) (hok : env.Fine) :
    ∃ closed f, (w.destroy env).files.entries = closed ++ [(w.currentFileNumber, f)] ∧
      closed.map (fun e => e.2.content) = batches.map batchBytes ∧ f.content = batchBytes cur := by
  obtain ⟨closed, f, hw, hclosed⟩ := h.writing
  obtain ⟨f', hentries, hcontent⟩ := hw.destroy h.good (hok.ok _ _)
  exact ⟨closed, f', hentries, hclosed, hcontent⟩

theorem Whole.reopen (h : Whole env w batches cur) (hok : env.Fine) (options : WalOptions)
    (hmax : options.maxFileSize = w.options.maxFileSize) :
    Whole env (new env options (w.destroy env)) batches cur ∧
      (new env options (w.destroy env)).options = options := by
  obtain ⟨closed, f, hentries, hclosed, hcontent⟩ := h.destroy hok
  obtain ⟨hw, hgood, hoptions, -, hsize⟩ := new_last options hentries (hok (w.destroy env).requests)
  rw [hcontent] at hw hsize
  refine ⟨⟨⟨closed, f, hw, hclosed⟩, hgood, hsize, ?_, h.made⟩, hoptions⟩
  rw [hoptions, hmax]
  exact h.bounded

theorem Whole.session (h : Whole env w batches cur) (hok : env.Fine) {op : SessionOp}
    (hrun : w.session env op = some w') :
    ∃ batches' cur' rs, Whole env w' batches' cur' ∧
      w'.options.maxFileSize = w.options.maxFileSize ∧
      (batches' ++ [cur']).flatten = (batches ++ [cur]).flatten ++ rs ∧
      rs.map WalRecord.fields = op.accepted.toList := by
  cases op with
  | call op =>
      obtain ⟨⟨s, w₁⟩, happly, rfl⟩ := Option.map_eq_some_iff.mp hrun
      obtain ⟨batches', cur', rs, h', hoptions, hflat, hfields⟩ := h.apply hok happly
      exact ⟨batches', cur', rs, h', by rw [hoptions], hflat, hfields⟩
  | reopen bufferSize syncOnWrite =>
      obtain rfl := Option.some.inj hrun
      obtain ⟨h', hoptions⟩ := h.reopen hok { w.options with bufferSize, syncOnWrite } rfl
      exact ⟨batches, cur, [], h', by rw [hoptions], (List.append_nil _).symm, rfl⟩

/-! ## §4. Runs. -/

/-- **A run keeps every record whole**, and adds what it accepts in order. -/
theorem Whole.run (hok : env.Fine) :
    ∀ (ops : List SessionOp) {w w' : WriteAheadLog} {batches : List (List WalRecord)}
      {cur : List WalRecord}, Whole env w batches cur →
      steps (WriteAheadLog.session env) w ops = some w' →
      ∃ batches' cur' rs, Whole env w' batches' cur' ∧
        w'.options.maxFileSize = w.options.maxFileSize ∧
        (batches' ++ [cur']).flatten = (batches ++ [cur]).flatten ++ rs ∧
        rs.map WalRecord.fields = ops.filterMap SessionOp.accepted := by
  intro ops
  induction ops with
  | nil =>
      intro w w' batches cur h hrun
      obtain rfl := Option.some.inj hrun
      exact ⟨batches, cur, [], h, rfl, (List.append_nil _).symm, rfl⟩
  | cons op ops ih =>
      intro w w' batches cur h hrun
      rw [steps_cons] at hrun
      obtain ⟨w₁, hstep, hrest⟩ := Option.bind_eq_some_iff.mp hrun
      obtain ⟨batches₁, cur₁, rs₁, h₁, hmax₁, hflat₁, hfields₁⟩ := h.session hok hstep
      obtain ⟨batches', cur', rs, h', hmax', hflat, hfields⟩ := ih h₁ hrest
      refine ⟨batches', cur', rs₁ ++ rs, h', hmax'.trans hmax₁, ?_, ?_⟩
      · rw [hflat, hflat₁, List.append_assoc]
      · rw [List.map_append, hfields₁, hfields, List.filterMap_cons]
        cases op.accepted <;> rfl

theorem Whole.counted (h : Whole env w batches cur) :
    ∃ f, w.disk.file w.currentFileNumber = some f ∧
      w.currentFileSize = (f.content ++ w.currentFile.pending).length + w.buffer.length := by
  obtain ⟨closed, f, hw, -⟩ := h.writing
  exact ⟨f, Disk.file_last hw.entries, by rw [h.size, ← hw.bytes, List.length_append]⟩

theorem Whole.settled (h : Whole env w batches cur) :
    w.settled.map (fun e => e.2.content) = (batches ++ [cur]).map batchBytes := by
  obtain ⟨closed, f, hw, hclosed⟩ := h.writing
  rw [hw.settled_eq, List.map_append, hclosed, List.map_append, List.map_singleton,
    List.map_singleton]

/-- **The files of a log.**  Records of any sizes are written, with rotations,
flushes and syncs in between, and the log is closed and opened again any number
of times.  At every point of the run `current_file_size` is what the current
file was handed and what the buffer keeps for it; every file, with what is on
its way to it, consists of whole records; together they are the records
accepted so far, in order; and each is one record or at most `max_file_size`
long. -/
theorem file_sizes (env : Env) (hok : env.Fine) (options : WalOptions) (ops : List SessionOp)
    {w : WriteAheadLog}
    (hrun : steps (WriteAheadLog.session env) (new env options {}) ops = some w) :
    (∃ f, w.disk.file w.currentFileNumber = some f ∧
      w.currentFileSize = (f.content ++ w.currentFile.pending).length + w.buffer.length) ∧
    ∃ batches : List (List WalRecord),
      w.settled.map (fun e => e.2.content) = batches.map batchBytes ∧
      batches.flatten.map WalRecord.fields = ops.filterMap SessionOp.accepted ∧
      ∀ rs ∈ batches, Bounded options.maxFileSize rs := by
  obtain ⟨hnew, hoptions⟩ := whole_new options (d := {}) rfl hok
  obtain ⟨batches, cur, rs, h, hmax, hflat, hfields⟩ := Whole.run hok ops hnew hrun
  refine ⟨h.counted, batches ++ [cur], h.settled, ?_, ?_⟩
  · rw [hflat]
    exact hfields
  · rw [hoptions] at hmax
    exact hmax ▸ h.bounded

/-- Two records of 31 bytes, one longer than the limit, and one more. -/
def boundaryRun : List SessionOp :=
  [.call (.write .kPut [1] [2] 1), .reopen 48 false, .call (.write .kPut [3] [4] 2),
    .call (.write .kPut [5] (List.replicate 40 0) 3), .call (.write .kDelete [5] [] 4),
    .call .flush]

/-- At a limit of 62 bytes. -/
theorem file_sizes_boundary :
    ∃ w, steps (WriteAheadLog.session .undisturbed) (new .undisturbed { maxFileSize := 62 } {})
        boundaryRun = some w ∧
      (∃ f, w.disk.file w.currentFileNumber = some f ∧
        w.currentFileSize = (f.content ++ w.currentFile.pending).length + w.buffer.length) ∧
      ∃ batches : List (List WalRecord),
        w.settled.map (fun e => e.2.content) = batches.map batchBytes ∧
        batches.flatten.map WalRecord.fields = boundaryRun.filterMap SessionOp.accepted ∧
        ∀ rs ∈ batches, Bounded 62 rs := by
  have hdefined : (steps (WriteAheadLog.session .undisturbed)
      (new .undisturbed { maxFileSize := 62 } {}) boundaryRun).isSome = true := by decide +kernel
  obtain ⟨w, hrun⟩ := Option.isSome_iff_exists.mp hdefined
  exact ⟨w, hrun, file_sizes .undisturbed Env.fine_undisturbed { maxFileSize := 62 } _ hrun⟩

end WriteAheadLog

end KvEngine
