/-
  KvEngine.Engine.Replay
  ──────────────────────
  An engine opened on the files of a `WriteAheadLog` of its own.

  A log takes records of every type, markers of transactions among them, with any
  sequence numbers.  The constructor of `KVEngine` binds each key to what its last
  put or delete says (`bound`), in the order of writing.  Markers change no key, so
  a transaction that was rolled back counts like any other; they do count for the
  sequence number the engine goes on with.
-/
import KvEngine.Engine.Agreement
import KvEngine.Wal.Limits

namespace KvEngine

open Lib

/-! ## §1. What the records say. -/

/-- Type, sequence number, key and value of a record. -/
abbrev WalFields := WalRecordType × UInt64 × Bytes × Bytes

/-- The key a record binds and its new value. -/
def WalFields.writes (r : WalFields) : Option (Bytes × Option Bytes) :=
  if r.1 = .kPut then (if r.2.2.1 = [] then none else some (r.2.2.1, some r.2.2.2))
  else if r.1 = .kDelete then some (r.2.2.1, none)
  else none

/-- What the records leave each key bound to. -/
def bound (records : List WalFields) : RefMap :=
  overwriteAll WalFields.writes RefMap.empty records

/-- The sequence number behind all of theirs. -/
def sequenceBehind (records : List WalFields) : UInt64 :=
  let maxSequence := records.foldl (fun m r => if r.2.1 > m then r.2.1 else m) 0
  if maxSequence > 0 then maxSequence + 1 else 1

theorem replayAll_bound (rs : List WalRecord) :
    RefMap.empty.replayAll rs = bound (rs.map WalRecord.fields) := by
  rw [RefMap.replayAll_eq]
  unfold bound overwriteAll
  rw [List.foldl_map]
  rfl

theorem foldl_maxSequence (rs : List WalRecord) (m : UInt64) :
    rs.foldl WriteAheadLog.maxSequence m
      = (rs.map WalRecord.fields).foldl (fun m r => if r.2.1 > m then r.2.1 else m) m := by
  rw [List.foldl_map]
  rfl

/-! ## §2. The files. -/

namespace WriteAheadLog

/-- All records of all batches are read. -/
theorem recordsOf_batches {crc32 : Bytes → UInt32} {options : WalOptions} :
    ∀ {files : List (Nat × File)} {batches : List (List WalRecord)},
      files.map (fun e => e.2.content) = batches.map batchBytes →
      (∀ r ∈ batches.flatten, r.Valid crc32) →
      recordsOf crc32 options files = (batches.flatten, none) := by
  intro files
  induction files with
  | nil =>
      intro batches h _
      obtain rfl := List.map_eq_nil_iff.mp h.symm
      rfl
  | cons e files ih =>
      intro batches h hvalid
      cases batches with
      | nil => exact nomatch h
      | cons rs batches =>
          obtain ⟨n, f⟩ := e
          obtain ⟨hcontent, htail⟩ := List.cons.inj h
          rw [List.flatten_cons] at hvalid
          have hfile : recordsOf crc32 options [(n, f)] = (rs, none) :=
            recordsOf_encoded n hcontent (fun r hr => hvalid r (List.mem_append_left _ hr))
          rw [show (n, f) :: files = [(n, f)] ++ files from rfl, recordsOf_append, hfile,
            ih htail (fun r hr => hvalid r (List.mem_append_right _ hr)), List.flatten_cons]
          rfl

end WriteAheadLog

/-- The reader takes the records of a call that the writer takes. -/
def SessionOp.Readable : SessionOp → Prop
  | .call op => op.Readable
  | .reopen _ _ => True

/-- An accepted record that the reader takes is within its limit. -/
theorem SessionOp.Readable.within {op : SessionOp} (h : op.Readable) {r : WalRecord}
    (hr : op.accepted = some r.fields) : WriteAheadLog.Within r := by
  cases op with
  | reopen bufferSize syncOnWrite => cases hr
  | call op =>
      cases op with
      | rotate | flush | sync => cases hr
      | write type key value seq =>
          have hrun : (if key.length > WriteAheadLog.uint32Max ∨
              value.length > WriteAheadLog.uint32Max then none else some (type, seq, key, value))
              = some r.fields := hr
          split at hrun
          · cases hrun
          next hsmall =>
            obtain ⟨-, -, rfl, rfl⟩ : _ ∧ _ ∧ key = r.key ∧ value = r.value := by
              simpa [WalRecord.fields] using hrun
            exact h (Nat.le_of_not_gt (fun hk => hsmall (Or.inl hk)))
              (Nat.le_of_not_gt (fun hv => hsmall (Or.inr hv)))

/-! ## §3. The engine on top of them. -/

namespace KVEngine

/-- The constructor behind a recovery that succeeds. -/
theorem new_recovered {env : Env} {options : KVEngineOptions} {d : Disk} {m : UInt64}
    {t : BPlusTree} {w : WriteAheadLog} (hwal : options.enableWal = true)
    (hrec : (WriteAheadLog.new env options.walOptions d).recover env recoveryCallback
      (BPlusTree.new options.btreeOptions) = some (.okStatus, some m, t, w)) :
    KVEngine.new env options d = some ⟨options, t, some w, if m > 0 then m + 1 else 1⟩ := by
  simp only [KVEngine.new, recover, hwal, if_true, hrec, Option.bind_eq_bind, Option.bind_some,
    Status.ok_okStatus, Bool.true_and, Option.getD_some, decide_eq_true_eq]
  split <;> rfl

/-- **An engine is what its log says**, whoever wrote it: behind any calls of a
`WriteAheadLog`, rotations, flushes, syncs and reopenings among them, an engine on
its directory binds each key to what the last put or delete of it says, in
transactions or not, and goes on with the sequence number behind all others. -/
theorem log_opened (env : Env) (hok : env.Fine) (options : KVEngineOptions)
    (hwal : options.enableWal = true) (walOptions : WalOptions) (ops : List SessionOp)
    (hread : ∀ op ∈ ops, op.Readable) {w : WriteAheadLog}
    (hrun : steps (WriteAheadLog.session env) (.new env walOptions {}) ops = some w) :
    ∃ e, KVEngine.new env options (w.destroy env) = some e ∧
      e.sequenceNumber = sequenceBehind (ops.filterMap SessionOp.accepted) ∧
      ∀ key, e.get key = some (match bound (ops.filterMap SessionOp.accepted) key with
        | some value => (.okStatus, some value)
        | none => (.notFound "Key not found", none)) := by
  obtain ⟨batches, cur, rs, hw, -, hflat, hfields⟩ :=
    WriteAheadLog.Whole.run hok _ (WriteAheadLog.whole_new walOptions rfl hok).1 hrun
  rw [List.nil_append, List.flatten_singleton, List.nil_append] at hflat
  -- every record is one of those accepted, so the reader takes it
  have hvalid : ∀ r ∈ (batches ++ [cur]).flatten, r.Valid env.crc32 := by
    intro r hr
    refine (hw.made r hr).valid ?_
    rw [hflat] at hr
    have haccepted := List.mem_map_of_mem (f := WalRecord.fields) hr
    rw [hfields] at haccepted
    obtain ⟨op, hop, heq⟩ := List.mem_filterMap.mp haccepted
    exact (hread op hop).within heq
  have hrecords := @WriteAheadLog.recordsOf_batches env.crc32
    (WriteAheadLog.new env options.walOptions (w.destroy env)).options _ _
    (hw.reopened hok options.walOptions) hvalid
  obtain ⟨t, hreplay, hmodels⟩ := replay_models rs (BPlusTree.models_new options.btreeOptions)
  obtain ⟨requests, hrec⟩ := WriteAheadLog.recover_eq recoveryCallback hok
    (.new env options.walOptions (w.destroy env)) (BPlusTree.new options.btreeOptions)
  rw [hrecords, hflat] at hrec
  simp only [hreplay, Option.map_some, Option.getD_none, Option.isNone_none, if_true] at hrec
  refine ⟨_, new_recovered hwal hrec, ?_, fun key => ?_⟩
  · rw [← hfields, sequenceBehind, ← foldl_maxSequence]
  · rw [← hfields, ← replayAll_bound]
    exact hmodels.get key

/-- A put in a transaction that is rolled back, and a delete behind it. -/
def rolledBack : List SessionOp :=
  [.call (.write .kPut [1] [9] 1), .call (.write .kBeginTransaction [] [] 5),
    .call (.write .kPut [2] [7] 6), .reopen 64 true,
    .call (.write .kRollbackTransaction [] [] 8), .call .rotate, .call (.write .kDelete [1] [] 3)]

theorem log_opened_rolledBack : ∃ w e,
    steps (WriteAheadLog.session .undisturbed) (.new .undisturbed {} {}) rolledBack = some w ∧
    KVEngine.new .undisturbed {} (w.destroy .undisturbed) = some e ∧ e.sequenceNumber = 9 ∧
    e.get [1] = some (.notFound "Key not found", none) ∧
    e.get [2] = some (.okStatus, some [7]) := by
  have hdefined : (steps (WriteAheadLog.session .undisturbed)
      (.new .undisturbed {} {}) rolledBack).isSome = true := by decide +kernel
  obtain ⟨w, hrun⟩ := Option.isSome_iff_exists.mp hdefined
  obtain ⟨e, hnew, hseq, hget⟩ := log_opened .undisturbed Env.fine_undisturbed {} rfl {}
    rolledBack (by simp [rolledBack, SessionOp.Readable, WalOp.Readable, kMaxFieldSize_toNat]) hrun
  exact ⟨w, e, hrun, hnew, hseq, hget [1], hget [2]⟩

end KVEngine

end KvEngine
