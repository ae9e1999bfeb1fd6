/-
  KvEngine.Wal.Truncate
  ─────────────────────
  **A log that is written, closed and cut short is read back as far as it
  goes.**

  `runs_log`: any sequence of records, rotations, flushes and syncs leaves a
  log whose segments hold the records in order.  `recover_truncated` closes
  the log, cuts the highest-numbered file at any length, and says what
  `Recover` then delivers.
-/
import KvEngine.Wal.Ledger
import KvEngine.Wal.Segments

namespace KvEngine

open Lib

/-! ## §1. Calls on the log. -/

namespace WalOp

/-- The record a call writes. -/
def record : WalOp → Option (WalRecordType × UInt64 × Bytes × Bytes)
  | write type key value seq => some (type, seq, key, value)
  | _ => none

/-- The record can be written and read back. -/
def Fits (options : WalOptions) : WalOp → Prop
  | write _ key value _ => WriteAheadLog.Fits options key value
  | _ => True

end WalOp

/-- All bytes of the log, file after file. -/
def Disk.bytes (d : Disk) : Bytes := d.files.entries.flatMap (fun e => e.2.content)

/-- The highest-numbered file cut off after `len` bytes. -/
def Disk.cutLast (d : Disk) (len : Nat) : Disk :=
  match d.files.entries.getLast? with
  | none => d
  | some (n, f) => d.setFile n { f with content := f.content.take len }

/-- What a record says, apart from its timestamp and its checksum. -/
def WalRecord.fields (r : WalRecord) : WalRecordType × UInt64 × Bytes × Bytes :=
  (r.header.type, r.header.sequenceNumber, r.key, r.value)

namespace WriteAheadLog

variable {env : Env} {w : WriteAheadLog} {gs : List Segment} {g : Segment}

/-- No file has anything after its last record. -/
def Clean (gs : List Segment) : Prop := ∀ q ∈ gs, q.tail = []

theorem Clean.snoc {gs' : List Segment} {g' : Segment} (h : Clean gs) (hold : ∀ q ∈ gs', q ∈ gs)
    (htail : g'.tail = []) : Clean (gs' ++ [g']) := by
  intro q hq
  rcases List.mem_append.mp hq with hq | hq
  · exact h q (hold q hq)
  · rw [List.mem_singleton.mp hq]
    exact htail

/-- **One call**: every status is OK, and the record of a write is the last
one of the log. -/
theorem Log.apply (h : Log env w gs g) (hok : env.Fine) (hclean : Clean (gs ++ [g])) {op : WalOp}
    (hfits : op.Fits w.options) :
    ∃ w' gs' g' rs, w.apply env op = some (.okStatus, w') ∧ Log env w' gs' g' ∧
      Clean (gs' ++ [g']) ∧ w'.options = w.options ∧
      (gs' ++ [g']).flatMap Segment.records = (gs ++ [g]).flatMap Segment.records ++ rs ∧
      rs.map WalRecord.fields = op.record.toList := by
  have htail : g.tail = [] := hclean g (by simp)
  cases op with
  | write type key value seq =>
      obtain ⟨w', gs', g', time, hrun, hlog, htail', hold, hoptions, hrecords⟩ :=
        h.write hok type seq hfits (Or.inl htail)
      exact ⟨w', gs', g', _, hrun, hlog, hclean.snoc hold htail', hoptions, hrecords, rfl⟩
  | rotate =>
      obtain ⟨hrot, hoptions⟩ := h.rotate hok
      exact ⟨_, _, _, [], rfl, hrot, hclean.snoc (fun _ hq => hq) rfl, hoptions, by simp, rfl⟩
  | flush => exact ⟨_, gs, g, [], rfl, h.flush hok, hclean, flushBuffer_options, by simp, rfl⟩
  | sync =>
      obtain ⟨closed, f, hw, -⟩ := h.writing
      obtain ⟨hstatus, hlog⟩ := h.sync hok
      refine ⟨_, gs, g, [], ?_, hlog, hclean, (hw.holds.sync env).2.1.options, by simp, rfl⟩
      rw [WriteAheadLog.apply, ← hstatus]

/-- **A run writes its records in order.** -/
theorem runs_log (hok : env.Fine) :
    ∀ (ops : List WalOp) {w : WriteAheadLog} {gs : List Segment} {g : Segment},
      Log env w gs g → Clean (gs ++ [g]) → (∀ op ∈ ops, op.Fits w.options) →
      ∃ outs w' gs' g' rs, run? (WriteAheadLog.apply env) w ops = some (outs, w') ∧
        (∀ s ∈ outs, s = .okStatus) ∧ Log env w' gs' g' ∧ Clean (gs' ++ [g']) ∧
        w'.options = w.options ∧
        (gs' ++ [g']).flatMap Segment.records = (gs ++ [g]).flatMap Segment.records ++ rs ∧
        rs.map WalRecord.fields = ops.filterMap WalOp.record := by
  intro ops
  -- On the calls; `Log` and `Clean` carry over from each to the next.
  induction ops with
  | nil =>
      intro w gs g h hclean _
      exact ⟨[], w, gs, g, [], rfl, by simp, h, hclean, rfl, by simp, rfl⟩
  | cons op ops ih =>
      intro w gs g h hclean hfits
      obtain ⟨w₁, gs₁, g₁, rs₁, hstep, h₁, hclean₁, hoptions₁, hrecords₁, hfields₁⟩ :=
        h.apply hok hclean (hfits op List.mem_cons_self)
      obtain ⟨outs, w', gs', g', rs, hrun, houts, h', hclean', hoptions', hrecords', hfields'⟩ :=
        ih h₁ hclean₁ (fun op hop => hoptions₁ ▸ hfits op (List.mem_cons_of_mem _ hop))
      refine ⟨.okStatus :: outs, w', gs', g', rs₁ ++ rs, ?_, ?_, h', hclean',
        hoptions'.trans hoptions₁, ?_, ?_⟩
      · simp only [run?, hstep, hrun, Option.bind_eq_bind, Option.bind_some]
      · intro s hs
        rcases List.mem_cons.mp hs with rfl | hs
        · rfl
        · exact houts s hs
      · rw [hrecords', hrecords₁, List.append_assoc]
      · rw [List.map_append, hfields₁, hfields', List.filterMap_cons]
        cases op.record <;> rfl

/-! ## §2. Reading a log back. -/

/-- A callback that keeps the records it is called on. -/
def collect (rs : List WalRecord) (header : WalRecordHeader) (key value : Bytes) :
    Option (List WalRecord) := some (rs ++ [⟨header, key, value⟩])

theorem replay_collect (rs ss : List WalRecord) : replay collect rs ss = some (rs ++ ss) := by
  induction ss generalizing rs with
  | nil => rw [List.append_nil]; rfl
  | cons r ss ih =>
      have hstep : replay collect rs (r :: ss) = replay collect (rs ++ [r]) ss := rfl
      rw [hstep, ih, List.append_assoc, List.singleton_append]

/-- The maximum of the sequence numbers, 0 if there are none. -/
structure IsMaxSequence (rs : List WalRecord) (m : UInt64) : Prop where
  upper : ∀ r ∈ rs, r.header.sequenceNumber ≤ m
  attained : m = 0 ∨ ∃ r ∈ rs, r.header.sequenceNumber = m

theorem isMaxSequence_nil : IsMaxSequence [] 0 := ⟨by simp, Or.inl rfl⟩

theorem isMaxSequence_foldl :
    ∀ (rs : List WalRecord) {ss : List WalRecord} {m : UInt64}, IsMaxSequence ss m →
      IsMaxSequence (ss ++ rs) (rs.foldl maxSequence m) := by
  intro rs
  induction rs with
  | nil => intro ss m h; rwa [List.append_nil]
  | cons r rs ih =>
      intro ss m h
      have hstep : IsMaxSequence (ss ++ [r]) (maxSequence m r) := by
        unfold maxSequence
        -- The maximum moves only to a larger number.
        split
        next hgt =>
          refine ⟨fun q hq => ?_, Or.inr ⟨r, by simp, rfl⟩⟩
          rcases List.mem_append.mp hq with hq | hq
          · exact UInt64.le_of_lt (UInt64.lt_of_le_of_lt (h.upper q hq) hgt)
          · rw [List.mem_singleton.mp hq]
            exact UInt64.le_refl _
        next hle =>
          refine ⟨fun q hq => ?_, ?_⟩
          · rcases List.mem_append.mp hq with hq | hq
            · exact h.upper q hq
            · rw [List.mem_singleton.mp hq]
              exact UInt64.not_lt.mp hle
          · rcases h.attained with h0 | ⟨q, hq, hm⟩
            · exact Or.inl h0
            · exact Or.inr ⟨q, List.mem_append_left _ hq, hm⟩
      have := ih hstep
      rwa [List.append_assoc, List.singleton_append] at this

/-- **`Recover` on segments** delivers their records and the largest
sequence number. -/
theorem recover_segments (hok : env.Fine)
    (hsegs : Segments w.disk.files.entries gs) (hgs : ∀ q ∈ gs, q.Ok env.crc32 w.options) :
    ∃ m w', w.recover env collect [] = some (.okStatus, some m, gs.flatMap Segment.records, w') ∧
      IsMaxSequence (gs.flatMap Segment.records) m := by
  obtain ⟨requests, hrec⟩ := recover_eq collect hok w []
  rw [recordsOf_all hsegs hgs] at hrec
  simp only [replay_collect, List.nil_append, Option.map_some, Option.getD_none,
    Option.isNone_none, if_true] at hrec
  exact ⟨_, _, hrec, isMaxSequence_foldl _ isMaxSequence_nil⟩

theorem bytes_segments {d : Disk} (h : Segments d.files.entries gs) :
    d.bytes = gs.flatMap Segment.content := by
  have hmap := congrArg (List.flatMap (fun e : Nat × Bytes => e.2)) h
  rw [List.flatMap_map, List.flatMap_map] at hmap
  exact hmap

theorem content_clean (h : Clean gs) : gs.flatMap Segment.content
    = encodeAll WalRecord.encode (gs.flatMap Segment.records) := by
  rw [encodeAll, List.flatMap_assoc]
  refine List.flatMap_congr (fun q hq => ?_)
  rw [Segment.content, h q hq, List.append_nil]
  rfl

/-! ## §3. Cutting the last file. -/

/-- **A cut keeps the records that fit.** -/
theorem segments_cutLast {crc32 : Bytes → UInt32} {options : WalOptions} {d : Disk}
    (h : Segments d.files.entries (gs ++ [g])) (hg : g.Ok crc32 options) (htail : g.tail = [])
    (len : Nat) :
    ∃ g', Segments (d.cutLast len).files.entries (gs ++ [g']) ∧ g'.Ok crc32 options ∧
      g'.records = fitting WalRecord.encode len g.records ∧
      g'.content = (encodeAll WalRecord.encode g.records).take len := by
  rw [Segments, List.map_append, List.map_singleton, List.map_eq_append_iff] at h
  obtain ⟨closed, last, hentries, hclosed, hlast⟩ := h
  obtain ⟨⟨n, f⟩, rfl, hpair⟩ := List.map_eq_singleton_iff.mp hlast
  obtain ⟨rfl, hcontent⟩ := Prod.mk.inj hpair
  -- A cut leaves the records that fit and a tail nothing is read from.
  obtain ⟨tail, htake, hstop⟩ := take_records (filePath options g.number) hg.valid len
  have hfile : f.content = encodeAll WalRecord.encode g.records := by
    rw [show f.content = g.content from hcontent, Segment.content, htail, List.append_nil]
  have hlast' : d.files.entries.getLast? = some (g.number, f) := by
    rw [hentries, List.getLast?_concat]
  refine ⟨⟨g.number, fitting WalRecord.encode len g.records, tail⟩, ?_, ⟨fun r hr => ?_, hstop⟩,
    rfl, htake.symm⟩
  · rw [Disk.cutLast, hlast']
    simp only []
    rw [Disk.setFile_last hentries, hfile, htake]
    exact Segments.append hclosed
      (segments_singleton (g := ⟨g.number, fitting WalRecord.encode len g.records, tail⟩) rfl)
  · exact hg.valid r ((fitting_initial WalRecord.encode len g.records).subset hr)

/-- **`Recover` after a cut.**  Records are written with any rotations,
flushes and syncs in between, and the log is closed; whatever length the
highest-numbered file is then cut to, `Recover` returns OK, delivers exactly
the records that lie wholly in the bytes that remain, in the order and with
the contents they were written with, and reports the maximum of their
sequence numbers. -/
theorem recover_truncated (env : Env) (hok : env.Fine) (options : WalOptions) (ops : List WalOp)
    (hfits : ∀ op ∈ ops, op.Fits options) (len : Nat) :
    ∃ outs w rs, run? (WriteAheadLog.apply env) (new env options {}) ops = some (outs, w) ∧
      (∀ s ∈ outs, s = .okStatus) ∧ rs.map WalRecord.fields = ops.filterMap WalOp.record ∧
      (w.destroy env).bytes = encodeAll WalRecord.encode rs ∧
      ∃ d m w', d = (w.destroy env).cutLast len ∧
        (new env options d).recover env collect []
          = some (.okStatus, some m, fitting WalRecord.encode d.bytes.length rs, w') ∧
        IsMaxSequence (fitting WalRecord.encode d.bytes.length rs) m := by
  obtain ⟨hlog, hoptions, -⟩ := log_new_empty options (d := {}) rfl hok
  obtain ⟨outs, w, gs, g, rs, hrun, houts, hlog', hclean, hoptions', hrecords, hfields⟩ :=
    runs_log hok ops hlog (by simp [Clean]) (fun op hop => hoptions ▸ hfits op hop)
  rw [List.nil_append, List.flatMap_singleton, List.nil_append] at hrecords
  have hclosed := hlog'.destroy hok
  have hgs : ∀ q ∈ gs ++ [g], q.Ok env.crc32 options := (hoptions'.trans hoptions) ▸ hlog'.ok
  refine ⟨outs, w, rs, hrun, houts, hfields, ?_, ?_⟩
  · rw [bytes_segments hclosed, content_clean hclean, hrecords]
  · obtain ⟨g', hcut, hg', hrecords', hcontent'⟩ :=
      segments_cutLast hclosed (hgs g (by simp)) (hclean g (by simp)) len
    have hgs' : ∀ q ∈ gs ++ [g'], q.Ok env.crc32 options := by
      intro q hq
      rcases List.mem_append.mp hq with hq | hq
      · exact hgs q (List.mem_append_left _ hq)
      · rw [List.mem_singleton.mp hq]
        exact hg'
    obtain ⟨-, hopts, hnew⟩ := log_new options hcut hgs' hok
    -- the records that fit into what remains
    have hremain : ((w.destroy env).cutLast len).bytes.length
        = (encodeAll WalRecord.encode (gs.flatMap Segment.records)).length
          + min len (encodeAll WalRecord.encode g.records).length := by
      rw [bytes_segments hcut, List.flatMap_append, List.flatMap_singleton,
        content_clean (fun q hq => hclean q (List.mem_append_left _ hq)), hcontent',
        List.length_append, List.length_take]
    have hdelivered : (gs ++ [g']).flatMap Segment.records
        = fitting WalRecord.encode ((w.destroy env).cutLast len).bytes.length rs := by
      rw [← hrecords, List.flatMap_append, List.flatMap_append, List.flatMap_singleton,
        List.flatMap_singleton, hremain, fitting_append WalRecord.encode (Nat.le_add_right _ _),
        Nat.add_sub_cancel_left, fitting_min, hrecords']
    obtain ⟨m, w', hrec, hmax⟩ := recover_segments hok hnew (hopts.symm ▸ hgs')
    rw [hdelivered] at hrec hmax
    exact ⟨_, m, w', rfl, hrec, hmax⟩

/-- Two records in two files, the second cut off after its header. -/
theorem recover_truncated_two :
    ∃ outs w rs, run? (WriteAheadLog.apply .undisturbed) (new .undisturbed {} {})
        [.write .kPut [1] [2] 7, .rotate, .write .kDelete [1] [] 8] = some (outs, w) ∧
      (∀ s ∈ outs, s = .okStatus) ∧
      rs.map WalRecord.fields = [(.kPut, 7, [1], [2]), (.kDelete, 8, [1], [])] ∧
      (w.destroy .undisturbed).bytes = encodeAll WalRecord.encode rs ∧
      ∃ d m w', d = (w.destroy .undisturbed).cutLast 29 ∧
        (new .undisturbed {} d).recover .undisturbed collect []
          = some (.okStatus, some m, fitting WalRecord.encode d.bytes.length rs, w') ∧
        IsMaxSequence (fitting WalRecord.encode d.bytes.length rs) m :=
  recover_truncated .undisturbed Env.fine_undisturbed {}
    [.write .kPut [1] [2] 7, .rotate, .write .kDelete [1] [] 8] (by
      simp only [List.mem_cons, List.not_mem_nil, or_false, forall_eq_or_imp, forall_eq, WalOp.Fits]
      exact ⟨⟨by decide, by decide, by decide, by decide, by decide⟩, trivial,
        ⟨by decide, by decide, by decide, by decide, by decide⟩⟩) 29

end WriteAheadLog

end KvEngine
