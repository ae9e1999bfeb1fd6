/-
  KvEngine.Wal.Segments
  ─────────────────────
  **The log as a list of segments**, while no request fails.

  `Log env w gs g`: the closed files hold the segments `gs`, and the current
  file with what is on its way to it holds the segment `g`.  Writing a record
  adds it to `g` or to a new segment after it; a rotation starts a new
  segment; flushing and syncing change nothing; closing and opening the log
  keep the segments, and `Recover` right after opening delivers their
  records in order.
-/
import KvEngine.Wal.Append
import KvEngine.Wal.Decode

namespace KvEngine

open Lib

namespace WriteAheadLog

/-- The segments of an open log. -/
structure Log (env : Env) (w : WriteAheadLog) (gs : List Segment) (g : Segment) : Prop where
  writing : ∃ closed f, Writing w closed f g.content ∧ Segments closed gs
  good : w.currentFile.good = true
  number : g.number = w.currentFileNumber
  ok : ∀ q ∈ gs ++ [g], q.Ok env.crc32 w.options

/-- A key and a value that can be written and read back. -/
structure Fits (options : WalOptions) (key value : Bytes) : Prop where
  headerFits : kHeaderSize ≤ options.bufferSize
  keyFits : key.length ≤ options.bufferSize
  valueFits : value.length ≤ options.bufferSize
  keyMax : key.length ≤ 2 ^ 28
  valueMax : value.length ≤ 2 ^ 28

variable {env : Env} {w : WriteAheadLog} {gs : List Segment} {g : Segment}

theorem readRecord_nil (crc32 : Bytes → UInt32) (path : String) :
    readRecord crc32 path [] = .stop := readRecord_short (by decide)

theorem segment_empty (crc32 : Bytes → UInt32) (options : WalOptions) (n : Nat) :
    Segment.Ok crc32 options ⟨n, [], []⟩ := ⟨by simp, readRecord_nil _ _⟩

/-- One more record at the end of a segment without a tail. -/
theorem Segment.Ok.snoc {crc32 : Bytes → UInt32} {options : WalOptions} (h : g.Ok crc32 options)
    {r : WalRecord} (hr : r.Valid crc32) :
    Segment.Ok crc32 options ⟨g.number, g.records ++ [r], []⟩ where
  valid q hq := by
    rcases List.mem_append.mp hq with hq | hq
    · exact h.valid q hq
    · rw [List.mem_singleton.mp hq]
      exact hr
  stops := readRecord_nil _ _

theorem Segment.content_snoc (h : g.tail = []) (r : WalRecord) :
    g.content ++ r.encode = Segment.content ⟨g.number, g.records ++ [r], []⟩ := by
  rw [Segment.content, Segment.content, h, List.append_nil, List.append_nil, encodeAll_append,
    encodeAll_cons, encodeAll_nil, List.append_nil]

/-- Requests that touch no file, such as opening files for `Recover`. -/
theorem Log.asked (h : Log env w gs g) (requests : Nat) :
    Log env { w with disk := { w.disk with requests } } gs g := by
  obtain ⟨closed, f, hw, hclosed⟩ := h.writing
  exact ⟨⟨closed, f, ⟨hw.isOpen, hw.entries, hw.bytes⟩, hclosed⟩, h.good, h.number, h.ok⟩

/-- The log after an operation that moves bytes only. -/
theorem Log.moved {w' : WriteAheadLog} (h : Log env w gs g)
    (hholds : ∀ closed cur, Holds w closed cur → Holds w' closed cur) (hsame : Same env w w')
    (hok : env.Ok w.disk.requests w'.disk.requests) : Log env w' gs g := by
  obtain ⟨closed, f, hw, hclosed⟩ := h.writing
  obtain ⟨hgood, f', hw'⟩ := hw.moved h.good hok hsame (hholds _ _ hw.holds)
  exact ⟨⟨closed, f', hw', hclosed⟩, hgood, h.number.trans hsame.number.symm, hsame.options ▸ h.ok⟩

theorem Log.flush (h : Log env w gs g) (hok : env.Fine) : Log env (w.flush env).2 gs g :=
  h.moved (fun _ _ hh => hh.flushBuffer env) (Same.flushBuffer env w) (hok.ok _ _)

theorem Log.sync (h : Log env w gs g) (hok : env.Fine) :
    (w.sync env).1 = .okStatus ∧ Log env (w.sync env).2 gs g := by
  obtain ⟨closed, f, hw, -⟩ := h.writing
  exact ⟨sync_status (hw.sync_ok h.good (hok.ok _ _)),
    h.moved (fun _ _ hh => (hh.sync env).1) (hw.holds.sync env).2.1 (hok.ok _ _)⟩

/-- **A rotation starts a new segment.** -/
theorem Log.rotate (h : Log env w gs g) (hok : env.Fine) :
    Log env (w.rotateLog env).2 (gs ++ [g]) ⟨(w.rotateLog env).2.currentFileNumber, [], []⟩ ∧
      (w.rotateLog env).2.options = w.options := by
  obtain ⟨closed, f, hw, hclosed⟩ := h.writing
  obtain ⟨f', f'', hcontent, hw', hgood, hoptions, -⟩ := hw.rotate h.good (hok.ok _ _)
  refine ⟨⟨⟨_, f'', hw', ?_⟩, hgood, rfl, ?_⟩, hoptions⟩
  · rw [← h.number]
    exact hclosed.append (segments_singleton hcontent)
  · intro q hq
    rw [hoptions]
    rcases List.mem_append.mp hq with hq | hq
    · exact h.ok q hq
    · rw [List.mem_singleton.mp hq]
      exact segment_empty _ _ _

/-- **A record that fits is written**, behind all others. -/
theorem Log.write (h : Log env w gs g) (hok : env.Fine) (type : WalRecordType) {key value : Bytes}
    (seq : UInt64) (hfits : Fits w.options key value) (htail : g.tail = [] ∨ w.rotates key value) :
    ∃ w' gs' g' time, w.writeRecord env type key value seq = some (.okStatus, w') ∧
      Log env w' gs' g' ∧ g'.tail = [] ∧ (∀ q ∈ gs', q ∈ gs ++ [g]) ∧ w'.options = w.options ∧
      (gs' ++ [g']).flatMap Segment.records = (gs ++ [g]).flatMap Segment.records
        ++ [WalRecord.make env.crc32 type seq time key value] := by
  -- the log the record is appended to
  obtain ⟨gs₁, g₁, h₁, htail₁, hold₁, hoptions₁, hrecords₁⟩ : ∃ gs₁ g₁,
      Log env (w.rotated env key value) gs₁ g₁ ∧ g₁.tail = [] ∧ (∀ q ∈ gs₁, q ∈ gs ++ [g]) ∧
        (w.rotated env key value).options = w.options ∧
        (gs₁ ++ [g₁]).flatMap Segment.records = (gs ++ [g]).flatMap Segment.records := by
    unfold rotated
    split
    next =>
      obtain ⟨hrot, hopt⟩ := h.rotate hok
      exact ⟨_, _, hrot, rfl, fun _ hq => hq, hopt, by simp⟩
    next hno =>
      exact ⟨gs, g, h, htail.resolve_right hno, fun _ hq => List.mem_append_left _ hq, rfl, rfl⟩
  obtain ⟨closed, f, hw, hclosed⟩ := h₁.writing
  have hsmall : ¬ (key.length > uint32Max ∨ value.length > uint32Max) := by
    have hk := hfits.keyMax
    have hv := hfits.valueMax
    unfold uint32Max
    omega
  have hcap : w.options.bufferSize ≤ (w.rotated env key value).bufferCapacity := by
    rw [bufferCapacity, hoptions₁]
    exact Nat.le_max_right _ _
  obtain ⟨w₂, hrun⟩ := appendRecord_isSome env type seq hw.isOpen
    (Nat.le_trans hfits.headerFits hcap) (Nat.le_trans hfits.keyFits hcap)
    (Nat.le_trans hfits.valueFits hcap)
  obtain ⟨⟨f', hw'⟩, hrec⟩ := hw.record h₁.good hrun (hok.ok _ _) (fun _ => hok.ok _ _)
  rw [Segment.content_snoc htail₁] at hw'
  have hoptions' : (w₂.autoSync env).options = w.options := hrec.options.trans hoptions₁
  refine ⟨w₂.autoSync env, gs₁, _, (env.answer (w.rotated env key value).disk.requests).time, ?_,
    ⟨⟨closed, f', hw', hclosed⟩, hrec.good, ?_, ?_⟩, rfl, hold₁, hoptions', ?_⟩
  · rw [writeRecord_eq hsmall, hrun]
    rfl
  · rw [hrec.number]
    exact h₁.number
  · intro q hq
    rw [hoptions']
    rcases List.mem_append.mp hq with hq | hq
    · exact hoptions₁ ▸ h₁.ok q (List.mem_append_left _ hq)
    · rw [List.mem_singleton.mp hq, ← hoptions₁]
      exact (h₁.ok g₁ (List.mem_append_right _ List.mem_cons_self)).snoc
        (WalRecord.make_valid _ _ _ _ hfits.keyMax hfits.valueMax)
  · rw [← hrecords₁]
    simp [nextRecord]

/-! ## Opening and closing. -/

/-- An empty directory. -/
theorem log_new_empty (options : WalOptions) {d : Disk} (hd : d.files.entries = [])
    (hok : env.Fine) :
    Log env (new env options d) [] ⟨(new env options d).currentFileNumber, [], []⟩ ∧
      (new env options d).options = options ∧
      Segments (new env options d).disk.files.entries
        [⟨(new env options d).currentFileNumber, [], []⟩] := by
  obtain ⟨f, hw, hgood, hoptions, -, hcontent⟩ := writing_new_empty options hd (hok _)
  refine ⟨⟨⟨[], f, hw, rfl⟩, hgood, rfl, ?_⟩, hoptions, ?_⟩
  · intro q hq
    rw [List.mem_singleton.mp hq]
    exact segment_empty _ _ _
  · rw [hw.entries, List.nil_append]
    exact segments_singleton (g := ⟨(new env options d).currentFileNumber, [], []⟩) hcontent

/-- A directory of segments: the last one is continued. -/
theorem log_new (options : WalOptions) {d : Disk} (hd : Segments d.files.entries (gs ++ [g]))
    (hsegs : ∀ q ∈ gs ++ [g], q.Ok env.crc32 options) (hok : env.Fine) :
    Log env (new env options d) gs g ∧ (new env options d).options = options ∧
      Segments (new env options d).disk.files.entries (gs ++ [g]) := by
  rw [Segments, List.map_append, List.map_singleton, List.map_eq_append_iff] at hd
  obtain ⟨closed, last, hentries, hclosed, hlast⟩ := hd
  obtain ⟨⟨n, f⟩, rfl, hpair⟩ := List.map_eq_singleton_iff.mp hlast
  obtain ⟨rfl, hcontent⟩ := Prod.mk.inj hpair
  obtain ⟨hw, hgood, hoptions, hnumber, -⟩ := new_last options hentries (hok d.requests)
  simp only at hcontent
  have hsame : (new env options d).disk.files.entries = d.files.entries := by
    rw [hw.entries, hnumber, hentries]
  refine ⟨⟨⟨closed, f, hcontent ▸ hw, hclosed⟩, hgood, hnumber.symm, ?_⟩, hoptions, ?_⟩
  · rw [hoptions]
    exact hsegs
  · rw [hsame, hentries]
    exact Segments.append hclosed (segments_singleton hcontent)

/-- **Closing a log leaves its segments in the files.** -/
theorem Log.destroy (h : Log env w gs g) (hok : env.Fine) :
    Segments (w.destroy env).files.entries (gs ++ [g]) := by
  obtain ⟨closed, f, hw, hclosed⟩ := h.writing
  obtain ⟨f', hentries, hcontent⟩ := hw.destroy h.good (hok.ok _ _)
  rw [hentries, ← h.number]
  exact hclosed.append (segments_singleton hcontent)

end WriteAheadLog

end KvEngine
