/-
  KvEngine.Engine.Durability
  ──────────────────────────
  **What an OK of the engine says about the files**, whatever the operating
  system answers.

  * `sync_guarantees` — after a `Sync`, the records of all acknowledged calls
    survive a power loss, if no file was left by a rotation before an `fsync`
    had covered it: `RotateLog` closes a file without one.
  * `flush_reaches` — after a `Flush`, a reader finds these records, if the
    stream passed everything on: `Flush` hands the bytes to the stream only.
  * `sync_on_write_durable` — a record written with `sync_on_write` is durable
    when the call returns, if the requests it made succeeded: `WriteRecord`
    does not look at the status of its `Sync`.
-/
import KvEngine.Engine.Calls

namespace KvEngine

open Lib

/-! ## §1. Runs. -/

/-- The call writes a record and has the log rotate first. -/
def EngineOp.Rotates (op : EngineOp) (w : WriteAheadLog) : Prop :=
  ∃ type key value, op.record = some (type, key, value) ∧ w.rotates key value

namespace KVEngine

/-- The record of a call that returned OK. -/
def acknowledged (env : Env) (e : KVEngine) (op : EngineOp) (s : Status) : List WalRecord :=
  match e.wal, op.record with
  | some w, some (type, key, value) =>
      if s.ok then [w.loggedRecord env type key value e.sequenceNumber] else []
  | _, _ => []

/-- Runs without a reopening in which every call meets `P`; `rs` are the
records of the calls that returned OK. -/
inductive Runs (env : Env) (P : KVEngine → EngineOp → Prop) (e₀ : KVEngine) :
    List WalRecord → KVEngine → Prop
  | start : Runs env P e₀ [] e₀
  | step {rs : List WalRecord} {e e' : KVEngine} {op : EngineOp} {reply : TreeReply}
      (h : Runs env P e₀ rs e) (hP : P e op) (hop : op ≠ .reopen)
      (hrun : e.apply env op = some (reply, e')) :
      Runs env P e₀ (rs ++ e.acknowledged env op reply.1) e'

variable {env : Env} {options : KVEngineOptions} {e e' : KVEngine} {rs : List WalRecord}

/-! ## §2. The ledger over a run. -/

section Ledger

variable {part : File → Bytes}

/-- The log of the engine has the ledger `rs`. -/
def HasLedger (part : File → Bytes) (e : KVEngine) (rs : List WalRecord) : Prop :=
  ∃ w, e.wal = some w ∧ WriteAheadLog.Ledger part w rs

theorem HasLedger.step (h : HasLedger part e rs) {op : EngineOp} {reply : TreeReply}
    (hkept : ∀ w, e.wal = some w → op.Rotates w → w.ClosesKept env part) (hop : op ≠ .reopen)
    (hrun : e.apply env op = some (reply, e')) :
    HasLedger part e' (rs ++ e.acknowledged env op reply.1) := by
  obtain ⟨w, hwal, hl⟩ := h
  obtain ⟨w', hwal', -, hstep⟩ := logStep_of_apply hwal hop hrun
  refine ⟨w', hwal', ?_⟩
  generalize reply.1 = status at hstep ⊢
  generalize hok : status.ok = ok at hstep
  cases hstep with
  | get key _ => simpa [acknowledged, EngineOp.record, hwal] using hl
  | flush _ => simpa [acknowledged, EngineOp.record, hwal] using hl.flush
  | sync => simpa [acknowledged, EngineOp.record, hwal] using hl.sync
  | refused hrec hwrite hs =>
      have hack : e.acknowledged env op status = [] := by
        simp [acknowledged, hwal, hrec, hok]
      rw [hack, List.append_nil]
      exact (hl.write (fun hr => hkept w hwal ⟨_, _, _, hrec, hr⟩) hwrite).1
  | logged synced _ hrec hwrite hs _ =>
      obtain ⟨hfew, hall⟩ := hl.write (fun hr => hkept w hwal ⟨_, _, _, hrec, hr⟩) hwrite
      -- The sync of the call, where it is made, keeps the ledger.
      have hwritten : ∀ (b : Bool) {w₁ : WriteAheadLog} {rs : List WalRecord},
          WriteAheadLog.Ledger part w₁ rs →
            WriteAheadLog.Ledger part (if b then (w₁.sync env).2 else w₁) rs := by
        intro b w₁ rs h₁
        split
        · exact h₁.sync
        · exact h₁
      refine hwritten synced ?_
      cases ok with
      | false => simpa [acknowledged, hwal, hrec, hok] using hfew
      | true => simpa [acknowledged, hwal, hrec, hok] using hall hs

theorem HasLedger.new {d : Disk} (hwal : options.enableWal = true)
    (hnew : KVEngine.new env options d = some e) : HasLedger part e [] := by
  obtain ⟨d', hfiles, hw, -⟩ := new_wal hwal hnew
  exact ⟨_, hw, (WriteAheadLog.ledger_new part env options.walOptions d).moved
    (fun _ _ h => h.asked hfiles)⟩

theorem Runs.ledger {P : KVEngine → EngineOp → Prop} {e₀ : KVEngine} (h : Runs env P e₀ rs e)
    (h₀ : HasLedger part e₀ [])
    (hP : ∀ e op, P e op → ∀ w, e.wal = some w → op.Rotates w → w.ClosesKept env part) :
    HasLedger part e rs := by
  induction h with
  | start => exact h₀
  | step _ hstep hop hrun ih => exact ih.step (hP _ _ hstep) hop hrun

end Ledger

/-- A run of one call. -/
theorem runs_one (P : KVEngine → EngineOp → Prop) {e₀ : KVEngine} {op : EngineOp}
    {reply : TreeReply} (hop : op ≠ .reopen) (hP : P e₀ op)
    (hrun : e₀.apply env op = some (reply, e)) :
    Runs env P e₀ (e₀.acknowledged env op reply.1) e := by
  have := Runs.step .start hP hop hrun
  rwa [List.nil_append] at this

/-- A `put` into an empty directory: no rotation, and with `sync_on_write`
nothing is left on the way to the file. -/
theorem first_put : ∃ e₀ w₀ reply e w, KVEngine.new .undisturbed {} {} = some e₀ ∧
    e₀.wal = some w₀ ∧ e₀.apply .undisturbed (.put [1] [2]) = some (reply, e) ∧ e.wal = some w ∧
    ¬ EngineOp.Rotates (.put [1] [2]) w₀ ∧
    (e₀.acknowledged .undisturbed (.put [1] [2]) reply.1).length = 1 ∧
    (e.sync .undisturbed).1.ok = true ∧ w.currentFile.good = true ∧ w.currentFile.pending = [] ∧
    w.buffer = [] := by
  have hrun : (do
      let e₀ ← KVEngine.new .undisturbed {} {}
      let w₀ ← e₀.wal
      let r ← e₀.apply .undisturbed (.put [1] [2])
      let w ← r.2.wal
      some (decide (w₀.rotates [1] [2]),
        (e₀.acknowledged .undisturbed (.put [1] [2]) r.1.1).length, (r.2.sync .undisturbed).1.ok,
        w.currentFile.good, w.currentFile.pending.length + w.buffer.length))
      = some (false, 1, true, true, 0) := by decide +kernel
  simp only [Option.bind_eq_bind, Option.bind_eq_some_iff, Option.some.injEq, Prod.mk.injEq,
    decide_eq_false_iff_not, Nat.add_eq_zero_iff, List.length_eq_zero_iff] at hrun
  obtain ⟨e₀, hnew, w₀, hw₀, ⟨reply, e⟩, hrun, w, hw, hstays, hlen, hs, hgood, hp, hb⟩ := hrun
  refine ⟨e₀, w₀, reply, e, w, hnew, hw₀, hrun, hw, ?_, hlen, hs, hgood, hp, hb⟩
  rintro ⟨type, key, value, hrec, hr⟩
  obtain ⟨-, rfl, rfl⟩ : _ = type ∧ _ = key ∧ _ = value := by
    simpa [EngineOp.record] using hrec
  exact hstays hr

/-! ## §3. `Sync` and `Flush`. -/

/-- A call that has the log rotate finds the current file covered by an
`fsync`. -/
def LeavesCovered (e : KVEngine) (op : EngineOp) : Prop :=
  ∀ w, e.wal = some w → op.Rotates w → w.Covered

/-- **A `Sync` that returns OK makes all acknowledged records durable**, in
every run whose rotations leave covered files. -/
theorem sync_guarantees (env : Env) (options : KVEngineOptions) (hwal : options.enableWal = true)
    (d : Disk) {e₀ e : KVEngine} (hnew : KVEngine.new env options d = some e₀)
    {rs : List WalRecord} (hruns : Runs env LeavesCovered e₀ rs e) (hs : (e.sync env).1.ok = true) :
    ∃ w, (e.sync env).2.wal = some w ∧ w.disk.Keeps File.guaranteed rs := by
  obtain ⟨w, hw, hl⟩ := hruns.ledger
    (HasLedger.new hwal hnew : HasLedger File.guaranteed e₀ [])
    (fun e op h w hwal' hr => (h w hwal' hr).kept)
  simp only [sync, hw] at hs ⊢
  exact ⟨_, rfl, hl.sync_keeps hs⟩

/-- Two files, the first left by the second `put`: the `Sync` covers the second
one only. -/
theorem sync_guarantees_rotated : (do
      let e ← KVEngine.new .undisturbed
        { walOptions := { maxFileSize := 40, syncOnWrite := false } } {}
      let (s₁, e) ← e.put .undisturbed [1] [2]
      let (s₂, e) ← e.put .undisturbed [3] [4]
      let (s₃, e) := e.sync .undisturbed
      let w ← e.wal
      some ([s₁.code, s₂.code, s₃.code],
        w.disk.files.entries.map (fun f => (f.1, f.2.content.length, f.2.guaranteed.length))))
    = some ([.ok, .ok, .ok], [(0, 31, 0), (1, 31, 31)]) := by decide +kernel

theorem sync_guarantees_put :
    ∃ e₀ rs e w, KVEngine.new .undisturbed {} {} = some e₀ ∧
      Runs .undisturbed LeavesCovered e₀ rs e ∧ rs.length = 1 ∧
      (e.sync .undisturbed).2.wal = some w ∧ w.disk.Keeps File.guaranteed rs := by
  obtain ⟨e₀, w₀, reply, e, w, hnew, hw₀, hrun, hw, hstays, hlen, hs, -⟩ := first_put
  have hruns := runs_one LeavesCovered (by simp)
    (fun u hu hr => absurd (Option.some.inj (hu.symm.trans hw₀) ▸ hr) hstays) hrun
  obtain ⟨w', hw', hkeeps⟩ := sync_guarantees .undisturbed {} rfl {} hnew hruns hs
  exact ⟨e₀, _, e, w', hnew, hruns, hlen, hw', hkeeps⟩

/-- A flush finds nothing in the way of the bytes; rotations close full files. -/
def LeavesFull (env : Env) (e : KVEngine) (op : EngineOp) : Prop :=
  ∀ w, e.wal = some w → op.Rotates w → w.ClosesFull env

/-- **A `Flush` brings all acknowledged records into the files**, in every run
whose rotations close full files, if the stream passes everything on. -/
theorem flush_reaches (env : Env) (options : KVEngineOptions) (hwal : options.enableWal = true)
    (d : Disk) {e₀ e : KVEngine} (hnew : KVEngine.new env options d = some e₀)
    {rs : List WalRecord} (hruns : Runs env (LeavesFull env) e₀ rs e)
    (hreach : ∀ w, e.wal = some w → w.FlushReaches env) :
    ∃ w, (e.flush env).2.wal = some w ∧ w.disk.Keeps File.content rs := by
  obtain ⟨w, hw, hl⟩ := hruns.ledger
    (HasLedger.new hwal hnew : HasLedger File.content e₀ [])
    (fun e op h w hwal' hr => (h w hwal' hr).kept)
  simp only [flush, hw]
  exact ⟨_, rfl, hl.flush_keeps (hreach w hw)⟩

/-- The stream keeps the record back: the file is empty after the flush. -/
theorem flush_reaches_kept : (do
      let e ← KVEngine.new .undisturbed { walOptions := { syncOnWrite := false } } {}
      let (s₁, e) ← e.put .undisturbed [1] [2]
      let (s₂, e) := e.flush .undisturbed
      let w ← e.wal
      some ([s₁.code, s₂.code], w.disk.files.entries.map (fun f => (f.1, f.2.content))))
    = some ([.ok, .ok], [(0, [])]) := by decide +kernel

theorem flush_reaches_put :
    ∃ e₀ rs e w, KVEngine.new .undisturbed {} {} = some e₀ ∧
      Runs .undisturbed (LeavesFull .undisturbed) e₀ rs e ∧ rs.length = 1 ∧
      (e.flush .undisturbed).2.wal = some w ∧ w.disk.Keeps File.content rs := by
  obtain ⟨e₀, w₀, reply, e, w, hnew, hw₀, hrun, hw, hstays, hlen, -, hgood, hpending, hbuffer⟩ :=
    first_put
  have hruns := runs_one (LeavesFull .undisturbed) (by simp)
    (fun u hu hr => absurd (Option.some.inj (hu.symm.trans hw₀) ▸ hr) hstays) hrun
  obtain ⟨w', hw', hkeeps⟩ := flush_reaches .undisturbed {} rfl {} hnew hruns (fun u hu => by
    obtain rfl := Option.some.inj (hu.symm.trans hw)
    exact ⟨fun _ => ⟨hgood, fun _ => hpending, fun h => absurd hbuffer h⟩, fun _ => hbuffer⟩)
  exact ⟨e₀, _, e, w', hnew, hruns, hlen, hw', hkeeps⟩

/-! ## §4. `sync_on_write`. -/

theorem Runs.tracked {P : KVEngine → EngineOp → Prop} {e₀ : KVEngine} (h : Runs env P e₀ rs e)
    {o : WalOptions} {w₀ : WriteAheadLog} (hw₀ : e₀.wal = some w₀) (h₀ : w₀.Tracked o) :
    ∃ w, e.wal = some w ∧ w.Tracked o := by
  induction h with
  | start => exact ⟨w₀, hw₀, h₀⟩
  | @step _ _ _ _ reply _ _ hop hrun ih =>
      obtain ⟨w, hwal, hw⟩ := ih
      obtain ⟨w', hwal', -, hstep⟩ := logStep_of_apply hwal hop hrun
      refine ⟨w', hwal', ?_⟩
      generalize reply.1.ok = ok at hstep
      cases hstep with
      | get key _ => exact hw
      | flush _ => exact hw.flush
      | sync => exact hw.sync
      | refused hrec hwrite hs => exact (hw.write hwrite).1
      | logged synced _ hrec hwrite hs _ =>
          split
          · exact (hw.write hwrite).1.sync
          · exact (hw.write hwrite).1

/-- **A record acknowledged under `sync_on_write` is durable**, if the requests
made for it succeed: in every run of the log, and in every run of the engine. -/
theorem sync_on_write_durable (env : Env) (d : Disk) :
    (∀ options : WalOptions, options.syncOnWrite = true → ∀ ops outs w,
      run? (WriteAheadLog.apply env) (.new env options d) ops = some (outs, w) →
      ∀ type key value seq s w', w.writeRecord env type key value seq = some (s, w') →
        s.ok = true → w.SyncsThrough env w' key value →
        w'.RecordDurable (w.loggedRecord env type key value seq)) ∧
    ∀ options : KVEngineOptions, options.enableWal = true → options.walOptions.syncOnWrite = true →
      ∀ e₀ rs e, KVEngine.new env options d = some e₀ → Runs env (fun _ _ => True) e₀ rs e →
      ∀ w op type key value reply e', e.wal = some w → op.record = some (type, key, value) →
        e.apply env op = some (reply, e') → reply.1.ok = true →
        (∀ s w', w.writeRecord env type key value e.sequenceNumber = some (s, w') →
          w.SyncsThrough env w' key value) →
        ∃ w', e'.wal = some w' ∧
          w'.RecordDurable (w.loggedRecord env type key value e.sequenceNumber) := by
  refine ⟨?_, ?_⟩
  · intro options hsync ops outs w hrun type key value seq s w' hwrite hs hthrough
    have hw := WriteAheadLog.Tracked.run ops (WriteAheadLog.tracked_new env options d) hrun
    obtain ⟨closed, cur, -, hdurable⟩ := (hw.write hwrite).2 hs hsync hthrough
    exact hdurable.record
  · intro options hwal hsync e₀ rs e hnew hruns w op type key value reply e' hw hrec hrun hs
      hthrough
    obtain ⟨d', hfiles, hw₀, -⟩ := new_wal hwal hnew
    have htracked := WriteAheadLog.tracked_new env options.walOptions d
    obtain ⟨closed₀, cur₀, hholds₀⟩ := htracked.holds
    obtain ⟨w₁, hw₁, hlog⟩ := hruns.tracked hw₀
      ⟨htracked.options, closed₀, cur₀, hholds₀.asked hfiles⟩
    obtain rfl := Option.some.inj (hw.symm.trans hw₁)
    have hop : op ≠ .reopen := fun h => nomatch h ▸ hrec
    obtain ⟨w', hwal', -, hstep⟩ := logStep_of_apply hw hop hrun
    refine ⟨w', hwal', ?_⟩
    -- The call went through the log; only the logged case answers OK with a record.
    generalize reply.1.ok = ok at hs hstep
    cases hstep with
    | get key _ => exact nomatch hrec
    | flush _ => exact nomatch hrec
    | sync => exact nomatch hrec
    | refused hrec' hwrite hs' => exact nomatch hs
    | logged synced _ hrec' hwrite hs' hok =>
        obtain ⟨rfl, rfl, rfl⟩ : _ = type ∧ _ = key ∧ _ = value := by
          have := Option.some.inj (hrec'.symm.trans hrec)
          simpa using this
        obtain ⟨closed, cur, hholds, hdurable⟩ :=
          (hlog.write hwrite).2 hs' hsync (hthrough _ _ hwrite)
        cases synced with
        | false => exact hdurable.record
        | true => exact ((hholds.sync env).2.2 (hok rfl hs)).record

/-- The first `fsync` fails; both the log and the engine return OK. -/
theorem sync_on_write_durable_failed :
    ((WriteAheadLog.new ⟨Lib.crc32, fun i => { ok := i < 5 }⟩ {} {}).put
        ⟨Lib.crc32, fun i => { ok := i < 5 }⟩ [1] [2] 1).map
          (fun r => (r.1.code, r.2.disk.files.entries.map (fun f => (f.1, f.2.guaranteed))))
      = some (.ok, [(0, [])]) ∧
    (do
      let e ← KVEngine.new ⟨Lib.crc32, fun i => { ok := i < 6 }⟩ {} {}
      let (s, e) ← e.put ⟨Lib.crc32, fun i => { ok := i < 6 }⟩ [1] [2]
      let w ← e.wal
      some (s.code, w.disk.files.entries.map (fun f => (f.1, f.2.guaranteed))))
      = some (.ok, [(0, [])]) := by
  refine ⟨by decide +kernel, by decide +kernel⟩

/-- A first `put` with nothing failing. -/
theorem sync_on_write_durable_put :
    ∃ w' : WriteAheadLog, ((WriteAheadLog.new .undisturbed {} {}).writeRecord .undisturbed .kPut
        [1] [2] 7).map Prod.snd = some w' ∧
      w'.RecordDurable ((WriteAheadLog.new .undisturbed {} {}).loggedRecord .undisturbed .kPut
        [1] [2] 7) := by
  have hrun : (do
      let w := WriteAheadLog.new .undisturbed {} {}
      let r ← w.writeRecord .undisturbed .kPut [1] [2] 7
      some (r.1.ok, (w.rotated .undisturbed [1] [2]).currentFile.good)) = some (true, true) := by
    decide +kernel
  simp only [Option.bind_eq_bind, Option.bind_eq_some_iff, Option.some.injEq, Prod.mk.injEq] at hrun
  obtain ⟨⟨s, w'⟩, hwrite, hs, hgood⟩ := hrun
  refine ⟨w', by rw [hwrite]; rfl, ?_⟩
  exact (sync_on_write_durable .undisturbed {}).1 {} rfl [] [] _ rfl .kPut [1] [2] 7 s w' hwrite hs
    ⟨hgood, Env.fine_undisturbed.ok _ _⟩

end KVEngine

end KvEngine
