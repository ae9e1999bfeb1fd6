/-
  KvEngine.Engine.Calls
  ─────────────────────
  Calls on a `KVEngine`, and what each of them does to the log behind it.
-/
import KvEngine.Engine.KVEngine
import KvEngine.BTree.Refinement
import KvEngine.Wal.Ledger

namespace KvEngine

open Lib

/-! ## §1. Calls on an engine. -/

inductive EngineOp where
  | put (key value : Bytes)
  | delete (key : Bytes)
  | get (key : Bytes)
  | flush
  | sync
  /-- Destroy the engine and construct it again on the same directory. -/
  | reopen
  deriving DecidableEq, Repr

/-- The type, the key and the value of the record a call writes. -/
def EngineOp.record : EngineOp → Option (WalRecordType × Bytes × Bytes)
  | put key value => some (.kPut, key, value)
  | delete key => some (.kDelete, key, [])
  | _ => none

def KVEngine.reopen (env : Env) (e : KVEngine) : Option KVEngine := do
  let d ← e.destroy env
  KVEngine.new env e.options d

def KVEngine.apply (env : Env) (e : KVEngine) : EngineOp → Option (TreeReply × KVEngine)
  | .put key value => (e.put env key value).map (fun r => ((r.1, none), r.2))
  | .delete key => (e.delete env key).map (fun r => ((r.1, none), r.2))
  | .get key => (e.get key).map (fun r => (r, e))
  | .flush => some (((e.flush env).1, none), (e.flush env).2)
  | .sync => some (((e.sync env).1, none), (e.sync env).2)
  | .reopen => (e.reopen env).map (fun e => ((.okStatus, none), e))

namespace KVEngine

/-! ## §2. `Put` and `Delete` behind a log. -/

variable {env : Env} {options : KVEngineOptions} {e e' : KVEngine} {w w' : WriteAheadLog}

/-- The sync of `Put` and `Delete` between the log and the tree. -/
def syncLog (env : Env) (e : KVEngine) (w : WriteAheadLog) : Status × WriteAheadLog :=
  if e.options.syncOnWrite then w.sync env else (.okStatus, w)

/-- The call once the record is written: the sync, then the tree. -/
theorem logged_of_write {log : WriteAheadLog → UInt64 → Option (Status × WriteAheadLog)}
    {change : BPlusTree → Option (Status × BPlusTree)} (hwal : e.wal = some w)
    (hlog : log w e.sequenceNumber = some (.okStatus, w')) :
    e.logged env log change = (if !(e.syncLog env w').1.ok then
        some ((e.syncLog env w').1, { e with
          sequenceNumber := e.sequenceNumber + 1, wal := some (e.syncLog env w').2 })
      else (change e.tree).map (fun r => (r.1, { e with
        sequenceNumber := e.sequenceNumber + 1
        wal := some (e.syncLog env w').2
        tree := r.2 }))) := by
  unfold logged
  simp only [hwal, hlog, Option.bind_eq_bind, Option.bind_some, Status.ok_okStatus, Bool.not_true,
    Bool.false_eq_true, if_false]
  show (if !(e.syncLog env w').1.ok then _ else _) = _
  split
  · rfl
  · cases change e.tree <;> rfl

/-- **`Put` and `Delete` by their outcome**: the log refuses the record, or it
takes it and the sync follows. -/
theorem logged_cases {log : WriteAheadLog → UInt64 → Option (Status × WriteAheadLog)}
    {change : BPlusTree → Option (Status × BPlusTree)} {s : Status} (hwal : e.wal = some w)
    (hrun : e.logged env log change = some (s, e')) :
    ∃ s₁ w₁, log w e.sequenceNumber = some (s₁, w₁) ∧ e'.options = e.options ∧
      e'.sequenceNumber = e.sequenceNumber + 1 ∧
      (s₁.ok = false ∧ s = s₁ ∧ e'.wal = some w₁ ∧ e'.tree = e.tree ∨
        s₁.ok = true ∧ e'.wal = some (e.syncLog env w₁).2 ∧
          ((e.syncLog env w₁).1.ok = false ∧ s = (e.syncLog env w₁).1 ∧ e'.tree = e.tree ∨
            (e.syncLog env w₁).1.ok = true ∧ change e.tree = some (s, e'.tree))) := by
  unfold logged at hrun
  simp only [hwal, Option.bind_eq_bind, Option.bind_eq_some_iff, Prod.exists] at hrun
  obtain ⟨s₁, w₁, hlog, hrun⟩ := hrun
  refine ⟨s₁, w₁, hlog, ?_⟩
  split at hrun
  -- The log refused the record: the tree is not touched.
  next hs =>
    obtain ⟨rfl, rfl⟩ := Prod.mk.inj (Option.some.inj hrun)
    exact ⟨rfl, rfl, Or.inl ⟨by simpa using hs, rfl, rfl, rfl⟩⟩
  next hs =>
    have hs₁ : s₁.ok = true := by simpa using hs
    rw [show (if e.options.syncOnWrite = true then w₁.sync env else (Status.okStatus, w₁))
      = e.syncLog env w₁ from rfl] at hrun
    split at hrun
    -- The sync failed: the record is written, the tree is not touched.
    next hs' =>
      obtain ⟨rfl, rfl⟩ := Prod.mk.inj (Option.some.inj hrun)
      exact ⟨rfl, rfl, Or.inr ⟨hs₁, rfl, Or.inl ⟨by simpa using hs', rfl, rfl⟩⟩⟩
    next hs' =>
      obtain ⟨⟨s₂, t⟩, hchange, hrun⟩ := Option.bind_eq_some_iff.mp hrun
      obtain ⟨rfl, rfl⟩ := Prod.mk.inj (Option.some.inj hrun)
      exact ⟨rfl, rfl, Or.inr ⟨hs₁, rfl, Or.inr ⟨by simpa using hs', hchange⟩⟩⟩

/-! ## §3. A call on the engine as calls on its log. -/

/-- What a call does to the log; `seq` is the sequence number it uses, and
`ok` says whether it returned OK. -/
inductive LogStep (env : Env) (seq : UInt64) (w : WriteAheadLog) :
    EngineOp → Bool → WriteAheadLog → Prop
  | get (key : Bytes) (ok : Bool) : LogStep env seq w (.get key) ok w
  | flush (ok : Bool) : LogStep env seq w .flush ok (w.flush env).2
  | sync : LogStep env seq w .sync (w.sync env).1.ok (w.sync env).2
  | refused {op : EngineOp} {type : WalRecordType} {key value : Bytes} {s : Status}
      {w' : WriteAheadLog} (hop : op.record = some (type, key, value))
      (hrun : w.writeRecord env type key value seq = some (s, w')) (hs : s.ok = false) :
      LogStep env seq w op false w'
  /-- The record was accepted; `synced` says whether a sync followed. -/
  | logged {op : EngineOp} {type : WalRecordType} {key value : Bytes} {s : Status}
      {w' : WriteAheadLog} (synced ok : Bool) (hop : op.record = some (type, key, value))
      (hrun : w.writeRecord env type key value seq = some (s, w')) (hs : s.ok = true)
      (hok : synced = true → ok = true → (w'.sync env).1.ok = true) :
      LogStep env seq w op ok (if synced then (w'.sync env).2 else w')

theorem logStep_of_logged {op : EngineOp} {type : WalRecordType} {key value : Bytes} {s : Status}
    {change : BPlusTree → Option (Status × BPlusTree)} (hwal : e.wal = some w)
    (hop : op.record = some (type, key, value))
    (hrun : e.logged env (fun w seq => w.writeRecord env type key value seq) change
      = some (s, e')) :
    ∃ w', e'.wal = some w' ∧ e'.options = e.options ∧
      LogStep env e.sequenceNumber w op s.ok w' := by
  obtain ⟨s₁, w₁, hlog, hoptions, -, hcase⟩ := logged_cases hwal hrun
  rcases hcase with ⟨hs₁, rfl, hwal', -⟩ | ⟨hs₁, hwal', hsync⟩
  · exact ⟨w₁, hwal', hoptions, hs₁ ▸ .refused hop hlog hs₁⟩
  · have hstep : LogStep env e.sequenceNumber w op s.ok
        (if e.options.syncOnWrite then (w₁.sync env).2 else w₁) := by
      refine .logged e.options.syncOnWrite s.ok hop hlog hs₁ (fun hsw hs => ?_)
      rcases hsync with ⟨hfail, rfl, -⟩ | ⟨hok, -⟩
      · exact absurd (hfail.symm.trans hs) (by simp)
      · rwa [syncLog, if_pos hsw] at hok
    refine ⟨_, hwal', hoptions, ?_⟩
    unfold syncLog
    split
    next hsw => rwa [if_pos hsw] at hstep
    next hsw => rwa [if_neg hsw] at hstep

/-- **Every call but a reopening is a step of the log.** -/
theorem logStep_of_apply {op : EngineOp} {reply : TreeReply} (hwal : e.wal = some w)
    (hop : op ≠ .reopen) (hrun : e.apply env op = some (reply, e')) :
    ∃ w', e'.wal = some w' ∧ e'.options = e.options ∧
      LogStep env e.sequenceNumber w op reply.1.ok w' := by
  cases op with
  | put key value =>
      obtain ⟨⟨s, e₁⟩, hput, heq⟩ := Option.map_eq_some_iff.mp hrun
      obtain ⟨rfl, rfl⟩ := Prod.mk.inj heq
      exact logStep_of_logged hwal rfl hput
  | delete key =>
      obtain ⟨⟨s, e₁⟩, hdelete, heq⟩ := Option.map_eq_some_iff.mp hrun
      obtain ⟨rfl, rfl⟩ := Prod.mk.inj heq
      exact logStep_of_logged hwal rfl hdelete
  | get key =>
      obtain ⟨r, -, heq⟩ := Option.map_eq_some_iff.mp hrun
      obtain ⟨rfl, rfl⟩ := Prod.mk.inj heq
      exact ⟨w, hwal, rfl, .get key _⟩
  | flush =>
      obtain ⟨rfl, rfl⟩ := Prod.mk.inj (Option.some.inj hrun)
      simp only [KVEngine.flush, hwal]
      exact ⟨_, rfl, trivial, .flush _⟩
  | sync =>
      obtain ⟨rfl, rfl⟩ := Prod.mk.inj (Option.some.inj hrun)
      simp only [KVEngine.sync, hwal]
      exact ⟨_, rfl, trivial, .sync⟩
  | reopen => exact absurd rfl hop

/-- The constructor keeps what recovery leaves, whatever its status. -/
theorem new_of_recover {d : Disk} {s : Status} {maxSequence : Option UInt64} {t : BPlusTree}
    (hwal : options.enableWal = true)
    (hrec : (WriteAheadLog.new env options.walOptions d).recover env recoveryCallback
      (BPlusTree.new options.btreeOptions) = some (s, maxSequence, t, w')) :
    ∃ seq, KVEngine.new env options d = some ⟨options, t, some w', seq⟩ := by
  simp only [KVEngine.new, recover, hwal, if_true, hrec, Option.bind_eq_bind, Option.bind_some]
  split
  · exact ⟨_, rfl⟩
  · exact ⟨_, rfl⟩

/-- After the constructor the log is as `WriteAheadLog` opened it, but for
requests that touch no file. -/
theorem new_wal {d : Disk} (hwal : options.enableWal = true)
    (hnew : KVEngine.new env options d = some e) :
    ∃ d', d'.files = (WriteAheadLog.new env options.walOptions d).disk.files ∧
      e.wal = some { WriteAheadLog.new env options.walOptions d with disk := d' } ∧
      e.options = options := by
  unfold KVEngine.new at hnew
  simp only [hwal, if_true, Option.bind_eq_bind] at hnew
  obtain ⟨⟨s, e₁⟩, hrec, heq⟩ := Option.bind_eq_some_iff.mp hnew
  obtain rfl := Option.some.inj heq
  unfold recover at hrec
  obtain ⟨⟨s₁, m, t, w₁⟩, hlog, hrec⟩ := Option.bind_eq_some_iff.mp hrec
  obtain ⟨d', hfiles, rfl⟩ := WriteAheadLog.recover_log hlog
  obtain ⟨-, rfl⟩ := Prod.mk.inj (Option.some.inj hrec)
  refine ⟨d', hfiles, ?_⟩
  dsimp only
  split
  · exact ⟨rfl, rfl⟩
  · exact ⟨rfl, rfl⟩

end KVEngine

end KvEngine
