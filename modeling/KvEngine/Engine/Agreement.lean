/-
  KvEngine.Engine.Agreement
  ─────────────────────────
  **The tree against the records the log accepts**, whatever the operating
  system answers.  `logged_agrees`: a call keeps the two together, if no `Sync`
  fails between an accepted record and a change of the tree.

  * `recover_harmless` — a `Recover` of a running engine changes no key and
    lowers no sequence number, if the files hold all records of the log or
    none.
-/
import KvEngine.Engine.Reopen
import KvEngine.Lib.LastWriter

namespace KvEngine

open Lib

/-! ## §1. What replaying records does to the reference. -/

/-- The key a record binds and its new value; an empty key is refused. -/
def WalRecord.writes (r : WalRecord) : Option (Bytes × Option Bytes) :=
  if r.header.type = .kPut then (if r.key = [] then none else some (r.key, some r.value))
  else if r.header.type = .kDelete then some (r.key, none)
  else none

namespace RefMap

theorem replayRecord_eq (m : RefMap) (r : WalRecord) :
    m.replayRecord r = overwrite WalRecord.writes m r := by
  unfold replayRecord overwrite WalRecord.writes
  by_cases hput : r.header.type = .kPut
  · rw [if_pos hput, if_pos hput]
    unfold apply
    by_cases hkey : r.key = []
    · simp only [if_pos hkey]
    · simp only [if_neg hkey]
  · rw [if_neg hput, if_neg hput]
    by_cases hdelete : r.header.type = .kDelete
    · rw [if_pos hdelete, if_pos hdelete]
      unfold apply
      cases hm : m r.key with
      | some _ => simp only [hm]
      | none =>
          -- deleting an absent key binds nothing
          simp only [hm]
          rw [← hm, Function.update_eq_self]
    · rw [if_neg hdelete, if_neg hdelete]

theorem replayAll_eq (m : RefMap) (rs : List WalRecord) :
    m.replayAll rs = overwriteAll WalRecord.writes m rs := by
  unfold replayAll overwriteAll
  congr 1
  funext m r
  exact replayRecord_eq m r

/-- **Replaying a log twice** is replaying it once. -/
theorem replayAll_twice (m : RefMap) (rs : List WalRecord) :
    (m.replayAll rs).replayAll rs = m.replayAll rs := by
  rw [replayAll_eq, replayAll_eq, overwriteAll_twice]

theorem replayAll_append (m : RefMap) (rs ss : List WalRecord) :
    m.replayAll (rs ++ ss) = (m.replayAll rs).replayAll ss := List.foldl_append

end RefMap

/-- What a call does to the tree once its record is logged. -/
def EngineOp.change : EngineOp → BPlusTree → Option (Status × BPlusTree)
  | put key value, t => t.put key value
  | delete key, t => t.delete key
  | _, t => some (.okStatus, t)

namespace KVEngine

variable {env : Env} {options : KVEngineOptions} {e e' : KVEngine} {w w' : WriteAheadLog}
  {rs : List WalRecord}

/-! ## §2. Runs with the records the log accepts. -/

/-- The log refuses a key or a value of 4 GiB or more. -/
def Refused (key value : Bytes) : Prop :=
  key.length > WriteAheadLog.uint32Max ∨ value.length > WriteAheadLog.uint32Max

/-- The record of a call, if the log accepts it. -/
def accepted (env : Env) (e : KVEngine) (op : EngineOp) : List WalRecord :=
  match e.wal, op.record with
  | some w, some (type, key, value) =>
      match w.writeRecord env type key value e.sequenceNumber with
      | some (s, _) => if s.ok then [w.loggedRecord env type key value e.sequenceNumber] else []
      | none => []
  | _, _ => []

/-- Runs without a reopening in which every call meets `P`, and `Recover` is
called only in states that meet `Q`; `rs` are the records accepted so far. -/
inductive RunsLogging (env : Env) (P : KVEngine → EngineOp → Prop)
    (Q : List WalRecord → KVEngine → Prop) (e₀ : KVEngine) : List WalRecord → KVEngine → Prop
  | start : RunsLogging env P Q e₀ [] e₀
  | call {rs : List WalRecord} {e e' : KVEngine} {op : EngineOp} {reply : TreeReply}
      (h : RunsLogging env P Q e₀ rs e) (hP : P e op) (hop : op ≠ .reopen)
      (hrun : e.apply env op = some (reply, e')) :
      RunsLogging env P Q e₀ (rs ++ e.accepted env op) e'
  | recover {rs : List WalRecord} {e e' : KVEngine} {s : Status}
      (h : RunsLogging env P Q e₀ rs e) (hQ : Q rs e) (hrun : e.recover env = some (s, e')) :
      RunsLogging env P Q e₀ rs e'

/-! ## §3. One call. -/

/-- The call would leave every key as it is. -/
def KeepsTree (e : KVEngine) (op : EngineOp) : Prop :=
  ∀ s t, op.change e.tree = some (s, t) → ∀ key, t.get key = e.tree.get key

/-- The sync that follows an accepted record succeeds, or there is nothing to
change in the tree. -/
def SyncsOrKeeps (env : Env) (e : KVEngine) (op : EngineOp) : Prop :=
  ∀ w type key value s w', e.wal = some w → op.record = some (type, key, value) →
    w.writeRecord env type key value e.sequenceNumber = some (s, w') → s.ok = true →
      (e.syncLog env w').1.ok = true ∨ e.KeepsTree op

/-- A call that rotates the log finds a number for the new file. -/
def NumbersFile (e : KVEngine) (op : EngineOp) : Prop :=
  ∀ w type key value, e.wal = some w → op.record = some (type, key, value) →
    Refused key value ∨ w.NumbersFile key value

variable {o : BTreeOptions} {m m' : RefMap} {t t' : BPlusTree}

/-- Trees that answer every `Get` alike model the same map. -/
theorem models_unique (h : BPlusTree.Models o t m) (h' : BPlusTree.Models o t' m')
    (hget : ∀ key, t.get key = t'.get key) : m = m' := by
  funext key
  have hreply := hget key
  rw [h.get, h'.get] at hreply
  cases hm : m key <;> cases hm' : m' key <;> rw [hm, hm'] at hreply <;> simp_all

/-- Changing the tree is replaying the record that was logged for it. -/
theorem change_models {op : EngineOp} {type : WalRecordType} {key value : Bytes}
    (hop : op.record = some (type, key, value)) (h : BPlusTree.Models o t m) {r : WalRecord}
    (htype : r.header.type = type) (hkey : r.key = key) (hvalue : r.value = value) :
    ∃ s t', op.change t = some (s, t') ∧ BPlusTree.Models o t' (m.replayRecord r) := by
  obtain ⟨t', hrun, h'⟩ := recoveryCallback_models h r
  -- Replaying the record makes the very change of the call.
  have hsame : recoveryCallback t r.header r.key r.value = (op.change t).map Prod.snd := by
    unfold recoveryCallback
    cases op with
    | put k v =>
        cases hop
        rw [if_pos htype, hkey, hvalue]
        rfl
    | delete k =>
        cases hop
        rw [if_neg (by rw [htype]; decide), if_pos htype, hkey]
        rfl
    | get _ => exact nomatch hop
    | flush => exact nomatch hop
    | sync => exact nomatch hop
    | reopen => exact nomatch hop
  rw [hsame] at hrun
  obtain ⟨⟨s, t₁⟩, hchange, rfl⟩ := Option.map_eq_some_iff.mp hrun
  exact ⟨s, t₁, hchange, h'⟩

/-- **`Put` and `Delete` keep the tree and the accepted records together**, if
no sync fails in between. -/
theorem logged_agrees (h : BPlusTree.Models o e.tree m) (hwal : e.wal = some w) {op : EngineOp}
    {type : WalRecordType} {key value : Bytes} (hop : op.record = some (type, key, value))
    (hP : e.SyncsOrKeeps env op) {s : Status}
    (hrun : e.logged env (fun w seq => w.writeRecord env type key value seq) op.change
      = some (s, e')) :
    BPlusTree.Models o e'.tree (m.replayAll (e.accepted env op)) ∧ ∃ w', e'.wal = some w' := by
  obtain ⟨s₁, w₁, hlog, -, -, hcase⟩ := logged_cases hwal hrun
  have hchange := change_models hop h (r := w.loggedRecord env type key value e.sequenceNumber)
    rfl rfl rfl
  unfold accepted
  simp only [hwal, hop, hlog]
  rcases hcase with ⟨hs₁, -, hwal', htree⟩ | ⟨hs₁, hwal', ⟨hfail, -, htree⟩ | ⟨-, hdone⟩⟩
  -- the log refused the record
  · rw [if_neg (by rw [hs₁]; decide), htree]
    exact ⟨h, _, hwal'⟩
  -- the sync failed: the record is in the log, the tree is as before
  · rw [if_pos hs₁, htree]
    refine ⟨?_, _, hwal'⟩
    have hkeeps : e.KeepsTree op := by
      refine (hP w type key value s₁ w₁ hwal hop hlog hs₁).resolve_left ?_
      rw [hfail]
      decide
    obtain ⟨s₂, t', hrun', hmodels⟩ := hchange
    have hsame := models_unique hmodels h (hkeeps s₂ t' hrun')
    show BPlusTree.Models o e.tree (m.replayRecord _)
    rw [hsame]
    exact h
  · rw [if_pos hs₁]
    obtain ⟨s₂, t', hrun', hmodels⟩ := hchange
    obtain ⟨-, rfl⟩ := Prod.mk.inj (Option.some.inj (hrun'.symm.trans hdone))
    exact ⟨hmodels, _, hwal'⟩

theorem apply_agrees (h : BPlusTree.Models o e.tree m) (hwal : e.wal = some w) {op : EngineOp}
    (hP : e.SyncsOrKeeps env op) (hop : op ≠ .reopen) {reply : TreeReply}
    (hrun : e.apply env op = some (reply, e')) :
    BPlusTree.Models o e'.tree (m.replayAll (e.accepted env op)) ∧ ∃ w', e'.wal = some w' := by
  have hnone : op.record = none → m.replayAll (e.accepted env op) = m := by
    intro hrec
    unfold accepted
    simp only [hwal, hrec]
    rfl
  cases op with
  | put key value =>
      obtain ⟨⟨s, e₁⟩, hput, heq⟩ := Option.map_eq_some_iff.mp hrun
      obtain ⟨-, rfl⟩ := Prod.mk.inj heq
      exact logged_agrees h hwal rfl hP hput
  | delete key =>
      obtain ⟨⟨s, e₁⟩, hdelete, heq⟩ := Option.map_eq_some_iff.mp hrun
      obtain ⟨-, rfl⟩ := Prod.mk.inj heq
      exact logged_agrees h hwal rfl hP hdelete
  | get key =>
      obtain ⟨r, -, heq⟩ := Option.map_eq_some_iff.mp hrun
      obtain ⟨-, rfl⟩ := Prod.mk.inj heq
      rw [hnone rfl]
      exact ⟨h, w, hwal⟩
  | flush =>
      obtain ⟨-, rfl⟩ := Prod.mk.inj (Option.some.inj hrun)
      rw [hnone rfl]
      unfold KVEngine.flush
      simp only [hwal]
      exact ⟨h, _, rfl⟩
  | sync =>
      obtain ⟨-, rfl⟩ := Prod.mk.inj (Option.some.inj hrun)
      rw [hnone rfl]
      unfold KVEngine.sync
      simp only [hwal]
      exact ⟨h, _, rfl⟩
  | reopen => exact absurd rfl hop

/-! ## §4. `Recover`. -/

/-- The next sequence number once `D` is recovered. -/
def numberAfter (D : List WalRecord × Option Status) (seq : UInt64) : UInt64 :=
  if D.2.isNone && D.1.foldl WriteAheadLog.maxSequence 0 > 0 then
    D.1.foldl WriteAheadLog.maxSequence 0 + 1
  else seq

/-- **`Recover` replays the records on disk** on the tree as it is. -/
theorem recover_spec (env : Env) (h : BPlusTree.Models o e.tree m) (hwal : e.wal = some w) :
    ∃ t requests, e.recover env = some ((w.onDisk env).2.getD .okStatus, ⟨e.options, t,
        some { w with disk := { w.disk with requests } },
        numberAfter (w.onDisk env) e.sequenceNumber⟩) ∧
      BPlusTree.Models o t (m.replayAll (w.onDisk env).1) := by
  obtain ⟨t, hreplay, ht⟩ := replay_models (w.onDisk env).1 h
  obtain ⟨requests, hrec⟩ := WriteAheadLog.recover_onDisk env recoveryCallback w e.tree
  refine ⟨t, requests, ?_, ht⟩
  have hok := WriteAheadLog.ok_of_error (@WriteAheadLog.recordsOf_error env.crc32 w.options
    (WriteAheadLog.opened env w.disk.requests w.disk.files.entries))
  unfold KVEngine.recover
  simp only [hwal, hrec, hreplay, Option.map_some, Option.bind_eq_bind, Option.bind_some]
  rw [show ((w.onDisk env).2.getD .okStatus).ok = (w.onDisk env).2.isNone from hok]
  unfold numberAfter
  cases (w.onDisk env).2 with
  | some s => rfl
  | none =>
      simp only [Option.isNone_none, if_true, Option.getD_some, Bool.true_and]
      split <;> rfl

/-- The constructor is a `Recover` on an empty tree. -/
theorem new_spec (env : Env) (d : Disk) (hwal : options.enableWal = true) :
    ∃ t requests, KVEngine.new env options d = some ⟨options, t,
        some { WriteAheadLog.new env options.walOptions d with
          disk := { (WriteAheadLog.new env options.walOptions d).disk with requests } },
        numberAfter ((WriteAheadLog.new env options.walOptions d).onDisk env) 1⟩ ∧
      BPlusTree.Models (BPlusTree.new options.btreeOptions).options t
        (RefMap.empty.replayAll ((WriteAheadLog.new env options.walOptions d).onDisk env).1) := by
  obtain ⟨t, requests, hrec, ht⟩ := recover_spec env
    (e := ⟨options, BPlusTree.new options.btreeOptions,
      some (WriteAheadLog.new env options.walOptions d), 1⟩)
    (BPlusTree.models_new options.btreeOptions) rfl
  refine ⟨t, requests, ?_, ht⟩
  unfold KVEngine.new
  simp only [hwal, if_true, hrec, Option.bind_eq_bind, Option.bind_some]

theorem new_agrees {d : Disk} {e₀ : KVEngine} (hwal : options.enableWal = true)
    (hnew : KVEngine.new env options d = some e₀) :
    BPlusTree.Models (BPlusTree.new options.btreeOptions).options e₀.tree
        (RefMap.empty.replayAll ((WriteAheadLog.new env options.walOptions d).onDisk env).1) ∧
      (∃ w, e₀.wal = some w) := by
  obtain ⟨t, requests, hnew', ht⟩ := new_spec env d hwal
  obtain rfl := Option.some.inj (hnew'.symm.trans hnew)
  exact ⟨ht, _, rfl⟩

/-! ## §5. Runs. -/

/-- The files hold all records of the log, and the largest number among them
is the last one given away; or they hold none. -/
def HoldsAllOrNone (env : Env) (D₀ rs : List WalRecord) (e : KVEngine) : Prop :=
  ∀ w, e.wal = some w → (w.onDisk env).1 = [] ∨ (w.onDisk env).1 = D₀ ++ rs ∧
    ∃ r ∈ D₀ ++ rs, (∀ q ∈ D₀ ++ rs, q.header.sequenceNumber ≤ r.header.sequenceNumber) ∧
      e.sequenceNumber ≤ r.header.sequenceNumber + 1

/-- Replaying all records of the log, or none, on their map. -/
theorem replayAll_allOrNone {D D₀ : List WalRecord} (h : D = [] ∨ D = D₀ ++ rs) :
    ((RefMap.empty.replayAll D₀).replayAll rs).replayAll D
      = (RefMap.empty.replayAll D₀).replayAll rs := by
  rcases h with rfl | rfl
  · rfl
  · rw [← RefMap.replayAll_append RefMap.empty]
    exact RefMap.replayAll_twice _ _

/-- **The tree is the map of all records accepted**, in every run that keeps
the two together. -/
theorem RunsLogging.agrees {P : KVEngine → EngineOp → Prop}
    {Q : List WalRecord → KVEngine → Prop} {e₀ : KVEngine} {D₀ : List WalRecord}
    (h : RunsLogging env P Q e₀ rs e)
    (h₀ : BPlusTree.Models o e₀.tree (RefMap.empty.replayAll D₀)) (hwal : ∃ w, e₀.wal = some w)
    (hP : ∀ e op, P e op → e.SyncsOrKeeps env op)
    (hQ : ∀ rs e, Q rs e → HoldsAllOrNone env D₀ rs e) :
    BPlusTree.Models o e.tree ((RefMap.empty.replayAll D₀).replayAll rs) ∧
      ∃ w, e.wal = some w := by
  induction h with
  | start => exact ⟨h₀, hwal⟩
  | call _ hstep hop hrun ih =>
      obtain ⟨hmodels, w, hw⟩ := ih
      rw [RefMap.replayAll_append]
      exact apply_agrees hmodels hw (hP _ _ hstep) hop hrun
  | recover _ hstep hrun ih =>
      obtain ⟨hmodels, w, hw⟩ := ih
      obtain ⟨t, requests, hrec, ht⟩ := recover_spec env hmodels hw
      rw [replayAll_allOrNone ((hQ _ _ hstep w hw).imp_right And.left)] at ht
      rw [hrec] at hrun
      obtain ⟨-, rfl⟩ := Prod.mk.inj (Option.some.inj hrun)
      exact ⟨ht, _, rfl⟩

/-- **A `Recover` of a running engine is harmless**, if the files hold all
records of the log or none.  A `uint64_t` numbers the files: the run starts none
behind the last of these numbers. -/
theorem recover_harmless (env : Env) (options : KVEngineOptions)
    (hwal : options.enableWal = true) (d : Disk) {e₀ e e' : KVEngine}
    (hnew : KVEngine.new env options d = some e₀) {rs : List WalRecord}
    (hruns : RunsLogging env (fun e op => e.SyncsOrKeeps env op ∧ e.NumbersFile op)
      (HoldsAllOrNone env ((WriteAheadLog.new env options.walOptions d).onDisk env).1) e₀ rs e)
    (hholds : HoldsAllOrNone env ((WriteAheadLog.new env options.walOptions d).onDisk env).1 rs e)
    {s : Status} (hrec : e.recover env = some (s, e')) :
    (∀ key, e'.get key = e.get key) ∧ e.sequenceNumber ≤ e'.sequenceNumber := by
  obtain ⟨h₀, hwal₀⟩ := new_agrees hwal hnew
  generalize ((WriteAheadLog.new env options.walOptions d).onDisk env).1 = D₀ at *
  obtain ⟨hmodels, w, hw⟩ := hruns.agrees h₀ hwal₀ (fun _ _ h => h.1) (fun _ _ h => h)
  have hdisk := hholds w hw
  obtain ⟨t, requests, hrun, ht⟩ := recover_spec env hmodels hw
  rw [replayAll_allOrNone (hdisk.imp_right And.left)] at ht
  rw [hrun] at hrec
  obtain ⟨-, rfl⟩ := Prod.mk.inj (Option.some.inj hrec)
  refine ⟨fun key => ?_, ?_⟩
  · show t.get key = e.tree.get key
    rw [ht.get, hmodels.get]
  · show e.sequenceNumber ≤ numberAfter (w.onDisk env) e.sequenceNumber
    unfold numberAfter
    split
    next hmax =>
      rcases hdisk with hnil | ⟨hall, r, hr, hle, hnext⟩
      · rw [hnil] at hmax
        simp at hmax
      -- the maximum is that of the last record
      · obtain ⟨hupper, hattained⟩ := WriteAheadLog.isMaxSequence_foldl (w.onDisk env).1
          WriteAheadLog.isMaxSequence_nil
        rw [List.nil_append, hall] at hupper hattained
        have hle' : (D₀ ++ rs).foldl WriteAheadLog.maxSequence 0 ≤ r.header.sequenceNumber := by
          rcases hattained with h0 | ⟨q, hq, hm⟩
          · rw [h0]
            exact UInt64.zero_le
          · rw [← hm]
            exact hle q hq
        rw [hall, UInt64.le_antisymm hle' (hupper r hr)]
        exact hnext
    next => exact UInt64.le_refl _

/-- After a first `put`, which `sync_on_write` brings to the file. -/
theorem recover_harmless_put :
    ∃ (e₀ : KVEngine) (rs : List WalRecord) (e : KVEngine) (s : Status) (e' : KVEngine),
      KVEngine.new .undisturbed {} {} = some e₀ ∧ rs.length = 1 ∧
      e.recover .undisturbed = some (s, e') ∧ (∀ key, e'.get key = e.get key) ∧
      e.sequenceNumber ≤ e'.sequenceNumber := by
  have hrun : (do
      let e₀ ← KVEngine.new .undisturbed {} {}
      let w₀ ← e₀.wal
      let r ← e₀.apply .undisturbed (.put [1] [2])
      let w ← r.2.wal
      let q ← r.2.recover .undisturbed
      let rs := e₀.accepted .undisturbed (.put [1] [2])
      some (rs.length, (e₀.syncLog .undisturbed w₀).1.ok, q.1.ok, r.2.sequenceNumber,
        decide (w₀.currentFileNumber = 0 ∧ (w.onDisk .undisturbed).1 = rs ∧
          rs.map (·.header.sequenceNumber) = [1] ∧
          ((WriteAheadLog.new .undisturbed {} {}).onDisk .undisturbed).1 = [])))
      = some (1, true, true, 2, true) := by decide +kernel
  simp only [Option.bind_eq_bind, Option.bind_eq_some_iff, Option.some.injEq,
    Prod.mk.injEq, decide_eq_true_eq] at hrun
  obtain ⟨e₀, hnew, w₀, hw₀, ⟨reply, e⟩, hput, w, hw, ⟨s, e'⟩, hrec, hlen, -, -, hseq, hfile, hdisk,
    hnum, hempty⟩ := hrun
  have hP : e₀.SyncsOrKeeps .undisturbed (.put [1] [2]) := by
    intro w type key value s₁ w₁ hw' _ _ _
    have hsync : e₀.options.syncOnWrite = false := by
      obtain ⟨-, -, -, ho⟩ := new_wal rfl hnew
      rw [ho]
    refine Or.inl ?_
    unfold syncLog
    rw [if_neg (by rw [hsync]; decide)]
    rfl
  have hN : e₀.NumbersFile (.put [1] [2]) := by
    intro w type key value hw' _
    obtain rfl := Option.some.inj (hw₀.symm.trans hw')
    refine Or.inr (fun _ => ?_)
    rw [hfile]
    decide
  have hruns := RunsLogging.call (Q := HoldsAllOrNone .undisturbed
      ((WriteAheadLog.new .undisturbed {} {}).onDisk .undisturbed).1)
    (.start (P := fun e op => e.SyncsOrKeeps .undisturbed op ∧ e.NumbersFile op)) ⟨hP, hN⟩
    (by simp) hput
  obtain ⟨r, hr⟩ := List.length_eq_one_iff.mp hlen
  -- The one record on the disk is the one the run wrote.
  have hholds : HoldsAllOrNone .undisturbed
      ((WriteAheadLog.new .undisturbed {} {}).onDisk .undisturbed).1
      ([] ++ e₀.accepted .undisturbed (.put [1] [2])) e := by
    intro w' hw'
    obtain rfl := Option.some.inj (hw.symm.trans hw')
    rw [hr] at hnum
    have hone : r.header.sequenceNumber = 1 := by simpa using hnum
    refine Or.inr ⟨by rw [hempty, hdisk]; rfl, r, ?_, ?_, ?_⟩
    · rw [hempty, hr]
      simp
    · rw [hempty, hr]
      simp
    · rw [hseq, hone]
      decide
  obtain ⟨hget, hle⟩ := recover_harmless .undisturbed {} rfl {} hnew hruns hholds hrec
  exact ⟨e₀, _, e, s, e', hnew, hlen, hrec, hget, hle⟩

/-- A synced `put`, then one that stays in the buffer: `Recover` brings the old
value back and gives the second number away once more. -/
theorem recover_harmless_buffered : (do
      let e ← KVEngine.new .undisturbed { walOptions := { syncOnWrite := false } } {}
      let (_, e) ← e.put .undisturbed [1] [2]
      let (s₁, e) := e.sync .undisturbed
      let (_, e) ← e.put .undisturbed [1] [3]
      let (_, v) ← e.get [1]
      let (s₂, e') ← e.recover .undisturbed
      let (_, v') ← e'.get [1]
      some ([s₁.code, s₂.code], v, v', e.sequenceNumber, e'.sequenceNumber))
    = some ([.ok, .ok], some [3], some [2], 3, 2) := by decide +kernel

end KVEngine

end KvEngine
