/-
  KvEngine.Engine.Stored
  ──────────────────────
  **The tree against what the log stores**: against the records `Recover` would
  read once everything on its way to the files has arrived there.

  `Stores env options e D` says that the engine writes to a log that stores `D`.
  A call adds its record to `D` if no request on the log's stream fails
  (`WritesThrough`) and the record can be read back (`Lasts`); the `fsync` behind
  it may fail.  The tree then follows the record, unless the `Sync` of
  `KVEngineOptions::sync_on_write` fails in between.

  * `tree_replays_log` — after every call of a run that meets these conditions
    the tree is the replay of the log, and the next open rebuilds it.
-/
import KvEngine.Engine.Agreement
import KvEngine.Wal.Settled

namespace KvEngine

open Lib

namespace KVEngine

/-! ## §1. Runs. -/

/-- Runs in which every call meets `P`, reopenings among the calls. -/
inductive RunsReopening (env : Env) (P : KVEngine → EngineOp → Prop) (e₀ : KVEngine) :
    List EngineOp → KVEngine → Prop
  | start : RunsReopening env P e₀ [] e₀
  | step {ops : List EngineOp} {e e' : KVEngine} {op : EngineOp} {reply : TreeReply}
      (h : RunsReopening env P e₀ ops e) (hP : P e op)
      (hrun : e.apply env op = some (reply, e')) : RunsReopening env P e₀ (ops ++ [op]) e'

/-- What `Get` finds. -/
def mapOf (e : KVEngine) : RefMap := fun key => (e.get key).bind Prod.snd

/-- What `Get` finds is the map the tree represents. -/
theorem mapOf_eq {o : BTreeOptions} {e : KVEngine} {m : RefMap}
    (h : BPlusTree.Models o e.tree m) : e.mapOf = m := by
  funext key
  unfold mapOf
  rw [show e.get key = e.tree.get key from rfl, h.get key]
  cases m key <;> rfl

theorem mapOf_congr {e e' : KVEngine} (h : e'.tree = e.tree) : e'.mapOf = e.mapOf := by
  unfold mapOf KVEngine.get
  rw [h]

/-- A record that `Recover` will read back: its fields are no longer than 256 MiB,
no record in the files is corrupt, it is not written behind a torn one, and there is
a number for the file it needs. -/
structure Lasts (env : Env) (w : WriteAheadLog) (key value : Bytes) : Prop where
  keyMax : key.length ≤ 2 ^ 28
  valueMax : value.length ≤ 2 ^ 28
  intact : (w.stored env).2 = none
  behind : w.Aligned env ∨ w.rotates key value
  number : w.NumbersFile key value

/-- No request on the stream of the log fails in the call; an `fsync` may. -/
structure Arrives (env : Env) (e : KVEngine) (op : EngineOp) : Prop where
  record : ∀ w type key value, e.wal = some w → op.record = some (type, key, value) →
    Refused key value ∨ WriteAheadLog.WritesThrough env w type key value e.sequenceNumber ∧
      ∀ s w', w.writeRecord env type key value e.sequenceNumber = some (s, w') →
        e.options.syncOnWrite = true → WriteAheadLog.Flushes env w'
  flush : ∀ w, e.wal = some w → op = .flush →
    env.Ok w.disk.requests (w.flushBuffer env).disk.requests
  sync : ∀ w, e.wal = some w → op = .sync → WriteAheadLog.Flushes env w

theorem arrives_of_fine {env : Env} (hok : env.Fine) (e : KVEngine) (op : EngineOp) :
    e.Arrives env op where
  record w type key value _ _ := Or.inr
    ⟨WriteAheadLog.writesThrough_of_fine hok w type key value _, fun _ _ _ _ => hok.ok _ _⟩
  flush _ _ _ := hok.ok _ _
  sync _ _ _ := hok.ok _ _

variable {env : Env} {options : KVEngineOptions} {e e' : KVEngine} {w : WriteAheadLog}
  {D : List WalRecord × Option Status} {m : RefMap}

/-! ## §2. What the log stores. -/

/-- The engine writes to a log that stores `D`. -/
def Stores (env : Env) (options : KVEngineOptions) (e : KVEngine)
    (D : List WalRecord × Option Status) : Prop :=
  e.options = options ∧ ∃ w, e.wal = some w ∧ w.Live options.walOptions ∧ w.stored env = D

/-- **The constructor**: log, tree and number are those of the directory. -/
theorem new_stores (hwal : options.enableWal = true) (d : Disk)
    (hok : env.Ok d.requests (d.requests + WriteAheadLog.openingRequests d)) :
    ∃ e, KVEngine.new env options d = some e ∧
      Stores env options e (WriteAheadLog.recordsOf env.crc32 options.walOptions d.files.entries) ∧
      BPlusTree.Models (BPlusTree.new options.btreeOptions).options e.tree
        (RefMap.empty.replayAll
          (WriteAheadLog.recordsOf env.crc32 options.walOptions d.files.entries).1) ∧
      e.sequenceNumber = numberAfter
        (WriteAheadLog.recordsOf env.crc32 options.walOptions d.files.entries) 1 := by
  obtain ⟨t, requests, hnew, ht⟩ := new_spec env d hwal
  obtain ⟨hlive, hstored⟩ := WriteAheadLog.new_live options.walOptions d
    (hok _ (Nat.le_refl _) (by unfold WriteAheadLog.openingRequests; omega))
  obtain ⟨hlive', hstored'⟩ := hlive.asked env requests
  rw [WriteAheadLog.onDisk_new options.walOptions d hok] at hnew ht
  exact ⟨_, hnew, ⟨rfl, _, rfl, hlive', hstored'.trans hstored⟩, ht, rfl⟩

/-- **Closing and opening again** keeps what the log stores. -/
theorem Stores.reopen (h : Stores env options e D) (hwal : options.enableWal = true)
    (hok : ∀ w, e.wal = some w → env.OkFrom w.disk.requests) :
    ∃ e', e.reopen env = some e' ∧ Stores env options e' D ∧
      BPlusTree.Models (BPlusTree.new options.btreeOptions).options e'.tree
        (RefMap.empty.replayAll D.1) ∧ e'.sequenceNumber = numberAfter D 1 := by
  obtain ⟨hoptions, w, hw, hlive, hstored⟩ := h
  have hfrom := hok w hw
  obtain ⟨e', hnew, hstores, htree, hnumber⟩ := new_stores hwal (w.destroy env)
    (hfrom.ok (WriteAheadLog.requests_le_destroy env w))
  rw [hlive.destroy (hfrom.ok (Nat.le_refl _)), hstored] at hstores htree hnumber
  refine ⟨e', ?_, hstores, htree, hnumber⟩
  unfold KVEngine.reopen KVEngine.destroy
  rw [hw, hoptions]
  exact hnew

theorem logged_number {log : WriteAheadLog → UInt64 → Option (Status × WriteAheadLog)}
    {change : BPlusTree → Option (Status × BPlusTree)} {s : Status}
    (hrun : e.logged env log change = some (s, e')) :
    e'.sequenceNumber = e.sequenceNumber + 1 := by
  cases hw : e.wal with
  | none =>
      unfold logged at hrun
      simp only [hw, Option.bind_eq_bind, Option.bind_eq_some_iff, Prod.exists] at hrun
      obtain ⟨s₁, t, -, hrun⟩ := hrun
      obtain ⟨-, rfl⟩ := Prod.mk.inj (Option.some.inj hrun)
      rfl
  | some w =>
      obtain ⟨s₁, w₁, -, -, hnumber, -⟩ := logged_cases hw hrun
      exact hnumber

/-- The sync of `sync_on_write`, if its flush succeeds. -/
theorem syncLog_live {o : WalOptions} (h : w.Live o)
    (hok : e.options.syncOnWrite = true → WriteAheadLog.Flushes env w) :
    (e.syncLog env w).2.Live o ∧ (e.syncLog env w).2.stored env = w.stored env := by
  unfold syncLog
  split
  next hs => exact h.sync (hok hs)
  next => exact ⟨h, rfl⟩

/-- **`Put` and `Delete` store their record**, if it is refused or arrives and lasts. -/
theorem Stores.logged (h : Stores env options e D) {op : EngineOp}
    {type : WalRecordType} {key value : Bytes} (hop : op.record = some (type, key, value))
    (harrives : e.Arrives env op)
    (hplace : ∀ w, e.wal = some w → Refused key value ∨ Lasts env w key value)
    {change : BPlusTree → Option (Status × BPlusTree)} {s : Status}
    (hrun : e.logged env (fun w seq => w.writeRecord env type key value seq) change
      = some (s, e')) :
    Stores env options e' (D.1 ++ e.accepted env op, D.2) := by
  obtain ⟨hoptions, w, hw, hlive, rfl⟩ := h
  obtain ⟨s₁, w₁, hlog, hoptions', -, hcase⟩ := logged_cases hw hrun
  refine ⟨hoptions'.trans hoptions, ?_⟩
  unfold accepted
  simp only [hw, hop, hlog]
  by_cases hlarge : Refused key value
  -- a refused record leaves the log as it is
  · rw [WriteAheadLog.writeRecord_large hlarge] at hlog
    obtain ⟨rfl, rfl⟩ := Prod.mk.inj (Option.some.inj hlog)
    rcases hcase with ⟨-, -, hwal', -⟩ | ⟨hs₁, -⟩
    · refine ⟨w, hwal', hlive, ?_⟩
      rw [if_neg (by decide), List.append_nil]
    · exact absurd hs₁ (by decide)
  · obtain ⟨hthrough, hflush⟩ :=
      (harrives.record w type key value hw hop).resolve_left hlarge
    have hlasts := (hplace w hw).resolve_left hlarge
    obtain ⟨hlive₁, -, hwritten⟩ := hlive.write hthrough hlog
    obtain ⟨hlive₂, hstored₂⟩ := syncLog_live hlive₁ (hflush s₁ w₁ hlog)
    rcases hcase with ⟨hs₁, -⟩ | ⟨hs₁, hwal', -⟩
    · rw [WriteAheadLog.writeRecord_eq hlarge] at hlog
      obtain ⟨w₂, -, heq⟩ := Option.map_eq_some_iff.mp hlog
      obtain ⟨rfl, -⟩ := Prod.mk.inj heq
      exact absurd hs₁ (by decide)
    · refine ⟨_, hwal', hlive₂, ?_⟩
      rw [if_pos hs₁, hstored₂,
        hwritten hs₁ hlasts.keyMax hlasts.valueMax hlasts.intact hlasts.behind, hlasts.intact]

/-- Every call but a reopening. -/
theorem Stores.apply (h : Stores env options e D) {op : EngineOp} (harrives : e.Arrives env op)
    (hop : op ≠ .reopen) (hplace : ∀ w type key value, e.wal = some w →
      op.record = some (type, key, value) → Refused key value ∨ Lasts env w key value)
    {reply : TreeReply} (hrun : e.apply env op = some (reply, e')) :
    Stores env options e' (D.1 ++ e.accepted env op, D.2) ∧
      (op.record = none → e'.tree = e.tree ∧ e'.sequenceNumber = e.sequenceNumber) ∧
      (op.record ≠ none → e'.sequenceNumber = e.sequenceNumber + 1) := by
  -- A call that writes no record leaves what is stored.
  have hnone : op.record = none → (D.1 ++ e.accepted env op, D.2) = D := by
    intro hrec
    unfold accepted
    cases e.wal <;> simp [hrec]
  cases op with
  | put key value =>
      obtain ⟨⟨s, e₁⟩, hput, heq⟩ := Option.map_eq_some_iff.mp hrun
      obtain ⟨-, rfl⟩ := Prod.mk.inj heq
      exact ⟨h.logged rfl harrives (fun w hw => hplace w _ _ _ hw rfl) hput,
        by simp [EngineOp.record], fun _ => logged_number hput⟩
  | delete key =>
      obtain ⟨⟨s, e₁⟩, hdelete, heq⟩ := Option.map_eq_some_iff.mp hrun
      obtain ⟨-, rfl⟩ := Prod.mk.inj heq
      exact ⟨h.logged rfl harrives (fun w hw => hplace w _ _ _ hw rfl) hdelete,
        by simp [EngineOp.record], fun _ => logged_number hdelete⟩
  | get key =>
      obtain ⟨r, -, heq⟩ := Option.map_eq_some_iff.mp hrun
      obtain ⟨-, rfl⟩ := Prod.mk.inj heq
      rw [hnone rfl]
      exact ⟨h, fun _ => ⟨rfl, rfl⟩, fun hrec => absurd rfl hrec⟩
  | flush =>
      obtain ⟨-, rfl⟩ := Prod.mk.inj (Option.some.inj hrun)
      obtain ⟨hoptions, w, hw, hlive, rfl⟩ := h
      obtain ⟨hlive', hstored⟩ := hlive.flush (harrives.flush w hw rfl)
      rw [hnone rfl]
      unfold KVEngine.flush
      simp only [hw]
      exact ⟨⟨hoptions, _, rfl, hlive', hstored⟩, fun _ => ⟨trivial, trivial⟩,
        fun hrec => absurd rfl hrec⟩
  | sync =>
      obtain ⟨-, rfl⟩ := Prod.mk.inj (Option.some.inj hrun)
      obtain ⟨hoptions, w, hw, hlive, rfl⟩ := h
      obtain ⟨hlive', hstored⟩ := hlive.sync (harrives.sync w hw rfl)
      rw [hnone rfl]
      unfold KVEngine.sync
      simp only [hw]
      exact ⟨⟨hoptions, _, rfl, hlive', hstored⟩, fun _ => ⟨trivial, trivial⟩,
        fun hrec => absurd rfl hrec⟩
  | reopen => exact absurd rfl hop

/-! ## §3. Tree and log. -/

/-- Tree and log hold the same map. -/
def Rebuilds (env : Env) (options : KVEngineOptions) (e : KVEngine) (m : RefMap) : Prop :=
  BPlusTree.Models (BPlusTree.new options.btreeOptions).options e.tree m ∧
    ∃ D, Stores env options e D ∧ RefMap.empty.replayAll D.1 = m

theorem Rebuilds.mapOf (h : Rebuilds env options e m) : e.mapOf = m := mapOf_eq h.1

/-- The call keeps tree and log together: what it writes arrives at the log and lasts
there, and no `Sync` fails where the tree would change. -/
structure KeepsMap (env : Env) (e : KVEngine) (op : EngineOp) : Prop where
  opened : op ≠ .reopen
  arrives : e.Arrives env op
  lasts : ∀ w type key value, e.wal = some w → op.record = some (type, key, value) →
    Refused key value ∨ Lasts env w key value
  syncs : e.SyncsOrKeeps env op

/-- **One call.** -/
theorem Rebuilds.call (h : Rebuilds env options e m) {op : EngineOp} (hP : e.KeepsMap env op)
    {reply : TreeReply} (hrun : e.apply env op = some (reply, e')) :
    Rebuilds env options e' (m.replayAll (e.accepted env op)) := by
  obtain ⟨htree, D, hstores, hmap⟩ := h
  obtain ⟨-, w, hw, -⟩ := id hstores
  obtain ⟨hstores', -⟩ := hstores.apply hP.arrives hP.opened hP.lasts hrun
  obtain ⟨htree', -⟩ := apply_agrees htree hw hP.syncs hP.opened hrun
  refine ⟨htree', _, hstores', ?_⟩
  rw [RefMap.replayAll_append, hmap]

theorem RunsReopening.rebuilds {e₀ : KVEngine} {ops : List EngineOp}
    (h : RunsReopening env (KeepsMap env) e₀ ops e) (h₀ : Rebuilds env options e₀ m) :
    ∃ m', Rebuilds env options e m' := by
  induction h with
  | start => exact ⟨m, h₀⟩
  | step _ hP hrun ih =>
      obtain ⟨m', h⟩ := ih
      exact ⟨_, h.call hP hrun⟩

/-- **After every call the tree is what replaying the log rebuilds**, in every run
whose calls keep the two together; and so does the next open, if no request fails
from then on. -/
theorem tree_replays_log (env : Env) (options : KVEngineOptions)
    (hwal : options.enableWal = true) (d : Disk)
    (hopening : env.Ok d.requests (d.requests + WriteAheadLog.openingRequests d))
    {e₀ e : KVEngine} (hnew : KVEngine.new env options d = some e₀) {ops : List EngineOp}
    (hruns : RunsReopening env (KeepsMap env) e₀ ops e) :
    ∃ w, e.wal = some w ∧ e.mapOf = RefMap.empty.replayAll (w.stored env).1 ∧
      (env.OkFrom w.disk.requests →
        ∃ e', e.reopen env = some e' ∧ e'.mapOf = e.mapOf) := by
  obtain ⟨e₁, hnew₁, hstores₀, htree₀, -⟩ := new_stores hwal d hopening
  obtain rfl := Option.some.inj (hnew₁.symm.trans hnew)
  obtain ⟨m, hrebuilds⟩ := hruns.rebuilds ⟨htree₀, _, hstores₀, rfl⟩
  obtain ⟨-, D, hstores, hmap⟩ := id hrebuilds
  obtain ⟨-, w, hw, -, rfl⟩ := id hstores
  refine ⟨w, hw, hrebuilds.mapOf.trans hmap.symm, fun hok => ?_⟩
  obtain ⟨e', hre, hstores', htree', -⟩ := hstores.reopen hwal (fun w' hw' => by
    obtain rfl := Option.some.inj (hw.symm.trans hw')
    exact hok)
  rw [hmap] at htree'
  refine ⟨e', hre, ?_⟩
  rw [Rebuilds.mapOf (⟨htree', _, hstores', hmap⟩ : Rebuilds env options e' m), hrebuilds.mapOf]

/-- The seventh request fails: the `fsync` behind a first record. -/
def unsynced : Env := ⟨Lib.crc32, fun i => { ok := i != 6 }⟩

theorem unsynced_ok {a b : Nat} (h : b ≤ 6) : unsynced.Ok a b := by
  intro i _ hi
  show (i != 6) = true
  simp only [bne_iff_ne, ne_eq]
  omega

/-- A first `put` whose `fsync` fails, which the log's own `sync_on_write` does not
look at. -/
theorem tree_replays_log_put :
    ∃ (e₀ e e' : KVEngine) (w : WriteAheadLog), KVEngine.new unsynced {} {} = some e₀ ∧
      e.wal = some w ∧ e.mapOf [1] = some [2] ∧
      e.mapOf = RefMap.empty.replayAll (w.stored unsynced).1 ∧
      e.reopen unsynced = some e' ∧ e'.mapOf = e.mapOf := by
  have hrun : (do
      let e₀ ← KVEngine.new unsynced {} {}
      let w₀ ← e₀.wal
      let w₁ ← (w₀.rotated unsynced [1] [2]).appendRecord unsynced .kPut [1] [2] e₀.sequenceNumber
      let r ← e₀.apply unsynced (.put [1] [2])
      let w ← r.2.wal
      let v ← r.2.get [1]
      some (decide (e₀.options.syncOnWrite = false ∧ w₀.currentFileNumber = 0 ∧
          (w₀.rotated unsynced [1] [2]).disk.requests ≤ 6 ∧ w₁.disk.requests ≤ 6 ∧
          ((w₁.flushBuffer unsynced).flushStream unsynced).disk.requests ≤ 6 ∧
          7 ≤ w.disk.requests ∧ v.2 = some [2]),
        (w₀.stored unsynced).2.isNone, w₀.settled.map (·.2.content)))
      = some (true, true, [[]]) := by decide +kernel
  simp only [Option.bind_eq_bind, Option.bind_eq_some_iff, Option.some.injEq, Prod.mk.injEq,
    decide_eq_true_eq, Option.isNone_iff_eq_none] at hrun
  obtain ⟨e₀, hnew, w₀, hw₀, w₁, happend, ⟨reply, e⟩, hput, w, hw, v, hget,
    ⟨hsync, hfile, hrotated, hwritten, hflushed, hlate, hvalue⟩, hintact, hcontent⟩ := hrun
  have hP : e₀.KeepsMap unsynced (.put [1] [2]) := by
    refine ⟨by simp, ⟨?_, by simp, by simp⟩, ?_, ?_⟩
    · intro w' type key value hw' hrec
      obtain rfl := Option.some.inj (hw₀.symm.trans hw')
      cases hrec
      refine Or.inr ⟨⟨unsynced_ok hrotated, fun w₂ happend' => ?_⟩, fun _ _ _ hs => ?_⟩
      · obtain rfl := Option.some.inj (happend.symm.trans happend')
        exact ⟨unsynced_ok hwritten, fun _ => unsynced_ok hflushed⟩
      · rw [hsync] at hs
        exact absurd hs (by decide)
    · intro w' type key value hw' hrec
      obtain rfl := Option.some.inj (hw₀.symm.trans hw')
      cases hrec
      refine Or.inr ⟨by decide, by decide, hintact, Or.inl (fun f hf _ => ⟨[], by simp, ?_⟩),
        fun _ => by rw [hfile]; decide⟩
      have hmem := List.mem_map_of_mem (f := (·.2.content)) hf
      rw [hcontent] at hmem
      exact List.mem_singleton.mp hmem
    · intro w' type key value s w'' _ _ _ _
      refine Or.inl ?_
      unfold syncLog
      rw [if_neg (by rw [hsync]; decide)]
      rfl
  obtain ⟨w', hw', hmap, hreopened⟩ := tree_replays_log unsynced {} rfl {}
    (unsynced_ok (by decide)) hnew (.step .start hP hput)
  obtain rfl := Option.some.inj (hw.symm.trans hw')
  obtain ⟨e', hre, hmap'⟩ := hreopened (fun i hi => by
    show (i != 6) = true
    simp only [bne_iff_ne, ne_eq]
    omega)
  refine ⟨e₀, e, e', w, hnew, hw, ?_, hmap, hre, hmap'⟩
  rw [mapOf, hget]
  exact hvalue

/-- The `fsync` of the first `put` fails: the call reports it and the key is
not there; once the engine is reopened it is. -/
theorem tree_replays_log_unsynced : (do
      let e ← KVEngine.new unsynced
        { walOptions := { syncOnWrite := false }, syncOnWrite := true } {}
      let (s₁, e) ← e.put unsynced [1] [2]
      let (s₂, _) ← e.get [1]
      let e ← e.reopen unsynced
      let (s₃, v) ← e.get [1]
      some ([s₁.code, s₂.code, s₃.code], v))
    = some ([.ioError, .notFound, .ok], some [2]) := by decide +kernel

end KVEngine

end KvEngine
