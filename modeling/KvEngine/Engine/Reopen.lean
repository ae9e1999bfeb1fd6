/-
  KvEngine.Engine.Reopen
  ──────────────────────
  **A `KVEngine` that is closed and reopened at any point is still the same
  ordered map.**

  The log of an engine holds one record for every `Put` and `Delete` that was
  called; replaying them is replaying the calls on the reference map, the
  rejected ones included.  `EngineModels` ties the three together, and
  `apply_refines` shows that every call keeps it, reopening among them.
-/
import KvEngine.BTree.Refinement
import KvEngine.Engine.Calls
import KvEngine.Wal.Truncate

namespace KvEngine

open Lib

/-! ## §1. The reference. -/

namespace EngineOp

/-- The key and the value can be logged and read back. -/
def Fits (options : WalOptions) : EngineOp → Prop
  | put key value => WriteAheadLog.Fits options key value
  | delete key => WriteAheadLog.Fits options key []
  | _ => True

end EngineOp

namespace RefMap

/-- The same call on the reference; only `put` and `delete` change it. -/
def applyEngine (m : RefMap) : EngineOp → TreeReply × RefMap
  | .put key value => m.apply (.put key value)
  | .delete key => m.apply (.delete key)
  | .get key => m.apply (.get key)
  | .flush => ((.okStatus, none), m)
  | .sync => ((.okStatus, none), m)
  | .reopen => ((.okStatus, none), m)

/-- A record replayed on the reference. -/
def replayRecord (m : RefMap) (r : WalRecord) : RefMap :=
  if r.header.type = .kPut then (m.apply (.put r.key r.value)).2
  else if r.header.type = .kDelete then (m.apply (.delete r.key)).2
  else m

def replayAll (m : RefMap) (rs : List WalRecord) : RefMap := rs.foldl replayRecord m

end RefMap

/-! ## §2. Replaying records. -/

namespace KVEngine

variable {o : BTreeOptions} {t : BPlusTree} {m : RefMap}

/-- **Replaying a record on the tree** is replaying it on the reference. -/
theorem recoveryCallback_models (h : BPlusTree.Models o t m) (r : WalRecord) :
    ∃ t', recoveryCallback t r.header r.key r.value = some t' ∧
      BPlusTree.Models o t' (m.replayRecord r) := by
  unfold recoveryCallback RefMap.replayRecord
  by_cases hput : r.header.type = .kPut
  · obtain ⟨t', hrun, h'⟩ := BPlusTree.apply_refines o t m (.put r.key r.value) h trivial
    obtain ⟨p, hp, heq⟩ := Option.map_eq_some_iff.mp hrun
    refine ⟨t', ?_, ?_⟩
    · rw [if_pos hput, hp, Option.map_some, (Prod.mk.inj heq).2]
    · rw [if_pos hput]
      exact h'
  · by_cases hdelete : r.header.type = .kDelete
    · obtain ⟨t', hrun, h'⟩ := BPlusTree.apply_refines o t m (.delete r.key) h trivial
      obtain ⟨p, hp, heq⟩ := Option.map_eq_some_iff.mp hrun
      refine ⟨t', ?_, ?_⟩
      · rw [if_neg hput, if_pos hdelete, hp, Option.map_some, (Prod.mk.inj heq).2]
      · rw [if_neg hput, if_pos hdelete]
        exact h'
    · rw [if_neg hput, if_neg hdelete, if_neg hput, if_neg hdelete]
      exact ⟨t, rfl, h⟩

theorem replay_models :
    ∀ (rs : List WalRecord) {t : BPlusTree} {m : RefMap}, BPlusTree.Models o t m →
      ∃ t', WriteAheadLog.replay recoveryCallback t rs = some t' ∧
        BPlusTree.Models o t' (m.replayAll rs) := by
  intro rs
  induction rs with
  | nil => exact fun {t} {m} h => ⟨t, rfl, h⟩
  | cons r rs ih =>
      intro t m h
      obtain ⟨t₁, hstep, h₁⟩ := recoveryCallback_models h r
      obtain ⟨t', hrun, h'⟩ := ih h₁
      refine ⟨t', ?_, h'⟩
      simp only [WriteAheadLog.replay, List.foldlM_cons, hstep, Option.bind_eq_bind,
        Option.bind_some]
      exact hrun

/-! ## §3. The invariant. -/

variable {env : Env} {options : KVEngineOptions} {e : KVEngine} {w w' : WriteAheadLog}
  {gs : List WriteAheadLog.Segment} {g : WriteAheadLog.Segment}

/-- The engine is the map `m`, and so are the records of its log. -/
structure Logged (env : Env) (options : KVEngineOptions) (e : KVEngine) (m : RefMap)
    (w : WriteAheadLog) (gs : List WriteAheadLog.Segment) (g : WriteAheadLog.Segment) : Prop where
  sameOptions : e.options = options
  tree : BPlusTree.Models (BPlusTree.new options.btreeOptions).options e.tree m
  wal : e.wal = some w
  walOptions : w.options = options.walOptions
  log : WriteAheadLog.Log env w gs g
  replays : RefMap.empty.replayAll ((gs ++ [g]).flatMap WriteAheadLog.Segment.records) = m

/-- The current file ends with its last record, so that the next one can be
read behind it. -/
def EngineModels (env : Env) (options : KVEngineOptions) (e : KVEngine) (m : RefMap) : Prop :=
  ∃ w gs g, Logged env options e m w gs g ∧ g.tail = []

variable {m : RefMap}

/-- **A call that fits is one call on the reference**, and its record, replayed,
is that call. -/
theorem Logged.call (h : Logged env options e m w gs g) (hok : env.Fine) (type : WalRecordType)
    {key value : Bytes} (hfits : WriteAheadLog.Fits options.walOptions key value)
    (htail : g.tail = [] ∨ w.rotates key value)
    {change : BPlusTree → Option (Status × BPlusTree)} {op : TreeOp}
    (hchange : ∀ t : BPlusTree, (change t).map (fun r => ((r.1, none), r.2)) = t.apply op)
    (hreplay : ∀ time seq, m.replayRecord (.make env.crc32 type seq time key value)
      = (m.apply op).2) :
    ∃ e', (e.logged env (fun w seq => w.writeRecord env type key value seq) change).map
        (fun r => ((r.1, none), r.2)) = some ((m.apply op).1, e') ∧
      EngineModels env options e' (m.apply op).2 := by
  obtain ⟨w', gs', g', time, hwrite, hlog, htail', -, hoptions, hrecords⟩ :=
    h.log.write hok type e.sequenceNumber (h.walOptions ▸ hfits) htail
  -- the sync in between changes no segment
  obtain ⟨hstatus, hlog', hoptions'⟩ : (e.syncLog env w').1 = .okStatus ∧
      WriteAheadLog.Log env (e.syncLog env w').2 gs' g' ∧
      (e.syncLog env w').2.options = w'.options := by
    unfold syncLog
    split
    · obtain ⟨hs, hl⟩ := hlog.sync hok
      obtain ⟨closed, f, hw, -⟩ := hlog.writing
      exact ⟨hs, hl, (hw.holds.sync env).2.1.options⟩
    · exact ⟨rfl, hlog, rfl⟩
  obtain ⟨t', hrun, htree⟩ := BPlusTree.apply_refines _ e.tree m op h.tree trivial
  rw [← hchange] at hrun
  obtain ⟨p, hp, heq⟩ := Option.map_eq_some_iff.mp hrun
  obtain ⟨hreply, rfl⟩ := Prod.mk.inj heq
  rw [logged_of_write h.wal hwrite, hstatus, hp]
  refine ⟨_, congrArg some (Prod.ext hreply rfl), (e.syncLog env w').2, gs', g',
    ⟨h.sameOptions, htree, rfl, ?_, hlog', ?_⟩, htail'⟩
  · rw [hoptions', hoptions, h.walOptions]
  · rw [hrecords, RefMap.replayAll, List.foldl_append]
    show RefMap.replayRecord (RefMap.empty.replayAll _) _ = _
    rw [h.replays, hreplay]

/-- **Recovery right after the log was opened** rebuilds the map of its
records. -/
theorem new_logged (hok : env.Fine) (hwal : options.enableWal = true) {d : Disk}
    (hlog : WriteAheadLog.Log env (.new env options.walOptions d) gs g)
    (hoptions : (WriteAheadLog.new env options.walOptions d).options = options.walOptions)
    (hsegs : WriteAheadLog.Segments
      (WriteAheadLog.new env options.walOptions d).disk.files.entries (gs ++ [g])) :
    ∃ e w, KVEngine.new env options d = some e ∧ Logged env options e
      (RefMap.empty.replayAll ((gs ++ [g]).flatMap WriteAheadLog.Segment.records)) w gs g := by
  obtain ⟨requests, hrec⟩ := WriteAheadLog.recover_eq recoveryCallback hok
    (.new env options.walOptions d) (BPlusTree.new options.btreeOptions)
  rw [WriteAheadLog.recordsOf_all hsegs hlog.ok] at hrec
  obtain ⟨t, hreplay, hmodels⟩ := replay_models
    ((gs ++ [g]).flatMap WriteAheadLog.Segment.records)
    (BPlusTree.models_new options.btreeOptions)
  simp only [hreplay, Option.map_some, Option.getD_none, Option.isNone_none, if_true] at hrec
  obtain ⟨seq, hnew⟩ := new_of_recover hwal hrec
  exact ⟨_, _, hnew, rfl, hmodels, rfl, hoptions, hlog.asked requests, rfl⟩

/-- **Closing and opening again** keeps the map. -/
theorem EngineModels.reopen (h : EngineModels env options e m) (hok : env.Fine)
    (hwal : options.enableWal = true) :
    ∃ e', e.reopen env = some e' ∧ EngineModels env options e' m := by
  obtain ⟨w, gs, g, h, htail⟩ := h
  have hsegs := h.log.destroy hok
  obtain ⟨hlog, hoptions, hopened⟩ :=
    WriteAheadLog.log_new options.walOptions hsegs (h.walOptions ▸ h.log.ok) hok
  obtain ⟨e', w', hnew, h'⟩ := new_logged hok hwal hlog hoptions hopened
  rw [h.replays] at h'
  refine ⟨e', ?_, w', gs, g, h', htail⟩
  simp only [KVEngine.reopen, destroy, h.wal, Option.map_some, Option.bind_eq_bind,
    Option.bind_some,
    h.sameOptions, hnew]

/-! ## §4. Runs. -/

/-- **One call on the engine is one call on the reference.** -/
theorem apply_refines (hok : env.Fine) (hwal : options.enableWal = true) :
    Refines (EngineModels env options) (EngineOp.Fits options.walOptions) (KVEngine.apply env)
      RefMap.applyEngine := by
  intro e m op h hfits
  cases op with
  | put key value =>
      obtain ⟨w, gs, g, h, htail⟩ := h
      exact h.call hok .kPut hfits (Or.inl htail) (fun _ => rfl) (fun _ _ => rfl)
  | delete key =>
      obtain ⟨w, gs, g, h, htail⟩ := h
      exact h.call hok .kDelete hfits (Or.inl htail) (fun _ => rfl) (fun _ _ => rfl)
  | get key =>
      have ⟨w, gs, g, hl, htail⟩ := h
      -- A lookup is the lookup of the tree; the log is not asked.
      obtain ⟨t', hrun, -⟩ := BPlusTree.apply_refines _ e.tree m (.get key) hl.tree trivial
      obtain ⟨p, hp, heq⟩ := Option.map_eq_some_iff.mp hrun
      refine ⟨e, ?_, ?_⟩
      · show (e.tree.get key).map _ = _
        rw [hp, Option.map_some, (Prod.mk.inj heq).1]
        rfl
      · show EngineModels env options e (m.apply (.get key)).2
        unfold RefMap.apply
        simp only []
        split
        · exact h
        · exact h
  | flush =>
      obtain ⟨w, gs, g, h, htail⟩ := h
      refine ⟨{ e with wal := some (w.flush env).2 }, ?_, (w.flush env).2, gs, g,
        ⟨h.sameOptions, h.tree, rfl, ?_, h.log.flush hok, h.replays⟩, htail⟩
      · simp only [KVEngine.apply, KVEngine.flush, h.wal]
        rfl
      · exact (WriteAheadLog.flushBuffer_options).trans h.walOptions
  | sync =>
      obtain ⟨w, gs, g, h, htail⟩ := h
      -- No request fails, so the sync reports OK and the records stay.
      obtain ⟨hstatus, hlog⟩ := h.log.sync hok
      obtain ⟨closed, f, hw, -⟩ := h.log.writing
      refine ⟨{ e with wal := some (w.sync env).2 }, ?_, (w.sync env).2, gs, g,
        ⟨h.sameOptions, h.tree, rfl, ?_, hlog, h.replays⟩, htail⟩
      · simp only [KVEngine.apply, KVEngine.sync, h.wal, hstatus]
        rfl
      · exact (hw.holds.sync env).2.1.options.trans h.walOptions
  | reopen =>
      obtain ⟨e', hre, h'⟩ := h.reopen hok hwal
      refine ⟨e', ?_, h'⟩
      rw [KVEngine.apply, hre]
      rfl

/-- An engine on an empty directory. -/
theorem models_new (hok : env.Fine) (hwal : options.enableWal = true) :
    ∃ e, KVEngine.new env options {} = some e ∧ EngineModels env options e RefMap.empty := by
  obtain ⟨hlog, hoptions, hsegs⟩ :=
    WriteAheadLog.log_new_empty options.walOptions (d := {}) rfl hok
  obtain ⟨e, w, hnew, h⟩ := new_logged hok hwal hlog hoptions
    (List.nil_append _ ▸ hsegs)
  exact ⟨e, hnew, w, [], _, h, rfl⟩

/-- **Closing and reopening an engine is never noticed.**  Every sequence of
calls, reopenings among them, is answered as by the reference map that only
`put` and `delete` change. -/
theorem engine_refines_refMap (env : Env) (hok : env.Fine) (options : KVEngineOptions)
    (hwal : options.enableWal = true) (ops : List EngineOp)
    (hfits : ∀ op ∈ ops, op.Fits options.walOptions) :
    ∃ e₀ e, KVEngine.new env options {} = some e₀ ∧
      run? (KVEngine.apply env) e₀ ops
        = some ((runAll RefMap.applyEngine RefMap.empty ops).1, e) ∧
      ∀ key, e.get key = some (match (runAll RefMap.applyEngine RefMap.empty ops).2 key with
        | some value => (.okStatus, some value)
        | none => (.notFound "Key not found", none)) := by
  obtain ⟨e₀, hnew, hmodels⟩ := models_new hok hwal
  obtain ⟨e, hrun, hmodels'⟩ := (apply_refines hok hwal).run ops hmodels hfits
  obtain ⟨w, gs, g, h, -⟩ := hmodels'
  exact ⟨e₀, e, hnew, hrun, fun key => h.tree.get key⟩

/-- A rejected `put` and a `delete` of an absent key before the engine is
reopened; records larger than a file rotate each time. -/
theorem engine_refines_refMap_rejected :
    ∃ e₀ e, KVEngine.new .undisturbed { walOptions := { maxFileSize := 40 } } {} = some e₀ ∧
      run? (KVEngine.apply .undisturbed) e₀
          [.put [] [1], .put [1] [2], .delete [3], .reopen, .get [1]]
        = some ((runAll RefMap.applyEngine RefMap.empty
            [.put [] [1], .put [1] [2], .delete [3], .reopen, .get [1]]).1, e) ∧
      ∀ key, e.get key = some (match (runAll RefMap.applyEngine RefMap.empty
          [.put [] [1], .put [1] [2], .delete [3], .reopen, .get [1]]).2 key with
        | some value => (.okStatus, some value)
        | none => (.notFound "Key not found", none)) :=
  engine_refines_refMap .undisturbed Env.fine_undisturbed
    { walOptions := { maxFileSize := 40 } } rfl
    [.put [] [1], .put [1] [2], .delete [3], .reopen, .get [1]] (by
      simp only [List.mem_cons, List.not_mem_nil, or_false, forall_eq_or_imp, forall_eq,
        EngineOp.Fits]
      exact ⟨⟨by decide, by decide, by decide, by decide, by decide⟩,
        ⟨by decide, by decide, by decide, by decide, by decide⟩,
        ⟨by decide, by decide, by decide, by decide, by decide⟩, trivial, trivial⟩)

end KVEngine

end KvEngine
