/-
  KvEngine.Engine.Faults
  ──────────────────────
  **Engines opened on a directory a fault has left**, and reopened later, while no
  request fails.

  * `reopened_rebuilds` — the next open finds everything written since, if no
    file holds a corrupt record and none is written behind a torn one: the
    constructor continues the last file where it ends, torn record or not.
  * `numbers_grow` — every sequence number given away is larger than those of all
    records in the files, if these are whole records and at most a torn one at the
    end of each; after a `Recover` that meets a corrupt record the engine starts at
    1 again.
-/
import KvEngine.Engine.Stored

namespace KvEngine

open Lib

namespace KVEngine

variable {env : Env} {options : KVEngineOptions} {e e' : KVEngine} {op : EngineOp}
  {w : WriteAheadLog} {D : List WalRecord × Option Status} {m : RefMap}

/-- No sync fails. -/
theorem syncLog_ok {o : WalOptions} (hok : env.Fine) (h : w.Live o) :
    (e.syncLog env w).1.ok = true := by
  obtain ⟨hgood, hoptions, closed, f, cur, hw⟩ := id h
  unfold syncLog
  split
  · exact hw.sync_ok hgood (hok.ok _ _)
  · rfl

/-! ## §1. The map after the next open. -/

/-- The record of the call, if it writes one, lasts. -/
def KeepsReadable (env : Env) (e : KVEngine) (op : EngineOp) : Prop :=
  ∀ w type key value, e.wal = some w → op.record = some (type, key, value) → Lasts env w key value

theorem keepsReadable_of_none (env : Env) (e : KVEngine) {op : EngineOp} (hop : op.record = none) :
    e.KeepsReadable env op := by
  intro w type key value _ hrec
  rw [hop] at hrec
  cases hrec

/-- The record of a call that lasts is accepted, and replays the call. -/
theorem accepted_replays (hw : e.wal = some w) {op : EngineOp} (hop : op ≠ .reopen)
    (hlasts : e.KeepsReadable env op) {reply : TreeReply}
    (hrun : e.apply env op = some (reply, e')) (m : RefMap) :
    m.replayAll (e.accepted env op) = (m.applyEngine op).2 := by
  have hwritten : ∀ {type : WalRecordType} {key value : Bytes}
      {change : BPlusTree → Option (Status × BPlusTree)} {s : Status} {e' : KVEngine},
      op.record = some (type, key, value) →
      e.logged env (fun w seq => w.writeRecord env type key value seq) change = some (s, e') →
      e.accepted env op = [w.loggedRecord env type key value e.sequenceNumber] := by
    intro type key value change s e' hrec hrun
    have hl := hlasts w type key value hw hrec
    -- A record that lasts is far below the limit of the length fields, so the log takes it.
    have hsmall : ¬ (key.length > WriteAheadLog.uint32Max ∨
        value.length > WriteAheadLog.uint32Max) := by
      have := hl.keyMax
      have := hl.valueMax
      unfold WriteAheadLog.uint32Max
      omega
    obtain ⟨s₁, w₁, hlog, -⟩ := logged_cases hw hrun
    unfold accepted
    simp only [hw, hrec, hlog]
    rw [WriteAheadLog.writeRecord_eq hsmall] at hlog
    obtain ⟨w₂, -, heq⟩ := Option.map_eq_some_iff.mp hlog
    obtain ⟨rfl, -⟩ := Prod.mk.inj heq
    rfl
  have hnone : op.record = none → e.accepted env op = [] := by
    intro hrec
    unfold accepted
    simp only [hw, hrec]
  cases op with
  | put key value =>
      obtain ⟨⟨s, e₁⟩, hput, -⟩ := Option.map_eq_some_iff.mp hrun
      rw [hwritten rfl hput]
      rfl
  | delete key =>
      obtain ⟨⟨s, e₁⟩, hdelete, -⟩ := Option.map_eq_some_iff.mp hrun
      rw [hwritten rfl hdelete]
      rfl
  | get key =>
      rw [hnone rfl]
      show m = (m.apply (.get key)).2
      simp only [RefMap.apply]
      split <;> rfl
  | flush =>
      rw [hnone rfl]
      rfl
  | sync =>
      rw [hnone rfl]
      rfl
  | reopen => exact absurd rfl hop

/-- While no request fails, a record that lasts keeps tree and log together. -/
theorem KeepsReadable.keepsMap (h : e.KeepsReadable env op) (hop : op ≠ .reopen) (hok : env.Fine)
    (hw : e.wal = some w) (hlive : w.Live options.walOptions) : e.KeepsMap env op where
  opened := hop
  arrives := arrives_of_fine hok e op
  lasts w type key value hw hrec := Or.inr (h w type key value hw hrec)
  syncs w₁ type key value s w' hw₁ hrec hlog _ := by
    obtain rfl := Option.some.inj (hw.symm.trans hw₁)
    exact Or.inl (syncLog_ok hok
      (hlive.write (WriteAheadLog.writesThrough_of_fine hok _ _ _ _ _) hlog).1)

theorem Rebuilds.step (h : Rebuilds env options e m) (hok : env.Fine)
    (hwal : options.enableWal = true) (hlasts : e.KeepsReadable env op)
    {reply : TreeReply} (hrun : e.apply env op = some (reply, e')) :
    Rebuilds env options e' (m.applyEngine op).2 := by
  obtain ⟨-, D, hstores, hmap⟩ := id h
  by_cases hop : op = .reopen
  · subst hop
    obtain ⟨e₁, hre, hstores', htree', -⟩ := hstores.reopen hwal (fun _ _ => hok.okFrom _)
    obtain ⟨e₂, hre', heq⟩ := Option.map_eq_some_iff.mp hrun
    obtain ⟨-, rfl⟩ := Prod.mk.inj heq
    obtain rfl := Option.some.inj (hre.symm.trans hre')
    rw [hmap] at htree'
    exact ⟨htree', D, hstores', hmap⟩
  · obtain ⟨-, w, hw, hlive, -⟩ := id hstores
    rw [← accepted_replays hw hop hlasts hrun]
    exact h.call (hlasts.keepsMap hop hok hw hlive) hrun

theorem RunsReopening.rebuildsAll (hok : env.Fine) (hwal : options.enableWal = true)
    {e₀ : KVEngine} {ops : List EngineOp}
    (h : RunsReopening env (KeepsReadable env) e₀ ops e) (h₀ : Rebuilds env options e₀ m) :
    Rebuilds env options e (runAll RefMap.applyEngine m ops).2 := by
  have hsnoc : ∀ (ops : List EngineOp) (m : RefMap) (op : EngineOp),
      (runAll RefMap.applyEngine m (ops ++ [op])).2
        = ((runAll RefMap.applyEngine m ops).2.applyEngine op).2 := by
    intro ops
    induction ops with
    | nil => exact fun _ _ => rfl
    | cons op' ops ih => exact fun m op => ih _ op
  induction h with
  | start => exact h₀
  | step _ hP hrun ih =>
      rw [hsnoc]
      exact ih.step hok hwal hP hrun

/-- **The next open finds everything written since the last one**, whatever a
fault left in the directory, if every record written lasts. -/
theorem reopened_rebuilds (env : Env) (hok : env.Fine) (options : KVEngineOptions)
    (hwal : options.enableWal = true) (d : Disk) {e₀ e : KVEngine}
    (hnew : KVEngine.new env options d = some e₀) {ops : List EngineOp}
    (hruns : RunsReopening env (KeepsReadable env) e₀ ops e) :
    ∃ e₂, (e.sync env).2.reopen env = some e₂ ∧
      e₂.mapOf = (runAll RefMap.applyEngine e₀.mapOf ops).2 := by
  obtain ⟨e₁, hnew₁, hstores₀, htree₀, -⟩ := new_stores hwal d (hok.ok _ _)
  obtain rfl := Option.some.inj (hnew₁.symm.trans hnew)
  have h₀ : Rebuilds env options e₁ _ := ⟨htree₀, _, hstores₀, rfl⟩
  have h := hruns.rebuildsAll hok hwal h₀
  -- the sync and the reopening are two more calls
  have hsynced : Rebuilds env options (e.sync env).2 _ :=
    h.step hok hwal (keepsReadable_of_none env e rfl) (rfl : e.apply env .sync = _)
  obtain ⟨-, D, hstores, -⟩ := id hsynced
  obtain ⟨e₂, hre, -⟩ := hstores.reopen hwal (fun _ _ => hok.okFrom _)
  have h₂ : Rebuilds env options e₂ _ :=
    hsynced.step hok hwal (keepsReadable_of_none env _ rfl)
      (show (e.sync env).2.apply env .reopen = some ((.okStatus, none), e₂) from
        congrArg (Option.map _) hre)
  refine ⟨e₂, hre, ?_⟩
  rw [h₂.mapOf, h₀.mapOf]
  rfl

/-- `wal_0.log` ends in ten bytes of a record.  A key that is put and synced
after the open is gone at the next one. -/
theorem reopened_rebuilds_torn : (do
      let torn := (WalRecord.make Lib.crc32 .kPut 1 0 [1] [2]).encode.take 10
      let e ← KVEngine.new .undisturbed {} (({} : Disk).setFile 0 { content := torn })
      let (s₁, e) ← e.put .undisturbed [3] [4]
      let (s₂, e) := e.sync .undisturbed
      let (_, v) ← e.get [3]
      let e ← e.reopen .undisturbed
      let (_, v') ← e.get [3]
      some ([s₁.code, s₂.code], v, v'))
    = some ([.ok, .ok], some [4], none) := by decide +kernel

/-- The torn file is as full as it may get, so that the next record starts a new
one. -/
theorem reopened_rebuilds_rotated :
    ∃ (e₀ e e₂ : KVEngine), KVEngine.new .undisturbed { walOptions := { maxFileSize := 20 } }
        (({} : Disk).setFile 0
          { content := (WalRecord.make Lib.crc32 .kPut 1 0 [1] [2]).encode.take 10 }) = some e₀ ∧
      (e.sync .undisturbed).2.reopen .undisturbed = some e₂ ∧
      e₂.mapOf = (runAll RefMap.applyEngine e₀.mapOf [.put [3] [4]]).2 := by
  have hrun : (do
      let e₀ ← KVEngine.new .undisturbed { walOptions := { maxFileSize := 20 } }
        (({} : Disk).setFile 0
          { content := (WalRecord.make Lib.crc32 .kPut 1 0 [1] [2]).encode.take 10 })
      let w₀ ← e₀.wal
      let r ← e₀.apply .undisturbed (.put [3] [4])
      some (decide (w₀.rotates [3] [4]), (w₀.stored .undisturbed).2.isNone, w₀.currentFileNumber,
        r.1.1.ok)) = some (true, true, 0, true) := by decide +kernel
  simp only [Option.bind_eq_bind, Option.bind_eq_some_iff, Option.some.injEq, Prod.mk.injEq,
    decide_eq_true_eq, Option.isNone_iff_eq_none] at hrun
  obtain ⟨e₀, hnew, w₀, hw₀, ⟨reply, e⟩, hput, hrotates, hintact, hfile, -⟩ := hrun
  have hP : e₀.KeepsReadable .undisturbed (.put [3] [4]) := by
    intro w type key value hw hrec
    obtain rfl := Option.some.inj (hw₀.symm.trans hw)
    cases hrec
    exact ⟨by decide, by decide, hintact, Or.inr hrotates, fun _ => by rw [hfile]; decide⟩
  have hruns := RunsReopening.step .start hP hput
  obtain ⟨e₂, hre, hmap⟩ := reopened_rebuilds .undisturbed Env.fine_undisturbed _ rfl _ hnew hruns
  exact ⟨e₀, e, e₂, hnew, hre, hmap⟩

/-! ## §2. Sequence numbers. -/

/-- No two records have the same number. -/
def DistinctNumbers (rs : List WalRecord) : Prop :=
  rs.Pairwise (fun r q => r.header.sequenceNumber ≠ q.header.sequenceNumber)

/-- A call that is given a number: every file is whole records and at most a torn
one at its end, its own record lasts unless it is refused, and neither its number
nor one in the log is the last of 64 bits. -/
structure GetsNumber (env : Env) (e : KVEngine) (w : WriteAheadLog) (key value : Bytes) :
    Prop where
  whole : ∀ f ∈ w.settled, ∃ rs, WriteAheadLog.HoldsRecords env.crc32 f.2.content rs
  place : Refused key value ∨ Lasts env w key value
  next : e.sequenceNumber + 1 ≠ 0
  stored : ∀ r ∈ (w.stored env).1, r.header.sequenceNumber + 1 ≠ 0

theorem GetsNumber.intact {key value : Bytes} (h : GetsNumber env e w key value) :
    (w.stored env).2 = none := WriteAheadLog.recordsOf_intact h.whole

def KeepsNumbers (env : Env) (e : KVEngine) (op : EngineOp) : Prop :=
  ∀ w type key value, e.wal = some w → op.record = some (type, key, value) →
    GetsNumber env e w key value

/-- The next number is larger than all in the log, and no number is there
twice if none was in `D₀`. -/
def Numbered (env : Env) (options : KVEngineOptions) (D₀ : List WalRecord) (e : KVEngine) : Prop :=
  ∃ D, Stores env options e D ∧
    (D.2 = none → (∀ r ∈ D.1, r.header.sequenceNumber + 1 ≠ 0) →
      ∀ r ∈ D.1, r.header.sequenceNumber < e.sequenceNumber) ∧
    (DistinctNumbers D₀ → DistinctNumbers D.1)

theorem lt_next {n : UInt64} (h : n + 1 ≠ 0) : n < n + 1 := by
  have hlt := n.toNat_lt
  have hnat : (n + 1).toNat = (n.toNat + 1) % 2 ^ 64 := UInt64.toNat_add n 1
  have hne : (n + 1).toNat ≠ 0 := fun h0 => h (UInt64.toNat_inj.mp h0)
  rw [UInt64.lt_iff_toNat_lt]
  omega

/-- **The number after a recovery** is larger than all numbers recovered. -/
theorem lt_numberAfter (hintact : D.2 = none)
    (hlast : ∀ r ∈ D.1, r.header.sequenceNumber + 1 ≠ 0) :
    ∀ r ∈ D.1, r.header.sequenceNumber < numberAfter D 1 := by
  obtain ⟨hupper, hattained⟩ := WriteAheadLog.isMaxSequence_foldl D.1
    WriteAheadLog.isMaxSequence_nil
  rw [List.nil_append] at hupper hattained
  intro r hr
  unfold numberAfter
  simp only [hintact, Option.isNone_none, Bool.true_and, gt_iff_lt, decide_eq_true_eq]
  split
  next hpos =>
    refine UInt64.lt_of_le_of_lt (hupper r hr) (lt_next ?_)
    rcases hattained with h0 | ⟨q, hq, hm⟩
    · rw [h0] at hpos
      exact absurd hpos (by decide)
    · rw [← hm]
      exact hlast q hq
  next hzero =>
    exact UInt64.lt_of_le_of_lt (UInt64.le_trans (hupper r hr) (UInt64.not_lt.mp hzero)) (by decide)

/-- A call adds at most one record, which has the number of the call. -/
theorem accepted_number (env : Env) (e : KVEngine) (op : EngineOp) :
    e.accepted env op = [] ∨
      ∃ r, e.accepted env op = [r] ∧ r.header.sequenceNumber = e.sequenceNumber := by
  unfold accepted
  split
  · split
    · split
      · exact Or.inr ⟨_, rfl, rfl⟩
      · exact Or.inl rfl
    · exact Or.inl rfl
  · exact Or.inl rfl

/-- **A call that gets a number** keeps the next one ahead of the log. -/
theorem Numbered.call {D₀ : List WalRecord} (hstores : Stores env options e D) (hok : env.Fine)
    (hnumbers : ∀ r ∈ D.1, r.header.sequenceNumber < e.sequenceNumber)
    (hdistinct : DistinctNumbers D₀ → DistinctNumbers D.1) {op : EngineOp}
    (hop : op.record ≠ none) (hP : e.KeepsNumbers env op) {reply : TreeReply}
    (hrun : e.apply env op = some (reply, e')) :
    ∃ D', Stores env options e' D' ∧
      (∀ r ∈ D'.1, r.header.sequenceNumber < e'.sequenceNumber) ∧
      (DistinctNumbers D₀ → DistinctNumbers D'.1) := by
  obtain ⟨-, w, hw, -, rfl⟩ := id hstores
  have hre : op ≠ .reopen := fun h => hop (h ▸ rfl)
  obtain ⟨hstores', -, hseq⟩ := hstores.apply (arrives_of_fine hok e op) hre
    (fun w type key value hw hrec => (hP w type key value hw hrec).place) hrun
  obtain ⟨⟨type, key, value⟩, hrec⟩ := Option.ne_none_iff_exists'.mp hop
  have hnext := lt_next (hP w type key value hw hrec).next
  refine ⟨_, hstores', ?_, ?_⟩
  · rw [hseq hop]
    intro r hr
    rcases List.mem_append.mp hr with hr | hr
    · exact UInt64.lt_trans (hnumbers r hr) hnext
    · rcases accepted_number env e op with hnil | ⟨q, hq, hnumber⟩
      · rw [hnil] at hr
        cases hr
      · rw [hq] at hr
        rw [List.mem_singleton.mp hr, hnumber]
        exact hnext
  -- The new record has the number of the call, above all those stored.
  · intro h₀
    rcases accepted_number env e op with hnil | ⟨q, hq, hnumber⟩
    · rw [hnil, List.append_nil]
      exact hdistinct h₀
    · rw [hq]
      refine List.pairwise_append.mpr ⟨hdistinct h₀, List.pairwise_singleton _ _, ?_⟩
      intro r hr p hp
      rw [List.mem_singleton.mp hp, hnumber]
      exact UInt64.ne_of_lt (hnumbers r hr)

theorem Numbered.step {D₀ : List WalRecord} (h : Numbered env options D₀ e) (hok : env.Fine)
    (hwal : options.enableWal = true) {op : EngineOp} (hP : e.KeepsNumbers env op)
    {reply : TreeReply} (hrun : e.apply env op = some (reply, e')) :
    Numbered env options D₀ e' := by
  obtain ⟨D, hstores, hnumbers, hdistinct⟩ := h
  -- A reopening takes its number from what it recovers.
  by_cases hop : op = .reopen
  · subst hop
    obtain ⟨e₁, hre, hstores', -, hseq⟩ := hstores.reopen hwal (fun _ _ => hok.okFrom _)
    obtain ⟨e₂, hre', heq⟩ := Option.map_eq_some_iff.mp hrun
    obtain ⟨-, rfl⟩ := Prod.mk.inj heq
    obtain rfl := Option.some.inj (hre.symm.trans hre')
    exact ⟨D, hstores', fun hintact hlast => hseq ▸ lt_numberAfter hintact hlast, hdistinct⟩
  · cases hrec : op.record with
    | none =>
        obtain ⟨hstores', hkeep, -⟩ := hstores.apply (arrives_of_fine hok e op) hop
          (fun w type key value _ hr => nomatch hrec.symm.trans hr) hrun
        have hnil : e.accepted env op = [] := by
          unfold accepted
          cases e.wal <;> simp [hrec]
        rw [hnil, List.append_nil] at hstores'
        exact ⟨D, hstores', (hkeep hrec).2 ▸ hnumbers, hdistinct⟩
    | some record =>
        obtain ⟨type, key, value⟩ := record
        obtain ⟨-, w, hw, -, rfl⟩ := id hstores
        have hgets := hP w type key value hw hrec
        obtain ⟨D', hstores', hnumbers', hdistinct'⟩ := Numbered.call hstores hok
          (hnumbers hgets.intact hgets.stored) hdistinct (by rw [hrec]; simp) hP hrun
        exact ⟨D', hstores', fun _ _ => hnumbers', hdistinct'⟩

theorem RunsReopening.numbered (hok : env.Fine) (hwal : options.enableWal = true) {e₀ : KVEngine}
    {D₀ : List WalRecord} {ops : List EngineOp}
    (h : RunsReopening env (KeepsNumbers env) e₀ ops e) (h₀ : Numbered env options D₀ e₀) :
    Numbered env options D₀ e := by
  induction h with
  | start => exact h₀
  | step _ hP hrun ih => exact ih.step hok hwal hP hrun

/-- **Every number given away is larger than those of all records in the log
files**, across reopenings and whatever a fault left in the directory, if every call
that gets one finds files of whole records with at most a torn one at the end. -/
theorem numbers_grow (env : Env) (hok : env.Fine) (options : KVEngineOptions)
    (hwal : options.enableWal = true) (d : Disk) {e₀ e : KVEngine}
    (hnew : KVEngine.new env options d = some e₀) {ops : List EngineOp}
    (hruns : RunsReopening env (KeepsNumbers env) e₀ ops e) {op : EngineOp}
    (hP : e.KeepsNumbers env op) {w : WriteAheadLog} (hw : e.wal = some w)
    {type : WalRecordType} {key value : Bytes} (hop : op.record = some (type, key, value)) :
    (∀ f ∈ w.settled, ∀ rs, WriteAheadLog.HoldsRecords env.crc32 f.2.content rs →
        ∀ r ∈ rs, r.header.sequenceNumber < e.sequenceNumber) ∧
      (DistinctNumbers (WriteAheadLog.recordsOf env.crc32 options.walOptions d.files.entries).1 →
        ∀ reply e', e.apply env op = some (reply, e') →
          ∃ w', e'.wal = some w' ∧ DistinctNumbers (w'.stored env).1) := by
  obtain ⟨e₁, hnew₁, hstores₀, -, hseq⟩ := new_stores hwal d (hok.ok _ _)
  obtain rfl := Option.some.inj (hnew₁.symm.trans hnew)
  obtain ⟨D, hstores, hnumbers, hdistinct⟩ := hruns.numbered hok hwal
    ⟨_, hstores₀, fun hintact hlast => hseq ▸ lt_numberAfter hintact hlast, id⟩
  obtain ⟨-, w₁, hw₁, -, rfl⟩ := id hstores
  obtain rfl := Option.some.inj (hw₁.symm.trans hw)
  have hgets := hP _ type key value hw hop
  have hlarger := hnumbers hgets.intact hgets.stored
  refine ⟨fun f hf rs hrs r hr =>
    hlarger r (WriteAheadLog.mem_recordsOf hgets.intact hf hrs hr), fun h₀ reply e' hrun => ?_⟩
  obtain ⟨D', ⟨-, w', hw', -, rfl⟩, -, hdistinct'⟩ := Numbered.call hstores hok hlarger hdistinct
    (by rw [hop]; simp) hP hrun
  exact ⟨w', hw', hdistinct' h₀⟩

/-- A record numbered 5, and one behind it whose key was changed: the engine
starts at 1 again. -/
theorem numbers_grow_corrupt : (do
      let good := (WalRecord.make Lib.crc32 .kPut 5 0 [1] [2]).encode
      let bad := (WalRecord.make Lib.crc32 .kPut 6 0 [1] [2]).encode.set 29 7
      let e ← KVEngine.new .undisturbed {} (({} : Disk).setFile 0 { content := good ++ bad })
      let w ← e.wal
      some ((w.onDisk .undisturbed).1.map (·.header.sequenceNumber), e.sequenceNumber,
        (e.accepted .undisturbed (.put [3] [4])).map (·.header.sequenceNumber)))
    = some ([5], 1, [1]) := by decide +kernel

/-- A first `put`, after a record numbered 5 in a full file. -/
theorem numbers_grow_put :
    ∃ (e : KVEngine) (w : WriteAheadLog), e.wal = some w ∧
      w.settled.map (·.2.content) = [(WalRecord.make Lib.crc32 .kPut 5 0 [1] [2]).encode] ∧
      ∀ f ∈ w.settled, ∀ rs, WriteAheadLog.HoldsRecords Lib.crc32 f.2.content rs →
        ∀ r ∈ rs, r.header.sequenceNumber < e.sequenceNumber := by
  have hrun : (do
      let e ← KVEngine.new .undisturbed { walOptions := { maxFileSize := 40 } }
        (({} : Disk).setFile 0
          { content := (WalRecord.make Lib.crc32 .kPut 5 0 [1] [2]).encode })
      let w ← e.wal
      some (decide (w.rotates [3] [4] ∧ w.currentFileNumber = 0 ∧ e.sequenceNumber = 6 ∧
          (w.stored .undisturbed).1.map (·.header.sequenceNumber) = [5]),
        (w.stored .undisturbed).2.isNone, w.settled.map (·.2.content)))
      = some (true, true, [(WalRecord.make Lib.crc32 .kPut 5 0 [1] [2]).encode]) := by
    decide +kernel
  simp only [Option.bind_eq_bind, Option.bind_eq_some_iff, Option.some.injEq, Prod.mk.injEq,
    decide_eq_true_eq, Option.isNone_iff_eq_none] at hrun
  obtain ⟨e, hnew, w, hw, ⟨hrotates, hfile, hseq, hfive⟩, hintact, hcontent⟩ := hrun
  have hvalid : (WalRecord.make Lib.crc32 .kPut 5 0 [1] [2]).Valid Lib.crc32 :=
    WalRecord.make_valid _ _ _ _ (by decide) (by decide)
  have hP : e.KeepsNumbers .undisturbed (.put [3] [4]) := by
    intro w' type key value hw' hrec
    obtain rfl := Option.some.inj (hw.symm.trans hw')
    cases hrec
    refine ⟨fun f hf => ?_, Or.inr ⟨by decide, by decide, hintact, Or.inr hrotates,
      fun _ => by rw [hfile]; decide⟩, ?_, ?_⟩
    · have hmem := List.mem_map_of_mem (f := (·.2.content)) hf
      rw [hcontent] at hmem
      rw [List.mem_singleton.mp hmem, ← encodeAll_singleton]
      exact ⟨_, WriteAheadLog.holdsRecords_encoded
        (fun r hr => List.mem_singleton.mp hr ▸ hvalid) (by simp)⟩
    · rw [hseq]
      decide
    · intro r hr
      have hmem := List.mem_map_of_mem (f := (·.header.sequenceNumber)) hr
      rw [hfive] at hmem
      rw [List.mem_singleton.mp hmem]
      decide
  exact ⟨e, w, hw, hcontent, (numbers_grow .undisturbed Env.fine_undisturbed _ rfl _ hnew .start
    hP hw rfl).1⟩

end KVEngine

end KvEngine
