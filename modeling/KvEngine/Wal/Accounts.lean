/-
  KvEngine.Wal.Accounts
  ─────────────────────
  Where the bytes of a log are, and what its counters count.

  Bytes move from the buffer into the stream and from there into a file, or out of
  the log where a request fails.  A stream that fails halfway keeps what it handed
  over and hands it over once more when it is closed, and no further time: a byte on
  its way counts twice until its stream has failed, and once from then on.  So all
  files together never hold more than they held at the start and twice
  `total_bytes_written`; not twice if no request fails halfway; and while no request
  fails, exactly once.
-/
import KvEngine.Wal.Settled
import KvEngine.Wal.FileSizes

namespace KvEngine

open Lib

/-! ## §1. What is held where. -/

/-- The bytes of all files. -/
def Disk.size (d : Disk) : Nat := (d.files.entries.map (fun e => e.2.content.length)).sum

/-- How often a byte on its way can still reach the files: at most twice, and at
most once where no request fails halfway. -/
def Env.Repeats (env : Env) (c : Nat) : Prop := c = 2 ∨ c = 1 ∧ env.AllOrNothing

/-- What the stream can still hand over; one that is not good does so at most once
more. -/
def OFStream.due (c : Nat) (s : OFStream) : Nat :=
  if s.good then c * s.pending.length else s.pending.length

/-- The bytes in the files, and those the stream and the buffer can still add. -/
def WriteAheadLog.held (c : Nat) (w : WriteAheadLog) : Nat :=
  w.disk.size + w.currentFile.due c + c * w.buffer.length

namespace Disk

variable {d : Disk} {n : Nat}

theorem size_setFile (d : Disk) (n : Nat) (f : File) :
    (d.setFile n f).size + (d.file n).elim 0 (fun f => f.content.length)
      = d.size + f.content.length :=
  sum_insertEntry (fun e : Nat × File => e.2.content.length) d.files.sorted

theorem size_append (d : Disk) (n : Nat) (bytes : Bytes) :
    (d.append n bytes).size ≤ d.size + bytes.length := by
  unfold append
  split
  · exact Nat.le_add_right _ _
  next f hfile =>
    have hset := size_setFile d n { f with content := f.content ++ bytes }
    rw [hfile, Option.elim_some, List.length_append] at hset
    omega

/-- Marking a file as synced. -/
theorem size_synced {f : File} (h : d.file n = some f) (synced : Nat) :
    (d.setFile n { f with synced }).size = d.size := by
  have hset := size_setFile d n { f with synced }
  rw [h, Option.elim_some] at hset
  exact Nat.add_right_cancel hset

theorem size_created (h : (d.file n).isNone = true) : (d.setFile n {}).size = d.size := by
  have hset := size_setFile d n {}
  rw [Option.isNone_iff_eq_none.mp h] at hset
  exact hset

end Disk

namespace OFStream

variable {env : Env} {c : Nat} (s : OFStream) (d : Disk)

theorem size_deliver (bytes : Bytes) : (s.deliver bytes d).size ≤ d.size + bytes.length := by
  unfold deliver
  split
  · exact Nat.le_add_right _ _
  · exact Disk.size_append _ _ _

theorem length_le_due (hc : env.Repeats c) : s.pending.length ≤ s.due c := by
  have hpos : 1 ≤ c := by rcases hc with rfl | ⟨rfl, -⟩ <;> decide
  unfold due
  split
  · exact Nat.le_mul_of_pos_left _ hpos
  · exact Nat.le_refl _

theorem due_le (hc : env.Repeats c) : s.due c ≤ c * s.pending.length := by
  have hpos : 1 ≤ c := by rcases hc with rfl | ⟨rfl, -⟩ <;> decide
  unfold due
  split
  · exact Nat.le_refl _
  · exact Nat.le_mul_of_pos_left _ hpos

/-- A write that fails halfway has handed over some bytes once. -/
theorem held_write (hc : env.Repeats c) (bytes : Bytes) :
    (s.write env bytes d).2.size + (s.write env bytes d).1.due c
      ≤ d.size + s.due c + c * bytes.length := by
  cases hg : s.good with
  | false =>
      rw [write_bad hg]
      exact Nat.le_add_right _ _
  | true =>
      have hdeliver := size_deliver s (d.ask env).2 ((s.pending ++ bytes).take (d.ask env).1.moved)
      have hsize : (d.ask env).2.size = d.size := rfl
      have hsplit := congrArg List.length
        (List.take_append_drop (d.ask env).1.moved (s.pending ++ bytes))
      rw [List.length_append, List.length_append] at hsplit
      have hdue : s.due c = c * s.pending.length := by rw [due, hg, if_pos rfl]
      cases hok : (d.ask env).1.ok with
      | true =>
          have hrest := due_le { s with
            pending := (s.pending ++ bytes).drop (d.ask env).1.moved, good := true } hc
          simp only [write, hg, hok, if_true]
          rw [hdue]
          rcases hc with rfl | ⟨rfl, -⟩
          all_goals
            simp only [] at hrest
            omega
      | false =>
          simp only [write, hg, hok, if_true, Bool.false_eq_true, if_false]
          rw [hdue, due, if_neg Bool.false_ne_true]
          rcases hc with rfl | ⟨rfl, henv⟩
          · show (s.deliver _ _).size + s.pending.length ≤ _
            omega
          · have hmoved : (d.ask env).1.moved = 0 := henv _ hok
            rw [hmoved, List.take_zero, List.length_nil] at hdeliver
            rw [hmoved, List.take_zero]
            show (s.deliver _ _).size + s.pending.length ≤ _
            omega

theorem held_flush (hc : env.Repeats c) :
    (s.flush env d).2.size + (s.flush env d).1.due c ≤ d.size + s.due c := by
  cases hg : s.good with
  | false => rw [flush_bad hg]
  | true =>
      have hsize : (d.ask env).2.size = d.size := rfl
      have hdue : s.due c = c * s.pending.length := by rw [due, hg, if_pos rfl]
      cases hok : (d.ask env).1.ok with
      | true =>
          have hdeliver := size_deliver s (d.ask env).2 s.pending
          have hpending := length_le_due s hc
          simp only [flush, hg, hok, if_true]
          show (s.deliver _ _).size + due c { s with pending := [], good := true } ≤ _
          simp only [due, if_true, List.length_nil, Nat.mul_zero, Nat.add_zero] at hdue hpending ⊢
          omega
      | false =>
          have hdeliver := size_deliver s (d.ask env).2 (s.pending.take (d.ask env).1.moved)
          have hlen := List.length_take_le' (d.ask env).1.moved s.pending
          simp only [flush, hg, hok, if_true, Bool.false_eq_true, if_false]
          rw [hdue, due, if_neg Bool.false_ne_true]
          rcases hc with rfl | ⟨rfl, henv⟩
          · show (s.deliver _ _).size + s.pending.length ≤ _
            omega
          · have hmoved : (d.ask env).1.moved = 0 := henv _ hok
            rw [hmoved, List.take_zero, List.length_nil] at hdeliver
            rw [hmoved, List.take_zero]
            show (s.deliver _ _).size + s.pending.length ≤ _
            omega

/-- Closing hands over the rest, or loses it. -/
theorem held_close (hc : env.Repeats c) :
    (s.close env d).2.size + (s.close env d).1.due c ≤ d.size + s.due c := by
  have hpending := length_le_due s hc
  have hsize : (d.ask env).2.size = d.size := rfl
  have hdeliver := size_deliver s (d.ask env).2
    (if (d.ask env).1.ok then s.pending else s.pending.take (d.ask env).1.moved)
  have hlen : (if (d.ask env).1.ok then s.pending
      else s.pending.take (d.ask env).1.moved).length ≤ s.pending.length := by
    split
    · exact Nat.le_refl _
    · exact List.length_take_le' _ _
  have hnone : (s.close env d).1.due c = 0 := by
    show (if _ then c * 0 else 0) = 0
    rw [Nat.mul_zero, ite_self]
  have hrun : (s.close env d).2 = s.deliver (if (d.ask env).1.ok then s.pending
    else s.pending.take (d.ask env).1.moved) (d.ask env).2 := rfl
  rw [hnone, hrun]
  omega

/-- Opening adds at most a file without bytes. -/
theorem held_open (env : Env) (n : Nat) :
    (openAppend env n d).2.size = d.size ∧ (openAppend env n d).1.due c = 0 := by
  have hnone : ∀ s : OFStream, s.pending = [] → s.due c = 0 := by
    intro s hs
    rw [due, hs, List.length_nil, Nat.mul_zero, ite_self]
  unfold openAppend
  dsimp only
  split
  · refine ⟨?_, hnone _ rfl⟩
    dsimp only
    split
    next hnew => exact Disk.size_created hnew
    next => rfl
  · exact ⟨rfl, hnone _ rfl⟩

end OFStream

namespace WriteAheadLog

/-! ## §2. One call, whatever fails. -/

/-- At most `n` bytes more, and nothing is counted. -/
structure Moves (c : Nat) (w w' : WriteAheadLog) (n : Nat) : Prop where
  held : w'.held c ≤ w.held c + c * n
  writes : w'.totalWrites = w.totalWrites
  bytes : w'.totalBytesWritten = w.totalBytesWritten
  syncs : w'.totalSyncs = w.totalSyncs
  options : w'.options = w.options

variable {env : Env} {c : Nat} {w w' w'' : WriteAheadLog} {m n : Nat}

theorem Moves.refl (c : Nat) (w : WriteAheadLog) : Moves c w w 0 :=
  ⟨Nat.le_refl _, rfl, rfl, rfl, rfl⟩

theorem Moves.trans (h : Moves c w w' m) (h' : Moves c w' w'' n) : Moves c w w'' (m + n) where
  held := by
    have := h.held
    have := h'.held
    rw [Nat.mul_add]
    omega
  writes := h'.writes.trans h.writes
  bytes := h'.bytes.trans h.bytes
  syncs := h'.syncs.trans h.syncs
  options := h'.options.trans h.options

theorem Moves.flushBuffer (hc : env.Repeats c) (w : WriteAheadLog) :
    Moves c w (w.flushBuffer env) 0 := by
  unfold WriteAheadLog.flushBuffer
  split
  · refine ⟨?_, rfl, rfl, rfl, rfl⟩
    exact OFStream.held_write w.currentFile w.disk hc w.buffer
  · exact .refl c w

theorem Moves.closeFile (hc : env.Repeats c) (w : WriteAheadLog) :
    Moves c w (w.closeFile env) 0 := by
  unfold WriteAheadLog.closeFile
  split
  · refine ⟨?_, rfl, rfl, rfl, rfl⟩
    exact Nat.add_le_add_right (OFStream.held_close w.currentFile w.disk hc) (c * w.buffer.length)
  · exact .refl c w

theorem Moves.openNewLogFile (hc : env.Repeats c) (w : WriteAheadLog) :
    Moves c w (w.openNewLogFile env) 0 := by
  have hclose := Moves.closeFile hc w
  obtain ⟨hsize, hdue⟩ := OFStream.held_open (c := c) (w.closeFile env).disk env
    (w.closeFile env).currentFileNumber
  refine ⟨?_, hclose.writes, hclose.bytes, hclose.syncs, hclose.options⟩
  have hheld := hclose.held
  show (OFStream.openAppend env _ _).2.size + (OFStream.openAppend env _ _).1.due c
    + c * (w.closeFile env).buffer.length ≤ _
  rw [hsize, hdue]
  unfold WriteAheadLog.held at hheld ⊢
  omega

theorem Moves.rotateLog (hc : env.Repeats c) (w : WriteAheadLog) :
    Moves c w (w.rotateLog env).2 0 := by
  have hclosed := (Moves.flushBuffer hc w).trans (Moves.closeFile hc (w.flushBuffer env))
  have hnext : Moves c ((w.flushBuffer env).closeFile env) { (w.flushBuffer env).closeFile env with
      currentFileNumber := ((w.flushBuffer env).closeFile env).currentFileNumber + 1 } 0 :=
    ⟨Nat.le_refl _, rfl, rfl, rfl, rfl⟩
  exact (hclosed.trans hnext).trans (Moves.openNewLogFile hc _)

theorem Moves.bufferField (hc : env.Repeats c) {bytes : Bytes}
    (h : w.bufferField env bytes = some w') : Moves c w w' bytes.length := by
  have hroom : Moves c w (w.roomFor env bytes) 0 := by
    unfold WriteAheadLog.roomFor
    split
    · exact Moves.flushBuffer hc w
    · exact Moves.refl c w
  rw [bufferField_eq h]
  have hcopy : Moves c (w.roomFor env bytes) ((w.roomFor env bytes).withBytes bytes)
      bytes.length := by
    refine ⟨?_, rfl, rfl, rfl, rfl⟩
    show _ + _ + c * ((w.roomFor env bytes).buffer ++ bytes).length ≤ _
    rw [List.length_append, Nat.mul_add, ← Nat.add_assoc]
    exact Nat.le_refl _
  exact Nat.zero_add bytes.length ▸ hroom.trans hcopy

theorem Moves.bufferRecord (hc : env.Repeats c) {r : WalRecord}
    (h : w.bufferRecord env r = some w') : Moves c w w' r.encode.length := by
  obtain ⟨w₁, w₂, h₁, h₂, h₃⟩ := bufferRecord_split h
  have hmoves := ((Moves.bufferField hc h₁).trans (Moves.bufferField hc h₂)).trans
    (Moves.bufferField hc h₃)
  rw [length_encode_header] at hmoves
  rw [WalRecord.length_encode]
  exact hmoves

/-- A sync counts itself if it succeeds. -/
structure Syncs (c : Nat) (w w' : WriteAheadLog) (s : Status) : Prop where
  held : w'.held c ≤ w.held c
  writes : w'.totalWrites = w.totalWrites
  bytes : w'.totalBytesWritten = w.totalBytesWritten
  syncs : w'.totalSyncs = w.totalSyncs + if s.ok then 1 else 0
  options : w'.options = w.options

/-- A sync that stops before the end. -/
theorem Moves.fails (h : Moves c w w' 0) {s : Status} (hs : s.ok = false) : Syncs c w w' s :=
  ⟨h.held, h.writes, h.bytes, by rw [h.syncs, hs]; rfl, h.options⟩

theorem Moves.flushStream (hc : env.Repeats c) (w : WriteAheadLog) :
    Moves c w (w.flushStream env) 0 := by
  refine ⟨?_, rfl, rfl, rfl, rfl⟩
  exact Nat.add_le_add_right (OFStream.held_flush w.currentFile w.disk hc) (c * w.buffer.length)

/-- The file is opened once more and synced; no byte moves. -/
theorem Syncs.syncFile (env : Env) (c : Nat) (w : WriteAheadLog) :
    Syncs c w (w.syncFile env).2 (w.syncFile env).1 := by
  have hfail : ∀ (d : Disk) (s : Status), d.size = w.disk.size → s.ok = false →
      Syncs c w { w with disk := d } s := by
    intro d s hd hs
    have hmoves : Moves c w { w with disk := d } 0 := by
      refine ⟨?_, rfl, rfl, rfl, rfl⟩
      show d.size + _ + _ ≤ _
      rw [hd]
      exact Nat.le_refl _
    exact hmoves.fails hs
  unfold WriteAheadLog.syncFile
  dsimp only
  split
  next f _ hfile =>
    split
    · have hsize := Disk.size_synced (d := ((w.disk.ask env).2.ask env).2) hfile f.content.length
      refine ⟨?_, rfl, rfl, rfl, rfl⟩
      show Disk.size _ + _ + _ ≤ _
      rw [hsize]
      exact Nat.le_refl _
    · exact hfail _ _ rfl rfl
  · exact hfail _ _ rfl rfl

theorem Moves.thenSyncs {s : Status} (h : Moves c w w' 0) (h' : Syncs c w' w'' s) :
    Syncs c w w'' s where
  held := Nat.le_trans h'.held h.held
  writes := h'.writes.trans h.writes
  bytes := h'.bytes.trans h.bytes
  syncs := by rw [h'.syncs, h.syncs]
  options := h'.options.trans h.options

theorem Syncs.sync (hc : env.Repeats c) (w : WriteAheadLog) :
    Syncs c w (w.sync env).2 (w.sync env).1 := by
  have hflush : Moves c w ((w.flushBuffer env).flushStream env) 0 :=
    (Moves.flushBuffer hc w).trans (Moves.flushStream hc _)
  unfold WriteAheadLog.sync
  simp only []
  split
  · exact (Moves.refl c w).fails rfl
  · split
    · exact hflush.fails rfl
    · exact hflush.thenSyncs (Syncs.syncFile env c ((w.flushBuffer env).flushStream env))

/-- The size of a record. -/
def recordSize (r : WalRecordType × UInt64 × Bytes × Bytes) : Nat :=
  kHeaderSize + r.2.2.1.length + r.2.2.2.length

/-- What a call of the log adds. -/
structure Accounts (c : Nat) (w w' : WriteAheadLog) (op : WalOp) (s : Status) : Prop where
  held : w'.held c ≤ w.held c + c * (op.accepted.toList.map recordSize).sum
  writes : w'.totalWrites = w.totalWrites + op.accepted.toList.length
  bytes : w'.totalBytesWritten
    = w.totalBytesWritten + (op.accepted.toList.map recordSize).sum
  syncs : w.totalSyncs + (if op = .sync ∧ s.ok then 1 else 0) ≤ w'.totalSyncs
  syncsMost : w'.totalSyncs ≤ w.totalSyncs + (if op = .sync ∧ s.ok then 1 else 0)
    + if w.options.syncOnWrite then op.accepted.toList.length else 0
  options : w'.options = w.options

theorem Moves.accounts (h : Moves c w w' 0) {op : WalOp} (hop : op.accepted = none)
    (hsync : op ≠ .sync) (s : Status) : Accounts c w w' op s := by
  have hno : ¬ (op = .sync ∧ s.ok = true) := fun hs => hsync hs.1
  refine ⟨?_, ?_, ?_, ?_, ?_, h.options⟩
  · rw [hop]
    exact h.held
  · rw [hop]
    exact h.writes
  · rw [hop]
    exact h.bytes
  · rw [if_neg hno, h.syncs]
    exact Nat.le_refl _
  · rw [if_neg hno, h.syncs]
    exact Nat.le_add_right _ _

/-- The sync behind a record. -/
theorem autoSync_counts (hc : env.Repeats c) (w : WriteAheadLog) :
    (w.autoSync env).held c ≤ w.held c ∧ (w.autoSync env).totalWrites = w.totalWrites ∧
      (w.autoSync env).totalBytesWritten = w.totalBytesWritten ∧
      w.totalSyncs ≤ (w.autoSync env).totalSyncs ∧
      (w.autoSync env).totalSyncs ≤ w.totalSyncs + (if w.options.syncOnWrite then 1 else 0) ∧
      (w.autoSync env).options = w.options := by
  unfold autoSync
  split
  · have hsync := (Moves.flushBuffer hc w).thenSyncs (Syncs.sync hc (w.flushBuffer env))
    refine ⟨hsync.held, hsync.writes, hsync.bytes, ?_, ?_, hsync.options⟩
    · rw [hsync.syncs]
      exact Nat.le_add_right _ _
    · rw [hsync.syncs]
      exact Nat.add_le_add_left (by split <;> omega) _
  · exact ⟨Nat.le_refl _, rfl, rfl, Nat.le_refl _, Nat.le_refl _, rfl⟩

theorem accounts_write (hc : env.Repeats c) {type : WalRecordType} {key value : Bytes}
    {seq : UInt64} {s : Status} (h : w.writeRecord env type key value seq = some (s, w')) :
    Accounts c w w' (.write type key value seq) s := by
  have hno : ¬ ((WalOp.write type key value seq) = .sync ∧ s.ok = true) := fun hs => nomatch hs.1
  by_cases hlarge : key.length > uint32Max ∨ value.length > uint32Max
  · rw [writeRecord_large hlarge] at h
    obtain ⟨rfl, rfl⟩ := Prod.mk.inj (Option.some.inj h)
    have hnone : (WalOp.write type key value seq).accepted = none := if_pos hlarge
    exact (Moves.refl c w).accounts hnone (fun heq => nomatch heq) _
  · rw [writeRecord_eq hlarge] at h
    obtain ⟨w₂, happend, heq⟩ := Option.map_eq_some_iff.mp h
    obtain ⟨rfl, rfl⟩ := Prod.mk.inj heq
    obtain ⟨w₁, hrec, rfl⟩ := Option.map_eq_some_iff.mp happend
    have hsome : (WalOp.write type key value seq).accepted = some (type, seq, key, value) :=
      if_neg hlarge
    have hrotated : Moves c w (w.rotated env key value) 0 := by
      unfold rotated
      split
      · exact Moves.rotateLog hc w
      · exact Moves.refl c w
    have hasked : Moves c (w.rotated env key value)
        { w.rotated env key value with disk := ((w.rotated env key value).disk.ask env).2 } 0 :=
      ⟨Nat.le_refl _, rfl, rfl, rfl, rfl⟩
    have hmoves := (hrotated.trans hasked).trans (Moves.bufferRecord hc hrec)
    rw [WalRecord.length_encode, Nat.zero_add] at hmoves
    obtain ⟨hheld, hwrites, hbytes, hlow, hhigh, hoptions⟩ :=
      autoSync_counts hc (counted w₁ (kHeaderSize + key.length + value.length))
    rw [show (counted w₁ (kHeaderSize + key.length + value.length)).totalSyncs = w₁.totalSyncs
      from rfl, hmoves.syncs] at hlow hhigh
    rw [show (counted w₁ (kHeaderSize + key.length + value.length)).options = w₁.options from rfl,
      hmoves.options] at hhigh
    refine ⟨?_, ?_, ?_, ?_, ?_, hoptions.trans hmoves.options⟩
    · rw [hsome]
      exact Nat.le_trans hheld hmoves.held
    · rw [hwrites, hsome]
      exact congrArg (· + 1) hmoves.writes
    · rw [hbytes, hsome]
      exact congrArg (· + _) hmoves.bytes
    · rw [if_neg hno]
      exact hlow
    · rw [if_neg hno, hsome]
      exact hhigh

/-- **Every call**, whatever fails. -/
theorem accounts_apply (hc : env.Repeats c) {op : WalOp} {s : Status}
    (h : w.apply env op = some (s, w')) : Accounts c w w' op s := by
  cases op with
  | write type key value seq => exact accounts_write hc h
  | rotate =>
      obtain ⟨-, rfl⟩ := Prod.mk.inj (Option.some.inj h)
      show Accounts c w (w.rotateLog env).2 .rotate s
      exact (Moves.rotateLog hc w).accounts rfl (by simp) s
  | flush =>
      obtain ⟨-, rfl⟩ := Prod.mk.inj (Option.some.inj h)
      show Accounts c w (w.flushBuffer env) .flush s
      exact (Moves.flushBuffer hc w).accounts rfl (by simp) s
  | sync =>
      obtain ⟨rfl, rfl⟩ := Prod.mk.inj (Option.some.inj h)
      show Accounts c w (w.sync env).2 .sync (w.sync env).1
      have hsync := Syncs.sync hc w
      have hcount : (if WalOp.sync = .sync ∧ (w.sync env).1.ok = true then 1 else 0)
          = if (w.sync env).1.ok then 1 else 0 := if_congr (and_iff_right rfl) rfl rfl
      refine ⟨hsync.held, hsync.writes, hsync.bytes, ?_, ?_, hsync.options⟩
      · rw [hcount, hsync.syncs]
      · rw [hcount, hsync.syncs]
        exact Nat.le_add_right _ _

/-! ## §3. Runs. -/

/-- The calls of `Sync` that report success. -/
def synced (ops : List WalOp) (outs : List Status) : Nat :=
  (ops.zip outs).countP (fun e => e.1 = .sync ∧ e.2.ok)

/-- The bytes of the records a run accepts. -/
def recordBytes (ops : List WalOp) : Nat := ((ops.filterMap WalOp.accepted).map recordSize).sum

theorem filterMap_cons_accepted (op : WalOp) (ops : List WalOp) :
    (op :: ops).filterMap WalOp.accepted
      = op.accepted.toList ++ ops.filterMap WalOp.accepted := by
  rw [List.filterMap_cons]
  cases op.accepted <;> rfl

theorem recordBytes_cons (op : WalOp) (ops : List WalOp) :
    recordBytes (op :: ops) = (op.accepted.toList.map recordSize).sum + recordBytes ops := by
  rw [recordBytes, filterMap_cons_accepted, List.map_append, List.sum_append]
  rfl

/-- What a run of the log adds. -/
structure Totals (c : Nat) (w w' : WriteAheadLog) (ops : List WalOp) (outs : List Status) :
    Prop where
  held : w'.held c ≤ w.held c + c * recordBytes ops
  writes : w'.totalWrites = w.totalWrites + (ops.filterMap WalOp.accepted).length
  bytes : w'.totalBytesWritten = w.totalBytesWritten + recordBytes ops
  syncs : w.totalSyncs + synced ops outs ≤ w'.totalSyncs
  syncsMost : w'.totalSyncs ≤ w.totalSyncs + synced ops outs
    + if w.options.syncOnWrite then (ops.filterMap WalOp.accepted).length else 0

/-- **Every run**, by the calls it consists of. -/
theorem totals_run (hc : env.Repeats c) :
    ∀ (ops : List WalOp) {w w' : WriteAheadLog} {outs : List Status},
      run? (WriteAheadLog.apply env) w ops = some (outs, w') → Totals c w w' ops outs := by
  intro ops
  induction ops with
  | nil =>
      intro w w' outs hrun
      obtain ⟨rfl, rfl⟩ := Prod.mk.inj (Option.some.inj hrun)
      exact ⟨Nat.le_refl _, rfl, rfl, Nat.le_refl _, Nat.le_add_right _ _⟩
  | cons op ops ih =>
      intro w w' outs hrun
      obtain ⟨s, w₁, outs, hstep, hrest, rfl⟩ := run?_cons.mp hrun
      have hone := accounts_apply hc hstep
      have hrun := ih hrest
      have hbytes := recordBytes_cons op ops
      have hsynced : synced (op :: ops) (s :: outs)
          = synced ops outs + if op = .sync ∧ s.ok then 1 else 0 := by
        rw [synced, List.zip_cons_cons, List.countP_cons]
        simp only [decide_eq_true_eq]
        rfl
      have hcount := congrArg List.length (filterMap_cons_accepted op ops)
      rw [List.length_append] at hcount
      have hmost := hrun.syncsMost
      rw [hone.options] at hmost
      refine ⟨?_, ?_, ?_, ?_, ?_⟩
      · rw [hbytes, Nat.mul_add, ← Nat.add_assoc]
        exact Nat.le_trans hrun.held (Nat.add_le_add_right hone.held _)
      · rw [hrun.writes, hone.writes, hcount, Nat.add_assoc]
      · rw [hrun.bytes, hone.bytes, hbytes, Nat.add_assoc]
      · have hsyncs := hone.syncs
        have hsyncs' := hrun.syncs
        rw [hsynced]
        omega
      · have hsyncs := hone.syncsMost
        rw [hsynced, hcount]
        by_cases hauto : w.options.syncOnWrite
        · rw [if_pos hauto] at hmost hsyncs ⊢
          omega
        · rw [if_neg hauto] at hmost hsyncs ⊢
          omega

/-- Opening moves no byte and counts nothing. -/
theorem moves_new (hc : env.Repeats c) (options : WalOptions) (d : Disk) :
    Moves c { options, currentFileNumber := (highestNumber d).getD 0, disk := d }
      (new env options d) 0 :=
  Moves.openNewLogFile hc _

/-- Nor does closing. -/
theorem size_destroy (hc : env.Repeats c) (w : WriteAheadLog) :
    (w.destroy env).size ≤ w.held c := by
  have hclosed := ((Moves.flushBuffer hc w).trans (Moves.closeFile hc (w.flushBuffer env))).held
  unfold destroy
  split
  · refine Nat.le_trans ?_ hclosed
    show _ ≤ _ + _ + _
    omega
  · show _ ≤ _ + _ + _
    omega

/-! ## §4. When nothing fails. -/

variable {options : WalOptions} {closed : List (Nat × File)} {f : File} {cur : Bytes}

/-- The bytes of the files behind the current one. -/
def bytesOf (files : List (Nat × File)) : Nat := (files.map (fun e => e.2.content.length)).sum

theorem bytesOf_snoc (files : List (Nat × File)) (n : Nat) (f : File) :
    bytesOf (files ++ [(n, f)]) = bytesOf files + f.content.length := by
  rw [bytesOf, List.map_append, List.sum_append]
  rfl

theorem Writing.held (h : Writing w closed f cur) (hg : w.currentFile.good = true) :
    w.held 1 = bytesOf closed + cur.length := by
  have hsize : w.disk.size = bytesOf closed + f.content.length := by
    rw [← bytesOf_snoc closed w.currentFileNumber f, ← h.entries]
    rfl
  rw [WriteAheadLog.held, OFStream.due, if_pos hg, hsize, ← h.bytes, List.length_append,
    List.length_append]
  omega

/-- A call that only moves bytes. -/
theorem Live.held_moved (h : Live options w) (hsame : Same env w w') (hok : env.Fine)
    (hholds : ∀ closed cur, Holds w closed cur → Holds w' closed cur) : w'.held 1 = w.held 1 := by
  obtain ⟨hgood, -, closed, f, cur, hw⟩ := h
  obtain ⟨hgood', f', hw'⟩ := hw.moved hgood (hok.ok _ _) hsame (hholds _ _ hw.holds)
  rw [hw'.held hgood', hw.held hgood]

theorem Live.held_rotate (h : Live options w) (hok : env.Fine) :
    Live options (w.rotateLog env).2 ∧ (w.rotateLog env).2.held 1 = w.held 1 := by
  obtain ⟨hgood, hoptions, closed, f, cur, hw⟩ := h
  obtain ⟨f', f'', hcontent, hw', hgood', hoptions', -⟩ := hw.rotate hgood (hok.ok _ _)
  refine ⟨⟨hgood', hoptions'.trans hoptions, _, f'', [], hw'⟩, ?_⟩
  rw [hw'.held hgood', hw.held hgood, bytesOf_snoc, hcontent]
  rfl

theorem Live.held_write (h : Live options w) (hok : env.Fine) {type : WalRecordType}
    {key value : Bytes} {seq : UInt64} {s : Status}
    (hrun : w.writeRecord env type key value seq = some (s, w')) :
    w'.held 1 = w.held 1
      + ((WalOp.write type key value seq).accepted.toList.map recordSize).sum := by
  by_cases hlarge : key.length > uint32Max ∨ value.length > uint32Max
  · rw [writeRecord_large hlarge] at hrun
    obtain ⟨rfl, rfl⟩ := Prod.mk.inj (Option.some.inj hrun)
    rw [WalOp.accepted, if_pos hlarge]
    rfl
  · rw [writeRecord_eq hlarge] at hrun
    obtain ⟨w₁, happend, heq⟩ := Option.map_eq_some_iff.mp hrun
    obtain ⟨rfl, rfl⟩ := Prod.mk.inj heq
    have hrotated : Live options (w.rotated env key value) ∧
        (w.rotated env key value).held 1 = w.held 1 := by
      unfold WriteAheadLog.rotated
      split
      · exact h.held_rotate hok
      · exact ⟨h, rfl⟩
    obtain ⟨⟨hgood, -, closed, f, cur, hw⟩, hheld⟩ := hrotated
    obtain ⟨⟨f', hw'⟩, hrecorded⟩ := hw.record hgood happend (hok.ok _ _)
      (fun _ => hok.ok _ _)
    rw [hw'.held hrecorded.good, ← hheld, hw.held hgood, List.length_append,
      WalRecord.length_encode, WalOp.accepted, if_neg hlarge]
    exact (Nat.add_assoc _ _ _).symm

theorem Live.apply (h : Live options w) (hok : env.Fine) {op : WalOp} {s : Status}
    (hrun : w.apply env op = some (s, w')) :
    Live options w' ∧ w'.held 1 = w.held 1 + (op.accepted.toList.map recordSize).sum := by
  cases op with
  | write type key value seq => exact ⟨(h.write (writesThrough_of_fine hok _ _ _ _ _) hrun).1,
      h.held_write hok hrun⟩
  | rotate =>
      obtain ⟨-, rfl⟩ := Prod.mk.inj (Option.some.inj hrun)
      exact h.held_rotate hok
  | flush =>
      obtain ⟨-, rfl⟩ := Prod.mk.inj (Option.some.inj hrun)
      exact ⟨(h.flush (hok.ok _ _)).1,
        h.held_moved (Same.flushBuffer env w) hok (fun _ _ hw => hw.flushBuffer env)⟩
  | sync =>
      obtain ⟨-, rfl⟩ := Prod.mk.inj (Option.some.inj hrun)
      obtain ⟨-, -, closed, f, cur, hw⟩ := id h
      exact ⟨(h.sync (hok.ok _ _)).1,
        h.held_moved (hw.holds.sync env).2.1 hok (fun _ _ hw => (hw.sync env).1)⟩

theorem Live.run (hok : env.Fine) :
    ∀ (ops : List WalOp) {w w' : WriteAheadLog} {outs : List Status}, Live options w →
      run? (WriteAheadLog.apply env) w ops = some (outs, w') →
      Live options w' ∧ w'.held 1 = w.held 1 + recordBytes ops := by
  intro ops
  induction ops with
  | nil =>
      intro w w' outs h hrun
      obtain ⟨rfl, rfl⟩ := Prod.mk.inj (Option.some.inj hrun)
      exact ⟨h, rfl⟩
  | cons op ops ih =>
      intro w w' outs h hrun
      obtain ⟨s, w₁, outs, hstep, hrest, rfl⟩ := run?_cons.mp hrun
      obtain ⟨h₁, hheld₁⟩ := h.apply hok hstep
      obtain ⟨h', hheld⟩ := ih h₁ hrest
      refine ⟨h', ?_⟩
      rw [hheld, hheld₁, recordBytes_cons, Nat.add_assoc]

theorem Live.size_destroy (h : Live options w) (hok : env.Fine) :
    (w.destroy env).size = w.held 1 := by
  obtain ⟨hgood, -, closed, f, cur, hw⟩ := h
  obtain ⟨f', hentries, hcontent⟩ := hw.destroy hgood (hok.ok _ _)
  show bytesOf (w.destroy env).files.entries = _
  rw [hentries, bytesOf_snoc, hcontent, hw.held hgood]

theorem held_new (hok : env.Fine) (options : WalOptions) (d : Disk) :
    (new env options d).held 1 = d.size := by
  show _ = bytesOf d.files.entries
  rcases List.eq_nil_or_concat' d.files.entries with hd | ⟨closed, ⟨n, f⟩, hd⟩
  · obtain ⟨f, hw, hgood, -⟩ := writing_new_empty options hd (hok _)
    rw [hw.held hgood, hd]
    rfl
  · obtain ⟨hw, hgood, -⟩ := new_last options hd (hok d.requests)
    rw [hw.held hgood, hd, bytesOf_snoc]

/-! ## §5. The account of a run. -/

/-- The bytes in the files, in the stream and in the buffer. -/
def bytesKept (w : WriteAheadLog) : Nat :=
  w.disk.size + w.currentFile.pending.length + w.buffer.length

theorem bytesKept_le (hc : env.Repeats c) (w : WriteAheadLog) : w.bytesKept ≤ w.held c := by
  have hpending := OFStream.length_le_due w.currentFile hc
  unfold bytesKept WriteAheadLog.held
  rcases hc with rfl | ⟨rfl, -⟩
  · omega
  · omega

/-- No byte reaches the files, or stays on its way, more often than `c` allows. -/
theorem bytes_repeated (hc : env.Repeats c) (options : WalOptions) (d : Disk) {ops : List WalOp}
    {outs : List Status}
    (hrun : run? (WriteAheadLog.apply env) (new env options d) ops = some (outs, w)) :
    w.bytesKept ≤ d.size + c * w.getStats.totalBytesWritten ∧
      (w.destroy env).size ≤ d.size + c * w.getStats.totalBytesWritten := by
  have hopened := moves_new hc options d
  have htotals := totals_run hc ops hrun
  have hstart : WriteAheadLog.held c
      { options, currentFileNumber := (highestNumber d).getD 0, disk := d } = d.size := by
    show d.size + (if true = true then c * 0 else 0) + c * 0 = d.size
    rw [if_pos rfl, Nat.mul_zero]
    rfl
  have hheld := htotals.held
  have hnew := hopened.held
  have hbytes : w.getStats.totalBytesWritten = recordBytes ops := by
    show w.totalBytesWritten = _
    rw [htotals.bytes, hopened.bytes]
    exact Nat.zero_add _
  rw [hstart] at hnew
  rw [hbytes]
  have hmost : w.held c ≤ d.size + c * recordBytes ops :=
    Nat.le_trans hheld (Nat.add_le_add_right hnew _)
  exact ⟨Nat.le_trans (bytesKept_le hc w) hmost, Nat.le_trans (size_destroy hc w) hmost⟩

/-- **Bytes and counters of a log**, opened on any directory.  Whatever fails, the
counters count the records accepted and their bytes, and the syncs: each `Sync`
that reports success, and besides these at most one for each record.  All files
together never hold more than at the start and twice `total_bytes_written`, not even
once the log is closed; not more than once if no request fails halfway; and exactly
once, when it is closed, if none fails. -/
theorem bytes_accounted (env : Env) (options : WalOptions) (d : Disk) (ops : List WalOp)
    {outs : List Status} {w : WriteAheadLog}
    (hrun : run? (WriteAheadLog.apply env) (new env options d) ops = some (outs, w)) :
    (w.getStats.totalWrites = (ops.filterMap WalOp.accepted).length ∧
      w.getStats.totalBytesWritten = recordBytes ops ∧
      synced ops outs ≤ w.getStats.totalSyncs ∧
      w.getStats.totalSyncs ≤ synced ops outs
        + if options.syncOnWrite then (ops.filterMap WalOp.accepted).length else 0) ∧
    (w.bytesKept ≤ d.size + 2 * w.getStats.totalBytesWritten ∧
      (w.destroy env).size ≤ d.size + 2 * w.getStats.totalBytesWritten) ∧
    (env.AllOrNothing → w.bytesKept ≤ d.size + w.getStats.totalBytesWritten ∧
      (w.destroy env).size ≤ d.size + w.getStats.totalBytesWritten) ∧
    (env.Fine → (w.destroy env).size = d.size + w.getStats.totalBytesWritten) := by
  have htwice : env.Repeats 2 := Or.inl rfl
  have hopened := moves_new htwice options d
  have htotals := totals_run htwice ops hrun
  have hwrites := htotals.writes
  have hbytes := htotals.bytes
  have hsyncs := htotals.syncs
  have hmost := htotals.syncsMost
  rw [hopened.writes, Nat.zero_add] at hwrites
  rw [hopened.bytes, Nat.zero_add] at hbytes
  rw [hopened.syncs, Nat.zero_add] at hsyncs
  rw [hopened.syncs, hopened.options, Nat.zero_add] at hmost
  have hbytes' : w.getStats.totalBytesWritten = recordBytes ops := hbytes
  refine ⟨⟨hwrites, hbytes', hsyncs, hmost⟩, bytes_repeated htwice options d hrun,
    fun henv => ?_, fun hok => ?_⟩
  · have honce := bytes_repeated (Or.inr ⟨rfl, henv⟩) options d hrun
    rwa [Nat.one_mul] at honce
  · obtain ⟨hlive, hheld⟩ := Live.run hok ops (new_live options d (hok _)).1 hrun
    rw [hbytes', hlive.size_destroy hok, hheld, held_new hok]

/-- A directory with a file that ends in the middle of a record. -/
def strayFile : Disk := { files := ⟨[(3, { content := [1, 2, 3] })], List.pairwise_singleton _ _⟩ }

/-- A record of 31 bytes, ten of which get into the file twice: the flush of the
`Sync` fails behind them. -/
theorem bytes_accounted_halfway : ∃ outs w,
    run? (WriteAheadLog.apply .halfway) (new .halfway { syncOnWrite := false } strayFile)
      [.write .kPut [1] [2] 1, .sync] = some (outs, w) ∧
    outs.map Status.ok = [true, false] ∧ (w.destroy .halfway).size = 3 + 41 ∧
    w.getStats.totalWrites = 1 ∧ w.getStats.totalBytesWritten = 31 ∧
    w.getStats.totalSyncs = 0 ∧ w.bytesKept ≤ 3 + 2 * 31 := by
  have hvalues : (run? (WriteAheadLog.apply .halfway)
      (new .halfway { syncOnWrite := false } strayFile) [.write .kPut [1] [2] 1, .sync]).map
        (fun r => (r.1.map Status.ok, synced [.write .kPut [1] [2] 1, .sync] r.1,
          (r.2.destroy .halfway).size))
      = some ([true, false], 0, 44) := by decide +kernel
  obtain ⟨⟨outs, w⟩, hrun, heq⟩ := Option.map_eq_some_iff.mp hvalues
  obtain ⟨houts, heq⟩ := Prod.mk.inj heq
  obtain ⟨hsynced, hsize⟩ := Prod.mk.inj heq
  obtain ⟨⟨hwrites, hbytes, -, hmost⟩, ⟨hkept, -⟩, -⟩ :=
    bytes_accounted .halfway { syncOnWrite := false } strayFile _ hrun
  rw [show recordBytes [.write .kPut [1] [2] 1, .sync] = 31 from by decide +kernel] at hbytes
  rw [hsynced] at hmost
  rw [hbytes] at hkept
  exact ⟨outs, w, hrun, houts, hsize, hwrites, hbytes, Nat.le_zero.mp hmost, hkept⟩

end WriteAheadLog

end KvEngine
