/-
  KvEngine.Wal.Writing
  ────────────────────
  **What the write path does to the log.**

  `Writing w closed f cur`: the directory holds the files `closed` and then
  the current file `f`, and `cur` is what the current file will hold once
  the stream's buffer and the write buffer have been handed over.  While the
  stream is good, a flush or sync changes where these bytes are and not what
  they are, a record appends its encoding, and a rotation closes the file
  with `cur` in it.

  `Holds` adds the two states a failed request can lead to: a stream that
  takes no more bytes, and no open file.  Each operation keeps `Holds`
  whatever the operating system answers, and keeps the stream good if its
  own requests succeed (`Env.Ok`).
-/
import KvEngine.Lib.Crc32
import KvEngine.Wal.Log

namespace KvEngine

open Lib

/-- The requests from number `a` to below `b` succeed. -/
def Env.Ok (env : Env) (a b : Nat) : Prop := ∀ i, a ≤ i → i < b → (env.answer i).ok = true

/-- A part of the requests. -/
theorem Env.Ok.mono {env : Env} {a b c d : Nat} (h : env.Ok a d) (hab : a ≤ b) (hcd : c ≤ d) :
    env.Ok b c :=
  fun i hb hc => h i (Nat.le_trans hab hb) (Nat.lt_of_lt_of_le hc hcd)

/-- No request from number `a` on fails. -/
def Env.OkFrom (env : Env) (a : Nat) : Prop := ∀ i, a ≤ i → (env.answer i).ok = true

/-- From `a` on is any range behind `a`. -/
theorem Env.OkFrom.ok {env : Env} {a b c : Nat} (h : env.OkFrom a) (hab : a ≤ b) : env.Ok b c :=
  fun i hb _ => h i (Nat.le_trans hab hb)

/-- A later start. -/
theorem Env.OkFrom.mono {env : Env} {a b : Nat} (h : env.OkFrom a) (hab : a ≤ b) : env.OkFrom b :=
  fun i hb => h i (Nat.le_trans hab hb)

/-- No request fails. -/
def Env.Fine (env : Env) : Prop := ∀ i, (env.answer i).ok = true

/-- zlib's checksum, on a system that refuses no request. -/
def Env.undisturbed : Env := ⟨Lib.crc32, fun _ => {}⟩

/-- The undisturbed system refuses nothing. -/
theorem Env.fine_undisturbed : Env.undisturbed.Fine := fun _ => rfl

/-- zlib's checksum, on a system whose fourth answer is a failure after ten bytes. -/
def Env.halfway : Env :=
  ⟨Lib.crc32, fun i => { ok := i != 3, moved := if i = 3 then 10 else 0 }⟩

/-- A request that fails has handed nothing over. -/
def Env.AllOrNothing (env : Env) : Prop :=
  ∀ i, (env.answer i).ok = false → (env.answer i).moved = 0

/-- Where no request fails, none fails halfway. -/
theorem Env.Fine.allOrNothing {env : Env} (h : env.Fine) : env.AllOrNothing :=
  fun i hfails => absurd (hfails.symm.trans (h i)) (by simp)

/-- Where no request fails, none fails in a range. -/
theorem Env.Fine.ok {env : Env} (h : env.Fine) (a b : Nat) : env.Ok a b := fun i _ _ => h i

/-- Nor does one from `a` on. -/
theorem Env.Fine.okFrom {env : Env} (h : env.Fine) (a : Nat) : env.OkFrom a := fun i _ => h i

/-! ## §1. The last file of a directory. -/

namespace Disk

variable {d : Disk} {closed : List (Nat × File)} {n : Nat} {f : File}

/-- The files before the last have lower numbers. -/
theorem closed_lt (h : d.files.entries = closed ++ [(n, f)]) : ∀ e ∈ closed, e.1 < n := by
  intro e he
  have hs := d.files.sorted
  rw [h, sorted_append] at hs
  exact TotalCompare.nat_lt_iff.mp (hs.2.2 e he (n, f) List.mem_cons_self)

/-- The last file is found under its number. -/
theorem file_last (h : d.files.entries = closed ++ [(n, f)]) : d.file n = some f := by
  refine (find_eq_some_iff d.files.sorted).mpr ?_
  rw [h]
  exact List.mem_append_right _ List.mem_cons_self

/-- There is no file behind the last one. -/
theorem file_fresh (h : ∀ e ∈ d.files.entries, e.1 < n) : d.file n = none :=
  find_eq_none_iff.mpr (fun e he => Nat.ne_of_lt (h e he))

/-- A change of the last file leaves the others. -/
theorem setFile_last (h : d.files.entries = closed ++ [(n, f)]) (f' : File) :
    (d.setFile n f').files.entries = closed ++ [(n, f')] := by
  show insertEntry _ n f' d.files.entries = _
  rw [h]
  exact insertEntry_present (fun e he => TotalCompare.nat_lt_iff.mpr (closed_lt h e he))

/-- A file behind all others becomes the last. -/
theorem setFile_fresh (h : ∀ e ∈ d.files.entries, e.1 < n) (f' : File) :
    (d.setFile n f').files.entries = d.files.entries ++ [(n, f')] := by
  show insertEntry _ n f' d.files.entries = _
  have := insertEntry_absent (c := TotalCompare.nat) (v := f')
    (fun e he => TotalCompare.nat_lt_iff.mpr (h e he)) (fun e (he : e ∈ []) => nomatch he)
  rwa [List.append_nil] at this

@[simp] theorem requests_setFile (d : Disk) (n : Nat) (f : File) :
    (d.setFile n f).requests = d.requests := rfl

@[simp] theorem files_ask (env : Env) (d : Disk) : (d.ask env).2.files = d.files := rfl

@[simp] theorem requests_ask (env : Env) (d : Disk) :
    (d.ask env).2.requests = d.requests + 1 := rfl

@[simp] theorem requests_append (d : Disk) (n : Nat) (bytes : Bytes) :
    (d.append n bytes).requests = d.requests := by
  unfold append
  split <;> rfl

end Disk

/-! ## §2. Streams. -/

namespace OFStream

variable {env : Env} {s : OFStream} {d : Disk} {closed : List (Nat × File)} {n : Nat} {f : File}

/-- What the stream hands over goes to the end of the last file. -/
theorem deliver_last (hs : s.file = some n) (hd : d.files.entries = closed ++ [(n, f)])
    (bytes : Bytes) : (s.deliver bytes d).files.entries
      = closed ++ [(n, { f with content := f.content ++ bytes })] := by
  simp only [deliver, hs, Disk.append, Disk.file_last hd]
  exact Disk.setFile_last hd _

@[simp] theorem requests_deliver (s : OFStream) (bytes : Bytes) (d : Disk) :
    (s.deliver bytes d).requests = d.requests := by
  unfold deliver
  split
  · rfl
  · exact Disk.requests_append d _ bytes

/-- While the stream is good, `total` is the last file with what the stream
still keeps for it. -/
structure Carries (s : OFStream) (d : Disk) (closed : List (Nat × File)) (n : Nat)
    (total : Bytes) (f : File) : Prop where
  file : s.file = some n
  entries : d.files.entries = closed ++ [(n, f)]
  bytes : s.good = true → f.content ++ s.pending = total

/-- **`write` moves bytes**: file and stream together have those they had, and the new
ones. -/
theorem write_spec (env : Env) (hs : s.file = some n) (hg : s.good = true)
    (hd : d.files.entries = closed ++ [(n, f)]) (bytes : Bytes) :
    ∃ f', Carries (s.write env bytes d).1 (s.write env bytes d).2 closed n
        (f.content ++ s.pending ++ bytes) f' := by
  simp only [write, hg, if_true]
  refine ⟨_, hs, deliver_last hs (d := (d.ask env).2) hd _, fun hok => ?_⟩
  rw [if_pos hok, List.append_assoc, List.take_append_drop, List.append_assoc]

/-- `write` makes one request, and its answer decides about the stream. -/
theorem good_write (env : Env) (hg : s.good = true) (bytes : Bytes) :
    (s.write env bytes d).1.good = (env.answer d.requests).ok ∧
      (s.write env bytes d).2.requests = d.requests + 1 := by
  simp only [write, hg, if_true]
  exact ⟨rfl, requests_deliver s _ _⟩

/-- A stream that is not good takes nothing. -/
theorem write_bad (hg : s.good = false) (bytes : Bytes) : s.write env bytes d = (s, d) := by
  simp [write, hg]

/-- **`flush` moves bytes** from the stream to the file. -/
theorem flush_spec (env : Env) (hs : s.file = some n) (hg : s.good = true)
    (hd : d.files.entries = closed ++ [(n, f)]) :
    ∃ f', Carries (s.flush env d).1 (s.flush env d).2 closed n (f.content ++ s.pending) f' := by
  simp only [flush, hg, if_true]
  split
  · exact ⟨_, hs, deliver_last hs (d := (d.ask env).2) hd _, fun _ => List.append_nil _⟩
  · exact ⟨_, hs, deliver_last hs (d := (d.ask env).2) hd _, fun hok => absurd hok (by simp)⟩

/-- A flush that leaves the stream good has handed everything over. -/
theorem good_flush (env : Env) (hg : s.good = true) :
    (s.flush env d).1.good = (env.answer d.requests).ok ∧
      ((s.flush env d).1.good = true → (s.flush env d).1.pending = []) ∧
      (s.flush env d).2.requests = d.requests + 1 := by
  have hans : (d.ask env).1.ok = (env.answer d.requests).ok := rfl
  simp only [flush, hg, if_true]
  split
  next hok => exact ⟨hok.symm.trans hans, fun _ => rfl, requests_deliver s _ _⟩
  next hok =>
    refine ⟨?_, fun h => absurd h (by simp), requests_deliver s _ _⟩
    rw [← hans]
    exact (Bool.eq_false_iff.mpr hok).symm

/-- A stream that is not good hands nothing over. -/
theorem flush_bad (hg : s.good = false) : s.flush env d = (s, d) := by
  simp [flush, hg]

/-- **`close` hands over what is left**, or a beginning of it if its request fails. -/
theorem close_spec (env : Env) (hs : s.file = some n) (hd : d.files.entries = closed ++ [(n, f)]) :
    ∃ f', (s.close env d).2.files.entries = closed ++ [(n, f')] ∧
      ((env.answer d.requests).ok = true → f'.content = f.content ++ s.pending) ∧
      (s.pending = [] → f' = f) ∧ f'.content <+: f.content ++ s.pending := by
  refine ⟨_, deliver_last hs (d := (d.ask env).2) hd _, ?_, ?_, ?_⟩
  · intro hok
    show f.content ++ (if (env.answer d.requests).ok = true then _ else _) = _
    rw [if_pos hok]
  · intro hp
    rw [hp, List.take_nil, ite_self, List.append_nil]
  · refine (List.prefix_append_right_inj _).mpr ?_
    split
    · exact List.prefix_refl _
    · exact List.take_prefix _ _

/-- A file opened behind all others, or the last one opened again. -/
theorem open_fresh (hd : ∀ e ∈ d.files.entries, e.1 < n)
    (hok : (env.answer d.requests).ok = true) :
    (openAppend env n d).1 = { file := some n } ∧
      (openAppend env n d).2.files.entries = d.files.entries ++ [(n, ({} : File))] := by
  have hans : (d.ask env).1.ok = true := hok
  have hnone : (d.ask env).2.file n = none := Disk.file_fresh hd
  simp only [openAppend, hans, if_true, hnone, Option.isNone_none]
  exact ⟨trivial, Disk.setFile_fresh (d := (d.ask env).2) hd {}⟩

/-- The last file is opened again, at its end. -/
theorem open_last (hd : d.files.entries = closed ++ [(n, f)])
    (hok : (env.answer d.requests).ok = true) :
    (openAppend env n d).1 = { file := some n } ∧
      (openAppend env n d).2.files.entries = d.files.entries := by
  have hans : (d.ask env).1.ok = true := hok
  have hsome : (d.ask env).2.file n = some f := Disk.file_last hd
  simp only [openAppend, hans, if_true, hsome, Option.isNone_some]
  exact ⟨trivial, rfl⟩

/-- A file that cannot be opened is not made. -/
theorem open_fails (hok : (env.answer d.requests).ok = false) :
    openAppend env n d = ({ good := false }, (d.ask env).2) := by
  have hans : (d.ask env).1.ok = false := hok
  simp only [openAppend, hans, Bool.false_eq_true, if_false]

/-- Opening is one request. -/
theorem requests_open : (openAppend env n d).2.requests = d.requests + 1 := by
  simp only [openAppend]
  split
  · show (if _ then _ else _ : Disk).requests = _
    split <;> rfl
  · rfl

end OFStream

namespace WriteAheadLog

/-! ## §3. States of the write path. -/

/-- `cur` is the current file with all that is on its way to it. -/
structure Writing (w : WriteAheadLog) (closed : List (Nat × File)) (f : File) (cur : Bytes) :
    Prop where
  isOpen : w.currentFile.file = some w.currentFileNumber
  entries : w.disk.files.entries = closed ++ [(w.currentFileNumber, f)]
  bytes : f.content ++ w.currentFile.pending ++ w.buffer = cur

/-- The state of the current file. -/
inductive Holds (w : WriteAheadLog) (closed : List (Nat × File)) (cur : Bytes) : Prop
  | writing (f : File) (h : Writing w closed f cur) (good : w.currentFile.good = true)
  /-- A request failed; the stream takes no more bytes. -/
  | broken (f : File) (isOpen : w.currentFile.file = some w.currentFileNumber)
      (entries : w.disk.files.entries = closed ++ [(w.currentFileNumber, f)])
      (bad : w.currentFile.good = false)
  /-- The file could not be opened. -/
  | absent (shut : w.currentFile.file = none) (bad : w.currentFile.good = false)
      (entries : w.disk.files.entries = closed) (last : ∀ e ∈ closed, e.1 ≤ w.currentFileNumber)
      (bytes : w.buffer = cur)

variable {env : Env} {w : WriteAheadLog} {closed : List (Nat × File)} {f : File} {cur : Bytes}

/-- A log that writes holds its bytes, whatever its stream is. -/
theorem Writing.holds (h : Writing w closed f cur) : Holds w closed cur := by
  cases hg : w.currentFile.good with
  | true => exact .writing f h hg
  | false => exact .broken f h.isOpen h.entries hg

/-- With a file open, `cur` has to be accounted for only while the stream is good. -/
theorem Holds.carried (hopen : w.currentFile.file = some w.currentFileNumber)
    (hentries : w.disk.files.entries = closed ++ [(w.currentFileNumber, f)])
    (hbytes : w.currentFile.good = true → f.content ++ w.currentFile.pending ++ w.buffer = cur) :
    Holds w closed cur := by
  cases hg : w.currentFile.good with
  | true => exact .writing f ⟨hopen, hentries, hbytes hg⟩ hg
  | false => exact .broken f hopen hentries hg

/-- Where the stream is good, there is a file and nothing is lost. -/
theorem Holds.good (h : Holds w closed cur) (hg : w.currentFile.good = true) :
    ∃ f, Writing w closed f cur := by
  cases h with
  | writing f h _ => exact ⟨f, h⟩
  | broken _ _ _ bad => exact absurd (hg.symm.trans bad) (by simp)
  | absent _ bad => exact absurd (hg.symm.trans bad) (by simp)

/-- An open file is the one of the current number. -/
theorem Holds.isOpen (h : Holds w closed cur) (hopen : w.currentFile.isOpen = true) :
    w.currentFile.file = some w.currentFileNumber := by
  cases h with
  | writing f h _ => exact h.isOpen
  | broken f isOpen _ _ => exact isOpen
  | absent shut => simp [OFStream.isOpen, shut] at hopen

/-- The open file is the last of the directory. -/
theorem Holds.entries (h : Holds w closed cur) (hopen : w.currentFile.isOpen = true) :
    ∃ f, w.disk.files.entries = closed ++ [(w.currentFileNumber, f)] := by
  cases h with
  | writing f h _ => exact ⟨f, h.entries⟩
  | broken f _ entries _ => exact ⟨f, entries⟩
  | absent shut => simp [OFStream.isOpen, shut] at hopen

/-- Requests that touch no file. -/
theorem Holds.asked (h : Holds w closed cur) {d : Disk} (hd : d.files = w.disk.files) :
    Holds { w with disk := d } closed cur := by
  have hentries : d.files.entries = w.disk.files.entries := congrArg Directory.entries hd
  cases h with
  | writing f h good => exact .writing f ⟨h.isOpen, hentries.trans h.entries, h.bytes⟩ good
  | broken f isOpen entries bad => exact .broken f isOpen (hentries.trans entries) bad
  | absent shut bad entries last bytes =>
      exact .absent shut bad (hentries.trans entries) last bytes

/-! ## §4. `FlushBuffer`. -/

@[simp] theorem flushBuffer_options : (w.flushBuffer env).options = w.options := by
  unfold flushBuffer
  split <;> rfl

@[simp] theorem flushBuffer_currentFileNumber :
    (w.flushBuffer env).currentFileNumber = w.currentFileNumber := by
  unfold flushBuffer
  split <;> rfl

@[simp] theorem flushBuffer_currentFileSize :
    (w.flushBuffer env).currentFileSize = w.currentFileSize := by
  unfold flushBuffer
  split <;> rfl

/-- An empty buffer is not written. -/
theorem flushBuffer_of_nil (h : w.buffer = []) : w.flushBuffer env = w := by
  simp [flushBuffer, h]

/-- Without a file the buffer stays. -/
theorem flushBuffer_of_shut (h : w.currentFile.file = none) : w.flushBuffer env = w := by
  simp [flushBuffer, OFStream.isOpen, h]

/-- With an open file and something in the buffer. -/
theorem flushBuffer_eq (h : w.currentFile.file = some w.currentFileNumber) (hb : w.buffer ≠ []) :
    w.flushBuffer env = { w with
      currentFile := (w.currentFile.write env w.buffer w.disk).1
      disk := (w.currentFile.write env w.buffer w.disk).2
      buffer := [] } := by
  have hlen : w.buffer.length > 0 := List.length_pos_iff.mpr hb
  simp [flushBuffer, OFStream.isOpen, h, hlen]

/-- Requests are numbered upwards. -/
theorem requests_le_flushBuffer : w.disk.requests ≤ (w.flushBuffer env).disk.requests := by
  unfold flushBuffer
  split
  · show _ ≤ (w.currentFile.write env w.buffer w.disk).2.requests
    unfold OFStream.write
    split
    · rw [OFStream.requests_deliver]
      exact Nat.le_succ _
    · exact Nat.le_refl _
  · exact Nat.le_refl _

/-- `FlushBuffer` opens and closes nothing. -/
theorem flushBuffer_isOpen : (w.flushBuffer env).currentFile.file = w.currentFile.file := by
  unfold flushBuffer
  split
  · show (w.currentFile.write env w.buffer w.disk).1.file = _
    unfold OFStream.write
    split <;> rfl
  · rfl

/-- Behind `FlushBuffer` the buffer is empty, even if the stream took nothing. -/
theorem flushBuffer_buffer (h : w.currentFile.file = some w.currentFileNumber) :
    (w.flushBuffer env).buffer = [] := by
  by_cases hb : w.buffer = []
  · rw [flushBuffer_of_nil hb, hb]
  · rw [flushBuffer_eq h hb]

/-- The stream stays good if the requests succeed. -/
theorem flushBuffer_good (h : w.currentFile.file = some w.currentFileNumber)
    (hg : w.currentFile.good = true)
    (hok : env.Ok w.disk.requests (w.flushBuffer env).disk.requests) :
    (w.flushBuffer env).currentFile.good = true := by
  by_cases hb : w.buffer = []
  · rw [flushBuffer_of_nil hb]
    exact hg
  · obtain ⟨hgood, hreq⟩ := OFStream.good_write env (d := w.disk) hg w.buffer
    rw [flushBuffer_eq h hb] at hok ⊢
    exact hgood.trans (hok _ (Nat.le_refl _) (hreq ▸ Nat.lt_succ_self _))

/-- **`FlushBuffer` moves bytes** and changes none, unless the stream breaks. -/
theorem Writing.flushBuffer (env : Env) (h : Writing w closed f cur)
    (hg : w.currentFile.good = true) : Holds (w.flushBuffer env) closed cur := by
  by_cases hb : w.buffer = []
  · rw [flushBuffer_of_nil hb]
    exact h.holds
  · obtain ⟨f', hc⟩ := OFStream.write_spec env h.isOpen hg h.entries w.buffer
    rw [flushBuffer_eq h.isOpen hb]
    refine .carried hc.file hc.entries (fun hgood => ?_)
    show f'.content ++ _ ++ [] = cur
    rw [List.append_nil, hc.bytes hgood, h.bytes]

/-- `FlushBuffer` in all three states. -/
theorem Holds.flushBuffer (env : Env) (h : Holds w closed cur) :
    Holds (w.flushBuffer env) closed cur := by
  cases h with
  | writing f h good => exact h.flushBuffer env good
  | broken f isOpen entries bad =>
      by_cases hb : w.buffer = []
      · rw [flushBuffer_of_nil hb]
        exact .broken f isOpen entries bad
      · rw [flushBuffer_eq isOpen hb, OFStream.write_bad bad]
        exact .broken f isOpen entries bad
  | absent shut bad entries last bytes =>
      rw [flushBuffer_of_shut shut]
      exact .absent shut bad entries last bytes

/-! ## §5. Records into the buffer. -/

/-- The log before a field is copied into the buffer. -/
def roomFor (env : Env) (w : WriteAheadLog) (bytes : Bytes) : WriteAheadLog :=
  if w.buffer.length + bytes.length > w.bufferCapacity then w.flushBuffer env else w

/-- Bytes at the end of the buffer. -/
def withBytes (w : WriteAheadLog) (bytes : Bytes) : WriteAheadLog :=
  { w with buffer := w.buffer ++ bytes }

/-- A field that is buffered is behind the bytes there were, with room made if it was
due. -/
theorem bufferField_eq {bytes : Bytes} {w' : WriteAheadLog}
    (h : w.bufferField env bytes = some w') : w' = (w.roomFor env bytes).withBytes bytes := by
  unfold bufferField at h
  rw [show (if w.buffer.length + bytes.length > w.bufferCapacity then w.flushBuffer env else w)
    = w.roomFor env bytes from rfl] at h
  cases bytes with
  | nil =>
      rw [withBytes, List.append_nil]
      exact (Option.some.inj h).symm
  | cons b bs =>
      simp only [List.isEmpty_cons, Bool.false_eq_true, if_false, copyToBuffer] at h
      split at h
      · exact (Option.some.inj h).symm
      · exact nomatch h

/-- A field no longer than the buffer fits once the file is open. -/
theorem bufferField_isSome (env : Env) (bytes : Bytes)
    (h : w.currentFile.file = some w.currentFileNumber) (hlen : bytes.length ≤ w.bufferCapacity) :
    (w.bufferField env bytes).isSome := by
  have hfits : (w.roomFor env bytes).buffer.length + bytes.length
      ≤ (w.roomFor env bytes).bufferCapacity := by
    unfold roomFor
    split
    · rw [flushBuffer_buffer h, bufferCapacity, flushBuffer_options, List.length_nil, Nat.zero_add]
      exact hlen
    next hroom => exact Nat.le_of_not_gt hroom
  unfold bufferField
  rw [show (if w.buffer.length + bytes.length > w.bufferCapacity then w.flushBuffer env else w)
    = w.roomFor env bytes from rfl]
  simp only [copyToBuffer, if_pos hfits]
  split <;> rfl

/-- Bytes in the buffer are on their way to the file. -/
theorem Holds.withBytes (h : Holds w closed cur) (bytes : Bytes) :
    Holds (w.withBytes bytes) closed (cur ++ bytes) := by
  cases h with
  | writing f h good =>
      refine .writing f ⟨h.isOpen, h.entries, ?_⟩ good
      show f.content ++ w.currentFile.pending ++ (w.buffer ++ bytes) = cur ++ bytes
      rw [← List.append_assoc, h.bytes]
  | broken f isOpen entries bad => exact .broken f isOpen entries bad
  | absent shut bad entries last bytes => exact .absent shut bad entries last (by rw [← bytes]; rfl)

/-- Making room loses nothing. -/
theorem Holds.roomFor (h : Holds w closed cur) (bytes : Bytes) :
    Holds (w.roomFor env bytes) closed cur := by
  unfold WriteAheadLog.roomFor
  split
  · exact h.flushBuffer env
  · exact h

/-- What appending to the current file leaves alone, and that it keeps the
stream good if its requests succeed. -/
structure Same (env : Env) (w w' : WriteAheadLog) : Prop where
  options : w'.options = w.options
  number : w'.currentFileNumber = w.currentFileNumber
  size : w'.currentFileSize = w.currentFileSize
  file : w'.currentFile.file = w.currentFile.file
  requests : w.disk.requests ≤ w'.disk.requests
  good : w.currentFile.file = some w.currentFileNumber → w.currentFile.good = true →
    env.Ok w.disk.requests w'.disk.requests → w'.currentFile.good = true

/-- Doing nothing. -/
theorem Same.refl (w : WriteAheadLog) : Same env w w :=
  ⟨rfl, rfl, rfl, rfl, Nat.le_refl _, fun _ hg _ => hg⟩

/-- One step after another. -/
theorem Same.trans {w' w'' : WriteAheadLog} (h : Same env w w') (h' : Same env w' w'') :
    Same env w w'' where
  options := h'.options.trans h.options
  number := h'.number.trans h.number
  size := h'.size.trans h.size
  file := h'.file.trans h.file
  requests := Nat.le_trans h.requests h'.requests
  good hf hg hok := h'.good (by rw [h.file, hf, h.number])
    (h.good hf hg (hok.mono (Nat.le_refl _) h'.requests)) (hok.mono h.requests (Nat.le_refl _))

/-- `FlushBuffer` appends to the current file. -/
theorem Same.flushBuffer (env : Env) (w : WriteAheadLog) : Same env w (w.flushBuffer env) :=
  ⟨flushBuffer_options, flushBuffer_currentFileNumber, flushBuffer_currentFileSize,
    flushBuffer_isOpen, requests_le_flushBuffer, flushBuffer_good⟩

/-- So does a field. -/
theorem Same.bufferField {bytes : Bytes} {w' : WriteAheadLog}
    (h : w.bufferField env bytes = some w') : Same env w w' := by
  have hroom : Same env w (w.roomFor env bytes) := by
    unfold WriteAheadLog.roomFor
    split
    · exact Same.flushBuffer env w
    · exact Same.refl w
  rw [bufferField_eq h]
  exact hroom.trans ⟨rfl, rfl, rfl, rfl, Nat.le_refl _, fun _ hg _ => hg⟩

/-- A field goes to the end of the current file. -/
theorem Holds.bufferField {bytes : Bytes} {w' : WriteAheadLog} (h : Holds w closed cur)
    (hrun : w.bufferField env bytes = some w') : Holds w' closed (cur ++ bytes) := by
  rw [bufferField_eq hrun]
  exact (h.roomFor bytes).withBytes bytes

/-- A record is its header, its key and its value. -/
theorem bufferRecord_split {r : WalRecord} {w' : WriteAheadLog}
    (h : w.bufferRecord env r = some w') : ∃ w₁ w₂, w.bufferField env r.header.encode = some w₁ ∧
      w₁.bufferField env r.key = some w₂ ∧ w₂.bufferField env r.value = some w' := by
  simp only [bufferRecord, Option.bind_eq_bind, Option.bind_eq_some_iff] at h
  obtain ⟨w₁, h₁, w₂, h₂, h₃⟩ := h
  exact ⟨w₁, w₂, h₁, h₂, h₃⟩

/-- **A record's bytes go to the end of the current file.** -/
theorem Holds.bufferRecord {r : WalRecord} {w' : WriteAheadLog} (h : Holds w closed cur)
    (hrun : w.bufferRecord env r = some w') : Holds w' closed (cur ++ r.encode) := by
  obtain ⟨w₁, w₂, h₁, h₂, h₃⟩ := bufferRecord_split hrun
  have := ((h.bufferField h₁).bufferField h₂).bufferField h₃
  rwa [List.append_assoc, List.append_assoc, ← List.append_assoc r.header.encode] at this

/-- A record appends to the current file. -/
theorem Same.bufferRecord {r : WalRecord} {w' : WriteAheadLog}
    (hrun : w.bufferRecord env r = some w') : Same env w w' := by
  obtain ⟨w₁, w₂, h₁, h₂, h₃⟩ := bufferRecord_split hrun
  exact ((Same.bufferField h₁).trans (Same.bufferField h₂)).trans (Same.bufferField h₃)

/-- A record whose parts are no longer than the buffer can be buffered. -/
theorem bufferRecord_isSome (env : Env) {r : WalRecord}
    (h : w.currentFile.file = some w.currentFileNumber) (hhead : kHeaderSize ≤ w.bufferCapacity)
    (hkey : r.key.length ≤ w.bufferCapacity)
    (hvalue : r.value.length ≤ w.bufferCapacity) : ∃ w', w.bufferRecord env r = some w' := by
  obtain ⟨w₁, h₁⟩ := Option.isSome_iff_exists.mp
    (bufferField_isSome env r.header.encode h hhead)
  have s₁ := Same.bufferField h₁
  have hopen₁ : w₁.currentFile.file = some w₁.currentFileNumber := by rw [s₁.file, h, s₁.number]
  have hcap₁ : w₁.bufferCapacity = w.bufferCapacity := by
    rw [bufferCapacity, s₁.options]
    rfl
  obtain ⟨w₂, h₂⟩ := Option.isSome_iff_exists.mp
    (bufferField_isSome env r.key hopen₁ (hcap₁ ▸ hkey))
  have s₂ := Same.bufferField h₂
  have hopen₂ : w₂.currentFile.file = some w₂.currentFileNumber := by
    rw [s₂.file, hopen₁, s₂.number]
  have hcap₂ : w₂.bufferCapacity = w.bufferCapacity := by
    rw [bufferCapacity, s₂.options]
    exact hcap₁
  obtain ⟨w₃, h₃⟩ := Option.isSome_iff_exists.mp
    (bufferField_isSome env r.value hopen₂ (hcap₂ ▸ hvalue))
  refine ⟨w₃, ?_⟩
  simp only [WriteAheadLog.bufferRecord, h₁, h₂, h₃, Option.bind_eq_bind, Option.bind_some]

end WriteAheadLog

end KvEngine
