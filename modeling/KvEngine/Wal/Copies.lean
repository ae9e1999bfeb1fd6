/-
  KvEngine.Wal.Copies
  ───────────────────
  **Which copies end inside the write buffer.**

  `WriteRecord` makes room by flushing, and copies whether or not the flush
  made enough.  A field longer than the whole buffer is therefore copied past
  its end, and so is whatever no longer fits while no file is open, when
  `FlushBuffer` does nothing.  `CopiesFit` is the condition on the log and the
  record under which neither happens; a run is defined (every copy in it ends
  inside the buffer) if and only if each of its records meets it.
-/
import KvEngine.Wal.Ledger

namespace KvEngine

open Lib

namespace WriteAheadLog

variable {env : Env} {w w' : WriteAheadLog} {bytes : Bytes} {r : WalRecord}

/-! ## §1. One field. -/

theorem copyToBuffer_isSome :
    (w.copyToBuffer bytes).isSome ↔ w.buffer.length + bytes.length ≤ w.bufferCapacity := by
  unfold copyToBuffer
  split <;> simp_all

/-- A copied field is no longer than the buffer, and ends inside it. -/
theorem bufferField_inside (h : w.bufferField env bytes = some w') :
    bytes.length ≤ w.bufferCapacity ∧ (bytes ≠ [] → w'.buffer.length ≤ w.bufferCapacity) := by
  have hcap : (w.roomFor env bytes).bufferCapacity = w.bufferCapacity := by
    unfold roomFor
    split
    · rw [bufferCapacity, flushBuffer_options]
      rfl
    · rfl
  unfold bufferField at h
  rw [show (if w.buffer.length + bytes.length > w.bufferCapacity then w.flushBuffer env else w)
    = w.roomFor env bytes from rfl] at h
  cases bytes with
  | nil => exact ⟨Nat.zero_le _, fun hne => absurd rfl hne⟩
  | cons x bytes =>
      simp only [List.isEmpty_cons, Bool.false_eq_true, if_false] at h
      have hroom := copyToBuffer_isSome.mp (Option.isSome_of_mem h)
      rw [hcap] at hroom
      rw [copyToBuffer, if_pos (hcap ▸ hroom)] at h
      obtain rfl := Option.some.inj h
      refine ⟨Nat.le_trans (Nat.le_add_left _ _) hroom, fun _ => ?_⟩
      rw [List.length_append]
      exact hroom

/-- Where there is room, nothing is flushed. -/
theorem bufferField_room (env : Env) (h : w.buffer.length + bytes.length ≤ w.bufferCapacity) :
    w.bufferField env bytes = some (w.withBytes bytes) := by
  unfold bufferField
  rw [if_neg (Nat.not_lt.mpr h)]
  cases bytes with
  | nil =>
      rw [withBytes, List.append_nil]
      rfl
  | cons x bytes =>
      simp only [List.isEmpty_cons, Bool.false_eq_true, if_false, copyToBuffer, if_pos h]
      rfl

/-- With no open file nothing can be flushed. -/
theorem bufferField_shut (hshut : w.currentFile.file = none)
    (h : w.bufferField env bytes = some w') : w'.buffer = w.buffer ++ bytes := by
  rw [bufferField_eq h, roomFor, flushBuffer_of_shut hshut, ite_self]
  rfl

/-! ## §2. One record. -/

/-- The copies of a record of these sizes fit: each field into the whole buffer
while a file is open, or all of them behind what the buffer holds. -/
def RoomFor (w : WriteAheadLog) (key value : Bytes) : Prop :=
  (w.currentFile.isOpen = true ∧ kHeaderSize ≤ w.bufferCapacity ∧
      key.length ≤ w.bufferCapacity ∧ value.length ≤ w.bufferCapacity) ∨
    w.buffer.length + (kHeaderSize + key.length + value.length) ≤ w.bufferCapacity

instance (w : WriteAheadLog) (key value : Bytes) : Decidable (w.RoomFor key value) :=
  inferInstanceAs (Decidable (_ ∨ _))

/-- The three copies of a record share the end of the buffer. -/
theorem bufferRecord_shut (hshut : w.currentFile.file = none)
    (h : w.bufferRecord env r = some w') :
    w.buffer.length + (kHeaderSize + r.key.length + r.value.length) ≤ w.bufferCapacity := by
  obtain ⟨w₁, w₂, h₁, h₂, h₃⟩ := bufferRecord_split h
  have s₁ := Same.bufferField h₁
  have s₂ := Same.bufferField h₂
  have hcap₁ : w₁.bufferCapacity = w.bufferCapacity := by rw [bufferCapacity, s₁.options]; rfl
  have hcap₂ : w₂.bufferCapacity = w.bufferCapacity := by
    rw [bufferCapacity, s₂.options]
    exact hcap₁
  have hshut₁ : w₁.currentFile.file = none := s₁.file.trans hshut
  have hshut₂ : w₂.currentFile.file = none := s₂.file.trans hshut₁
  have hlen₁ : w₁.buffer.length = w.buffer.length + kHeaderSize := by
    rw [bufferField_shut hshut h₁, List.length_append, length_encode_header]
  have hlen₂ : w₂.buffer.length = w₁.buffer.length + r.key.length := by
    rw [bufferField_shut hshut₁ h₂, List.length_append]
  have hlen₃ : w'.buffer.length = w₂.buffer.length + r.value.length := by
    rw [bufferField_shut hshut₂ h₃, List.length_append]
  -- The header is never empty, so its copy bounds the buffer; the others keep the bound.
  have hin₁ : w₁.buffer.length ≤ w.bufferCapacity := by
    refine (bufferField_inside h₁).2 (List.ne_nil_of_length_pos ?_)
    rw [length_encode_header]
    decide
  have hin₂ : w₂.buffer.length ≤ w.bufferCapacity := by
    by_cases hkey : r.key = []
    · rw [hlen₂, hkey]
      exact hin₁
    · exact hcap₁ ▸ (bufferField_inside h₂).2 hkey
  have hin₃ : w'.buffer.length ≤ w.bufferCapacity := by
    by_cases hvalue : r.value = []
    · rw [hlen₃, hvalue]
      exact hin₂
    · exact hcap₂ ▸ (bufferField_inside h₃).2 hvalue
  omega

theorem bufferRecord_room (env : Env)
    (h : w.buffer.length + (kHeaderSize + r.key.length + r.value.length) ≤ w.bufferCapacity) :
    (w.bufferRecord env r).isSome := by
  have hhead : r.header.encode.length = kHeaderSize := length_encode_header _
  have h₁ : w.bufferField env r.header.encode = some (w.withBytes r.header.encode) :=
    bufferField_room env (by omega)
  have hlen₁ : (w.withBytes r.header.encode).buffer.length = w.buffer.length + kHeaderSize := by
    rw [withBytes, List.length_append, hhead]
  have h₂ : (w.withBytes r.header.encode).bufferField env r.key
      = some ((w.withBytes r.header.encode).withBytes r.key) :=
    bufferField_room env (show _ ≤ w.bufferCapacity by omega)
  have hlen₂ : ((w.withBytes r.header.encode).withBytes r.key).buffer.length
      = w.buffer.length + kHeaderSize + r.key.length := by
    rw [withBytes, List.length_append, hlen₁]
  have h₃ : ((w.withBytes r.header.encode).withBytes r.key).bufferField env r.value
      = some (((w.withBytes r.header.encode).withBytes r.key).withBytes r.value) :=
    bufferField_room env (show _ ≤ w.bufferCapacity by omega)
  simp only [bufferRecord, h₁, h₂, h₃, Option.bind_eq_bind, Option.bind_some, Option.isSome_some]

/-- **A record is copied inside the buffer** if and only if there is room. -/
theorem bufferRecord_isSome_iff (hfile : w.currentFile.isOpen = true →
      w.currentFile.file = some w.currentFileNumber) :
    (w.bufferRecord env r).isSome ↔ w.RoomFor r.key r.value := by
  constructor
  · intro h
    obtain ⟨w', hw'⟩ := Option.isSome_iff_exists.mp h
    cases hopen : w.currentFile.isOpen with
    | true =>
        obtain ⟨w₁, w₂, h₁, h₂, h₃⟩ := bufferRecord_split hw'
        have hcap₁ : w₁.bufferCapacity = w.bufferCapacity := by
          rw [bufferCapacity, (Same.bufferField h₁).options]
          rfl
        have hcap₂ : w₂.bufferCapacity = w.bufferCapacity := by
          rw [bufferCapacity, (Same.bufferField h₂).options]
          exact hcap₁
        refine Or.inl ⟨hopen, ?_, hcap₁ ▸ (bufferField_inside h₂).1,
          hcap₂ ▸ (bufferField_inside h₃).1⟩
        rw [← length_encode_header r.header]
        exact (bufferField_inside h₁).1
    | false =>
        exact Or.inr (bufferRecord_shut (by simpa [OFStream.isOpen] using hopen) hw')
  · rintro (⟨hopen, hhead, hkey, hvalue⟩ | hroom)
    · exact Option.isSome_iff_exists.mpr (bufferRecord_isSome env (hfile hopen) hhead hkey hvalue)
    · exact bufferRecord_room env hroom

/-! ## §3. A call, and runs. -/

theorem writeRecord_isSome_iff {options : WalOptions} (h : Tracked options w)
    {type : WalRecordType} {key value : Bytes} {seq : UInt64} :
    (w.writeRecord env type key value seq).isSome ↔
      (key.length ≤ uint32Max → value.length ≤ uint32Max →
        (w.rotated env key value).RoomFor key value) := by
  by_cases hlarge : key.length > uint32Max ∨ value.length > uint32Max
  · rw [writeRecord_large hlarge]
    exact iff_of_true rfl (fun hk hv => absurd hlarge (by omega))
  · obtain ⟨-, closed, cur, hw⟩ := h.rotated env key value
    have hask : Holds { w.rotated env key value with
        disk := ((w.rotated env key value).disk.ask env).2 } closed cur := hw.asked rfl
    have hrecord := @bufferRecord_isSome_iff env _
      ((w.rotated env key value).nextRecord env type key value seq) hask.isOpen
    rw [writeRecord_eq hlarge, Option.isSome_map, appendRecord, Option.isSome_map, hrecord]
    exact ⟨fun hroom _ _ => hroom, fun hroom => hroom (by omega) (by omega)⟩

end WriteAheadLog

/-- A call whose copies end inside the buffer: the record is refused for its
size, or there is room for it once any rotation is done. -/
def WalOp.CopiesFit (env : Env) (w : WriteAheadLog) : WalOp → Prop
  | .write _ key value _ =>
      key.length ≤ WriteAheadLog.uint32Max → value.length ≤ WriteAheadLog.uint32Max →
        (w.rotated env key value).RoomFor key value
  | _ => True

namespace WriteAheadLog

variable {env : Env} {w : WriteAheadLog}

theorem apply_isSome_iff {options : WalOptions} (h : Tracked options w) (op : WalOp) :
    (w.apply env op).isSome ↔ op.CopiesFit env w := by
  cases op with
  | write type key value seq => exact writeRecord_isSome_iff h
  | rotate => exact iff_of_true rfl trivial
  | flush => exact iff_of_true rfl trivial
  | sync => exact iff_of_true rfl trivial

/-- **Every copy of a run ends inside the buffer** if and only if each call
finds the log in a state with room for it; whatever the options, the directory
and the answers of the operating system. -/
theorem copies_inside (env : Env) (options : WalOptions) (d : Disk) (ops : List WalOp) :
    (run? (WriteAheadLog.apply env) (new env options d) ops).isSome ↔
      ∀ before op after outs w, ops = before ++ op :: after →
        run? (WriteAheadLog.apply env) (new env options d) before = some (outs, w) →
        op.CopiesFit env w :=
  run?_isSome_iff (fun _ _ h => apply_isSome_iff h _) (fun _ _ _ _ h hrun => h.apply hrun)
    (tracked_new env options d)

theorem RoomFor.value {key value : Bytes} (h : w.RoomFor key value) :
    value.length ≤ w.bufferCapacity := by
  rcases h with ⟨-, -, -, hvalue⟩ | hroom
  · exact hvalue
  · omega

/-- A value of 4 MiB and one byte, and the default buffer of 4 MiB. -/
theorem copies_inside_value : ¬ ∀ (env : Env) (options : WalOptions) (d : Disk)
    (ops : List WalOp),
    (∀ op ∈ ops, ∃ type key value seq, op = .write type key value seq ∧
      key.length ≤ uint32Max ∧ value.length ≤ uint32Max) →
    (run? (WriteAheadLog.apply env) (new env options d) ops).isSome := by
  intro hall
  obtain ⟨value, hlen⟩ : ∃ value : Bytes, value.length = 4 * 1024 * 1024 + 1 :=
    ⟨List.replicate (4 * 1024 * 1024 + 1) 0, List.length_replicate⟩
  have hmax : value.length ≤ uint32Max := hlen ▸ by decide
  have hrun := hall Env.undisturbed {} {} [.write .kPut [1] value 1] (by
    intro op hop
    exact ⟨_, _, _, _, List.mem_singleton.mp hop, by decide, hmax⟩)
  obtain ⟨⟨outs, w'⟩, hrun⟩ := Option.isSome_iff_exists.mp hrun
  obtain ⟨out, w₁, -, hcall, -⟩ := run?_cons.mp hrun
  have hnew := tracked_new Env.undisturbed {} {}
  have hroom := ((writeRecord_isSome_iff hnew).mp (Option.isSome_of_mem hcall) (by decide)
    hmax).value
  have hcap : ((new Env.undisturbed {} {}).rotated Env.undisturbed [1] value).bufferCapacity
      = 4 * 1024 * 1024 := by
    rw [bufferCapacity, (hnew.rotated Env.undisturbed [1] value).options]
    rfl
  omega

end WriteAheadLog

end KvEngine
