/-
  KvEngine.Engine.Refusal
  ───────────────────────
  `Put` and `Delete` by their status.

  There are two reasons not to change the map.  The log refuses the record, or
  the `Sync` behind it fails: `refusal` is the status of that.  Or there is
  nothing to delete.  In every other case the call returns OK and the map has
  changed, but where the log has no room for the record and the call has no
  answer at all.
-/
import KvEngine.Engine.Atomicity
import KvEngine.Engine.Stored

namespace KvEngine

open Lib

namespace KVEngine

/-- The status by which the log refuses a record, or the `Sync` behind it fails. -/
def refusal (env : Env) (e : KVEngine)
    (log : WriteAheadLog → UInt64 → Option (Status × WriteAheadLog)) : Option Status := do
  let w ← e.wal
  let (s, w) ← log w e.sequenceNumber
  if !s.ok then some s
  else if !(e.syncLog env w).1.ok then some (e.syncLog env w).1
  else none

def putRefusal (env : Env) (e : KVEngine) (key value : Bytes) : Option Status :=
  e.refusal env (fun w seq => w.put env key value seq)

def deleteRefusal (env : Env) (e : KVEngine) (key : Bytes) : Option Status :=
  e.refusal env (fun w seq => w.delete env key seq)

variable {env : Env} {o : BTreeOptions} {e e' : KVEngine} {m : RefMap}

/-- An engine without a log refuses nothing. -/
theorem refusal_no_log (hwal : e.wal = none)
    (log : WriteAheadLog → UInt64 → Option (Status × WriteAheadLog)) :
    e.refusal env log = none := by
  rw [refusal, hwal]
  rfl

theorem refusal_of_log {w w' : WriteAheadLog} {s : Status}
    {log : WriteAheadLog → UInt64 → Option (Status × WriteAheadLog)} (hwal : e.wal = some w)
    (hlog : log w e.sequenceNumber = some (s, w')) :
    e.refusal env log = if !s.ok then some s
      else if !(e.syncLog env w').1.ok then some (e.syncLog env w').1 else none := by
  unfold refusal
  simp only [hwal, hlog, Option.bind_eq_bind, Option.bind_some]

/-- **`Put` and `Delete` change the tree, or return the refusal and leave it**, but
where the log has no room for the record. -/
theorem logged_total (env : Env)
    (log : WriteAheadLog → UInt64 → Option (Status × WriteAheadLog))
    (change : BPlusTree → Option (Status × BPlusTree)) {s₂ : Status} {t : BPlusTree}
    (hchange : change e.tree = some (s₂, t)) :
    ((∃ w, e.wal = some w ∧ log w e.sequenceNumber = none) ∧ e.logged env log change = none) ∨
      ∃ s e', e.logged env log change = some (s, e') ∧
        (e.refusal env log = some s ∧ s.ok = false ∧ e'.tree = e.tree ∨
          e.refusal env log = none ∧ s = s₂ ∧ e'.tree = t) := by
  cases hwal : e.wal with
  | none =>
      refine Or.inr ⟨s₂, { e with sequenceNumber := e.sequenceNumber + 1, tree := t }, ?_,
        Or.inr ⟨refusal_no_log hwal log, rfl, rfl⟩⟩
      unfold logged
      simp only [hwal, hchange, Option.bind_eq_bind, Option.bind_some]
  | some w =>
      cases hlog : log w e.sequenceNumber with
      | none =>
          refine Or.inl ⟨⟨w, rfl, hlog⟩, ?_⟩
          unfold logged
          simp only [hwal, hlog, Option.bind_eq_bind, Option.bind_none]
      | some r =>
          obtain ⟨s, w'⟩ := r
          refine Or.inr ?_
          rw [Thread.logged_of_log hwal hlog, hchange, refusal_of_log hwal hlog]
          cases hs : s.ok with
          | false => exact ⟨_, _, rfl, Or.inl ⟨rfl, hs, rfl⟩⟩
          | true =>
              cases hsync : (e.syncLog env w').1.ok with
              | false => exact ⟨_, _, rfl, Or.inl ⟨rfl, hsync, rfl⟩⟩
              | true => exact ⟨_, _, rfl, Or.inr ⟨rfl, rfl, rfl⟩⟩

/-- **`Put` by its status.** -/
theorem put_total (env : Env) (h : BPlusTree.Models o e.tree m) {key : Bytes} (hkey : key ≠ [])
    (value : Bytes) :
    ((∃ w, e.wal = some w ∧ w.put env key value e.sequenceNumber = none) ∧
        e.put env key value = none) ∨
      ∃ s e', e.put env key value = some (s, e') ∧
        (e.putRefusal env key value = some s ∧ s.ok = false ∧ e'.mapOf = m ∨
          e.putRefusal env key value = none ∧ s = .okStatus ∧
            e'.mapOf = Function.update m key (some value)) := by
  obtain ⟨t, hput, ht⟩ := h.put hkey value
  rcases logged_total env (fun w seq => w.put env key value seq) (·.put key value) hput with
    hfull | ⟨s, e', hrun, ⟨hrefusal, hs, htree⟩ | ⟨hrefusal, hs, htree⟩⟩
  · exact Or.inl hfull
  · exact Or.inr ⟨s, e', hrun, Or.inl ⟨hrefusal, hs, mapOf_eq (htree ▸ h)⟩⟩
  · exact Or.inr ⟨s, e', hrun, Or.inr ⟨hrefusal, hs, mapOf_eq (htree ▸ ht)⟩⟩

/-- **`Delete` by its status**: refused, nothing to delete, or done. -/
theorem delete_total (env : Env) (h : BPlusTree.Models o e.tree m) (key : Bytes) :
    ((∃ w, e.wal = some w ∧ w.delete env key e.sequenceNumber = none) ∧
        e.delete env key = none) ∨
      ∃ s e', e.delete env key = some (s, e') ∧
        (e.deleteRefusal env key = some s ∧ s.ok = false ∧ e'.mapOf = m ∨
          e.deleteRefusal env key = none ∧ m key = none ∧ s = .notFound "Key not found" ∧
            e'.mapOf = m ∨
          e.deleteRefusal env key = none ∧ m key ≠ none ∧ s = .okStatus ∧
            e'.mapOf = Function.update m key none) := by
  rcases h.delete key with ⟨hm, hdelete⟩ | ⟨hm, t, hdelete, ht⟩
  · rcases logged_total env (fun w seq => w.delete env key seq) (·.delete key) hdelete with
      hfull | ⟨s, e', hrun, ⟨hrefusal, hs, htree⟩ | ⟨hrefusal, hs, htree⟩⟩
    · exact Or.inl hfull
    · exact Or.inr ⟨s, e', hrun, Or.inl ⟨hrefusal, hs, mapOf_eq (htree ▸ h)⟩⟩
    · exact Or.inr ⟨s, e', hrun, Or.inr (Or.inl ⟨hrefusal, hm, hs, mapOf_eq (htree ▸ h)⟩)⟩
  · rcases logged_total env (fun w seq => w.delete env key seq) (·.delete key) hdelete with
      hfull | ⟨s, e', hrun, ⟨hrefusal, hs, htree⟩ | ⟨hrefusal, hs, htree⟩⟩
    · exact Or.inl hfull
    · exact Or.inr ⟨s, e', hrun, Or.inl ⟨hrefusal, hs, mapOf_eq (htree ▸ h)⟩⟩
    · exact Or.inr ⟨s, e', hrun, Or.inr (Or.inr ⟨hrefusal, hm, hs, mapOf_eq (htree ▸ ht)⟩)⟩

end KVEngine

end KvEngine
