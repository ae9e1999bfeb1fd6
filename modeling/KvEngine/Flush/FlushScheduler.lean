/-
  KvEngine.Flush.FlushScheduler
  ─────────────────────────────
  `FlushScheduler` and the memtables that report to it.

  A memtable reports its size as it grows, and the last size it reported is
  given back when it has been flushed.  The scheduler adds every report in
  full, also where the memtable was counted before: what a later report
  replaces stays in the total for good (`run_drift`), and `ShouldFlush` with it.

  Main results:
    * `step_drift` / `run_drift` — by how much the total is off;
    * `total_exact` — the runs in which it is the sum of the last reports.
-/
import KvEngine.Lib.Slots
import KvEngine.Lib.Steps
import Mathlib.Algebra.Group.Nat.Defs

namespace KvEngine

open Lib

/-! ## §1. The scheduler. -/

namespace FlushScheduler

structure Options where
  /-- What the floating-point product `max_write_buffer_size * flush_trigger_factor`
  is cut down to. -/
  flushThreshold : UInt64 := 107374182

end FlushScheduler

/-- The counters of `FlushScheduler`; they wrap. -/
structure FlushScheduler where
  options : FlushScheduler.Options
  currentMemtableSize : UInt64 := 0
  totalWriteBufferSize : UInt64 := 0
  activeMemtables : Int32 := 0
  pendingFlushes : Int32 := 0

namespace FlushScheduler

/-- `OnMemTableSizeChange`. -/
def onMemTableSizeChange (s : FlushScheduler) (newSize : UInt64) : FlushScheduler :=
  { s with
    currentMemtableSize := newSize
    totalWriteBufferSize := s.totalWriteBufferSize + newSize }

/-- `OnNewMemTable`. -/
def onNewMemTable (s : FlushScheduler) : FlushScheduler :=
  { s with activeMemtables := s.activeMemtables + 1 }

/-- `ShouldFlush`. -/
def shouldFlush (s : FlushScheduler) : Bool := s.totalWriteBufferSize ≥ s.options.flushThreshold

/-- `OnFlushComplete`. -/
def onFlushComplete (s : FlushScheduler) (flushedSize : UInt64) : FlushScheduler :=
  { s with
    totalWriteBufferSize := s.totalWriteBufferSize - flushedSize
    pendingFlushes := s.pendingFlushes - 1 }

/-! ## §2. Memtables. -/

/-- How far a memtable is. -/
inductive Lifetime where
  | created
  /-- The size it reported last. -/
  | reported (size : UInt64)
  | flushed
  deriving DecidableEq, Repr

/-- What the memtable is to count for. -/
def Lifetime.size : Lifetime → Nat
  | .reported size => size.toNat
  | _ => 0

/-- What happens to a memtable; memtables are numbered as they are created. -/
inductive Event where
  | newMemTable
  | sizeChange (memtable : Nat) (size : UInt64)
  | flushComplete (memtable : Nat)

/-- The scheduler and all memtables there ever were. -/
structure World where
  scheduler : FlushScheduler
  memtables : List Lifetime

/-- One event.  A memtable reports sizes that do not decrease, and is flushed
once, with the last size it reported; anything else is undefined. -/
def step (w : World) : Event → Option World
  | .newMemTable => some ⟨w.scheduler.onNewMemTable, w.memtables ++ [.created]⟩
  | .sizeChange i size =>
      match w.memtables[i]? with
      | some .created =>
          some ⟨w.scheduler.onMemTableSizeChange size, w.memtables.set i (.reported size)⟩
      | some (.reported last) =>
          if last ≤ size then
            some ⟨w.scheduler.onMemTableSizeChange size, w.memtables.set i (.reported size)⟩
          else none
      | _ => none
  | .flushComplete i =>
      match w.memtables[i]? with
      | some (.reported last) =>
          some ⟨w.scheduler.onFlushComplete last, w.memtables.set i .flushed⟩
      | _ => none

def run (options : Options) (events : List Event) : Option World :=
  steps step ⟨{ options }, []⟩ events

/-- The sum of the last reported sizes of the memtables not flushed yet. -/
def World.waiting (w : World) : Nat := total Lifetime.size w.memtables

/-! ## §3. By how much the total is off. -/

/-- The report before, which a report replaces. -/
def World.replaced (w : World) : Event → Nat
  | .sizeChange i _ => ((w.memtables[i]?).map Lifetime.size).getD 0
  | _ => 0

/-- The total less what it should be. -/
def World.drift (w : World) : UInt64 :=
  w.scheduler.totalWriteBufferSize - UInt64.ofNat w.waiting

variable {w w' : World} {e : Event} {options : Options}

/-- **What an event can be.** -/
theorem step_cases (h : step w e = some w') :
    (e = .newMemTable ∧ w' = ⟨w.scheduler.onNewMemTable, w.memtables ++ [.created]⟩) ∨
    (∃ i size m, e = .sizeChange i size ∧ w.memtables[i]? = some m ∧ m ≠ .flushed ∧
      m.size ≤ size.toNat ∧
      w' = ⟨w.scheduler.onMemTableSizeChange size, w.memtables.set i (.reported size)⟩) ∨
    (∃ i last, e = .flushComplete i ∧ w.memtables[i]? = some (.reported last) ∧
      w' = ⟨w.scheduler.onFlushComplete last, w.memtables.set i .flushed⟩) := by
  cases e with
  | newMemTable =>
      obtain rfl := Option.some.inj h
      exact Or.inl ⟨rfl, rfl⟩
  | sizeChange i size =>
      unfold step at h
      dsimp only at h
      split at h
      next hslot =>
        obtain rfl := Option.some.inj h
        exact Or.inr (Or.inl ⟨i, size, .created, rfl, hslot, by decide, Nat.zero_le _, rfl⟩)
      next last hslot =>
        split at h
        next hle =>
          obtain rfl := Option.some.inj h
          exact Or.inr (Or.inl ⟨i, size, .reported last, rfl, hslot, by simp,
            UInt64.le_iff_toNat_le.mp hle, rfl⟩)
        next => cases h
      next => cases h
  | flushComplete i =>
      unfold step at h
      dsimp only at h
      split at h
      next last hslot =>
        obtain rfl := Option.some.inj h
        exact Or.inr (Or.inr ⟨i, last, rfl, hslot, rfl⟩)
      next => cases h

/-- One memtable changes. -/
theorem waiting_set {i : Nat} {m : Lifetime} (h : w.memtables[i]? = some m) (m' : Lifetime)
    (s : FlushScheduler) :
    UInt64.ofNat (World.waiting ⟨s, w.memtables.set i m'⟩)
      = UInt64.ofNat w.waiting + UInt64.ofNat m'.size - UInt64.ofNat m.size := by
  have hset := congrArg UInt64.ofNat (total_set (g := Lifetime.size) h m')
  rw [UInt64.ofNat_add, UInt64.ofNat_add] at hset
  show UInt64.ofNat (total _ _) = UInt64.ofNat (total _ _) + _ - _
  rw [← hset, UInt64.add_sub_cancel]

/-- **One event**: a report that replaces another leaves that one in the total. -/
theorem step_drift (h : step w e = some w') :
    w'.drift = w.drift + UInt64.ofNat (w.replaced e) := by
  rcases step_cases h with ⟨rfl, rfl⟩ | ⟨i, size, m, rfl, hslot, -, -, rfl⟩
    | ⟨i, last, rfl, hslot, rfl⟩
  · -- a new memtable counts for nothing
    have hwaiting : World.waiting ⟨w.scheduler.onNewMemTable, w.memtables ++ [.created]⟩
        = w.waiting := by
      unfold World.waiting
      rw [total_append]
      rfl
    unfold World.drift
    rw [hwaiting]
    exact (UInt64.add_zero _).symm
  · have hreplaced : w.replaced (.sizeChange i size) = m.size := by
      show ((w.memtables[i]?).map Lifetime.size).getD 0 = m.size
      rw [hslot]
      rfl
    unfold World.drift
    rw [waiting_set hslot, hreplaced]
    show w.scheduler.totalWriteBufferSize + size
      - (UInt64.ofNat w.waiting + UInt64.ofNat size.toNat - UInt64.ofNat m.size) = _
    rw [UInt64.ofNat_toNat]
    grind
  · unfold World.drift
    rw [waiting_set hslot]
    show w.scheduler.totalWriteBufferSize - last
      - (UInt64.ofNat w.waiting + 0 - UInt64.ofNat last.toNat) = _ + 0
    rw [UInt64.ofNat_toNat]
    grind

/-- The sum of all reports replaced in a run. -/
def World.replacedAll (w : World) : List Event → Nat
  | [] => 0
  | e :: events => w.replaced e + ((step w e).map (fun w' => w'.replacedAll events)).getD 0

/-- **A run**: every report that was replaced is still in the total. -/
theorem run_drift {events : List Event} (h : steps step w events = some w') :
    w'.drift = w.drift + UInt64.ofNat (w.replacedAll events) := by
  induction events generalizing w with
  | nil =>
      obtain rfl := Option.some.inj h
      exact (UInt64.add_zero _).symm
  | cons e events ih =>
      rw [steps_cons] at h
      obtain ⟨w₁, hstep, hrest⟩ := Option.bind_eq_some_iff.mp h
      unfold World.replacedAll
      rw [hstep, ih hrest, step_drift hstep, UInt64.add_assoc, ← UInt64.ofNat_add]
      rfl

/-! ## §4. Where the total is right. -/

/-- The total is the sum of the last reports of the memtables not flushed yet.
Once all are flushed it is zero, and `ShouldFlush` is off unless it is on for
every total. -/
structure Counted (w : World) : Prop where
  total_eq : w.scheduler.totalWriteBufferSize = UInt64.ofNat w.waiting
  exact : w.waiting < 2 ^ 64 → w.scheduler.totalWriteBufferSize.toNat = w.waiting
  cleared : (∀ m ∈ w.memtables, m = .flushed) → w.scheduler.totalWriteBufferSize = 0 ∧
    (w.scheduler.shouldFlush = true → w.scheduler.options.flushThreshold = 0)

theorem counted_iff : Counted w ↔ w.drift = 0 := by
  unfold World.drift
  constructor
  · intro h
    rw [h.total_eq, UInt64.sub_self]
  · intro h
    have htotal : w.scheduler.totalWriteBufferSize = UInt64.ofNat w.waiting := by
      rw [← UInt64.sub_add_cancel w.scheduler.totalWriteBufferSize (UInt64.ofNat w.waiting), h,
        UInt64.zero_add]
    refine ⟨htotal, fun hfits => ?_, fun hall => ?_⟩
    · rw [htotal, UInt64.toNat_ofNat', Nat.mod_eq_of_lt hfits]
    · have hnone : w.waiting = 0 := by
        refine total_eq_zero_iff.mpr fun m hm => ?_
        rw [hall m hm]
        rfl
      have hzero : w.scheduler.totalWriteBufferSize = 0 := by rw [htotal, hnone]; rfl
      refine ⟨hzero, fun hon => ?_⟩
      unfold shouldFlush at hon
      rw [decide_eq_true_iff, hzero, ge_iff_le, UInt64.le_iff_toNat_le] at hon
      exact UInt64.toNat_inj.mp (Nat.le_zero.mp hon)

theorem replaced_lt (w : World) (e : Event) : w.replaced e < 2 ^ 64 := by
  have hsize : ∀ m : Lifetime, m.size < 2 ^ 64 := by
    rintro (_ | size | _)
    · decide
    · exact size.toNat_lt
    · decide
  cases e with
  | newMemTable => exact Nat.two_pow_pos 64
  | flushComplete i => exact Nat.two_pow_pos 64
  | sizeChange i size =>
      show ((w.memtables[i]?).map Lifetime.size).getD 0 < 2 ^ 64
      cases w.memtables[i]? with
      | none => decide
      | some m => exact hsize m

/-- **The runs whose total is right all along**: those in which no memtable
reports again once it has reported a size other than zero. -/
theorem total_exact (options : Options) (events : List Event) :
    (∀ before w, before <+: events → run options before = some w → Counted w) ↔
      ∀ before e w w', before ++ [e] <+: events → run options before = some w →
        step w e = some w' → w.replaced e = 0 := by
  constructor
  · intro h before e w w' hpre hrun hstep
    have hbefore := counted_iff.mp (h before w ((List.prefix_append _ _).trans hpre) hrun)
    have hafter := counted_iff.mp (h (before ++ [e]) w' hpre (by
      unfold run at hrun ⊢
      rw [steps_snoc, hrun]
      exact hstep))
    have hdrift := step_drift hstep
    rw [hbefore, hafter, UInt64.zero_add] at hdrift
    have hzero := congrArg UInt64.toNat hdrift
    rw [UInt64.toNat_ofNat', Nat.mod_eq_of_lt (replaced_lt w e)] at hzero
    exact hzero.symm
  · intro h before
    induction before using List.reverseRecOn with
    | nil =>
        intro w _ hrun
        obtain rfl := Option.some.inj hrun
        exact counted_iff.mpr (UInt64.sub_self 0)
    | append_singleton before e ih =>
        intro w' hpre hrun
        unfold run at hrun
        rw [steps_snoc] at hrun
        obtain ⟨w, hrun, hstep⟩ := Option.bind_eq_some_iff.mp hrun
        have hbefore := counted_iff.mp (ih w ((List.prefix_append _ _).trans hpre) hrun)
        rw [counted_iff, step_drift hstep, hbefore, h before e w w' hpre hrun hstep]
        rfl

/-- One memtable reports twice and is flushed: `ShouldFlush` stays on with none
left. -/
theorem total_exact_twice :
    ∃ w, run {} [.newMemTable, .sizeChange 0 107374182, .sizeChange 0 107374183,
        .flushComplete 0] = some w ∧ w.memtables = [.flushed] ∧
      w.scheduler.totalWriteBufferSize = 107374182 ∧ w.scheduler.shouldFlush = true ∧
      ¬ Counted w := by
  refine ⟨_, rfl, rfl, rfl, rfl, fun h => ?_⟩
  have hzero := (h.cleared (by decide)).1
  exact absurd hzero (by decide)

end FlushScheduler

end KvEngine
