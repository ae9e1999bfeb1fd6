/-
  KvEngine.Flush.Waiting
  ──────────────────────
  What `WaitForFlushes` and `FlushAll` guarantee.

  The predicate of the wait reads the queue, then `active_flushes`.  A flush
  thread pops a job and counts itself in two steps, so a job between the two
  is in neither, and the wait may return before its callback has run.  Any
  other job from before the wait has left the queue when the queue is read
  empty, and is counted until its callback is behind it.

  Main results:
    * `settled_or_popped` — where a job is when both reads let the wait go;
    * `Awaits.step` — what a waiter knows, one step at a time;
    * `waits_settle` — the runs in which every wait keeps its promise.
-/
import KvEngine.Flush.Places
import KvEngine.MemTable.Reference

namespace KvEngine

open Lib

namespace FlushManager

namespace System

/-- `ScheduleFlush`, call `c`, has returned OK. -/
def Scheduled (s : System) (c : Nat) : Prop :=
  ∃ status, s.calls[c]? = some (.returned status) ∧ status.ok = true

/-- The callback of call `c` has run, or was not given. -/
def Settled (s : System) (c : Nat) : Prop := ∃ notice ∈ s.notices, notice.call = c

/-- In a run, whenever a wait has returned, every job scheduled before the
wait was called is settled. -/
def WaitsSettle (options : Options) (actions : List Action) : Prop :=
  ∀ before via between after s₁ s₂ answer,
    actions = before ++ .wait via :: between ++ after →
    System.run { options } before = some s₁ →
    s₁.run (.wait via :: between) = some s₂ →
    s₂.waits[s₁.waits.length]? = some (.returned answer) →
    ∀ c, s₁.Scheduled c → s₂.Settled c

/-- In a run, whenever a waiter reads that no flush is active, no thread
stands between popping and counting a job scheduled before the wait. -/
def PopsCounted (options : Options) (actions : List Action) : Prop :=
  ∀ before via between after s₁ s₂ via',
    actions = before ++ .wait via :: between ++ .waiter s₁.waits.length :: after →
    System.run { options } before = some s₁ →
    s₁.run (.wait via :: between) = some s₂ →
    s₂.waits[s₁.waits.length]? = some (.sawEmpty via') → s₂.activeFlushes = 0 →
    ∀ job, Worker.popped job ∈ s₂.flushThreads → ¬ s₁.Scheduled job.call

variable {s t : System} {place : Nat → Place} {c : Nat}

/-! ## §1. Places. -/

theorem Ok.place_of_scheduled (h : s.Ok place) (hc : s.Scheduled c) : 0 < (place c).rank := by
  obtain ⟨status, hcall, hok⟩ := hc
  have hcount : 1 - s.accepted c = _ := h.count c .outside
  rw [accepted_of_call hcall, show (Scheduler.returned status).accepted = 1 from if_pos hok]
    at hcount
  cases hplace : place c with
  | outside =>
      rw [hplace, if_pos rfl] at hcount
      cases hcount
  | _ => decide

theorem Ok.settled_iff (h : s.Ok place) : s.Settled c ↔ place c = .settled := by
  have hcount : total (Notice.isFrom c) s.notices = _ := h.count c .settled
  constructor
  · rintro ⟨notice, hmem, hcall⟩
    have hle := le_total (g := Notice.isFrom c) hmem
    rw [hcount, show notice.isFrom c = 1 from if_pos hcall] at hle
    by_contra hne
    rw [if_neg hne] at hle
    cases hle
  · intro hplace
    rw [if_pos hplace] at hcount
    obtain ⟨notice, hmem, hpos⟩ :=
      exists_of_total_pos (g := Notice.isFrom c) (l := s.notices) (by omega)
    refine ⟨notice, hmem, ?_⟩
    by_contra hne
    rw [show notice.isFrom c = 0 from if_neg hne] at hpos
    cases hpos

theorem Ok.place_of_popped (h : s.Ok place) {job : FlushJob}
    (hjob : Worker.popped job ∈ s.flushThreads) : place job.call = .held := by
  have hcount : total (Worker.holds job.call) s.flushThreads = _ := h.count job.call .held
  have hle := le_total (g := Worker.holds job.call) hjob
  rw [hcount, show (Worker.popped job).holds job.call = 1 from if_pos rfl] at hle
  by_contra hne
  rw [if_neg hne] at hle
  cases hle

/-- **When both reads let the wait go**, a job that has left the queue is
settled, or popped and not counted. -/
theorem Ok.settled_or_popped (h : s.Ok place) (hactive : s.activeFlushes = 0)
    (hleft : 2 ≤ (place c).rank) :
    place c = .settled ∨ ∃ job, Worker.popped job ∈ s.flushThreads ∧ job.call = c := by
  cases hplace : place c with
  | outside => rw [hplace] at hleft; cases hleft
  | queued => rw [hplace] at hleft; exact absurd hleft (by decide)
  | settled => exact Or.inl rfl
  | held =>
      have hcount : total (Worker.holds c) s.flushThreads = _ := h.count c .held
      rw [if_pos hplace] at hcount
      obtain ⟨x, hx, hpos⟩ :=
        exists_of_total_pos (g := Worker.holds c) (l := s.flushThreads) (by omega)
      have hnone : total Worker.counted s.flushThreads = 0 := by
        have := h.active
        omega
      have hcounted := total_eq_zero_iff.mp hnone x hx
      -- of the threads that hold a job, only one is not counted
      cases x with
      | popped job =>
          refine Or.inr ⟨job, hx, ?_⟩
          by_contra hne
          rw [show (Worker.popped job).holds c = 0 from if_neg hne] at hpos
          cases hpos
      | flushing job => cases hcounted
      | flushed job outcome => cases hcounted
      | _ => cases hpos

/-! ## §2. What a waiter knows. -/

theorem schedulerStep_waits {x y : Scheduler} (h : s.schedulerStep c x = some (t, y)) :
    t.waits = s.waits := by
  cases x with
  | entered memtable callback =>
      unfold schedulerStep at h
      dsimp only at h
      split at h <;> exact congrArg (fun r => r.1.waits) (Option.some.inj h).symm
  | returned status => cases h
  | _ => exact congrArg (fun r => r.1.waits) (Option.some.inj h).symm

theorem workerStep_waits {x y : Worker} (h : s.workerStep x = some (t, y)) :
    t.waits = s.waits := by
  cases x with
  | waiting =>
      unfold workerStep at h
      dsimp only at h
      split at h
      · exact congrArg (fun r => r.1.waits) (Option.some.inj h).symm
      · obtain ⟨-, h⟩ := Option.ite_none_right_eq_some.mp h
        exact congrArg (fun r => r.1.waits) (Option.some.inj h).symm
  | notifying =>
      obtain ⟨-, h⟩ := Option.ite_none_right_eq_some.mp h
      exact congrArg (fun r => r.1.waits) (Option.some.inj h).symm
  | flushing job => cases h
  | exited => cases h
  | _ => exact congrArg (fun r => r.1.waits) (Option.some.inj h).symm

/-- No step but its own moves a waiter. -/
theorem waits_of_step {a : Action} (hstep : s.step a = some t) {w : Nat} {x : Waiter}
    (hx : s.waits[w]? = some x) : t.waits[w]? = some x ∨ a = .waiter w := by
  cases a with
  | start =>
      obtain rfl := Option.some.inj hstep
      split <;> exact Or.inl hx
  | spawn =>
      obtain rfl := step_spawn hstep
      exact Or.inl hx
  | stop =>
      obtain rfl := Option.some.inj hstep
      split <;> exact Or.inl hx
  | join =>
      obtain ⟨-, rfl⟩ := step_join hstep
      exact Or.inl hx
  | scheduleFlush memtable callback =>
      obtain rfl := Option.some.inj hstep
      exact Or.inl hx
  -- the other parties do not write the list of waiters
  | scheduler c =>
      obtain ⟨_, u, y, -, hmove, rfl⟩ := step_scheduler hstep
      exact Or.inl ((congrArg (·[w]?) (schedulerStep_waits hmove)).trans hx)
  | worker i =>
      obtain ⟨_, u, y, -, hmove, rfl⟩ := step_worker hstep
      exact Or.inl ((congrArg (·[w]?) (workerStep_waits hmove)).trans hx)
  | flush i setting =>
      obtain ⟨job, outcome, -, -, rfl⟩ := step_flush hstep
      exact Or.inl hx
  | wait via =>
      obtain rfl := Option.some.inj hstep
      exact Or.inl ((List.getElem?_append_left (List.getElem?_eq_some_iff.mp hx).1).trans hx)
  | waiter v =>
      by_cases hv : v = w
      · exact Or.inr (congrArg _ hv)
      · obtain ⟨_, u, y, hother, hmove, rfl⟩ := step_waiter hstep
        obtain ⟨⟨m, rfl⟩, -, -⟩ := waiterStep_cases hmove
        refine Or.inl ?_
        show (s.waits.set v y)[w]? = some x
        rw [getElem_set hother, if_neg (fun h => hv h.symm), hx]

/-- What waiter `w` knows of the jobs in `jobs`. -/
structure Awaits (jobs : Nat → Prop) (w : Nat) (s : System) (place : Nat → Place) : Prop where
  present : ∃ x, s.waits[w]? = some x
  accepted : ∀ c, jobs c → 1 ≤ (place c).rank
  /-- It has read the queue empty: they have left the queue. -/
  left : ∀ via, s.waits[w]? = some (.sawEmpty via) → ∀ c, jobs c → 2 ≤ (place c).rank
  done : ∀ answer, s.waits[w]? = some (.returned answer) → ∀ c, jobs c → 3 ≤ (place c).rank

/-- **One step** of any thread, where the waiter does not return past a job
that is popped and not counted. -/
theorem Awaits.step {jobs : Nat → Prop} {w : Nat} {place' : Nat → Place} {a : Action}
    (h : Awaits jobs w s place) (hok : s.Ok place) (hok' : t.Ok place')
    (hforward : Forward place place') (hstep : s.step a = some t)
    (hpops : a = .waiter w → ∀ via, s.waits[w]? = some (.sawEmpty via) → s.activeFlushes = 0 →
      ∀ job, Worker.popped job ∈ s.flushThreads → ¬ jobs job.call) :
    Awaits jobs w t place' := by
  have hmono : ∀ {k c}, k ≤ (place c).rank → k ≤ (place' c).rank :=
    fun hk => Nat.le_trans hk (hforward _)
  obtain ⟨x, hx⟩ := h.present
  rcases waits_of_step hstep hx with hsame | rfl
  -- another thread
  · rw [← hx] at hsame
    exact ⟨⟨x, hsame.trans hx⟩, fun c hc => hmono (h.accepted c hc),
      fun via hvia c hc => hmono (h.left via (hsame.symm.trans hvia) c hc),
      fun answer hdone c hc => hmono (h.done answer (hsame.symm.trans hdone) c hc)⟩
  · obtain ⟨x', u, y, hx', hmove, rfl⟩ := step_waiter hstep
    obtain rfl := Option.some.inj (hx.symm.trans hx')
    have hown : (u.waits.set w y)[w]? = some y := by
      obtain ⟨⟨m, rfl⟩, -, -⟩ := waiterStep_cases hmove
      exact (getElem_set hx y w).trans (if_pos rfl)
    refine ⟨⟨y, hown⟩, fun c hc => hmono (h.accepted c hc), fun via hvia c hc => ?_,
      fun answer hdone c hc => ?_⟩
    -- the queue has been read
    · obtain rfl := Option.some.inj (hown.symm.trans hvia)
      obtain ⟨⟨m, rfl⟩, hempty, -⟩ := waiterStep_cases hmove
      have hcount : total (FlushJob.isFrom c) s.flushQueue = _ := hok.count c .queued
      rw [hempty via rfl, total_nil] at hcount
      have haccepted := h.accepted c hc
      refine hmono ?_
      cases hplace : place c with
      | outside => rw [hplace] at haccepted; cases haccepted
      | queued => rw [hplace, if_pos rfl] at hcount; cases hcount
      | _ => decide
    -- the counter has been read
    · obtain rfl := Option.some.inj (hown.symm.trans hdone)
      obtain ⟨-, -, hreturn⟩ := waiterStep_cases hmove
      obtain ⟨via, rfl, hzero⟩ := hreturn answer rfl
      refine hmono ?_
      rcases hok.settled_or_popped hzero (h.left via hx c hc) with hsettled | ⟨job, hjob, rfl⟩
      · rw [hsettled]
        decide
      -- popped and not counted: what the condition rules out
      · exact absurd hc (hpops rfl via hx hzero job hjob)

/-- A wait that is called knows the jobs scheduled by then. -/
theorem awaits_call (h : s.Ok place) (via : WaitCall) :
    Awaits s.Scheduled s.waits.length { s with waits := s.waits ++ [.locking via] } place := by
  have hown : (s.waits ++ [Waiter.locking via])[s.waits.length]? = some (.locking via) :=
    List.getElem?_concat_length
  refine ⟨⟨_, hown⟩, fun c hc => h.place_of_scheduled hc, ?_, ?_⟩
  · intro via' hsaw
    cases hown.symm.trans hsaw
  · intro answer hdone
    cases hown.symm.trans hdone

/-! ## §3. Runs. -/

/-- **The rest of the run** after a wait is called. -/
theorem awaits_of_run {options : Options} {actions : List Action}
    (hpops : PopsCounted options actions) {before : List Action} {via : WaitCall} {s₁ : System}
    (hbefore : System.run { options } before = some s₁) {between : List Action} :
    ∀ {after : List Action} {s₂ : System}, actions = before ++ .wait via :: between ++ after →
      s₁.run (.wait via :: between) = some s₂ →
      ∃ place, s₂.Ok place ∧ Awaits s₁.Scheduled s₁.waits.length s₂ place := by
  -- on the run after the call, last step first
  induction between using List.reverseRecOn with
  | nil =>
      intro after s₂ _ hrun
      obtain ⟨place, hok⟩ := run_ok hbefore
      obtain rfl := Option.some.inj hrun
      exact ⟨place, ⟨hok.active, hok.numbered, hok.count⟩, awaits_call hok via⟩
  | append_singleton between a ih =>
      intro after s₂ hactions hrun
      rw [← List.cons_append] at hrun
      obtain ⟨s, hs, hstep⟩ := Option.bind_eq_some_iff.mp ((steps_snoc _ _ _).symm.trans hrun)
      have hactions' : actions = before ++ .wait via :: between ++ a :: after := by
        rw [hactions]
        simp only [List.append_assoc, List.cons_append, List.nil_append]
      obtain ⟨place, hok, hawaits⟩ := ih hactions' hs
      obtain ⟨place', hok', hforward⟩ := hok.step hstep
      refine ⟨place', hok', hawaits.step hok hok' hforward hstep ?_⟩
      rintro rfl via' hsaw hzero
      exact hpops before via between after s₁ s via' hactions' hbefore hs hsaw hzero

/-- **Which runs keep the promise of the wait**: those in which no waiter
reads the counter as zero while a thread stands between popping a job from
before the wait and counting itself. -/
theorem waits_settle (options : Options) (actions : List Action) :
    WaitsSettle options actions ↔ PopsCounted options actions := by
  constructor
  · intro h before via between after s₁ s₂ via' hactions hbefore hrun hsaw hzero job hjob hc
    obtain ⟨place₁, hok₁⟩ := run_ok hbefore
    obtain ⟨place, hok, -⟩ := hok₁.run hrun
    -- the waiter returns with its next step, and the job is still held
    have hstep : s₂.step (.waiter s₁.waits.length) = some { s₂ with
        waitMutex := none, waits := s₂.waits.set s₁.waits.length (.returned via'.answer) } := by
      unfold System.step
      simp only [hsaw]
      show (s₂.waiterStep s₁.waits.length (.sawEmpty via')).bind _ = _
      unfold waiterStep
      simp only [hzero, if_true]
      rfl
    have hend : s₁.run (.wait via :: (between ++ [.waiter s₁.waits.length]))
        = s₂.step (.waiter s₁.waits.length) := by
      unfold System.run at hrun ⊢
      rw [← List.cons_append, steps_snoc, hrun]
      rfl
    have hsettled := h before via (between ++ [Action.waiter s₁.waits.length]) after s₁ _
      via'.answer
      (by rw [hactions]; simp only [List.append_assoc, List.cons_append, List.nil_append])
      hbefore (hend.trans hstep) ((getElem_set hsaw _ _).trans (if_pos rfl)) job.call hc
    have hplace := (hok.settled_iff (c := job.call)).mp hsettled
    cases hplace.symm.trans (hok.place_of_popped hjob)
  · intro h before via between after s₁ s₂ answer hactions hbefore hrun hreturned c hc
    obtain ⟨place, hok, hawaits⟩ := awaits_of_run h hbefore hactions hrun
    have hrank := hawaits.done answer hreturned c hc
    refine hok.settled_iff.mpr ?_
    cases hplace : place c with
    | settled => rfl
    | _ => rw [hplace] at hrank; exact absurd hrank (by decide)

/-- A job pushed and popped before the wait is called, which then returns
before the thread has counted itself. -/
theorem waits_settle_popped :
    ∃ t, MemTable.run {} [.put [97] [120] 1 []] = .ok t ∧
      ¬ WaitsSettle {} [.start, .spawn, .scheduleFlush (some t) true, .scheduler 0, .scheduler 0,
        .scheduler 0, .scheduler 0, .worker 0, .wait .waitForFlushes, .waiter 0, .waiter 0,
        .waiter 0] := by
  refine ⟨_, rfl, fun h => ?_⟩
  obtain ⟨notice, hmem, -⟩ := h [.start, .spawn, .scheduleFlush _ true, .scheduler 0, .scheduler 0,
    .scheduler 0, .scheduler 0, .worker 0] .waitForFlushes [.waiter 0, .waiter 0, .waiter 0] []
    _ _ none rfl rfl rfl rfl 0 ⟨.okStatus, rfl, rfl⟩
  cases hmem

end System

end FlushManager

end KvEngine
