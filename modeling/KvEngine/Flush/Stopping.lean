/-
  KvEngine.Flush.Stopping
  ───────────────────────
  What becomes of the jobs given to a flush manager, up to and after `Stop`.

  Main results:
    * `callbacks_once` — a call of `ScheduleFlush` is called back at most
      once, and with what flushing its own memtable gave;
    * `stop_drains` — when `Stop` has returned, all that was scheduled before
      it is settled, if there was a flush thread;
    * `stop_returns` — the threads that `Stop` joins come to their end, unless
      a flush gets its file open.
-/
import KvEngine.Flush.Handing
import KvEngine.Flush.Waiting

namespace KvEngine

open Lib

namespace FlushManager

namespace System

/-! ## §1. What each call asked for. -/

/-- The arguments of a `ScheduleFlush` call, if the action is one. -/
def Action.asks : Action → List (Option MemTable × Bool)
  | .scheduleFlush memtable callback => [(memtable, callback)]
  | _ => []

/-- The arguments of all of them, in the order of the calls. -/
def asked (actions : List Action) : List (Option MemTable × Bool) := actions.flatMap Action.asks

/-- The job was made of what its call asked for. -/
def IsFor (asked : List (Option MemTable × Bool)) (job : FlushJob) : Prop :=
  asked[job.call]? = some (some job.memtable, job.callback) ∧
    scheduleFlush true (some job.memtable) = .queued job.memtable

/-- The notice tells what became of the memtable, flushed in some setting. -/
def Tells (options : Options) (memtable : Option MemTable) (notice : Notice) : Prop :=
  ∃ setting outcome, FlushManager.flush options true setting memtable = .ok outcome ∧
    notice.result = outcome.result ∧ notice.status = outcome.status

/-- What call `c` has in hand. -/
def Holds (asked : List (Option MemTable × Bool)) (c : Nat) : Scheduler → Prop
  | .entered memtable callback => asked[c]? = some (memtable, callback)
  | .admitted t callback => asked[c]? = some (some t, callback) ∧
      scheduleFlush true (some t) = .queued t
  | .numbered job => IsFor asked job
  | _ => True

/-- What a flush thread has in hand. -/
def Carries (options : Options) (asked : List (Option MemTable × Bool)) : Worker → Prop
  | .popped job | .flushing job => IsFor asked job
  | .flushed job outcome => IsFor asked job ∧
      ∃ setting, performFlush options setting (some job.memtable) = .ok outcome
  | _ => True

/-- Every job, wherever it is, is that of its call. -/
structure Faithful (options : Options) (asked : List (Option MemTable × Bool)) (s : System) :
    Prop where
  same : s.options = options
  length : s.calls.length = asked.length
  calls : ∀ c x, s.calls[c]? = some x → Holds asked c x
  queue : ∀ job ∈ s.flushQueue, IsFor asked job
  threads : ∀ x ∈ s.flushThreads, Carries options asked x
  notices : ∀ notice ∈ s.notices, ∃ memtable,
    asked[notice.call]? = some (memtable, notice.given) ∧ Tells options memtable notice

variable {options : Options} {calls rest : List (Option MemTable × Bool)} {s t : System}

theorem getElem?_more {c : Nat} {p : Option MemTable × Bool} (h : calls[c]? = some p) :
    (calls ++ rest)[c]? = some p := by
  rw [List.getElem?_append_left (List.getElem?_eq_some_iff.mp h).1]
  exact h

theorem IsFor.more {job : FlushJob} (h : IsFor calls job) : IsFor (calls ++ rest) job :=
  ⟨getElem?_more h.1, h.2⟩

theorem Holds.more {c : Nat} {x : Scheduler} (h : Holds calls c x) : Holds (calls ++ rest) c x := by
  cases x with
  | entered _ _ => exact getElem?_more h
  | admitted _ _ => exact ⟨getElem?_more h.1, h.2⟩
  | numbered _ => exact IsFor.more h
  | pushed | returned _ => trivial

theorem Carries.more {x : Worker} (h : Carries options calls x) :
    Carries options (calls ++ rest) x := by
  cases x with
  | popped _ | flushing _ => exact IsFor.more h
  | flushed _ _ => exact ⟨h.1.more, h.2⟩
  | waiting | calledBack | notifying | exited => trivial

/-- A call is added to what was asked. -/
theorem Faithful.enter (h : Faithful options calls s) (memtable : Option MemTable)
    (callback : Bool) : Faithful options (calls ++ [(memtable, callback)])
      { s with calls := s.calls ++ [.entered memtable callback] } where
  same := h.same
  length := by simp only [List.length_append, h.length, List.length_cons, List.length_nil]
  calls c x hx := by
    rcases getElem_concat s.calls (.entered memtable callback) c with hsame | ⟨hold, hnew⟩
    · exact (h.calls c x (hsame.symm.trans hx)).more
    · -- the new call is the next one
      obtain rfl := Option.some.inj (hnew.symm.trans hx)
      have hlt := (List.getElem?_eq_some_iff.mp hnew).1
      rw [List.length_append, List.length_cons, List.length_nil] at hlt
      have hle := List.getElem?_eq_none_iff.mp hold
      obtain rfl : c = calls.length := by
        have := h.length
        omega
      exact List.getElem?_concat_length
  queue job hjob := (h.queue job hjob).more
  threads x hx := (h.threads x hx).more
  notices notice hnotice := by
    obtain ⟨m, hm, htells⟩ := h.notices notice hnotice
    exact ⟨m, getElem?_more hm, htells⟩

theorem status_queued {running : Bool} {memtable : Option MemTable} {m : MemTable}
    (h : scheduleFlush running memtable = .queued m) :
    memtable = some m ∧ scheduleFlush true (some m) = .queued m := by
  cases running with
  | false => cases h
  | true =>
      cases memtable with
      | none => cases h
      | some t =>
          have hm : t = m := by
            unfold scheduleFlush at h
            simp only [Bool.not_true, Bool.false_eq_true, if_false] at h
            split at h
            · cases h
            · exact Admission.queued.inj h
          subst hm
          exact ⟨rfl, h⟩

theorem status_skipped {running : Bool} {memtable : Option MemTable}
    (h : scheduleFlush running memtable = .skipped) :
    scheduleFlush true memtable = .skipped := by
  cases running with
  | false => cases h
  | true => exact h

/-- **A step of `ScheduleFlush`.** -/
theorem Faithful.scheduler (h : Faithful options calls s) {c : Nat}
    (hstep : s.step (.scheduler c) = some t) : Faithful options calls t := by
  obtain ⟨x, u, y, hx, hstep, rfl⟩ := step_scheduler hstep
  have hold := h.calls c x hx
  have hset : ∀ y, Holds calls c y →
      ∀ d z, (s.calls.set c y)[d]? = some z → Holds calls d z := by
    intro y hy d z hz
    rcases set_cases hz with ⟨rfl, rfl⟩ | ⟨-, hz⟩
    · exact hy
    · exact h.calls d z hz
  have hlength : ∀ y, (s.calls.set c y).length = calls.length := by
    intro y
    rw [List.length_set]
    exact h.length
  cases x with
  | entered memtable callback =>
      unfold schedulerStep at hstep
      cases hadmission : scheduleFlush s.running memtable with
      | refused status =>
          simp only [hadmission] at hstep
          obtain ⟨rfl, rfl⟩ := Prod.mk.inj (Option.some.inj hstep)
          exact ⟨h.same, hlength _, hset _ trivial, h.queue, h.threads, h.notices⟩
      | skipped =>
          simp only [hadmission] at hstep
          obtain ⟨rfl, rfl⟩ := Prod.mk.inj (Option.some.inj hstep)
          refine ⟨h.same, hlength _, hset _ trivial, h.queue, h.threads, fun n hn => ?_⟩
          rcases List.mem_append.mp hn with hn | hn
          · exact h.notices n hn
          · obtain rfl := List.mem_singleton.mp hn
            refine ⟨memtable, hold, ⟨0, 0, fun _ => {}⟩, { status := .okStatus }, ?_, rfl, rfl⟩
            unfold FlushManager.flush
            rw [status_skipped hadmission]
      | queued m =>
          simp only [hadmission] at hstep
          obtain ⟨rfl, rfl⟩ := Prod.mk.inj (Option.some.inj hstep)
          obtain ⟨rfl, hm⟩ := status_queued hadmission
          exact ⟨h.same, hlength _, hset _ ⟨hold, hm⟩, h.queue, h.threads, h.notices⟩
  | admitted m callback =>
      obtain ⟨rfl, rfl⟩ := Prod.mk.inj (Option.some.inj hstep)
      exact ⟨h.same, hlength _, hset _ hold, h.queue, h.threads, h.notices⟩
  | numbered job =>
      obtain ⟨rfl, rfl⟩ := Prod.mk.inj (Option.some.inj hstep)
      refine ⟨h.same, hlength _, hset _ trivial, fun j hj => ?_, h.threads, h.notices⟩
      rcases List.mem_append.mp hj with hj | hj
      · exact h.queue j hj
      · obtain rfl := List.mem_singleton.mp hj
        exact hold
  | pushed =>
      obtain ⟨rfl, rfl⟩ := Prod.mk.inj (Option.some.inj hstep)
      exact ⟨h.same, hlength _, hset _ trivial, h.queue, h.threads, h.notices⟩
  | returned status => cases hstep

/-- **A step of a flush thread**, the flush itself apart. -/
theorem Faithful.worker (h : Faithful options calls s) {i : Nat}
    (hstep : s.step (.worker i) = some t) : Faithful options calls t := by
  obtain ⟨x, u, y, hx, hstep, rfl⟩ := step_worker hstep
  have hold := h.threads x (List.mem_of_getElem? hx)
  have hset : ∀ y, Carries options calls y →
      ∀ z ∈ s.flushThreads.set i y, Carries options calls z := by
    intro y hy z hz
    rcases List.mem_or_eq_of_mem_set hz with hz | rfl
    · exact h.threads z hz
    · exact hy
  cases x with
  | waiting =>
      unfold workerStep at hstep
      cases hqueue : s.flushQueue with
      | nil =>
          simp only [hqueue] at hstep
          split at hstep
          · obtain ⟨rfl, rfl⟩ := Prod.mk.inj (Option.some.inj hstep)
            exact ⟨h.same, h.length, h.calls, h.queue, hset _ trivial, h.notices⟩
          · cases hstep
      | cons job queue =>
          simp only [hqueue] at hstep
          obtain ⟨rfl, rfl⟩ := Prod.mk.inj (Option.some.inj hstep)
          have hjob : ∀ j ∈ job :: queue, IsFor calls j := hqueue ▸ h.queue
          exact ⟨h.same, h.length, h.calls, fun j hj => hjob j (List.mem_cons_of_mem _ hj),
            hset _ (hjob job List.mem_cons_self), h.notices⟩
  | popped job =>
      obtain ⟨rfl, rfl⟩ := Prod.mk.inj (Option.some.inj hstep)
      exact ⟨h.same, h.length, h.calls, h.queue, hset _ hold, h.notices⟩
  | flushing job => cases hstep
  | flushed job outcome =>
      obtain ⟨rfl, rfl⟩ := Prod.mk.inj (Option.some.inj hstep)
      refine ⟨h.same, h.length, h.calls, h.queue, hset _ trivial, fun n hn => ?_⟩
      rcases List.mem_append.mp hn with hn | hn
      · exact h.notices n hn
      · obtain rfl := List.mem_singleton.mp hn
        obtain ⟨⟨hasked, hqueued⟩, setting, hrun⟩ := hold
        refine ⟨some job.memtable, hasked, setting, outcome, ?_, rfl, rfl⟩
        unfold FlushManager.flush
        rw [hqueued]
        exact hrun
  | calledBack =>
      obtain ⟨rfl, rfl⟩ := Prod.mk.inj (Option.some.inj hstep)
      exact ⟨h.same, h.length, h.calls, h.queue, hset _ trivial, h.notices⟩
  | notifying =>
      unfold workerStep at hstep
      dsimp only at hstep
      split at hstep
      · obtain ⟨rfl, rfl⟩ := Prod.mk.inj (Option.some.inj hstep)
        exact ⟨h.same, h.length, h.calls, h.queue, hset _ trivial, h.notices⟩
      · cases hstep
  | exited => cases hstep

/-- **Every step** keeps every job that of its call. -/
theorem Faithful.step (h : Faithful options calls s) {a : Action} (hstep : s.step a = some t) :
    Faithful options (calls ++ a.asks) t := by
  cases a with
  | scheduleFlush memtable callback =>
      obtain rfl := Option.some.inj hstep
      exact h.enter memtable callback
  | scheduler c =>
      rw [show (Action.scheduler c).asks = [] from rfl, List.append_nil]
      exact h.scheduler hstep
  | worker i =>
      rw [show (Action.worker i).asks = [] from rfl, List.append_nil]
      exact h.worker hstep
  | flush i setting =>
      rw [show (Action.flush i setting).asks = [] from rfl, List.append_nil]
      obtain ⟨job, outcome, hx, hrun, rfl⟩ := step_flush hstep
      refine ⟨h.same, h.length, h.calls, h.queue, fun z hz => ?_, h.notices⟩
      rcases List.mem_or_eq_of_mem_set hz with hz | rfl
      · exact h.threads z hz
      · exact ⟨h.threads _ (List.mem_of_getElem? hx), setting, h.same ▸ hrun⟩
  | start =>
      rw [show Action.start.asks = [] from rfl, List.append_nil]
      obtain rfl := Option.some.inj hstep
      split
      · exact h
      · exact ⟨h.same, h.length, h.calls, h.queue, h.threads, h.notices⟩
  | spawn =>
      rw [show Action.spawn.asks = [] from rfl, List.append_nil]
      obtain rfl := step_spawn hstep
      refine ⟨h.same, h.length, h.calls, h.queue, fun z hz => ?_, h.notices⟩
      rcases List.mem_append.mp hz with hz | hz
      · exact h.threads z hz
      · obtain rfl := List.mem_singleton.mp hz
        trivial
  | stop =>
      rw [show Action.stop.asks = [] from rfl, List.append_nil]
      obtain rfl := Option.some.inj hstep
      split
      · exact ⟨h.same, h.length, h.calls, h.queue, h.threads, h.notices⟩
      · exact h
  | join =>
      rw [show Action.join.asks = [] from rfl, List.append_nil]
      obtain ⟨-, rfl⟩ := step_join hstep
      exact ⟨h.same, h.length, h.calls, h.queue, fun z hz => absurd hz List.not_mem_nil, h.notices⟩
  | wait via =>
      rw [show (Action.wait via).asks = [] from rfl, List.append_nil]
      obtain rfl := Option.some.inj hstep
      exact ⟨h.same, h.length, h.calls, h.queue, h.threads, h.notices⟩
  | waiter w =>
      rw [show (Action.waiter w).asks = [] from rfl, List.append_nil]
      obtain ⟨x, u, y, hx, hmove, rfl⟩ := step_waiter hstep
      obtain ⟨⟨m, rfl⟩, -, -⟩ := waiterStep_cases hmove
      exact ⟨h.same, h.length, h.calls, h.queue, h.threads, h.notices⟩

theorem run_faithful : ∀ {actions : List Action} {calls : List (Option MemTable × Bool)}
    {s t : System}, Faithful options calls s → s.run actions = some t →
      Faithful options (calls ++ asked actions) t := by
  intro actions
  induction actions with
  | nil =>
      intro calls s t h hrun
      obtain rfl := Option.some.inj hrun
      rw [show asked [] = [] from rfl, List.append_nil]
      exact h
  | cons a actions ih =>
      intro calls s t h hrun
      obtain ⟨u, hstep, hrest⟩ := Option.bind_eq_some_iff.mp hrun
      rw [show asked (a :: actions) = a.asks ++ asked actions from rfl, ← List.append_assoc]
      exact ih (h.step hstep) hrest

theorem faithful_initial (options : Options) : Faithful options [] { options } where
  same := rfl
  length := rfl
  calls c x h := by cases h
  queue job h := by cases h
  threads x h := by cases h
  notices n h := by cases h

/-- A call has at most one notice. -/
theorem Ok.notice_once {place : Nat → Place} (h : s.Ok place) {i j : Nat} {n n' : Notice}
    (hi : s.notices[i]? = some n) (hj : s.notices[j]? = some n') (hcall : n.call = n'.call) :
    i = j := by
  by_contra hij
  have htwo := le_total_two (g := Notice.isFrom n.call) hi hj hij
  have hcount : total (Notice.isFrom n.call) s.notices = _ := h.count n.call .settled
  rw [hcount, show n.isFrom n.call = 1 from if_pos rfl,
    show n'.isFrom n.call = 1 from if_pos hcall.symm] at htwo
  split at htwo
  · omega
  · omega

/-- **A call of `ScheduleFlush` is called back at most once**, as it asked to
be, and with what flushing the memtable it gave came to: no job is flushed
twice, or answered with the result of another. -/
theorem callbacks_once (options : Options) (actions : List Action) (s : System)
    (hrun : System.run { options } actions = some s) :
    (∀ (i j : Nat) (n n' : Notice), s.notices[i]? = some n → s.notices[j]? = some n' →
        n.call = n'.call → i = j) ∧
      ∀ n ∈ s.notices, ∃ memtable,
        (asked actions)[n.call]? = some (memtable, n.given) ∧ Tells options memtable n := by
  obtain ⟨place, hok⟩ := run_ok hrun
  have hfaithful := run_faithful (faithful_initial options) hrun
  rw [List.nil_append] at hfaithful
  exact ⟨fun _ _ _ _ hi hj hcall => hok.notice_once hi hj hcall, hfaithful.notices⟩

/-- One thread, and one memtable scheduled. -/
def oneScheduled (t : MemTable) : List Action :=
  [.start, .spawn, .scheduleFlush (some t) true, .scheduler 0, .scheduler 0, .scheduler 0,
    .scheduler 0]

/-- The thread flushes it, where the file cannot be opened, and finds the queue empty. -/
def oneFlushed : List Action :=
  [.worker 0, .worker 0, .flush 0 ⟨0, 1000, fun _ => { ok := false }⟩, .worker 0, .worker 0,
    .worker 0, .worker 0]

theorem oneScheduled_runs : ∃ t s₁ s₂, MemTable.run {} [.put [97] [120] 1 []] = .ok t ∧
    System.run { options := {} } (oneScheduled t) = some s₁ ∧
    s₁.run (.stop :: oneFlushed ++ [.join]) = some s₂ ∧
    s₁.stopping = false ∧ s₁.running = true ∧ s₁.flushThreads ≠ [] ∧ s₁.Scheduled 0 := by
  refine ⟨_, _, Option.get _ ?_, rfl, rfl, (Option.some_get _).symm, rfl, rfl, nofun,
    ⟨.okStatus, rfl, rfl⟩⟩
  decide +kernel

theorem callbacks_once_one : ∃ t s, MemTable.run {} [.put [97] [120] 1 []] = .ok t ∧
    System.run { options := {} } (oneScheduled t ++ .stop :: oneFlushed) = some s ∧
    (∀ (i j : Nat) (n n' : Notice), s.notices[i]? = some n → s.notices[j]? = some n' →
        n.call = n'.call → i = j) ∧
      ∀ n ∈ s.notices, ∃ memtable,
        (asked (oneScheduled t ++ .stop :: oneFlushed))[n.call]? = some (memtable, n.given) ∧
          Tells {} memtable n := by
  obtain ⟨t, s₁, s₂, ht, hbefore, hstop, -⟩ := oneScheduled_runs
  obtain ⟨s, hrun, -⟩ := Option.bind_eq_some_iff.mp ((steps_snoc _ _ _).symm.trans hstop)
  have hall : System.run { options := {} } (oneScheduled t ++ .stop :: oneFlushed) = some s := by
    rw [System.run, steps_append]
    exact Option.bind_eq_some_iff.mpr ⟨s₁, hbefore, hrun⟩
  exact ⟨t, s, ht, hall, callbacks_once {} _ s hall⟩

/-! ## §2. `Stop`. -/

/-- A thread has ended only if the manager is stopping; without threads it may
run or not. -/
structure Stands (s : System) : Prop where
  ended : Worker.exited ∈ s.flushThreads → s.stopping = true
  running : s.flushThreads ≠ [] → s.running = true

theorem stands_initial (options : Options) : Stands { options } where
  ended h := by cases h
  running h := absurd rfl h

/-- What a step of a flush thread does to the flags and the threads. -/
theorem worker_frame {i : Nat} (hstep : s.step (.worker i) = some t) :
    t.running = s.running ∧ t.stopping = s.stopping ∧ ∃ x y, s.flushThreads[i]? = some x ∧
      t.flushThreads = s.flushThreads.set i y ∧
      (y = .exited → x = .waiting ∧ s.stopping = true ∧ s.flushQueue = [] ∧ t.flushQueue = []) := by
  obtain ⟨x, u, y, hx, hstep, rfl⟩ := step_worker hstep
  cases x with
  | waiting =>
      unfold workerStep at hstep
      cases hqueue : s.flushQueue with
      | nil =>
          simp only [hqueue] at hstep
          split at hstep
          next hstop =>
            obtain ⟨rfl, rfl⟩ := Prod.mk.inj (Option.some.inj hstep)
            exact ⟨rfl, rfl, _, _, hx, rfl, fun _ => ⟨rfl, hstop, rfl, hqueue⟩⟩
          next => cases hstep
      | cons job queue =>
          simp only [hqueue] at hstep
          obtain ⟨rfl, rfl⟩ := Prod.mk.inj (Option.some.inj hstep)
          exact ⟨rfl, rfl, _, _, hx, rfl, nofun⟩
  | popped job | flushed job outcome | calledBack =>
      obtain ⟨rfl, rfl⟩ := Prod.mk.inj (Option.some.inj hstep)
      exact ⟨rfl, rfl, _, _, hx, rfl, nofun⟩
  | notifying =>
      unfold workerStep at hstep
      dsimp only at hstep
      split at hstep
      · obtain ⟨rfl, rfl⟩ := Prod.mk.inj (Option.some.inj hstep)
        exact ⟨rfl, rfl, _, _, hx, rfl, nofun⟩
      · cases hstep
  | flushing job => cases hstep
  | exited => cases hstep

/-- What a step of a call does to them: nothing. -/
theorem scheduler_frame {c : Nat} (hstep : s.step (.scheduler c) = some t) :
    t.running = s.running ∧ t.stopping = s.stopping ∧ t.flushThreads = s.flushThreads := by
  obtain ⟨x, u, y, hx, hstep, rfl⟩ := step_scheduler hstep
  cases x with
  | entered memtable callback =>
      unfold schedulerStep at hstep
      dsimp only at hstep
      split at hstep
      all_goals
        obtain ⟨rfl, rfl⟩ := Prod.mk.inj (Option.some.inj hstep)
        exact ⟨rfl, rfl, rfl⟩
  | admitted _ _ | numbered _ | pushed =>
      obtain ⟨rfl, rfl⟩ := Prod.mk.inj (Option.some.inj hstep)
      exact ⟨rfl, rfl, rfl⟩
  | returned status => cases hstep

theorem ne_nil_of_set {α : Type} {l : List α} {i : Nat} {a : α} (h : l.set i a ≠ []) : l ≠ [] := by
  rintro rfl
  exact h rfl

theorem Stands.step (h : s.Stands) {a : Action} (hstep : s.step a = some t) : t.Stands := by
  cases a with
  | start =>
      obtain rfl := Option.some.inj hstep
      split
      · exact h
      next hrun =>
        -- a manager that does not run has no threads
        have hnone : s.flushThreads = [] := by
          by_contra hne
          exact hrun (h.running hne)
        refine ⟨fun hx => ?_, fun _ => rfl⟩
        rw [hnone] at hx
        cases hx
  | spawn =>
      have hrun := (Option.ite_none_right_eq_some.mp hstep).1.1
      obtain rfl := step_spawn hstep
      refine ⟨fun hx => h.ended ?_, fun _ => hrun⟩
      rcases List.mem_append.mp hx with hx | hx
      · exact hx
      · cases List.mem_singleton.mp hx
  | stop =>
      obtain rfl := Option.some.inj hstep
      split
      · exact ⟨fun _ => rfl, h.running⟩
      · exact h
  | join =>
      obtain ⟨-, rfl⟩ := step_join hstep
      exact ⟨fun hx => (List.not_mem_nil hx).elim, fun hne => absurd rfl hne⟩
  | scheduleFlush memtable callback =>
      obtain rfl := Option.some.inj hstep
      exact ⟨h.ended, h.running⟩
  | scheduler c =>
      obtain ⟨hrun, hstop, hthreads⟩ := scheduler_frame hstep
      refine ⟨?_, ?_⟩
      · rw [hthreads, hstop]
        exact h.ended
      · rw [hthreads, hrun]
        exact h.running
  | worker i =>
      obtain ⟨hrun, hstop, x, y, hx, hthreads, hexit⟩ := worker_frame hstep
      rw [← hstop] at hexit
      refine ⟨fun hmem => ?_, fun hne => ?_⟩
      · rw [hthreads] at hmem
        rcases List.mem_or_eq_of_mem_set hmem with hmem | hy
        · exact hstop.trans (h.ended hmem)
        · exact (hexit hy.symm).2.1
      · rw [hthreads] at hne
        exact hrun.trans (h.running (ne_nil_of_set hne))
  | flush i setting =>
      obtain ⟨job, outcome, hx, -, rfl⟩ := step_flush hstep
      refine ⟨fun hmem => ?_, fun hne => h.running (ne_nil_of_set hne)⟩
      rcases List.mem_or_eq_of_mem_set hmem with hmem | hy
      · exact h.ended hmem
      · cases hy
  | wait via =>
      obtain rfl := Option.some.inj hstep
      exact ⟨h.ended, h.running⟩
  | waiter w =>
      obtain ⟨x, u, y, hx, hmove, rfl⟩ := step_waiter hstep
      obtain ⟨⟨m, rfl⟩, -, -⟩ := waiterStep_cases hmove
      exact ⟨h.ended, h.running⟩

theorem run_stands {actions : List Action} (hrun : System.run { options } actions = some s) :
    s.Stands :=
  steps_invariant (fun _ _ _ h hstep => h.step hstep) (stands_initial options) hrun

/-! ## §3. What is drained. -/

/-- Only `join` takes threads away, and a thread ends only where it finds the
queue empty. -/
theorem step_threads {a : Action} (ha : a ≠ .join) (hstep : s.step a = some t) :
    (s.flushThreads ≠ [] → t.flushThreads ≠ []) ∧
      (Worker.exited ∈ t.flushThreads → Worker.exited ∈ s.flushThreads ∨ t.flushQueue = []) := by
  have hset : ∀ (i : Nat) (y : Worker), s.flushThreads ≠ [] → s.flushThreads.set i y ≠ [] := by
    intro i y hne hnil
    exact hne (List.eq_nil_of_length_eq_zero (by rw [← List.length_set, hnil, List.length_nil]))
  cases a with
  | start =>
      obtain rfl := Option.some.inj hstep
      split <;> exact ⟨id, Or.inl⟩
  | spawn =>
      obtain rfl := step_spawn hstep
      refine ⟨fun _ => List.append_ne_nil_of_right_ne_nil _ nofun, fun hx => Or.inl ?_⟩
      rcases List.mem_append.mp hx with hx | hx
      · exact hx
      · cases List.mem_singleton.mp hx
  | stop =>
      obtain rfl := Option.some.inj hstep
      split <;> exact ⟨id, Or.inl⟩
  | join => exact absurd rfl ha
  | scheduleFlush memtable callback =>
      obtain rfl := Option.some.inj hstep
      exact ⟨id, Or.inl⟩
  | scheduler c =>
      obtain ⟨-, -, hthreads⟩ := scheduler_frame hstep
      rw [hthreads]
      exact ⟨id, Or.inl⟩
  | worker i =>
      obtain ⟨-, -, x, y, hx, hthreads, hexit⟩ := worker_frame hstep
      rw [hthreads]
      refine ⟨hset i y, fun hmem => ?_⟩
      rcases List.mem_or_eq_of_mem_set hmem with hmem | hy
      · exact Or.inl hmem
      · exact Or.inr (hexit hy.symm).2.2.2
  | flush i setting =>
      obtain ⟨job, outcome, hx, -, rfl⟩ := step_flush hstep
      refine ⟨hset i _, fun hmem => ?_⟩
      rcases List.mem_or_eq_of_mem_set hmem with hmem | hy
      · exact Or.inl hmem
      · cases hy
  | wait via =>
      obtain rfl := Option.some.inj hstep
      exact ⟨id, Or.inl⟩
  | waiter w =>
      obtain ⟨x, u, y, hx, hmove, rfl⟩ := step_waiter hstep
      obtain ⟨⟨m, rfl⟩, -, -⟩ := waiterStep_cases hmove
      exact ⟨id, Or.inl⟩

/-- There are threads, and once one has ended the jobs have left the queue. -/
structure Draining (jobs : Nat → Prop) (s : System) (place : Nat → Place) : Prop where
  ok : s.Ok place
  threads : s.flushThreads ≠ []
  given : ∀ c, jobs c → 1 ≤ (place c).rank
  left : Worker.exited ∈ s.flushThreads → ∀ c, jobs c → 2 ≤ (place c).rank

theorem Draining.step {jobs : Nat → Prop} {place : Nat → Place} (h : Draining jobs s place)
    {a : Action} (ha : a ≠ .join) (hstep : s.step a = some t) :
    ∃ place', Draining jobs t place' := by
  obtain ⟨place', hok, hforward⟩ := h.ok.step hstep
  obtain ⟨hthreads, hexited⟩ := step_threads ha hstep
  have hgiven : ∀ c, jobs c → 1 ≤ (place' c).rank :=
    fun c hc => Nat.le_trans (h.given c hc) (hforward c)
  refine ⟨place', hok, hthreads h.threads, hgiven, fun hx c hc => ?_⟩
  rcases hexited hx with hx | hempty
  · exact Nat.le_trans (h.left hx c hc) (hforward c)
  · -- an empty queue holds no job
    have hcount : total (FlushJob.isFrom c) t.flushQueue = _ := hok.count c .queued
    rw [hempty, total_nil] at hcount
    have hfirst := hgiven c hc
    cases hplace : place' c with
    | outside => rw [hplace] at hfirst; cases hfirst
    | queued => rw [hplace, if_pos rfl] at hcount; cases hcount
    | held | settled => decide

theorem Draining.run {jobs : Nat → Prop} : ∀ {actions : List Action} {s t : System}
    {place : Nat → Place}, Draining jobs s place → .join ∉ actions → s.run actions = some t →
      ∃ place', Draining jobs t place' := by
  intro actions
  induction actions with
  | nil =>
      intro s t place h _ hrun
      obtain rfl := Option.some.inj hrun
      exact ⟨place, h⟩
  | cons a actions ih =>
      intro s t place h hjoin hrun
      obtain ⟨u, hstep, hrest⟩ := Option.bind_eq_some_iff.mp hrun
      obtain ⟨place', h'⟩ := h.step (fun ha => hjoin (ha ▸ List.mem_cons_self)) hstep
      exact ih h' (fun hmem => hjoin (List.mem_cons_of_mem _ hmem)) hrest

/-- **Where all threads have ended**, every job is settled. -/
theorem Draining.settled {jobs : Nat → Prop} {place : Nat → Place} (h : Draining jobs s place)
    (hdone : s.exitedAll = true) {c : Nat} (hc : jobs c) : s.Settled c := by
  obtain ⟨x, hx⟩ := List.exists_mem_of_ne_nil _ h.threads
  have hexited : Worker.exited ∈ s.flushThreads := by
    have hall := List.all_eq_true.mp hdone x hx
    cases x with
    | exited => exact hx
    | _ => cases hall
  refine h.ok.settled_iff.mpr ?_
  have hleft := h.left hexited c hc
  cases hplace : place c with
  | settled => rfl
  | held =>
      -- a thread that has ended holds nothing
      have hcount : total (Worker.holds c) s.flushThreads = _ := h.ok.count c .held
      rw [if_pos hplace] at hcount
      rw [total_eq_zero_iff.mpr (fun y hy => (holds_of_exited hdone hy).1 c)] at hcount
      cases hcount
  | outside => rw [hplace] at hleft; cases hleft
  | queued => rw [hplace] at hleft; exact absurd hleft (by decide)

/-- **`Stop` drains the queue**: when it returns, every call of `ScheduleFlush`
that had returned OK before it has been called back, if there was a flush
thread. -/
theorem stop_drains (options : Options) (before between : List Action) (s₁ s₂ : System)
    (hbefore : System.run { options } before = some s₁)
    (hstopping : s₁.stopping = false) (hthreads : s₁.flushThreads ≠ []) (hfirst : .join ∉ between)
    (hstop : s₁.run (.stop :: between ++ [.join]) = some s₂) (c : Nat)
    (hc : s₁.Scheduled c) : s₂.Settled c ∧ s₂.flushThreads = [] ∧ s₂.running = false := by
  obtain ⟨place, hok⟩ := run_ok hbefore
  have hnone : Worker.exited ∉ s₁.flushThreads := fun hx => by
    rw [(run_stands hbefore).ended hx] at hstopping
    cases hstopping
  have hdraining : Draining s₁.Scheduled s₁ place :=
    ⟨hok, hthreads, fun c hc => hok.place_of_scheduled hc, fun hx => absurd hx hnone⟩
  obtain ⟨s, hrun, hjoin⟩ := Option.bind_eq_some_iff.mp ((steps_snoc _ _ _).symm.trans hstop)
  have hmoved : .join ∉ .stop :: between := fun hmem => by
    rcases List.mem_cons.mp hmem with heq | hmem
    · cases heq
    · exact hfirst hmem
  obtain ⟨place', hdraining'⟩ := hdraining.run hmoved hrun
  obtain ⟨hdone, rfl⟩ := step_join hjoin
  exact ⟨hdraining'.settled hdone hc, rfl, rfl⟩

theorem stop_drains_one : ∃ t s₁ s₂, MemTable.run {} [.put [97] [120] 1 []] = .ok t ∧
    System.run { options := {} } (oneScheduled t) = some s₁ ∧
    s₁.run (.stop :: oneFlushed ++ [.join]) = some s₂ ∧
    s₂.Settled 0 ∧ s₂.flushThreads = [] ∧ s₂.running = false := by
  obtain ⟨t, s₁, s₂, ht, hbefore, hstop, hstopping, -, hthreads, hscheduled⟩ := oneScheduled_runs
  have hfirst : .join ∉ oneFlushed := by
    simp only [oneFlushed, List.mem_cons, reduceCtorEq, List.not_mem_nil, or_self,
      not_false_eq_true]
  exact ⟨t, s₁, s₂, ht, hbefore, hstop, stop_drains {} (oneScheduled t) oneFlushed s₁ s₂ hbefore
    hstopping hthreads hfirst hstop 0 hscheduled⟩

/-! ## §4. The threads come to their end. -/

/-- The steps that are left to a thread, or that a call or a job in the queue
still gives to one. -/
def workerLeft : Worker → Nat
  | .exited => 0
  | .waiting => 1
  | .notifying => 2
  | .calledBack => 3
  | .flushed _ _ => 4
  | .flushing _ => 5
  | .popped _ => 6

def schedulerLeft : Scheduler → Nat
  | .returned _ => 0
  | .pushed => 1
  | .numbered _ => 8
  | .admitted _ _ => 9
  | .entered _ _ => 10

def left (s : System) : Nat :=
  6 * s.flushQueue.length + total workerLeft s.flushThreads + total schedulerLeft s.calls

/-- A step of a call or of a flush thread. -/
def Action.works : Action → Bool
  | .scheduler _ | .worker _ | .flush _ _ => true
  | _ => false

theorem scheduler_left {c : Nat} (hstep : s.step (.scheduler c) = some t) : t.left < s.left := by
  obtain ⟨x, u, y, hx, hstep, rfl⟩ := step_scheduler hstep
  have hset := total_set (g := schedulerLeft) hx y
  cases x with
  | entered memtable callback =>
      unfold schedulerStep at hstep
      cases hadmission : scheduleFlush s.running memtable with
      | refused _ | skipped | queued _ =>
          simp only [hadmission] at hstep
          obtain ⟨rfl, rfl⟩ := Prod.mk.inj (Option.some.inj hstep)
          simp only [left, schedulerLeft] at hset ⊢
          omega
  | admitted _ _ | pushed =>
      obtain ⟨rfl, rfl⟩ := Prod.mk.inj (Option.some.inj hstep)
      simp only [left, schedulerLeft] at hset ⊢
      omega
  | numbered job =>
      obtain ⟨rfl, rfl⟩ := Prod.mk.inj (Option.some.inj hstep)
      simp only [left, schedulerLeft, List.length_append, List.length_singleton] at hset ⊢
      omega
  | returned status => cases hstep

theorem worker_left {i : Nat} (hstep : s.step (.worker i) = some t) : t.left < s.left := by
  obtain ⟨x, u, y, hx, hstep, rfl⟩ := step_worker hstep
  have hset := total_set (g := workerLeft) hx y
  cases x with
  | waiting =>
      unfold workerStep at hstep
      cases hqueue : s.flushQueue with
      | nil =>
          simp only [hqueue] at hstep
          split at hstep
          · obtain ⟨rfl, rfl⟩ := Prod.mk.inj (Option.some.inj hstep)
            simp only [left, workerLeft] at hset ⊢
            omega
          · cases hstep
      | cons job queue =>
          simp only [hqueue] at hstep
          obtain ⟨rfl, rfl⟩ := Prod.mk.inj (Option.some.inj hstep)
          simp only [left, workerLeft, hqueue, List.length_cons] at hset ⊢
          omega
  | popped _ | flushed _ _ | calledBack =>
      obtain ⟨rfl, rfl⟩ := Prod.mk.inj (Option.some.inj hstep)
      simp only [left, workerLeft] at hset ⊢
      omega
  | notifying =>
      unfold workerStep at hstep
      dsimp only at hstep
      split at hstep
      · obtain ⟨rfl, rfl⟩ := Prod.mk.inj (Option.some.inj hstep)
        simp only [left, workerLeft] at hset ⊢
        omega
      · cases hstep
  | flushing job => cases hstep
  | exited => cases hstep

theorem flush_left {i : Nat} {setting : Setting} (hstep : s.step (.flush i setting) = some t) :
    t.left < s.left := by
  obtain ⟨job, outcome, hx, -, rfl⟩ := step_flush hstep
  have hset := total_set (g := workerLeft) hx (.flushed job outcome)
  simp only [left, workerLeft] at hset ⊢
  omega

/-- **Every step of a call or a flush thread** leaves fewer of them to do; a
waiter's leaves as many. -/
theorem step_left {a : Action} (hstep : s.step a = some t) :
    (a.works = true → t.left < s.left) ∧ ((∃ w, a = .waiter w) → t.left = s.left) := by
  constructor
  · intro hworks
    cases a with
    | scheduler c => exact scheduler_left hstep
    | worker i => exact worker_left hstep
    | flush i setting => exact flush_left hstep
    | start | spawn | stop | join | scheduleFlush _ _ | wait _ | waiter _ => cases hworks
  · rintro ⟨w, rfl⟩
    obtain ⟨x, u, y, hx, hmove, rfl⟩ := step_waiter hstep
    obtain ⟨⟨m, rfl⟩, -, -⟩ := waiterStep_cases hmove
    rfl

theorem run_left : ∀ {actions : List Action} {s t : System},
    (∀ a ∈ actions, a.works = true ∨ ∃ w, a = .waiter w) → s.run actions = some t →
      (actions.filter Action.works).length + t.left ≤ s.left := by
  intro actions
  induction actions with
  | nil =>
      intro s t _ hrun
      obtain rfl := Option.some.inj hrun
      simp
  | cons a actions ih =>
      intro s t hall hrun
      obtain ⟨u, hstep, hrest⟩ := Option.bind_eq_some_iff.mp hrun
      have hle := ih (fun b hb => hall b (List.mem_cons_of_mem _ hb)) hrest
      obtain ⟨hworks, hwaits⟩ := step_left hstep
      rcases hall a List.mem_cons_self with ha | ⟨w, rfl⟩
      · have hlt := hworks ha
        rw [List.filter_cons_of_pos ha, List.length_cons]
        omega
      · rw [List.filter_cons_of_neg Bool.false_ne_true]
        exact hle.trans (Nat.le_of_eq (hwaits ⟨w, rfl⟩))

theorem schedulerStep_waitMutex {c : Nat} {x y : Scheduler}
    (h : s.schedulerStep c x = some (t, y)) : t.waitMutex = s.waitMutex := by
  cases x with
  | entered memtable callback =>
      unfold schedulerStep at h
      dsimp only at h
      split at h <;> exact congrArg (fun r => r.1.waitMutex) (Option.some.inj h).symm
  | returned status => cases h
  | _ => exact congrArg (fun r => r.1.waitMutex) (Option.some.inj h).symm

theorem workerStep_waitMutex {x y : Worker} (h : s.workerStep x = some (t, y)) :
    t.waitMutex = s.waitMutex := by
  cases x with
  | waiting =>
      unfold workerStep at h
      dsimp only at h
      split at h
      · exact congrArg (fun r => r.1.waitMutex) (Option.some.inj h).symm
      · obtain ⟨-, h⟩ := Option.ite_none_right_eq_some.mp h
        exact congrArg (fun r => r.1.waitMutex) (Option.some.inj h).symm
  | notifying =>
      obtain ⟨-, h⟩ := Option.ite_none_right_eq_some.mp h
      exact congrArg (fun r => r.1.waitMutex) (Option.some.inj h).symm
  | flushing job => cases h
  | exited => cases h
  | _ => exact congrArg (fun r => r.1.waitMutex) (Option.some.inj h).symm

/-- Only waiters lock `wait_mutex`. -/
theorem step_waitMutex {a : Action} (ha : ∀ w, a ≠ .waiter w) (hstep : s.step a = some t) :
    t.waitMutex = s.waitMutex := by
  cases a with
  | start | stop =>
      obtain rfl := Option.some.inj hstep
      split <;> rfl
  | spawn =>
      obtain rfl := step_spawn hstep
      rfl
  | join =>
      obtain ⟨-, rfl⟩ := step_join hstep
      rfl
  | scheduleFlush _ _ | wait _ =>
      obtain rfl := Option.some.inj hstep
      rfl
  | scheduler c =>
      obtain ⟨x, u, y, -, hmove, rfl⟩ := step_scheduler hstep
      show u.waitMutex = s.waitMutex
      exact schedulerStep_waitMutex hmove
  | worker i =>
      obtain ⟨x, u, y, -, hmove, rfl⟩ := step_worker hstep
      show u.waitMutex = s.waitMutex
      exact workerStep_waitMutex hmove
  | flush i setting =>
      obtain ⟨job, outcome, -, -, rfl⟩ := step_flush hstep
      rfl
  | waiter w => exact absurd rfl (ha w)

/-- The waiter that holds `wait_mutex` is at its predicate. -/
def HolderChecks (s : System) : Prop :=
  ∀ w, s.waitMutex = some w →
    ∃ via, s.waits[w]? = some (.checking via) ∨ s.waits[w]? = some (.sawEmpty via)

theorem HolderChecks.waiter (h : s.HolderChecks) {w : Nat} (hstep : s.step (.waiter w) = some t) :
    t.HolderChecks := by
  obtain ⟨x, u, y, hx, hmove, rfl⟩ := step_waiter hstep
  intro v hv
  by_cases hvw : v = w
  · subst hvw
    have hslot : ∀ z, (s.waits.set v z)[v]? = some z :=
      fun z => List.getElem?_set_self (List.getElem?_eq_some_iff.mp hx).1
    cases x with
    | locking via =>
        obtain ⟨-, hmove⟩ := Option.ite_none_right_eq_some.mp hmove
        obtain ⟨rfl, rfl⟩ := Prod.mk.inj (Option.some.inj hmove)
        exact ⟨via, Or.inl (hslot _)⟩
    | checking via =>
        unfold waiterStep at hmove
        dsimp only at hmove
        split at hmove
        · obtain ⟨rfl, rfl⟩ := Prod.mk.inj (Option.some.inj hmove)
          exact ⟨via, Or.inr (hslot _)⟩
        · obtain ⟨rfl, rfl⟩ := Prod.mk.inj (Option.some.inj hmove)
          cases hv
    | sawEmpty via =>
        unfold waiterStep at hmove
        dsimp only at hmove
        split at hmove
        all_goals
          obtain ⟨rfl, rfl⟩ := Prod.mk.inj (Option.some.inj hmove)
          cases hv
    | blocked via =>
        -- a blocked waiter does not hold the mutex
        obtain ⟨rfl, rfl⟩ := Prod.mk.inj (Option.some.inj hmove)
        obtain ⟨via', hvia | hvia⟩ := h v hv
        · cases hx.symm.trans hvia
        · cases hx.symm.trans hvia
    | returned answer => cases hmove
  · -- The mutex was held by `v` before, and its slot is as it was.
    have hheld : s.waitMutex = some v := by
      cases x with
      | locking via =>
          obtain ⟨-, hmove⟩ := Option.ite_none_right_eq_some.mp hmove
          obtain ⟨rfl, rfl⟩ := Prod.mk.inj (Option.some.inj hmove)
          exact absurd (Option.some.inj hv).symm hvw
      | checking via | sawEmpty via =>
          unfold waiterStep at hmove
          dsimp only at hmove
          split at hmove
          all_goals
            obtain ⟨rfl, rfl⟩ := Prod.mk.inj (Option.some.inj hmove)
            first
              | exact hv
              | cases hv
      | blocked via =>
          obtain ⟨rfl, rfl⟩ := Prod.mk.inj (Option.some.inj hmove)
          exact hv
      | returned answer => cases hmove
    obtain ⟨⟨m, rfl⟩, -, -⟩ := waiterStep_cases hmove
    obtain ⟨via, hvia⟩ := h v hheld
    refine ⟨via, ?_⟩
    show (s.waits.set w y)[v]? = _ ∨ (s.waits.set w y)[v]? = _
    rw [List.getElem?_set_ne (Ne.symm hvw)]
    exact hvia

theorem HolderChecks.step (h : s.HolderChecks) {a : Action} (hstep : s.step a = some t) :
    t.HolderChecks := by
  by_cases ha : ∃ w, a = .waiter w
  · obtain ⟨w, rfl⟩ := ha
    exact h.waiter hstep
  · have hmutex := step_waitMutex (fun w hw => ha ⟨w, hw⟩) hstep
    intro w hw
    have hkept : ∀ x, s.waits[w]? = some x → t.waits[w]? = some x := fun x hx =>
      (waits_of_step hstep hx).resolve_right (fun heq => ha ⟨w, heq⟩)
    obtain ⟨via, hvia⟩ := h w (hmutex ▸ hw)
    exact ⟨via, hvia.imp (hkept _) (hkept _)⟩

theorem run_holderChecks {actions : List Action}
    (hrun : System.run { options } actions = some s) : s.HolderChecks :=
  steps_invariant (fun _ _ _ h hstep => h.step hstep)
    (show HolderChecks { options } from fun _ h => by cases h) hrun

/-- A memtable that calls lead to, in the order of the tables. -/
def Reached (options : Options) (t : MemTable) : Prop :=
  ∃ memtableOptions calls,
    options.sstableOptions.comparator = memtableOptions.comparator ∧
      MemTable.run memtableOptions calls = .ok t

/-- What the flush thread `i` waits for, if it has not ended: nothing, the waiter that
holds `wait_mutex` and can go on, or its flush, which comes back if its file cannot
be opened and has no result if it can. -/
def GoesOn (s : System) (i : Nat) : Prop :=
  (∃ t, s.step (.worker i) = some t) ∨
    (∃ w t, s.waitMutex = some w ∧ s.step (.waiter w) = some t) ∨
    ∀ setting, (∃ t, s.step (.flush i setting) = some t) ↔ (setting.env 0).ok = false

/-- **A thread that has not ended can go on**, by itself, or once the waiter
that holds `wait_mutex` does, or if its flush comes back. -/
theorem thread_goes_on (hwork : options.sstableOptions.Workable) {actions : List Action}
    (hrun : System.run { options } actions = some s)
    (hmemtables : ∀ t callback, (some t, callback) ∈ asked actions → Reached options t)
    (hstopping : s.stopping = true) {i : Nat} {x : Worker} (hx : s.flushThreads[i]? = some x)
    (hended : x ≠ .exited) : s.GoesOn i := by
  cases x with
  | waiting =>
      refine Or.inl ?_
      simp only [System.step, hx, workerStep, hstopping, if_true, Option.bind_eq_bind,
        Option.bind_some]
      split
      · exact ⟨_, rfl⟩
      · exact ⟨_, rfl⟩
  | popped _ | flushed _ _ | calledBack =>
      exact Or.inl ⟨_, by simp only [System.step, hx, workerStep, Option.bind_eq_bind,
        Option.bind_some]; rfl⟩
  | flushing job =>
      -- the memtable of the job is one that was given
      refine Or.inr (Or.inr fun setting => ?_)
      have hfaithful := run_faithful (faithful_initial options) hrun
      rw [List.nil_append] at hfaithful
      obtain ⟨hasked, hqueued⟩ : IsFor (asked actions) job :=
        hfaithful.threads _ (List.mem_of_getElem? hx)
      obtain ⟨o, calls, horder, hmemtable⟩ := hmemtables _ _ (List.mem_of_getElem? hasked)
      have hsize : job.memtable.size ≠ 0 := fun hzero => by
        unfold scheduleFlush at hqueued
        simp only [Bool.not_true, Bool.false_eq_true, if_false, hzero, if_true] at hqueued
        cases hqueued
      rw [← flush_returns hwork setting horder hmemtable hsize, ← hfaithful.same]
      simp only [System.step, hx, flushStep, Option.bind_eq_bind, Option.bind_some]
      cases performFlush s.options setting (some job.memtable) with
      | ok outcome => exact iff_of_true ⟨_, rfl⟩ ⟨_, rfl⟩
      | error fault => exact iff_of_false (fun ⟨_, h⟩ => nomatch h) (fun ⟨_, h⟩ => nomatch h)
  | notifying =>
      by_cases hmutex : s.waitMutex = none
      · exact Or.inl ⟨_, by simp only [System.step, hx, workerStep, hmutex, Option.bind_eq_bind,
          Option.bind_some, Option.isNone_none, if_true]; rfl⟩
      · obtain ⟨w, hmutex⟩ := Option.ne_none_iff_exists'.mp hmutex
        refine Or.inr (Or.inl ⟨w, ?_⟩)
        obtain ⟨via, hvia | hvia⟩ := run_holderChecks hrun w hmutex
        all_goals
          simp only [System.step, hvia, waiterStep, Option.bind_eq_bind, Option.bind_some]
          split
          · exact ⟨_, hmutex, rfl⟩
          · exact ⟨_, hmutex, rfl⟩
  | exited => exact absurd rfl hended

/-- **The threads that `Stop` joins come to their end**, unless a flush gets its
file open: without new calls the calls under way and the flush threads have a
bounded number of steps left, and every thread that has not ended goes on. -/
theorem stop_returns (options : Options) (hwork : options.sstableOptions.Workable)
    (actions : List Action) (s : System) (hrun : System.run { options } actions = some s)
    (hmemtables : ∀ t callback, (some t, callback) ∈ asked actions → Reached options t)
    (hstopping : s.stopping = true) :
    (∀ more t, (∀ a ∈ more, a.works = true ∨ ∃ w, a = .waiter w) → s.run more = some t →
        (more.filter Action.works).length ≤ s.left) ∧
      ∀ i x, s.flushThreads[i]? = some x → x ≠ .exited → s.GoesOn i := by
  refine ⟨fun more t hmore hruns => ?_, fun i x hx hended =>
    thread_goes_on hwork hrun hmemtables hstopping hx hended⟩
  have := run_left hmore hruns
  omega

theorem stop_returns_one : ∃ t s, MemTable.run {} [.put [97] [120] 1 []] = .ok t ∧
    System.run { options := {} } (oneScheduled t ++ [.stop]) = some s ∧
    (∀ more u, (∀ a ∈ more, a.works = true ∨ ∃ w, a = .waiter w) → s.run more = some u →
        (more.filter Action.works).length ≤ s.left) ∧
      ∀ i x, s.flushThreads[i]? = some x → x ≠ .exited → s.GoesOn i := by
  obtain ⟨t, s₁, -, ht, hbefore, -, -, hrunning, -⟩ := oneScheduled_runs
  obtain ⟨s, hstop, hstopping⟩ : ∃ s, s₁.step .stop = some s ∧ s.stopping = true := by
    refine ⟨_, rfl, ?_⟩
    rw [if_pos hrunning]
  have hrun : System.run { options := {} } (oneScheduled t ++ [.stop]) = some s := by
    rw [System.run, steps_snoc]
    exact Option.bind_eq_some_iff.mpr ⟨s₁, hbefore, hstop⟩
  have hmemtables : ∀ u callback, (some u, callback) ∈ asked (oneScheduled t ++ [.stop]) →
      Reached {} u := by
    intro u callback hasked
    obtain ⟨hu, -⟩ := Prod.mk.inj (List.mem_singleton.mp hasked)
    obtain rfl := Option.some.inj hu
    exact ⟨_, _, rfl, ht⟩
  exact ⟨t, s, ht, hrun, stop_returns {} (by decide) _ s hrun hmemtables hstopping⟩

end System

end FlushManager

end KvEngine
