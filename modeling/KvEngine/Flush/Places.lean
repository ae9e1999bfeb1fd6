/-
  KvEngine.Flush.Places
  ─────────────────────
  Where the job of a `ScheduleFlush` call is, in any interleaving.

  The abstract model gives every call one place: outside, as long as it has
  not given its job away, then queued, held by a flush thread, and settled,
  with the callback behind it.  `Ok` ties the system to it: the weight of
  each call in the queue, in the threads and among the notices is that of its
  place.

  Main results:
    * `Ok.step` — a step leaves every job where it is or moves it on;
    * `run_ok` — so does a run, and every reachable state has its places.
-/
import KvEngine.Flush.Workers
import KvEngine.Lib.Slots
import Mathlib.Logic.Function.Basic

namespace KvEngine

open Lib

namespace FlushManager

/-! ## §1. Weights. -/

def FlushJob.isFrom (c : Nat) (job : FlushJob) : Nat := if job.call = c then 1 else 0

def Notice.isFrom (c : Nat) (notice : Notice) : Nat := if notice.call = c then 1 else 0

/-- Whether the thread holds the job of the call, its callback not yet run. -/
def Worker.holds (c : Nat) : Worker → Nat
  | .popped job => job.isFrom c
  | .flushing job => job.isFrom c
  | .flushed job _ => job.isFrom c
  | _ => 0

/-- Whether the thread is counted in `active_flushes`. -/
def Worker.counted : Worker → Nat
  | .flushing _ => 1
  | .flushed _ _ => 1
  | .calledBack => 1
  | _ => 0

/-- Whether the call has given its job away. -/
def Scheduler.accepted : Scheduler → Nat
  | .pushed => 1
  | .returned status => if status.ok then 1 else 0
  | _ => 0

namespace System

def accepted (s : System) (c : Nat) : Nat := ((s.calls[c]?).map Scheduler.accepted).getD 0

end System

inductive Place where
  | outside
  | queued
  | held
  | settled
  deriving DecidableEq

/-- How far on a place is. -/
def Place.rank : Place → Nat
  | .outside => 0
  | .queued => 1
  | .held => 2
  | .settled => 3

namespace System

/-- How often a call is found in a place. -/
def count (s : System) (c : Nat) : Place → Nat
  | .outside => 1 - s.accepted c
  | .queued => total (FlushJob.isFrom c) s.flushQueue
  | .held => total (Worker.holds c) s.flushThreads
  | .settled => total (Notice.isFrom c) s.notices

/-- The system with every call in its place. -/
structure Ok (s : System) (place : Nat → Place) : Prop where
  active : s.activeFlushes = (total Worker.counted s.flushThreads : Nat)
  numbered : ∀ (c : Nat) job, s.calls[c]? = some (.numbered job) → job.call = c
  count : ∀ c r, s.count c r = if place c = r then 1 else 0

/-- No job goes back. -/
def Forward (place place' : Nat → Place) : Prop := ∀ c, (place c).rank ≤ (place' c).rank

/-! ## §2. One party at a time. -/

variable {s t : System}

theorem step_scheduler {c : Nat} (h : s.step (.scheduler c) = some t) :
    ∃ x u y, s.calls[c]? = some x ∧ s.schedulerStep c x = some (u, y) ∧
      t = { u with calls := u.calls.set c y } := by
  obtain ⟨x, hx, h⟩ := Option.bind_eq_some_iff.mp h
  obtain ⟨⟨u, y⟩, hstep, h⟩ := Option.bind_eq_some_iff.mp h
  exact ⟨x, u, y, hx, hstep, (Option.some.inj h).symm⟩

theorem step_worker {i : Nat} (h : s.step (.worker i) = some t) :
    ∃ x u y, s.flushThreads[i]? = some x ∧ s.workerStep x = some (u, y) ∧
      t = { u with flushThreads := u.flushThreads.set i y } := by
  obtain ⟨x, hx, h⟩ := Option.bind_eq_some_iff.mp h
  obtain ⟨⟨u, y⟩, hstep, h⟩ := Option.bind_eq_some_iff.mp h
  exact ⟨x, u, y, hx, hstep, (Option.some.inj h).symm⟩

theorem step_flush {i : Nat} {setting : Setting} (h : s.step (.flush i setting) = some t) :
    ∃ job outcome, s.flushThreads[i]? = some (.flushing job) ∧
      performFlush s.options setting (some job.memtable) = .ok outcome ∧
      t = { s with flushThreads := s.flushThreads.set i (.flushed job outcome) } := by
  obtain ⟨x, hx, h⟩ := Option.bind_eq_some_iff.mp h
  obtain ⟨y, hstep, h⟩ := Option.bind_eq_some_iff.mp h
  cases x with
  | flushing job =>
      unfold flushStep at hstep
      cases hrun : performFlush s.options setting (some job.memtable) with
      | error fault =>
          simp only [hrun] at hstep
          cases hstep
      | ok outcome =>
          simp only [hrun] at hstep
          obtain rfl := Option.some.inj hstep
          exact ⟨job, outcome, hx, hrun, (Option.some.inj h).symm⟩
  | _ => cases hstep

theorem step_waiter {w : Nat} (h : s.step (.waiter w) = some t) :
    ∃ x u y, s.waits[w]? = some x ∧ s.waiterStep w x = some (u, y) ∧
      t = { u with waits := u.waits.set w y } := by
  obtain ⟨x, hx, h⟩ := Option.bind_eq_some_iff.mp h
  obtain ⟨⟨u, y⟩, hstep, h⟩ := Option.bind_eq_some_iff.mp h
  exact ⟨x, u, y, hx, hstep, (Option.some.inj h).symm⟩

/-- The job of call `c` goes from `p` on to `q`, and nothing else moves. -/
def Transfers (s t : System) (c : Nat) (p q : Place) : Prop :=
  ∀ d r, t.count d r + (if d = c ∧ r = p then 1 else 0)
    = s.count d r + if d = c ∧ r = q then 1 else 0

/-- **One transfer** in the abstract model. -/
theorem Transfers.place {place : Nat → Place} {c : Nat} {p q : Place}
    (h : s.Transfers t c p q) (hs : ∀ d r, s.count d r = if place d = r then 1 else 0)
    (hpq : p.rank < q.rank) :
    (∀ d r, t.count d r = if Function.update place c q d = r then 1 else 0) ∧
      Forward place (Function.update place c q) := by
  have hne : p ≠ q := by
    rintro rfl
    exact Nat.lt_irrefl _ hpq
  -- the job was at `p`, or the count there could not go down
  have hc : place c = p := by
    have hfrom := h c p
    rw [if_pos ⟨rfl, rfl⟩, if_neg (fun hq => hne hq.2), hs] at hfrom
    by_contra hother
    rw [if_neg hother] at hfrom
    omega
  constructor
  · intro d r
    have hmove := h d r
    rw [hs] at hmove
    -- only call `c` changes its place
    by_cases hd : d = c
    · subst hd
      rw [Function.update_self]
      rw [hc] at hmove
      grind
    · rw [Function.update_of_ne hd]
      grind
  · intro d
    by_cases hd : d = c
    · subst hd
      rw [Function.update_self, hc]
      exact Nat.le_of_lt hpq
    · rw [Function.update_of_ne hd]

/-! ## §3. Steps. -/

variable {place : Nat → Place}

theorem forward_refl (place : Nat → Place) : Forward place place := fun _ => Nat.le_refl _

theorem initial_ok (options : Options) : Ok { options } (fun _ => .outside) where
  active := rfl
  numbered c job h := by cases h
  count c r := by cases r <;> rfl

/-- A step that moves no job. -/
theorem Ok.stay (h : s.Ok place)
    (hactive : t.activeFlushes = (total Worker.counted t.flushThreads : Nat))
    (hnumbered : ∀ (c : Nat) job, t.calls[c]? = some (.numbered job) → job.call = c)
    (hcount : ∀ c r, t.count c r = s.count c r) :
    ∃ place', t.Ok place' ∧ Forward place place' :=
  ⟨place, ⟨hactive, hnumbered, fun c r => (hcount c r).trans (h.count c r)⟩, forward_refl place⟩

/-- A step that moves one. -/
theorem Ok.move (h : s.Ok place)
    (hactive : t.activeFlushes = (total Worker.counted t.flushThreads : Nat))
    (hnumbered : ∀ (c : Nat) job, t.calls[c]? = some (.numbered job) → job.call = c)
    (c : Nat) {p q : Place} (hpq : p.rank < q.rank) (hcount : s.Transfers t c p q) :
    ∃ place', t.Ok place' ∧ Forward place place' := by
  obtain ⟨hcount', hforward⟩ := hcount.place h.count hpq
  exact ⟨_, ⟨hactive, hnumbered, hcount'⟩, hforward⟩

theorem getElem_set {α : Type} {l : List α} {i : Nat} {a : α} (h : l[i]? = some a) (b : α)
    (j : Nat) : (l.set i b)[j]? = if j = i then some b else l[j]? := by
  by_cases hj : j = i
  · subst hj
    rw [if_pos rfl, List.getElem?_set_self (List.getElem?_eq_some_iff.mp h).1]
  · rw [if_neg hj, List.getElem?_set_ne (Ne.symm hj)]

theorem accepted_set {c : Nat} {x : Scheduler} (h : s.calls[c]? = some x) (y : Scheduler)
    (d : Nat) : accepted { s with calls := s.calls.set c y } d
      = if d = c then y.accepted else s.accepted d := by
  unfold accepted
  rw [getElem_set h]
  by_cases hd : d = c
  · rw [if_pos hd, if_pos hd]
    rfl
  · rw [if_neg hd, if_neg hd]

theorem accepted_of_call {c : Nat} {x : Scheduler} (h : s.calls[c]? = some x) :
    s.accepted c = x.accepted := by
  unfold accepted
  rw [h]
  rfl

/-- A call that is not about to push a job keeps the numbers right. -/
theorem Ok.numbered_set (h : s.Ok place) {c : Nat} {x y : Scheduler} (hx : s.calls[c]? = some x)
    (hy : ∀ job, y = .numbered job → job.call = c) :
    ∀ (d : Nat) job, (s.calls.set c y)[d]? = some (.numbered job) → job.call = d := by
  intro d job hd
  rw [getElem_set hx] at hd
  split at hd
  next heq =>
    subst heq
    exact hy job (Option.some.inj hd)
  next => exact h.numbered d job hd

theorem status_refused {running : Bool} {memtable : Option MemTable} {status : Status}
    (h : scheduleFlush running memtable = .refused status) : status.ok = false := by
  unfold scheduleFlush at h
  split at h
  · obtain rfl := Admission.refused.inj h
    rfl
  · cases memtable with
    | none => cases h
    | some t =>
        dsimp only at h
        split at h <;> cases h

theorem count_outside_set {c : Nat} {x : Scheduler} (hx : s.calls[c]? = some x) (y : Scheduler)
    (hcalls : t.calls = s.calls.set c y) (d : Nat) :
    t.count d .outside = if d = c then 1 - y.accepted else s.count d .outside := by
  show 1 - t.accepted d = if d = c then 1 - y.accepted else 1 - s.accepted d
  have hset : t.accepted d = _ := (congrArg (fun calls : List Scheduler =>
    ((calls[d]?).map Scheduler.accepted).getD 0) hcalls).trans (accepted_set hx y d)
  rw [hset]
  split <;> rfl

/-- A step of a call that gives no job away. -/
theorem Ok.schedulerStay (h : s.Ok place) {c : Nat} {x : Scheduler} (hx : s.calls[c]? = some x)
    (y : Scheduler) (hy : ∀ job, y = .numbered job → job.call = c)
    (hacc : y.accepted = x.accepted) (n : UInt64) :
    ∃ place', Ok { s with nextJobId := n, calls := s.calls.set c y } place' ∧
      Forward place place' := by
  refine h.stay h.active (h.numbered_set hx hy) (fun d r => ?_)
  cases r with
  | outside =>
      refine (count_outside_set hx y rfl d).trans ?_
      split
      next hd =>
        subst hd
        show _ = 1 - s.accepted d
        rw [hacc, accepted_of_call hx]
      next => rfl
  | _ => rfl

/-- A step of a call that gives its job away, to the place `q`. -/
theorem transfers_accept {c : Nat} {x y : Scheduler} (hx : s.calls[c]? = some x)
    (hcalls : t.calls = s.calls.set c y) (hout : x.accepted = 0) (hin : y.accepted = 1) {q : Place}
    (hq : ∀ d, t.count d q = s.count d q + if d = c then 1 else 0)
    (hother : ∀ d r, r ≠ .outside → r ≠ q → t.count d r = s.count d r) (hne : q ≠ .outside) :
    s.Transfers t c .outside q := by
  intro d r
  by_cases hr : r = .outside
  · subst hr
    rw [count_outside_set hx y hcalls d, hin]
    by_cases hd : d = c
    · subst hd
      show _ = 1 - s.accepted d + _
      rw [accepted_of_call hx, hout, if_pos rfl, if_pos ⟨rfl, rfl⟩, if_neg (fun h => hne h.2.symm)]
    · rw [if_neg hd, if_neg (fun h => hd h.1), if_neg (fun h => hd h.1)]
  · rw [if_neg (fun h => hr h.2)]
    by_cases hrq : r = q
    · subst hrq
      rw [hq]
      by_cases hd : d = c
      · rw [if_pos hd, if_pos ⟨hd, rfl⟩]
      · rw [if_neg hd, if_neg (fun h => hd h.1)]
    · rw [hother d r hr hrq, if_neg (fun h => hrq h.2)]

/-- **A step of `ScheduleFlush`** pushes a job, settles it at once, or moves
none. -/
theorem Ok.scheduler (h : s.Ok place) {c : Nat} (hstep : s.step (.scheduler c) = some t) :
    ∃ place', t.Ok place' ∧ Forward place place' := by
  obtain ⟨x, u, y, hx, hstep, rfl⟩ := step_scheduler hstep
  cases x with
  | entered memtable callback =>
      unfold schedulerStep at hstep
      cases hadmission : scheduleFlush s.running memtable with
      | refused status =>
          simp only [hadmission] at hstep
          obtain ⟨rfl, rfl⟩ := Prod.mk.inj (Option.some.inj hstep)
          refine h.schedulerStay hx (.returned status) (fun job hjob => by cases hjob) ?_ _
          show (if status.ok then 1 else 0) = 0
          rw [status_refused hadmission]
          rfl
      | skipped =>
          -- the callback runs inside the call
          simp only [hadmission] at hstep
          obtain ⟨rfl, rfl⟩ := Prod.mk.inj (Option.some.inj hstep)
          refine h.move h.active (h.numbered_set hx (fun job hjob => by cases hjob)) c
            (show Place.outside.rank < Place.settled.rank by decide) ?_
          refine transfers_accept hx rfl rfl rfl (fun d => ?_) (fun d r hr hrq => ?_) (by decide)
          · show total (Notice.isFrom d) (s.notices ++ [_]) = _
            rw [total_append]
            show _ + ((if c = d then 1 else 0) + 0) = _
            rw [Nat.add_zero, if_congr (eq_comm) rfl rfl]
            rfl
          · cases r with
            | outside => exact absurd rfl hr
            | settled => exact absurd rfl hrq
            | _ => rfl
      | queued m =>
          simp only [hadmission] at hstep
          obtain ⟨rfl, rfl⟩ := Prod.mk.inj (Option.some.inj hstep)
          exact h.schedulerStay hx (.admitted m callback) (fun job hjob => by cases hjob) rfl _
  -- the job takes its number, and is not in the queue yet
  | admitted m callback =>
      obtain ⟨rfl, rfl⟩ := Prod.mk.inj (Option.some.inj hstep)
      refine h.schedulerStay hx (.numbered _) (fun job hjob => ?_) rfl _
      rw [← Scheduler.numbered.inj hjob]
  -- the push, under `queue_mutex`
  | numbered job =>
      obtain ⟨rfl, rfl⟩ := Prod.mk.inj (Option.some.inj hstep)
      have hjob : job.call = c := h.numbered c job hx
      refine h.move h.active (h.numbered_set hx (fun job hjob => by cases hjob)) c
        (show Place.outside.rank < Place.queued.rank by decide) ?_
      refine transfers_accept hx rfl rfl rfl (fun d => ?_) (fun d r hr hrq => ?_) (by decide)
      · show total (FlushJob.isFrom d) (s.flushQueue ++ [job]) = _
        rw [total_append]
        show _ + ((if job.call = d then 1 else 0) + 0) = _
        rw [Nat.add_zero, hjob, if_congr (eq_comm) rfl rfl]
        rfl
      · cases r with
        | outside => exact absurd rfl hr
        | queued => exact absurd rfl hrq
        | _ => rfl
  | pushed =>
      obtain ⟨rfl, rfl⟩ := Prod.mk.inj (Option.some.inj hstep)
      exact h.schedulerStay hx (.returned .okStatus) (fun job hjob => by cases hjob) rfl _
  | returned status => cases hstep

/-! ## §4. Steps of the flush threads. -/

section Thread

variable {i : Nat} {x y : Worker}

theorem held_set (hx : s.flushThreads[i]? = some x)
    (hthreads : t.flushThreads = s.flushThreads.set i y) (d : Nat) :
    t.count d .held + x.holds d = s.count d .held + y.holds d := by
  show total _ t.flushThreads + _ = total _ s.flushThreads + _
  rw [hthreads]
  exact total_set hx y

/-- The counter, if it goes up and down with the threads it counts. -/
theorem Ok.active_set (h : s.Ok place) (hx : s.flushThreads[i]? = some x)
    (hthreads : t.flushThreads = s.flushThreads.set i y)
    (hactive : t.activeFlushes + x.counted = s.activeFlushes + y.counted) :
    t.activeFlushes = (total Worker.counted t.flushThreads : Nat) := by
  have hset := total_set (g := Worker.counted) hx y
  rw [h.active] at hactive
  rw [hthreads]
  omega

/-- A step of a thread that leaves the jobs where they are. -/
theorem Ok.threadStay (h : s.Ok place) (hx : s.flushThreads[i]? = some x)
    (hthreads : t.flushThreads = s.flushThreads.set i y)
    (hactive : t.activeFlushes + x.counted = s.activeFlushes + y.counted)
    (hholds : ∀ d, y.holds d = x.holds d) (hcalls : t.calls = s.calls)
    (hqueue : t.flushQueue = s.flushQueue) (hnotices : t.notices = s.notices) :
    ∃ place', t.Ok place' ∧ Forward place place' := by
  refine h.stay (h.active_set hx hthreads hactive) (hcalls ▸ h.numbered) (fun d r => ?_)
  -- A thread step that hands no job on changes no count.
  cases r with
  | outside =>
      show 1 - ((t.calls[d]?).map Scheduler.accepted).getD 0 = _
      rw [hcalls]
      rfl
  | queued =>
      show total _ t.flushQueue = _
      rw [hqueue]
      rfl
  | held =>
      have := held_set hx hthreads d
      rw [hholds] at this
      omega
  | settled =>
      show total _ t.notices = _
      rw [hnotices]
      rfl

/-- **A pop** takes a job from the queue to the thread. -/
theorem Ok.pop (h : s.Ok place) (hx : s.flushThreads[i]? = some .waiting) {job : FlushJob}
    {queue : List FlushJob} (hqueue : s.flushQueue = job :: queue) :
    ∃ place', Ok { s with
      flushQueue := queue, flushThreads := s.flushThreads.set i (.popped job) } place' ∧
      Forward place place' := by
  refine h.move (h.active_set hx rfl rfl) h.numbered job.call
    (show Place.queued.rank < Place.held.rank by decide) (fun d r => ?_)
  -- The job leaves the queue and is held; no other place changes.
  cases r with
  | queued =>
      show total (FlushJob.isFrom d) queue + _ = total (FlushJob.isFrom d) s.flushQueue + _
      rw [hqueue, total_cons]
      unfold FlushJob.isFrom
      grind
  | held =>
      have hset : _ + 0 = _ := held_set (t := { s with
        flushQueue := queue, flushThreads := s.flushThreads.set i (.popped job) }) hx rfl d
      rw [Nat.add_zero] at hset
      rw [hset]
      show _ + job.isFrom d + _ = _
      unfold FlushJob.isFrom
      grind
  | outside => rw [if_neg (fun hd => by cases hd.2), if_neg (fun hd => by cases hd.2)]; rfl
  | settled => rw [if_neg (fun hd => by cases hd.2), if_neg (fun hd => by cases hd.2)]; rfl

/-- **A callback** settles the job of the thread. -/
theorem Ok.settle (h : s.Ok place) {job : FlushJob} {outcome : Flushed}
    (hx : s.flushThreads[i]? = some (.flushed job outcome)) {notice : Notice}
    (hnotice : notice.call = job.call) :
    ∃ place', Ok { s with
      notices := s.notices ++ [notice]
      flushThreads := s.flushThreads.set i .calledBack } place' ∧ Forward place place' := by
  refine h.move (h.active_set hx rfl rfl) h.numbered job.call
    (show Place.held.rank < Place.settled.rank by decide) (fun d r => ?_)
  -- The job is no longer held and its notice is made.
  cases r with
  | held =>
      have hset : _ + job.isFrom d = _ + 0 := held_set (t := { s with
        notices := s.notices ++ [notice]
        flushThreads := s.flushThreads.set i .calledBack }) hx rfl d
      unfold FlushJob.isFrom at hset
      grind
  | settled =>
      show total (Notice.isFrom d) (s.notices ++ [notice]) + _
        = total (Notice.isFrom d) s.notices + _
      rw [total_append]
      show _ + ((if notice.call = d then 1 else 0) + 0) + _ = _
      rw [hnotice]
      grind
  | outside => rw [if_neg (fun hd => by cases hd.2), if_neg (fun hd => by cases hd.2)]; rfl
  | queued => rw [if_neg (fun hd => by cases hd.2), if_neg (fun hd => by cases hd.2)]; rfl

/-- **A step of a flush thread.** -/
theorem Ok.worker (h : s.Ok place) (hstep : s.step (.worker i) = some t) :
    ∃ place', t.Ok place' ∧ Forward place place' := by
  obtain ⟨x, u, y, hx, hstep, rfl⟩ := step_worker hstep
  cases x with
  | waiting =>
      unfold workerStep at hstep
      cases hqueue : s.flushQueue with
      | nil =>
          simp only [hqueue] at hstep
          split at hstep
          · obtain ⟨rfl, rfl⟩ := Prod.mk.inj (Option.some.inj hstep)
            exact h.threadStay hx rfl rfl (fun d => rfl) rfl rfl rfl
          · cases hstep
      | cons job queue =>
          simp only [hqueue] at hstep
          obtain ⟨rfl, rfl⟩ := Prod.mk.inj (Option.some.inj hstep)
          -- the job leaves the queue and is not counted yet
          exact h.pop hx hqueue
  -- `active_flushes++`: the thread is counted, the job stays with it
  | popped job =>
      obtain ⟨rfl, rfl⟩ := Prod.mk.inj (Option.some.inj hstep)
      exact h.threadStay hx rfl (Int.add_zero _) (fun d => rfl) rfl rfl rfl
  | flushing job => cases hstep
  | flushed job outcome =>
      obtain ⟨rfl, rfl⟩ := Prod.mk.inj (Option.some.inj hstep)
      exact h.settle hx rfl
  -- `active_flushes--`, when the callback has run
  | calledBack =>
      obtain ⟨rfl, rfl⟩ := Prod.mk.inj (Option.some.inj hstep)
      refine h.threadStay hx rfl ?_ (fun d => rfl) rfl rfl rfl
      show s.activeFlushes - 1 + 1 = s.activeFlushes + 0
      omega
  | notifying =>
      unfold workerStep at hstep
      dsimp only at hstep
      split at hstep
      · obtain ⟨rfl, rfl⟩ := Prod.mk.inj (Option.some.inj hstep)
        exact h.threadStay hx rfl rfl (fun d => rfl) rfl rfl rfl
      · cases hstep
  | exited => cases hstep

theorem Ok.flush (h : s.Ok place) {setting : Setting} (hstep : s.step (.flush i setting) = some t) :
    ∃ place', t.Ok place' ∧ Forward place place' := by
  obtain ⟨job, outcome, hx, -, rfl⟩ := step_flush hstep
  exact h.threadStay hx rfl rfl (fun d => rfl) rfl rfl rfl

end Thread

/-! ## §5. Runs. -/

/-- **A step of a waiter** moves `wait_mutex` only; it reads the queue empty to
go on to the counter, and the counter zero to return. -/
theorem waiterStep_cases {w : Nat} {x y : Waiter} (h : s.waiterStep w x = some (t, y)) :
    (∃ m, t = { s with waitMutex := m }) ∧
      (∀ via, y = .sawEmpty via → s.flushQueue = []) ∧
      ∀ answer, y = .returned answer → ∃ via, x = .sawEmpty via ∧ s.activeFlushes = 0 := by
  cases x with
  | locking via =>
      obtain ⟨-, h⟩ := Option.ite_none_right_eq_some.mp h
      obtain ⟨rfl, rfl⟩ := Prod.mk.inj (Option.some.inj h)
      exact ⟨⟨_, rfl⟩, by rintro via ⟨⟩, by rintro answer ⟨⟩⟩
  | checking via =>
      unfold waiterStep at h
      dsimp only at h
      split at h
      next hempty =>
        obtain ⟨rfl, rfl⟩ := Prod.mk.inj (Option.some.inj h)
        exact ⟨⟨_, rfl⟩, fun via _ => List.isEmpty_iff.mp hempty, by rintro answer ⟨⟩⟩
      next =>
        obtain ⟨rfl, rfl⟩ := Prod.mk.inj (Option.some.inj h)
        exact ⟨⟨_, rfl⟩, by rintro via ⟨⟩, by rintro answer ⟨⟩⟩
  | sawEmpty via =>
      unfold waiterStep at h
      dsimp only at h
      split at h
      next hzero =>
        obtain ⟨rfl, rfl⟩ := Prod.mk.inj (Option.some.inj h)
        exact ⟨⟨_, rfl⟩, by rintro via ⟨⟩, fun answer _ => ⟨via, rfl, hzero⟩⟩
      next =>
        obtain ⟨rfl, rfl⟩ := Prod.mk.inj (Option.some.inj h)
        exact ⟨⟨_, rfl⟩, by rintro via ⟨⟩, by rintro answer ⟨⟩⟩
  | blocked via =>
      obtain ⟨rfl, rfl⟩ := Prod.mk.inj (Option.some.inj h)
      exact ⟨⟨_, rfl⟩, by rintro via ⟨⟩, by rintro answer ⟨⟩⟩
  | returned answer => cases h

theorem holds_of_exited (h : s.exitedAll = true) {x : Worker} (hx : x ∈ s.flushThreads) :
    (∀ c, x.holds c = 0) ∧ x.counted = 0 := by
  have := List.all_eq_true.mp h x hx
  cases x with
  | exited => exact ⟨fun c => rfl, rfl⟩
  | _ => cases this

theorem step_spawn (h : s.step .spawn = some t) :
    t = { s with flushThreads := s.flushThreads ++ [.waiting] } := by
  obtain ⟨-, h⟩ := Option.ite_none_right_eq_some.mp h
  exact (Option.some.inj h).symm

theorem step_join (h : s.step .join = some t) :
    s.exitedAll = true ∧ t = { s with flushThreads := [], running := false } := by
  obtain ⟨hdone, h⟩ := Option.ite_none_right_eq_some.mp h
  exact ⟨hdone.2.2, (Option.some.inj h).symm⟩

theorem getElem_concat {α : Type} (l : List α) (a : α) (i : Nat) :
    (l ++ [a])[i]? = l[i]? ∨ l[i]? = none ∧ (l ++ [a])[i]? = some a := by
  rcases Nat.lt_trichotomy i l.length with hlt | rfl | hgt
  · exact Or.inl (List.getElem?_append_left hlt)
  · exact Or.inr ⟨List.getElem?_eq_none (Nat.le_refl _), List.getElem?_concat_length⟩
  · refine Or.inl ?_
    rw [List.getElem?_eq_none (by rw [List.length_append]; exact hgt),
      List.getElem?_eq_none (Nat.le_of_lt hgt)]

/-- A new call has given nothing away. -/
theorem Ok.enter (h : s.Ok place) (memtable : Option MemTable) (callback : Bool) :
    ∃ place', Ok { s with calls := s.calls ++ [.entered memtable callback] } place' ∧
      Forward place place' := by
  refine h.stay h.active (fun c job hc => ?_) (fun c r => ?_)
  · rcases getElem_concat s.calls (.entered memtable callback) c with hsame | ⟨-, hnew⟩
    · exact h.numbered c job (hsame.symm.trans hc)
    · cases hnew.symm.trans hc
  · cases r with
    | outside =>
        show 1 - (((s.calls ++ [_])[c]?).map Scheduler.accepted).getD 0
          = 1 - ((s.calls[c]?).map Scheduler.accepted).getD 0
        rcases getElem_concat s.calls (.entered memtable callback) c with hsame | ⟨hold, hnew⟩
        · rw [hsame]
        · rw [hold, hnew]
          rfl
    | _ => rfl

/-- **A step** leaves every job where it is or moves it on. -/
theorem Ok.step (h : s.Ok place) {a : Action} (hstep : s.step a = some t) :
    ∃ place', t.Ok place' ∧ Forward place place' := by
  cases a with
  | start =>
      obtain rfl := Option.some.inj hstep
      split
      · exact ⟨place, h, forward_refl place⟩
      · exact h.stay h.active h.numbered (fun c r => by cases r <;> rfl)
  | spawn =>
      obtain rfl := step_spawn hstep
      have hweight : ∀ g : Worker → Nat, g .waiting = 0 →
          total g (s.flushThreads ++ [.waiting]) = total g s.flushThreads := by
        intro g hg
        rw [total_append, total_cons, hg]
        rfl
      refine h.stay (h.active.trans (congrArg _ (hweight _ rfl).symm)) h.numbered (fun c r => ?_)
      cases r with
      | held => exact hweight (Worker.holds c) rfl
      | _ => rfl
  | stop =>
      obtain rfl := Option.some.inj hstep
      split
      · exact h.stay h.active h.numbered (fun c r => by cases r <;> rfl)
      · exact ⟨place, h, forward_refl place⟩
  | join =>
      obtain ⟨hdone, rfl⟩ := step_join hstep
      -- threads that have ended hold no job and are not counted
      have hexited := fun x (hx : x ∈ s.flushThreads) => holds_of_exited hdone hx
      have hnone : total Worker.counted s.flushThreads = 0 :=
        total_eq_zero_iff.mpr (fun x hx => (hexited x hx).2)
      refine h.stay (h.active.trans (congrArg _ hnone)) h.numbered (fun c r => ?_)
      cases r with
      | held => exact (total_eq_zero_iff.mpr (fun x hx => (hexited x hx).1 c)).symm
      | _ => rfl
  | scheduleFlush memtable callback =>
      obtain rfl := Option.some.inj hstep
      exact h.enter memtable callback
  | scheduler c => exact h.scheduler hstep
  | worker i => exact h.worker hstep
  | flush i setting => exact h.flush hstep
  | wait via =>
      obtain rfl := Option.some.inj hstep
      exact h.stay h.active h.numbered (fun c r => by cases r <;> rfl)
  | waiter w =>
      obtain ⟨x, u, y, hx, hmove, rfl⟩ := step_waiter hstep
      obtain ⟨⟨m, rfl⟩, -, -⟩ := waiterStep_cases hmove
      exact h.stay h.active h.numbered (fun c r => by cases r <;> rfl)

/-- **A run** moves jobs on. -/
theorem Ok.run (h : s.Ok place) {actions : List Action} (hrun : s.run actions = some t) :
    ∃ place', t.Ok place' ∧ Forward place place' := by
  refine steps_invariant (P := fun u => ∃ place', u.Ok place' ∧ Forward place place')
    (fun u a v hu hstep => ?_) ⟨place, h, forward_refl place⟩ hrun
  obtain ⟨place₁, hok, hforward⟩ := hu
  obtain ⟨place₂, hok', hforward'⟩ := hok.step hstep
  exact ⟨place₂, hok', fun c => Nat.le_trans (hforward c) (hforward' c)⟩

/-- **Every reachable state** has its places. -/
theorem run_ok {options : Options} {actions : List Action}
    (hrun : System.run { options } actions = some t) : ∃ place, t.Ok place := by
  obtain ⟨place, hok, -⟩ := (initial_ok options).run hrun
  exact ⟨place, hok⟩

end System

end FlushManager

end KvEngine
