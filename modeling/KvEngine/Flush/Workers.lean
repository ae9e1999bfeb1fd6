/-
  KvEngine.Flush.Workers
  ──────────────────────
  The flush manager with all its threads: callers of `ScheduleFlush`, the
  flush threads, and callers of `WaitForFlushes` and `FlushAll`.

  One step is one atomic action of one thread: what it does under a mutex,
  or one access to an atomic variable.  Which thread goes next is free, so a
  run is any interleaving.  A thread blocked on a condition variable may wake
  at any time, as a notification or a spurious wakeup lets it.
-/
import KvEngine.Flush.FlushManager
import KvEngine.Lib.Steps

namespace KvEngine

open Lib

namespace FlushManager

/-! ## §1. Where each thread stands. -/

structure FlushJob where
  memtable : MemTable
  /-- Whether the caller gave a callback. -/
  callback : Bool
  jobId : UInt64
  /-- The number of the `ScheduleFlush` call the job is from. -/
  call : Nat

/-- A callback that fell due: run if one was given. -/
structure Notice where
  call : Nat
  given : Bool
  result : Option FlushResult
  status : Status

/-- A call of `ScheduleFlush`. -/
inductive Scheduler where
  | entered (memtable : Option MemTable) (callback : Bool)
  | admitted (memtable : MemTable) (callback : Bool)
  | numbered (job : FlushJob)
  | pushed
  | returned (status : Status)

/-- A thread in `FlushThreadMain`. -/
inductive Worker where
  | waiting
  | popped (job : FlushJob)
  | flushing (job : FlushJob)
  | flushed (job : FlushJob) (outcome : Flushed)
  | calledBack
  | notifying
  | exited

/-- The two calls that wait. -/
inductive WaitCall where
  | waitForFlushes
  | flushAll
  deriving DecidableEq

/-- What the call returns: `WaitForFlushes` nothing, `FlushAll` OK. -/
def WaitCall.answer : WaitCall → Option Status
  | .waitForFlushes => none
  | .flushAll => some .okStatus

/-- A caller of one of them. -/
inductive Waiter where
  | locking (via : WaitCall)
  | checking (via : WaitCall)
  | sawEmpty (via : WaitCall)
  | blocked (via : WaitCall)
  | returned (answer : Option Status)

/-- The manager, and the threads in it.  A thread is known by its place in
its list. -/
structure System where
  options : Options
  running : Bool := false
  stopping : Bool := false
  flushQueue : List FlushJob := []
  nextJobId : UInt64 := 1
  activeFlushes : Int := 0
  /-- The waiter that holds `wait_mutex`. -/
  waitMutex : Option Nat := none
  flushThreads : List Worker := []
  calls : List Scheduler := []
  waits : List Waiter := []
  notices : List Notice := []

namespace System

/-! ## §2. One step of a thread. -/

/-- `ScheduleFlush`, call number `c`. -/
def schedulerStep (s : System) (c : Nat) : Scheduler → Option (System × Scheduler)
  | .entered memtable callback =>
      match scheduleFlush s.running memtable with
      | .refused status => some (s, .returned status)
      | .skipped =>
          some ({ s with notices := s.notices ++ [⟨c, callback, none, .okStatus⟩] },
            .returned .okStatus)
      | .queued t => some (s, .admitted t callback)
  | .admitted t callback =>
      some ({ s with nextJobId := s.nextJobId + 1 }, .numbered ⟨t, callback, s.nextJobId, c⟩)
  | .numbered job => some ({ s with flushQueue := s.flushQueue ++ [job] }, .pushed)
  | .pushed => some (s, .returned .okStatus)
  | .returned _ => none

/-- `FlushThreadMain`, but for the flush itself. -/
def workerStep (s : System) : Worker → Option (System × Worker)
  | .waiting =>
      match s.flushQueue with
      | job :: queue => some ({ s with flushQueue := queue }, .popped job)
      | [] => if s.stopping then some (s, .exited) else none
  | .popped job => some ({ s with activeFlushes := s.activeFlushes + 1 }, .flushing job)
  | .flushing _ => none
  | .flushed job outcome =>
      some ({ s with
        notices := s.notices ++ [⟨job.call, job.callback, outcome.result, outcome.status⟩] },
        .calledBack)
  | .calledBack => some ({ s with activeFlushes := s.activeFlushes - 1 }, .notifying)
  -- `notify_all` is under `wait_mutex`
  | .notifying => if s.waitMutex.isNone then some (s, .waiting) else none
  | .exited => none

/-- `PerformFlush` in `FlushThreadMain`. -/
def flushStep (s : System) (setting : Setting) : Worker → Option Worker
  | .flushing job =>
      match performFlush s.options setting (some job.memtable) with
      | .ok outcome => some (.flushed job outcome)
      | .error _ => none
  | _ => none

/-- `WaitForFlushes`: the predicate reads the queue, then the counter. -/
def waiterStep (s : System) (w : Nat) : Waiter → Option (System × Waiter)
  | .locking via =>
      if s.waitMutex.isNone then some ({ s with waitMutex := some w }, .checking via) else none
  | .checking via =>
      if s.flushQueue.isEmpty then some (s, .sawEmpty via)
      else some ({ s with waitMutex := none }, .blocked via)
  | .sawEmpty via =>
      if s.activeFlushes = 0 then some ({ s with waitMutex := none }, .returned via.answer)
      else some ({ s with waitMutex := none }, .blocked via)
  | .blocked via => some (s, .locking via)
  | .returned _ => none

/-! ## §3. The system. -/

inductive Action where
  | start
  | spawn
  | stop
  | join
  | scheduleFlush (memtable : Option MemTable) (callback : Bool)
  | scheduler (c : Nat)
  | worker (i : Nat)
  | flush (i : Nat) (setting : Setting)
  | wait (via : WaitCall)
  | waiter (w : Nat)

def exitedAll (s : System) : Bool :=
  s.flushThreads.all fun | .exited => true | _ => false

def step (s : System) : Action → Option System
  | .start => some (if s.running then s else { s with running := true, stopping := false })
  -- `Start` makes its threads one by one
  | .spawn =>
      if s.running ∧ (s.flushThreads.length : Int) < s.options.maxBackgroundFlushes then
        some { s with flushThreads := s.flushThreads ++ [.waiting] }
      else none
  | .stop => some (if s.running then { s with stopping := true } else s)
  -- `Stop` goes on once all threads have ended
  | .join =>
      if s.running ∧ s.stopping ∧ s.exitedAll then
        some { s with flushThreads := [], running := false }
      else none
  | .scheduleFlush memtable callback =>
      some { s with calls := s.calls ++ [.entered memtable callback] }
  | .scheduler c => do
      let (t, x) ← s.schedulerStep c (← s.calls[c]?)
      some { t with calls := t.calls.set c x }
  | .worker i => do
      let (t, x) ← s.workerStep (← s.flushThreads[i]?)
      some { t with flushThreads := t.flushThreads.set i x }
  | .flush i setting => do
      let x ← s.flushStep setting (← s.flushThreads[i]?)
      some { s with flushThreads := s.flushThreads.set i x }
  | .wait via => some { s with waits := s.waits ++ [.locking via] }
  | .waiter w => do
      let (t, x) ← s.waiterStep w (← s.waits[w]?)
      some { t with waits := t.waits.set w x }

/-- The state after any actions of the threads. -/
def run (s : System) (actions : List Action) : Option System := steps step s actions

end System

end FlushManager

end KvEngine
