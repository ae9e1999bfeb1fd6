/-
  KvEngine.Engine.Atomicity
  ─────────────────────────
  **Calls of threads that share an engine take effect one at a time.**

  Main results:
    * `Thread.call_of_alone` — the steps of `Put` and `Delete`, run without a
      break, are the call;
    * `Agrees.step` — the step lemma: next to the shared engine stands the
      engine that the calls which have taken effect lead to; a thread in the
      middle of a write is the one reason for the two to differ, and it holds
      the lock alone;
    * `interleavings_linearizable` — every interleaving is linearizable.
-/
import KvEngine.Engine.Calls
import KvEngine.Engine.Threads

namespace KvEngine

open Lib

variable {env : Env} {e e' a : KVEngine} {t t' : Thread} {c : EngineCall} {reply r : EngineReply}

namespace Thread

/-! ## §1. What a step leaves alone. -/

/-- Without the lock alone, a step leaves the engine as it is. -/
theorem next_engine (hnext : t.next env e = some (t', e')) (hhold : t.hold ≠ .unique) :
    e' = e := by
  cases t with
  | idle => cases hnext
  | waiting c => exact (Prod.mk.inj (Option.some.inj hnext)).2.symm
  | inEngine c =>
      cases c with
      | put _ _ | delete _ | flush | sync => exact absurd rfl hhold
      | get _ | getWalStats | verify | iterate _ _ _ =>
          exact (Prod.mk.inj (Option.some.inj hnext)).2.symm
  | numbered _ _ | written _ | logged _ => exact absurd rfl hhold
  | inTree c =>
      cases c with
      | put _ _ | delete _ | flush | sync => exact absurd rfl hhold
      | getWalStats => cases hnext
      | get _ | verify | iterate _ _ _ =>
          obtain ⟨_, -, heq⟩ := Option.map_eq_some_iff.mp hnext
          exact (Prod.mk.inj heq).2.symm
  | opened _ _ => exact (Prod.mk.inj (Option.some.inj hnext)).2.symm
  | iterating it moves seen =>
      obtain ⟨view, -, hnext⟩ := Option.bind_eq_some_iff.mp hnext
      cases moves with
      | nil => exact (Prod.mk.inj (Option.some.inj hnext)).2.symm
      | cons move moves =>
          obtain ⟨_, -, hnext⟩ := Option.bind_eq_some_iff.mp hnext
          exact (Prod.mk.inj (Option.some.inj hnext)).2.symm
  | closing _ | leavingTree _ _ | leaving _ _ =>
      exact (Prod.mk.inj (Option.some.inj hnext)).2.symm

theorem flush_tree (env : Env) (e : KVEngine) : (e.flush env).2.tree = e.tree := by
  unfold KVEngine.flush
  split <;> rfl

theorem sync_tree (env : Env) (e : KVEngine) : (e.sync env).2.tree = e.tree := by
  unfold KVEngine.sync
  split <;> rfl

theorem next_numbered {seq : UInt64} (hnext : (numbered c seq).next env e = some (t', e')) :
    e.wal = none ∧ t' = logged c ∧ e' = e ∨
      ∃ w s w', e.wal = some w ∧ c.log env w seq = some (s, w') ∧
        e' = { e with wal := some w' } ∧
        (s.ok = false ∧ t' = leaving c (.status s) ∨ s.ok = true ∧ t' = written c) := by
  unfold next at hnext
  cases hwal : e.wal with
  | none =>
      simp only [hwal] at hnext
      obtain ⟨rfl, rfl⟩ := Prod.mk.inj (Option.some.inj hnext)
      exact Or.inl ⟨rfl, rfl, rfl⟩
  | some w =>
      simp only [hwal] at hnext
      obtain ⟨⟨s, w'⟩, hlog, hnext⟩ := Option.bind_eq_some_iff.mp hnext
      dsimp only at hnext
      refine Or.inr ⟨w, s, w', rfl, hlog, ?_⟩
      split at hnext
      next hs =>
        obtain ⟨rfl, rfl⟩ := Prod.mk.inj (Option.some.inj hnext)
        exact ⟨rfl, Or.inl ⟨by simpa using hs, rfl⟩⟩
      next hs =>
        obtain ⟨rfl, rfl⟩ := Prod.mk.inj (Option.some.inj hnext)
        exact ⟨rfl, Or.inr ⟨by simpa using hs, rfl⟩⟩

theorem next_written (hnext : (written c).next env e = some (t', e')) :
    ∃ w, e.wal = some w ∧ e' = { e with wal := some (e.syncLog env w).2 } ∧
      ((e.syncLog env w).1.ok = false ∧ t' = leaving c (.status (e.syncLog env w).1) ∨
        (e.syncLog env w).1.ok = true ∧ t' = logged c) := by
  obtain ⟨w, hwal, hnext⟩ := Option.bind_eq_some_iff.mp hnext
  change (if !(e.syncLog env w).1.ok then _ else _) = some (t', e') at hnext
  refine ⟨w, hwal, ?_⟩
  split at hnext
  next hs =>
    obtain ⟨rfl, rfl⟩ := Prod.mk.inj (Option.some.inj hnext)
    exact ⟨rfl, Or.inl ⟨by simpa using hs, rfl⟩⟩
  next hs =>
    obtain ⟨rfl, rfl⟩ := Prod.mk.inj (Option.some.inj hnext)
    exact ⟨rfl, Or.inr ⟨by simpa using hs, rfl⟩⟩

theorem next_inTree (hc : c.treeHold = .unique) (hnext : (inTree c).next env e = some (t', e')) :
    ∃ s tree, c.change e.tree = some (s, tree) ∧ t' = leavingTree c (.status s) ∧
      e' = { e with tree } := by
  have hmap : (c.change e.tree).map (fun r => (leavingTree c (.status r.1), { e with tree := r.2 }))
      = some (t', e') := by
    cases c with
    | put _ _ | delete _ => exact hnext
    | get _ | flush | sync | getWalStats | verify | iterate _ _ _ => cases hc
  obtain ⟨⟨s, tree⟩, hchange, heq⟩ := Option.map_eq_some_iff.mp hmap
  obtain ⟨rfl, rfl⟩ := Prod.mk.inj heq
  exact ⟨s, tree, hchange, rfl, rfl⟩

/-- After the log: the tree's function, which refuses an empty key at once. -/
theorem next_logged (hnext : (logged c).next env e = some (t', e')) :
    e' = e ∧ ((∀ value, c ≠ .put [] value) ∧ t' = inTree c ∨ ∃ value, c = .put [] value ∧
      t' = leaving c (.status (.invalidArgument "Key cannot be empty"))) := by
  unfold next at hnext
  dsimp only at hnext
  split at hnext
  next value =>
    obtain ⟨rfl, rfl⟩ := Prod.mk.inj (Option.some.inj hnext)
    exact ⟨rfl, Or.inr ⟨value, rfl, rfl⟩⟩
  next hkey =>
    obtain ⟨rfl, rfl⟩ := Prod.mk.inj (Option.some.inj hnext)
    exact ⟨rfl, Or.inl ⟨hkey, rfl⟩⟩

/-- Without the tree's lock alone, a step leaves the tree as it is. -/
theorem next_tree (hnext : t.next env e = some (t', e')) (hhold : t.treeHold ≠ .unique) :
    e'.tree = e.tree := by
  cases t with
  | inEngine c =>
      cases c with
      | flush =>
          obtain ⟨-, rfl⟩ := Prod.mk.inj (Option.some.inj hnext)
          exact flush_tree env e
      | sync =>
          obtain ⟨-, rfl⟩ := Prod.mk.inj (Option.some.inj hnext)
          exact sync_tree env e
      | put _ _ | delete _ =>
          obtain ⟨-, rfl⟩ := Prod.mk.inj (Option.some.inj hnext)
          rfl
      | get _ | getWalStats | verify | iterate _ _ _ => rw [next_engine hnext nofun]
  | numbered c seq =>
      obtain ⟨-, -, rfl⟩ | ⟨_, _, _, -, -, rfl, -⟩ := next_numbered hnext
      · rfl
      · rfl
  | written c =>
      obtain ⟨_, -, rfl, -⟩ := next_written hnext
      rfl
  | logged c => rw [(next_logged hnext).1]
  | inTree c =>
      cases c with
      | put _ _ | delete _ => exact absurd rfl hhold
      | flush | sync | getWalStats => cases hnext
      | get _ | verify | iterate _ _ _ => rw [next_engine hnext nofun]
  | idle | waiting _ | opened _ _ | iterating _ _ _ | closing _ =>
      rw [next_engine hnext nofun]
  | leavingTree c reply => rw [← (Prod.mk.inj (Option.some.inj hnext)).2]
  | leaving c reply => rw [← (Prod.mk.inj (Option.some.inj hnext)).2]

/-! ## §2. `Put` and `Delete` without a break. -/

/-- The thread runs, alone, up to its answer. -/
inductive Alone (env : Env) : Thread → KVEngine → EngineReply → KVEngine → Prop
  | done {u : Thread} {f : KVEngine} {out : EngineReply} (h : u.answer = some out) :
      Alone env u f out f
  | step {u u' : Thread} {f f' g : KVEngine} {out : EngineReply}
      (hnext : u.next env f = some (u', f')) (h : Alone env u' f' out g) : Alone env u f out g

theorem Alone.idle (h : Alone env idle e r e') : False := by
  cases h with
  | done h => cases h
  | step hnext _ => cases hnext

theorem Alone.leaving (h : Alone env (leaving c reply) e r e') : r = reply ∧ e' = e := by
  cases h with
  | done h => exact ⟨(Option.some.inj h).symm, rfl⟩
  | step hnext h =>
      obtain ⟨rfl, -⟩ := Prod.mk.inj (Option.some.inj hnext)
      exact h.idle.elim

theorem Alone.leavingTree (h : Alone env (leavingTree c reply) e r e') : r = reply ∧ e' = e := by
  cases h with
  | done h => cases h
  | step hnext h =>
      obtain ⟨rfl, rfl⟩ := Prod.mk.inj (Option.some.inj hnext)
      exact h.leaving

theorem Alone.inTree (h : Alone env (inTree c) e r e') (hc : c.treeHold = .unique) :
    ∃ s t, c.change e.tree = some (s, t) ∧ r = .status s ∧ e' = { e with tree := t } := by
  cases h with
  | done h => cases h
  | step hnext h =>
      obtain ⟨s, t, hchange, rfl, rfl⟩ := next_inTree hc hnext
      obtain ⟨rfl, rfl⟩ := h.leavingTree
      exact ⟨s, t, hchange, rfl, rfl⟩

theorem Alone.logged (h : Alone env (logged c) e r e') (hc : c.treeHold = .unique) :
    ∃ s t, c.change e.tree = some (s, t) ∧ r = .status s ∧ e' = { e with tree := t } := by
  cases h with
  | done h => cases h
  | step hnext h =>
      obtain ⟨rfl, ⟨-, rfl⟩ | ⟨value, rfl, rfl⟩⟩ := next_logged hnext
      · exact h.inTree hc
      · obtain ⟨rfl, rfl⟩ := h.leaving
        exact ⟨_, _, rfl, rfl, rfl⟩

theorem Alone.written (h : Alone env (written c) e r e') (hc : c.treeHold = .unique) :
    ∃ w, e.wal = some w ∧
      ((e.syncLog env w).1.ok = false ∧ r = .status (e.syncLog env w).1 ∧
          e' = { e with wal := some (e.syncLog env w).2 } ∨
        (e.syncLog env w).1.ok = true ∧ ∃ s t, c.change e.tree = some (s, t) ∧ r = .status s ∧
          e' = { e with tree := t, wal := some (e.syncLog env w).2 }) := by
  obtain ⟨h⟩ | ⟨hnext, h⟩ := h
  · cases h
  obtain ⟨w, hwal, rfl, hcase⟩ := next_written hnext
  refine ⟨w, hwal, ?_⟩
  rcases hcase with ⟨hs, rfl⟩ | ⟨hs, rfl⟩
  · obtain ⟨rfl, rfl⟩ := h.leaving
    exact Or.inl ⟨hs, rfl, rfl⟩
  · obtain ⟨s, t, hchange, rfl, rfl⟩ := h.logged hc
    exact Or.inr ⟨hs, s, t, hchange, rfl, rfl⟩

/-- `Put` and `Delete` in the source's words. -/
theorem call_eq_logged (hc : c.treeHold = .unique) :
    e.call env c = (e.logged env (fun w seq => c.log env w seq) c.change).map
      (fun r => (.status r.1, r.2)) := by
  cases c with
  | put _ _ | delete _ => rfl
  | get _ | flush | sync | getWalStats | verify | iterate _ _ _ => cases hc

theorem logged_of_log {w w' : WriteAheadLog} {s : Status}
    {log : WriteAheadLog → UInt64 → Option (Status × WriteAheadLog)}
    {change : BPlusTree → Option (Status × BPlusTree)} (hwal : e.wal = some w)
    (hlog : log w e.sequenceNumber = some (s, w')) :
    e.logged env log change = (if !s.ok then
        some (s, { e with sequenceNumber := e.sequenceNumber + 1, wal := some w' })
      else if !(e.syncLog env w').1.ok then
        some ((e.syncLog env w').1, { e with
          sequenceNumber := e.sequenceNumber + 1, wal := some (e.syncLog env w').2 })
      else (change e.tree).map (fun r => (r.1, { e with
        sequenceNumber := e.sequenceNumber + 1
        wal := some (e.syncLog env w').2
        tree := r.2 }))) := by
  unfold KVEngine.logged
  simp only [hwal, hlog, Option.bind_eq_bind, Option.bind_some]
  show (if !s.ok then _ else if !(e.syncLog env w').1.ok then _ else _) = _
  split
  · rfl
  split
  · rfl
  · cases change e.tree <;> rfl

/-- **The steps of `Put` and `Delete`, run without a break, are the call.** -/
theorem call_of_alone (hc : c.treeHold = .unique)
    (h : Alone env (numbered c e.sequenceNumber)
      { e with sequenceNumber := e.sequenceNumber + 1 } r e') :
    e.call env c = some (r, e') := by
  rw [call_eq_logged hc]
  cases h with
  | done h => cases h
  | step hnext h =>
      obtain ⟨hwal, rfl, rfl⟩ | ⟨w, s, w', hwal, hlog, rfl, ⟨hs, rfl⟩ | ⟨hs, rfl⟩⟩ :=
        next_numbered hnext
      · obtain ⟨s, t, hchange, rfl, rfl⟩ := h.logged hc
        simp only at hwal hchange
        simp [KVEngine.logged, hwal, hchange]
      · obtain ⟨rfl, rfl⟩ := h.leaving
        rw [logged_of_log (e := e) hwal hlog, hs]
        rfl
      · obtain ⟨w₁, hw₁, hsync⟩ := h.written hc
        obtain rfl := Option.some.inj hw₁
        rw [logged_of_log (e := e) hwal hlog, hs]
        -- The state between the log and the sync has the options it had before.
        change (e.syncLog env w').1.ok = false ∧ _ ∨ (e.syncLog env w').1.ok = true ∧ _ at hsync
        rcases hsync with ⟨hsync, rfl, rfl⟩ | ⟨hsync, s', t, hchange, rfl, rfl⟩
        · rw [hsync]
          rfl
        · rw [hsync, show c.change e.tree = some (s', t) from hchange]
          rfl

/-! ## §3. A thread next to the engine of the calls that took effect. -/

/-- Between its first change to the engine and its last. -/
def midWrite : Thread → Bool
  | numbered _ _ | written _ | logged _ => true
  | inTree c => c.treeHold = .unique
  | _ => false

/-- Where the thread would end, run alone, is where the call leads from `a`. -/
def Completes (env : Env) (e a : KVEngine) (t : Thread) (c : EngineCall) : Prop :=
  ∀ reply e', Alone env t e reply e' → a.call env c = some (reply, e')

/-- What a thread of the engine `e` has to do with the engine `a` of the calls
that have taken effect; an iterator depends on the tree alone. -/
def Agrees (env : Env) (e a : KVEngine) (st : Stage EngineCall EngineReply) : Thread → Prop
  | idle => st = .quiet
  | waiting c | inEngine c => st = .called c
  | numbered c seq => st = .called c ∧ c.treeHold = .unique ∧ Completes env e a (numbered c seq) c
  | written c => st = .called c ∧ c.treeHold = .unique ∧ Completes env e a (written c) c
  | logged c => st = .called c ∧ c.treeHold = .unique ∧ Completes env e a (logged c) c
  | inTree c => st = .called c ∧ (c.treeHold = .unique → Completes env e a (inTree c) c)
  | opened it moves => ∃ start limit all, st = .called (.iterate start limit all) ∧
      Iterator.session e.tree start limit all = it.views e.tree moves
  | iterating it moves seen => ∃ start limit all, st = .called (.iterate start limit all) ∧
      Iterator.session e.tree start limit all = (it.views e.tree moves).map (seen ++ ·)
  | closing reply | leavingTree _ reply | leaving _ reply => ∃ c, st = .committed c reply

variable {st : Stage EngineCall EngineReply} {i : Nat}

theorem Completes.next (h : Completes env e a t c) (hnext : t.next env e = some (t', e')) :
    Completes env e' a t' c :=
  fun reply f halone => h reply f (.step hnext halone)

/-- A thread that does not write keeps its part where the tree stays, if it reads it. -/
theorem Agrees.frame {a' : KVEngine} (h : t.Agrees env e a st) (hhold : t.hold ≠ .unique)
    (htree : t.treeHold ≠ .none → e'.tree = e.tree) : t.Agrees env e' a' st := by
  cases t with
  | numbered _ _ | written _ | logged _ => exact absurd rfl hhold
  | inTree c =>
      refine ⟨h.1, fun hc => ?_⟩
      cases c with
      | put _ _ | delete _ => exact absurd rfl hhold
      | get _ | flush | sync | getWalStats | verify | iterate _ _ _ => cases hc
  | opened it moves | iterating it moves seen =>
      obtain ⟨start, limit, all, hst, hsession⟩ := h
      refine ⟨start, limit, all, hst, ?_⟩
      rw [htree nofun]
      exact hsession
  | idle | waiting _ | inEngine _ | closing _ | leavingTree _ _ | leaving _ _ => exact h

/-- What one step of a thread leads to. -/
structure Follows (env : Env) (i : Nat) (t t' : Thread) (e e' a a' : KVEngine)
    (st st' : Stage EngineCall EngineReply) : Prop where
  advance : Advance (KVEngine.call env) i st a st' a' (t.answer.map (Event.ret i)).toList
  agrees : t'.Agrees env e' a' st'
  tree : e'.tree = a'.tree
  whole : t'.midWrite = false → (t.midWrite = false → e = a) → e' = a'
  other : t.hold ≠ .unique → a' = a

/-- The answer is known and the call has taken effect. -/
theorem follows_commit {op : EngineCall} (hst : st = .called op) (hanswer : t.answer = none)
    (hcall : a.call env op = some (reply, e')) (hagrees : t'.Agrees env e' e' (.committed op reply))
    (hother : t.hold ≠ .unique → e' = a) :
    Follows env i t t' e e' a e' st (.committed op reply) where
  advance := by
    rw [hst, hanswer]
    exact .commit hcall
  agrees := hagrees
  tree := rfl
  whole _ _ := rfl
  other := hother

/-- The step changes nothing but the place of the thread. -/
theorem follows_stay (hanswer : t.answer = none) (htree : e.tree = a.tree)
    (hagrees : t'.Agrees env e a st) (hwrite : t.midWrite = true → t'.midWrite = true) :
    Follows env i t t' e e a a st st where
  advance := by
    rw [hanswer]
    exact .stay st a
  agrees := hagrees
  tree := htree
  whole ht' heq := heq (Bool.eq_false_iff.mpr (fun ht => Bool.eq_false_iff.mp ht' (hwrite ht)))
  other _ := rfl

/-- The step is part of a write that goes on. -/
theorem follows_write (hanswer : t.answer = none) (htree : e'.tree = a.tree)
    (hagrees : t'.Agrees env e' a st) (hwrite : t'.midWrite = true) :
    Follows env i t t' e e' a a st st where
  advance := by
    rw [hanswer]
    exact .stay st a
  agrees := hagrees
  tree := htree
  whole ht' _ := absurd (hwrite.symm.trans ht') (by decide)
  other _ := rfl

theorem follows_inEngine (hag : (inEngine c).Agrees env e a st) (hwhole : e = a)
    (hnext : (inEngine c).next env e = some (t', e')) :
    ∃ a' st', Follows env i (inEngine c) t' e e' a a' st st' := by
  subst hwhole
  cases c with
  | put _ _ | delete _ =>
      obtain ⟨rfl, rfl⟩ := Prod.mk.inj (Option.some.inj hnext)
      exact ⟨e, st, follows_write rfl rfl ⟨hag, rfl, fun _ _ h => call_of_alone rfl h⟩ rfl⟩
  | flush | sync =>
      obtain ⟨rfl, rfl⟩ := Prod.mk.inj (Option.some.inj hnext)
      exact ⟨_, _, follows_commit hag rfl rfl ⟨_, rfl⟩ (absurd rfl)⟩
  | getWalStats =>
      obtain ⟨rfl, rfl⟩ := Prod.mk.inj (Option.some.inj hnext)
      exact ⟨_, _, follows_commit hag rfl rfl ⟨_, rfl⟩ (fun _ => rfl)⟩
  | get _ | verify | iterate _ _ _ =>
      obtain ⟨rfl, rfl⟩ := Prod.mk.inj (Option.some.inj hnext)
      exact ⟨e, st, follows_stay rfl rfl ⟨hag, nofun⟩ nofun⟩

theorem follows_numbered {seq : UInt64} (hag : (numbered c seq).Agrees env e a st)
    (htree : e.tree = a.tree) (hnext : (numbered c seq).next env e = some (t', e')) :
    ∃ a' st', Follows env i (numbered c seq) t' e e' a a' st st' := by
  obtain ⟨hst, hc, hcompletes⟩ := hag
  have hrest := hcompletes.next hnext
  obtain ⟨-, rfl, rfl⟩ | ⟨_, _, _, -, -, rfl, ⟨-, rfl⟩ | ⟨-, rfl⟩⟩ := next_numbered hnext
  · exact ⟨a, st, follows_write rfl htree ⟨hst, hc, hrest⟩ rfl⟩
  · exact ⟨_, _, follows_commit hst rfl (hrest _ _ (.done rfl)) ⟨c, rfl⟩ (absurd rfl)⟩
  · exact ⟨a, st, follows_write rfl htree ⟨hst, hc, hrest⟩ rfl⟩

theorem follows_written (hag : (written c).Agrees env e a st) (htree : e.tree = a.tree)
    (hnext : (written c).next env e = some (t', e')) :
    ∃ a' st', Follows env i (written c) t' e e' a a' st st' := by
  obtain ⟨hst, hc, hcompletes⟩ := hag
  have hrest := hcompletes.next hnext
  obtain ⟨_, -, rfl, ⟨-, rfl⟩ | ⟨-, rfl⟩⟩ := next_written hnext
  · exact ⟨_, _, follows_commit hst rfl (hrest _ _ (.done rfl)) ⟨c, rfl⟩ (absurd rfl)⟩
  · exact ⟨a, st, follows_write rfl htree ⟨hst, hc, hrest⟩ rfl⟩

theorem follows_inTree (hag : (inTree c).Agrees env e a st) (htree : e.tree = a.tree)
    (hwhole : (inTree c).midWrite = false → e = a)
    (hnext : (inTree c).next env e = some (t', e')) :
    ∃ a' st', Follows env i (inTree c) t' e e' a a' st st' := by
  obtain ⟨hst, hcompletes⟩ := hag
  by_cases hc : c.treeHold = .unique
  · -- The change of the tree is where `Put` and `Delete` take effect.
    have hrest := (hcompletes hc).next hnext
    obtain ⟨s, tree, -, rfl, rfl⟩ := next_inTree hc hnext
    have hhold : c.hold = .unique := by
      cases c with
      | put _ _ | delete _ => rfl
      | get _ | flush | sync | getWalStats | verify | iterate _ _ _ => cases hc
    exact ⟨_, _, follows_commit hst rfl (hrest _ _ (.step rfl (.done rfl))) ⟨c, rfl⟩
      (absurd hhold)⟩
  · obtain rfl := hwhole (decide_eq_false hc)
    cases c with
    | put _ _ | delete _ => exact absurd rfl hc
    | flush | sync | getWalStats => cases hnext
    | get key =>
        obtain ⟨r, hget, heq⟩ := Option.map_eq_some_iff.mp hnext
        obtain ⟨rfl, rfl⟩ := Prod.mk.inj heq
        refine ⟨_, _, follows_commit hst rfl ?_ ⟨_, rfl⟩ (fun _ => rfl)⟩
        exact Option.map_eq_some_iff.mpr ⟨r, hget, rfl⟩
    | verify =>
        obtain ⟨ok, hverify, heq⟩ := Option.map_eq_some_iff.mp hnext
        obtain ⟨rfl, rfl⟩ := Prod.mk.inj heq
        refine ⟨_, _, follows_commit hst rfl ?_ ⟨_, rfl⟩ (fun _ => rfl)⟩
        exact Option.map_eq_some_iff.mpr ⟨ok, hverify, rfl⟩
    | iterate start limit moves =>
        obtain ⟨it, hnew, heq⟩ := Option.map_eq_some_iff.mp hnext
        obtain ⟨rfl, rfl⟩ := Prod.mk.inj heq
        refine ⟨e, st, follows_stay rfl rfl ⟨start, limit, moves, hst, ?_⟩ nofun⟩
        rw [Iterator.session, hnew, Option.bind_some]

theorem follows_iterating {it : Iterator} {moves : List IteratorCall} {seen : List View}
    (hag : (iterating it moves seen).Agrees env e a st) (htree : e.tree = a.tree)
    (hnext : (iterating it moves seen).next env e = some (t', e')) :
    ∃ a' st', Follows env i (iterating it moves seen) t' e e' a a' st st' := by
  obtain rfl := next_engine hnext nofun
  obtain ⟨start, limit, all, hst, hsession⟩ := hag
  obtain ⟨view, hview, hnext⟩ := Option.bind_eq_some_iff.mp hnext
  cases moves with
  | nil =>
      obtain ⟨rfl, -⟩ := Prod.mk.inj (Option.some.inj hnext)
      have hcall : a.call env (.iterate start limit all) =
          some (.views (seen ++ [view]), a) := by
        show (Iterator.session a.tree start limit all).map _ = _
        rw [← htree, hsession, Iterator.views, hview]
        rfl
      exact ⟨a, .committed (.iterate start limit all) (.views (seen ++ [view])),
        by rw [hst]; exact .commit hcall, ⟨_, rfl⟩, htree, fun _ heq => heq rfl, fun _ => rfl⟩
  | cons move moves =>
      obtain ⟨it', hcall, hnext⟩ := Option.bind_eq_some_iff.mp hnext
      obtain ⟨rfl, -⟩ := Prod.mk.inj (Option.some.inj hnext)
      refine ⟨a, st, follows_stay rfl htree ⟨start, limit, all, hst, ?_⟩ nofun⟩
      rw [hsession, Iterator.views, hview, Option.bind_eq_bind, Option.bind_some, hcall,
        Option.bind_eq_bind, Option.bind_some]
      cases it'.views e'.tree moves with
      | none => rfl
      | some rest => simp

/-- The thread answers, and its call is over. -/
theorem follows_answer (hanswer : t.answer = some reply) (hst : st = .committed c reply)
    (htree : e.tree = a.tree) : Follows env i t idle e e a a st .quiet where
  advance := by
    rw [hst, hanswer]
    exact .ret c reply a
  agrees := rfl
  tree := htree
  whole _ heq := heq (by cases t <;> first | rfl | cases hanswer)
  other _ := rfl

/-- **One step of a thread**, next to the engine of the calls that took effect. -/
theorem next_follows (hag : t.Agrees env e a st) (htree : e.tree = a.tree)
    (hwhole : t.hold ≠ .none → t.midWrite = false → e = a)
    (hnext : t.next env e = some (t', e')) : ∃ a' st', Follows env i t t' e e' a a' st st' := by
  cases t with
  | idle => cases hnext
  | waiting c =>
      obtain ⟨rfl, rfl⟩ := Prod.mk.inj (Option.some.inj hnext)
      exact ⟨a, st, follows_stay rfl htree hag nofun⟩
  | inEngine c => exact follows_inEngine hag (hwhole (by cases c <;> nofun) rfl) hnext
  | numbered c seq => exact follows_numbered hag htree hnext
  | written c => exact follows_written hag htree hnext
  | logged c =>
      obtain ⟨hst, hc, hcompletes⟩ := hag
      have hrest := hcompletes.next hnext
      obtain ⟨rfl, ⟨-, rfl⟩ | ⟨value, rfl, rfl⟩⟩ := next_logged hnext
      · exact ⟨a, st, follows_write rfl htree ⟨hst, fun _ => hrest⟩ (decide_eq_true hc)⟩
      · exact ⟨_, _, follows_commit hst rfl (hrest _ _ (.done rfl)) ⟨_, rfl⟩ (absurd rfl)⟩
  | inTree c => exact follows_inTree hag htree (hwhole (by cases c <;> nofun)) hnext
  | opened it moves =>
      obtain ⟨rfl, rfl⟩ := Prod.mk.inj (Option.some.inj hnext)
      obtain ⟨start, limit, all, hst, hsession⟩ := hag
      refine ⟨a, st, follows_stay rfl htree ⟨start, limit, all, hst, ?_⟩ nofun⟩
      rw [hsession]
      exact Option.map_id'.symm
  | iterating it moves seen => exact follows_iterating hag htree hnext
  | leavingTree c reply =>
      obtain ⟨rfl, rfl⟩ := Prod.mk.inj (Option.some.inj hnext)
      exact ⟨a, st, follows_stay rfl htree hag nofun⟩
  | closing reply | leaving c reply =>
      obtain ⟨rfl, rfl⟩ := Prod.mk.inj (Option.some.inj hnext)
      obtain ⟨c, hst⟩ := hag
      exact ⟨a, .quiet, follows_answer rfl hst htree⟩

end Thread

/-! ## §4. All threads. -/

namespace SharedEngine

variable {s s' : SharedEngine} {stage : Nat → Stage EngineCall EngineReply} {act : ThreadStep}

/-- The locks know who holds them, every thread stands as it should next to
the engine of the calls that took effect, and only a write under way keeps
the shared engine from being that engine. -/
structure Agrees (env : Env) (s : SharedEngine) (stage : Nat → Stage EngineCall EngineReply)
    (a : KVEngine) : Prop where
  guards : SharedMutex.Guards Thread.hold s.mutex s.threads
  treeGuards : SharedMutex.Guards Thread.treeHold s.treeMutex s.threads
  threads : ∀ i (t : Thread), s.threads[i]? = some t → t.Agrees env s.engine a (stage i)
  tree : s.engine.tree = a.tree
  whole : (∀ t ∈ s.threads, t.midWrite = false) → s.engine = a

theorem agrees_start (env : Env) (e : KVEngine) (n : Nat) :
    (start e n).Agrees env (fun _ => .quiet) e where
  guards := SharedMutex.guards_free (fun t ht => by rw [List.eq_of_mem_replicate ht]; rfl)
  treeGuards := SharedMutex.guards_free (fun t ht => by rw [List.eq_of_mem_replicate ht]; rfl)
  threads i t hi := by
    rw [List.eq_of_mem_replicate (List.mem_of_getElem? hi)]
    rfl
  tree := rfl
  whole _ := rfl

theorem hold_of_midWrite {t : Thread} (h : t.midWrite = true) : t.hold = .unique := by
  cases t with
  | numbered _ _ | written _ | logged _ => rfl
  | inTree c =>
      cases c with
      | put _ _ | delete _ => rfl
      | get _ | flush | sync | getWalStats | verify | iterate _ _ _ => cases h
  | idle | waiting _ | inEngine _ | opened _ _ | iterating _ _ _ | closing _
  | leavingTree _ _ | leaving _ _ => cases h

/-- Where one thread holds the lock, no other is in the middle of a write. -/
theorem Agrees.midWrite_other (h : s.Agrees env stage a) {i j : Nat} {t u : Thread}
    (hi : s.threads[i]? = some t) (ht : t.hold ≠ .none) (hj : s.threads[j]? = some u)
    (hij : j ≠ i) : u.midWrite = false := by
  refine Bool.eq_false_iff.mpr (fun hu => ?_)
  exact ht (h.guards.alone hj (hold_of_midWrite hu) hi hij.symm)

/-- A thread that holds the lock and writes nothing sees the engine of the
calls that took effect. -/
theorem Agrees.whole_of_hold (h : s.Agrees env stage a) {i : Nat} {t : Thread}
    (hi : s.threads[i]? = some t) (ht : t.hold ≠ .none) (hmid : t.midWrite = false) :
    s.engine = a := by
  refine h.whole (fun u hu => ?_)
  obtain ⟨j, hj⟩ := List.mem_iff_getElem?.mp hu
  by_cases hij : j = i
  · subst hij
    obtain rfl := Option.some.inj (hi.symm.trans hj)
    exact hmid
  · exact h.midWrite_other hi ht hj hij

/-- Thread `i` goes from `t` to `t'`; the others keep their part. -/
theorem Agrees.set (h : s.Agrees env stage a) {i : Nat} {t t' : Thread} {e' a' : KVEngine}
    {st' : Stage EngineCall EngineReply} {mutex treeMutex : SharedMutex}
    (history : List (Event Nat EngineCall EngineReply)) (hi : s.threads[i]? = some t)
    (hmutex : s.mutex.move t.hold t'.hold = some mutex)
    (htreeMutex : s.treeMutex.move t.treeHold t'.treeHold = some treeMutex)
    (hengine : t.hold ≠ .unique → e' = s.engine ∧ a' = a)
    (hkept : t.treeHold ≠ .unique → e'.tree = s.engine.tree)
    (hagrees : t'.Agrees env e' a' st') (htree : e'.tree = a'.tree)
    (hwhole : t'.midWrite = false → (t.midWrite = false → s.engine = a) → e' = a') :
    SharedEngine.Agrees env ⟨e', mutex, treeMutex, s.threads.set i t', history⟩
      (Function.update stage i st') a' where
  guards := h.guards.move hi hmutex
  treeGuards := h.treeGuards.move hi htreeMutex
  threads j u hj := by
    rcases set_cases hj with ⟨rfl, rfl⟩ | ⟨hij, hj⟩
    · rw [Function.update_self]
      exact hagrees
    · rw [Function.update_of_ne hij]
      have hu := h.threads j u hj
      by_cases ht : t.hold = .unique
      · -- Alone in the engine; a thread in the tree keeps this one from writing there.
        refine hu.frame (by rw [h.guards.alone hi ht hj hij]; nofun) (fun hread => hkept ?_)
        exact fun htu => hread (h.treeGuards.alone hi htu hj hij)
      · obtain ⟨rfl, rfl⟩ := hengine ht
        exact hu
  tree := htree
  whole hmid := by
    refine hwhole (hmid t' (List.mem_iff_getElem?.mpr ⟨i, ?_⟩)) (fun ht => h.whole (fun u hu => ?_))
    · exact List.getElem?_set_self (List.getElem?_eq_some_iff.mp hi).1
    · obtain ⟨j, hj⟩ := List.mem_iff_getElem?.mp hu
      by_cases hij : j = i
      · subst hij
        obtain rfl := Option.some.inj (hi.symm.trans hj)
        exact ht
      · refine hmid u (List.mem_iff_getElem?.mpr ⟨j, ?_⟩)
        rw [List.getElem?_set_ne (Ne.symm hij)]
        exact hj

/-- **One step of one thread**: the calls that took effect grow by what the
step does, and the threads stand as they should. -/
theorem Agrees.step (h : s.Agrees env stage a) (hstep : s.step env act = some s') :
    ∃ i st' a' seen, Advance (KVEngine.call env) i (stage i) a st' a' seen ∧
      s'.history = s.history ++ seen ∧ s'.Agrees env (Function.update stage i st') a' := by
  cases act with
  | call i c =>
      unfold SharedEngine.step at hstep
      dsimp only at hstep
      split at hstep
      next hi =>
        obtain rfl := Option.some.inj hstep
        have hst : stage i = .quiet := h.threads i _ hi
        exact ⟨i, .called c, a, [.call i c], by rw [hst]; exact .call c a, rfl,
          h.set _ hi (SharedMutex.move_self _ _) (SharedMutex.move_self _ _)
            (fun _ => ⟨rfl, rfl⟩) (fun _ => rfl) rfl h.tree (fun _ heq => heq rfl)⟩
      next => cases hstep
  | run i =>
      obtain ⟨t, hi, hstep⟩ := Option.bind_eq_some_iff.mp hstep
      obtain ⟨⟨t', e'⟩, hnext, hstep⟩ := Option.bind_eq_some_iff.mp hstep
      obtain ⟨mutex, hmutex, hstep⟩ := Option.bind_eq_some_iff.mp hstep
      obtain ⟨treeMutex, htreeMutex, hstep⟩ := Option.bind_eq_some_iff.mp hstep
      obtain rfl := Option.some.inj hstep
      obtain ⟨a', st', hfollows⟩ := Thread.next_follows (i := i) (h.threads i t hi) h.tree
        (h.whole_of_hold hi) hnext
      exact ⟨i, st', a', _, hfollows.advance, rfl,
        h.set _ hi hmutex htreeMutex
          (fun ht => ⟨Thread.next_engine hnext ht, hfollows.other ht⟩)
          (Thread.next_tree hnext) hfollows.agrees hfollows.tree hfollows.whole⟩

/-- **Every interleaving**, with the engine of the calls that took effect. -/
theorem run_agrees {e₀ : KVEngine} {n : Nat} {acts : List ThreadStep}
    (hrun : steps (step env) (start e₀ n) acts = some s) :
    ∃ trace stage a, Linearized (KVEngine.call env) e₀ trace stage a ∧
      trace.filter Event.seen = s.history ∧ s.Agrees env stage a := by
  refine steps_invariant (P := fun s => ∃ trace stage a,
    Linearized (KVEngine.call env) e₀ trace stage a ∧
      trace.filter Event.seen = s.history ∧ s.Agrees env stage a) ?_
    ⟨[], _, e₀, .nil, rfl, agrees_start env e₀ n⟩ hrun
  rintro s act s' ⟨trace, stage, a, htrace, hseen, hagrees⟩ hstep
  obtain ⟨i, st', a', seen, hadvance, hhistory, hagrees'⟩ := hagrees.step hstep
  obtain ⟨more, htrace', hmore⟩ := htrace.advance hadvance
  refine ⟨trace ++ more, _, a', htrace', ?_, hagrees'⟩
  rw [List.filter_append, hseen, hmore, hhistory]

end SharedEngine

/-- **Calls of threads that share an engine are linearizable**, in every
interleaving of their steps; while no thread holds the lock alone, the shared
engine is the one that the calls, done one by one, lead to. -/
theorem interleavings_linearizable (env : Env) (e₀ : KVEngine) (n : Nat) (acts : List ThreadStep)
    (s : SharedEngine)
    (hrun : steps (SharedEngine.step env) (SharedEngine.start e₀ n) acts = some s) :
    ∃ a, Linearizable (KVEngine.call env) e₀ s.history a ∧ s.engine.tree = a.tree ∧
      ((∀ t ∈ s.threads, t.hold ≠ .unique) → s.engine = a) := by
  obtain ⟨trace, stage, a, htrace, hseen, hagrees⟩ := SharedEngine.run_agrees hrun
  refine ⟨a, ⟨trace, stage, htrace, hseen⟩, hagrees.tree, fun hnone => ?_⟩
  refine hagrees.whole (fun t ht => Bool.eq_false_iff.mpr (fun hmid => ?_))
  exact hnone t ht (SharedEngine.hold_of_midWrite hmid)

/-- One thread puts while another, whose iterator is older, still moves it. -/
def putDuringScan : List ThreadStep :=
  [.call 0 (.put [1] [2]), .call 1 (.iterate none none [.next]), .run 1, .run 1, .run 1, .run 1,
    .run 0, .run 0, .run 0, .run 0, .run 1, .run 1, .run 1, .run 0, .run 0, .run 0, .run 0]

theorem putDuringScan_runs : ∃ e₀ s, KVEngine.new .undisturbed {} {} = some e₀ ∧
    steps (SharedEngine.step .undisturbed) (.start e₀ 2) putDuringScan = some s ∧
    s.history = [.call 0 (.put [1] [2]), .call 1 (.iterate none none [.next]),
      .ret 1 (.views [⟨.okStatus, false, [], []⟩, ⟨.okStatus, false, [], []⟩]),
      .ret 0 (.status .okStatus)] := by
  have hrun : ((KVEngine.new .undisturbed {} {}).bind (fun e₀ =>
      steps (SharedEngine.step .undisturbed) (.start e₀ 2) putDuringScan)).map
        SharedEngine.history
      = some [.call 0 (.put [1] [2]), .call 1 (.iterate none none [.next]),
        .ret 1 (.views [⟨.okStatus, false, [], []⟩, ⟨.okStatus, false, [], []⟩]),
        .ret 0 (.status .okStatus)] := by decide +kernel
  obtain ⟨s, hs, hhistory⟩ := Option.map_eq_some_iff.mp hrun
  obtain ⟨e₀, hnew, hsteps⟩ := Option.bind_eq_some_iff.mp hs
  exact ⟨e₀, s, hnew, hsteps, hhistory⟩

theorem interleavings_linearizable_scan : ∃ e₀ s, KVEngine.new .undisturbed {} {} = some e₀ ∧
    steps (SharedEngine.step .undisturbed) (.start e₀ 2) putDuringScan = some s ∧
    ∃ a, Linearizable (KVEngine.call .undisturbed) e₀ s.history a ∧ s.engine.tree = a.tree ∧
      ((∀ t ∈ s.threads, t.hold ≠ .unique) → s.engine = a) := by
  obtain ⟨e₀, s, hnew, hrun, -⟩ := putDuringScan_runs
  exact ⟨e₀, s, hnew, hrun, interleavings_linearizable .undisturbed e₀ 2 putDuringScan s hrun⟩

end KvEngine
