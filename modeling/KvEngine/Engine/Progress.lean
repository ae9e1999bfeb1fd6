/-
  KvEngine.Engine.Progress
  ────────────────────────
  **No call on a shared engine waits forever.**

  A thread holds the engine's lock before it asks for the tree's, and with
  the tree's it asks for nothing more, so that the locks cannot close a
  circle; and no thread has more than `left` steps to do.

  Main results:
    * `Agrees.not_blocked` — of the threads in a call one is not blocked;
    * `next_isSome` — nor is its step undefined, but where a record does not
      fit the write buffer;
    * `interleavings_hold_map` — whatever threads are doing, the tree
      represents a map;
    * `calls_return` — the calls under way return after a bounded number of
      steps.
-/
import KvEngine.BTree.VerifyRun
import KvEngine.Engine.Atomicity
import KvEngine.Engine.Reached

namespace KvEngine

open Lib

variable {env : Env} {e e' a : KVEngine} {t t' : Thread} {c : EngineCall}

variable {st : Stage EngineCall EngineReply}

/-- The calls on the iterator of a call. -/
def EngineCall.moves : EngineCall → Nat
  | .iterate _ _ moves => moves.length
  | _ => 0

namespace Thread

/-! ## §1. Where a step leads. -/

/-- From one place in a call to the next. -/
inductive Leads : Thread → Thread → Prop
  | enter (c : EngineCall) : Leads (waiting c) (inEngine c)
  | number {c : EngineCall} (hc : c.treeHold = .unique) (seq : UInt64) :
      Leads (inEngine c) (numbered c seq)
  | reach {c : EngineCall} (hc : c.treeHold = .shared) : Leads (inEngine c) (inTree c)
  | serve {c : EngineCall} (hc : c.treeHold = .none) (reply : EngineReply) :
      Leads (inEngine c) (leaving c reply)
  | refuse {c : EngineCall} (hc : c.treeHold = .unique) (seq : UInt64) (reply : EngineReply) :
      Leads (numbered c seq) (leaving c reply)
  | write (c : EngineCall) (seq : UInt64) : Leads (numbered c seq) (written c)
  | skip (c : EngineCall) (seq : UInt64) : Leads (numbered c seq) (logged c)
  | unsynced {c : EngineCall} (hc : c.treeHold = .unique) (reply : EngineReply) :
      Leads (written c) (leaving c reply)
  | sync (c : EngineCall) : Leads (written c) (logged c)
  | descend {c : EngineCall} (hc : c.treeHold = .unique) (hkey : ∀ value, c ≠ .put [] value) :
      Leads (logged c) (inTree c)
  | reject (value : Bytes) (reply : EngineReply) :
      Leads (logged (.put [] value)) (leaving (.put [] value) reply)
  | use (c : EngineCall) (reply : EngineReply) : Leads (inTree c) (leavingTree c reply)
  | create (start limit : Option Bytes) (moves : List IteratorCall) (it : Iterator) :
      Leads (inTree (.iterate start limit moves)) (opened it moves)
  | iterate (it : Iterator) (moves : List IteratorCall) :
      Leads (opened it moves) (iterating it moves [])
  | move (it it' : Iterator) (move : IteratorCall) (moves : List IteratorCall)
      (seen seen' : List View) :
      Leads (iterating it (move :: moves) seen) (iterating it' moves seen')
  | close (it : Iterator) (seen : List View) (reply : EngineReply) :
      Leads (iterating it [] seen) (closing reply)
  | leaveTree (c : EngineCall) (reply : EngineReply) :
      Leads (leavingTree c reply) (leaving c reply)
  | leave (c : EngineCall) (reply : EngineReply) : Leads (leaving c reply) idle
  | destroy (reply : EngineReply) : Leads (closing reply) idle

/-- **Where one step leads.** -/
theorem next_leads (hag : t.Agrees env e a st) (hnext : t.next env e = some (t', e')) :
    Leads t t' := by
  cases t with
  | idle => cases hnext
  | waiting c =>
      obtain ⟨rfl, -⟩ := Prod.mk.inj (Option.some.inj hnext)
      exact .enter c
  | inEngine c =>
      cases c with
      | put _ _ | delete _ =>
          obtain ⟨rfl, -⟩ := Prod.mk.inj (Option.some.inj hnext)
          exact .number rfl _
      | flush | sync | getWalStats =>
          obtain ⟨rfl, -⟩ := Prod.mk.inj (Option.some.inj hnext)
          exact .serve rfl _
      | get _ | verify | iterate _ _ _ =>
          obtain ⟨rfl, -⟩ := Prod.mk.inj (Option.some.inj hnext)
          exact .reach rfl
  | numbered c seq =>
      obtain ⟨-, rfl, -⟩ | ⟨_, _, _, -, -, -, ⟨-, rfl⟩ | ⟨-, rfl⟩⟩ := next_numbered hnext
      · exact .skip c seq
      · exact .refuse hag.2.1 seq _
      · exact .write c seq
  | written c =>
      obtain ⟨_, -, -, ⟨-, rfl⟩ | ⟨-, rfl⟩⟩ := next_written hnext
      · exact .unsynced hag.2.1 _
      · exact .sync c
  | logged c =>
      obtain ⟨-, ⟨hkey, rfl⟩ | ⟨value, rfl, rfl⟩⟩ := next_logged hnext
      · exact .descend hag.2.1 hkey
      · exact .reject value _
  | inTree c =>
      cases c with
      | put _ _ | delete _ | get _ | verify =>
          obtain ⟨_, -, heq⟩ := Option.map_eq_some_iff.mp hnext
          obtain ⟨rfl, -⟩ := Prod.mk.inj heq
          exact .use _ _
      | iterate _ _ _ =>
          obtain ⟨_, -, heq⟩ := Option.map_eq_some_iff.mp hnext
          obtain ⟨rfl, -⟩ := Prod.mk.inj heq
          exact .create _ _ _ _
      | flush | sync | getWalStats => cases hnext
  | opened it moves =>
      obtain ⟨rfl, -⟩ := Prod.mk.inj (Option.some.inj hnext)
      exact .iterate it moves
  | iterating it moves seen =>
      obtain ⟨view, -, hnext⟩ := Option.bind_eq_some_iff.mp hnext
      cases moves with
      | nil =>
          obtain ⟨rfl, -⟩ := Prod.mk.inj (Option.some.inj hnext)
          exact .close it seen _
      | cons move moves =>
          obtain ⟨_, -, hnext⟩ := Option.bind_eq_some_iff.mp hnext
          obtain ⟨rfl, -⟩ := Prod.mk.inj (Option.some.inj hnext)
          exact .move it _ move moves seen _
  | leavingTree c reply =>
      obtain ⟨rfl, -⟩ := Prod.mk.inj (Option.some.inj hnext)
      exact .leaveTree c reply
  | leaving c reply =>
      obtain ⟨rfl, -⟩ := Prod.mk.inj (Option.some.inj hnext)
      exact .leave c reply
  | closing reply =>
      obtain ⟨rfl, -⟩ := Prod.mk.inj (Option.some.inj hnext)
      exact .destroy reply

/-- The steps to the end of the call. -/
def left : Thread → Nat
  | idle => 0
  | leaving _ _ | closing _ => 1
  | leavingTree _ _ => 2
  | iterating _ moves _ => 2 + moves.length
  | opened _ moves => 3 + moves.length
  | inTree c => 4 + c.moves
  | logged c => 5 + c.moves
  | written c => 6 + c.moves
  | numbered c _ => 7 + c.moves
  | inEngine c => 8 + c.moves
  | waiting c => 9 + c.moves

theorem Leads.left_lt (h : Leads t t') : t'.left < t.left := by
  cases h <;> simp only [left, EngineCall.moves, List.length_cons] <;> omega

/-! ## §2. What a thread asks of the locks. -/

/-- The hold on `KVEngine::mutex_` that the next step takes. -/
def asks : Thread → Hold
  | waiting c => c.hold
  | _ => .none

/-- The hold on `BPlusTree::mutex_` that the next step takes. -/
def asksTree : Thread → Hold
  | inEngine c => if c.treeHold = .shared then .shared else .none
  | logged c =>
      match c with
      | .put [] _ => .none
      | _ => c.treeHold
  | _ => .none

theorem asksTree_logged (hkey : ∀ value, c ≠ .put [] value) :
    (logged c).asksTree = c.treeHold := by
  cases c with
  | put key value =>
      cases key with
      | nil => exact absurd rfl (hkey value)
      | cons _ _ => rfl
  | delete _ | get _ | flush | sync | getWalStats | verify | iterate _ _ _ => rfl

theorem hold_of_treeHold (h : c.treeHold ≠ .none) : c.hold = c.treeHold := by
  cases c with
  | put _ _ | delete _ | get _ | verify | iterate _ _ _ => rfl
  | flush | sync | getWalStats => exact absurd rfl h

/-- **A step keeps its locks or lets go of them, but where it asks for one**;
it asks for the engine's with nothing in its hands, and for the tree's with
the engine's alone. -/
theorem Leads.locks (h : Leads t t') :
    ((t'.hold = t.hold ∨ t'.hold = .none) ∧ t.asks = .none ∨
        t.hold = .none ∧ t'.hold = t.asks) ∧
      ((t'.treeHold = t.treeHold ∨ t'.treeHold = .none) ∧ t.asksTree = .none ∨
        t.treeHold = .none ∧ t'.treeHold = t.asksTree) := by
  cases h with
  | enter => exact ⟨Or.inr ⟨rfl, rfl⟩, Or.inl ⟨Or.inl rfl, rfl⟩⟩
  | number hc =>
      refine ⟨Or.inl ⟨Or.inl ?_, rfl⟩, Or.inl ⟨Or.inl rfl, ?_⟩⟩
      · exact ((hold_of_treeHold (by rw [hc]; nofun)).trans hc).symm
      · exact if_neg (by rw [hc]; nofun)
  | reach hc =>
      refine ⟨Or.inl ⟨Or.inl rfl, rfl⟩, Or.inr ⟨rfl, ?_⟩⟩
      exact hc.trans (if_pos hc).symm
  | serve hc =>
      refine ⟨Or.inl ⟨Or.inl rfl, rfl⟩, Or.inl ⟨Or.inl rfl, ?_⟩⟩
      exact if_neg (by rw [hc]; nofun)
  | refuse hc | unsynced hc =>
      refine ⟨Or.inl ⟨Or.inl ?_, rfl⟩, Or.inl ⟨Or.inl rfl, rfl⟩⟩
      exact (hold_of_treeHold (by rw [hc]; nofun)).trans hc
  | descend hc hkey =>
      refine ⟨Or.inl ⟨Or.inl ?_, rfl⟩, Or.inr ⟨rfl, ?_⟩⟩
      · exact (hold_of_treeHold (by rw [hc]; nofun)).trans hc
      · exact (asksTree_logged hkey).symm
  | reject => exact ⟨Or.inl ⟨Or.inl rfl, rfl⟩, Or.inl ⟨Or.inl rfl, rfl⟩⟩
  | iterate => exact ⟨Or.inl ⟨Or.inr rfl, rfl⟩, Or.inl ⟨Or.inl rfl, rfl⟩⟩
  | leaveTree | destroy => exact ⟨Or.inl ⟨Or.inl rfl, rfl⟩, Or.inl ⟨Or.inr rfl, rfl⟩⟩
  | leave => exact ⟨Or.inl ⟨Or.inr rfl, rfl⟩, Or.inl ⟨Or.inl rfl, rfl⟩⟩
  | write | skip | sync | use | create | move | close =>
      exact ⟨Or.inl ⟨Or.inl rfl, rfl⟩, Or.inl ⟨Or.inl rfl, rfl⟩⟩

theorem asks_of_treeHold (h : t.treeHold ≠ .none) : t.asks = .none ∧ t.asksTree = .none := by
  cases t with
  | inTree _ | opened _ _ | iterating _ _ _ | closing _ | leavingTree _ _ => exact ⟨rfl, rfl⟩
  | idle | waiting _ | inEngine _ | numbered _ _ | written _ | logged _ | leaving _ _ =>
      exact absurd rfl h

theorem asks_of_asksTree (h : t.asksTree ≠ .none) : t.asks = .none := by
  cases t with
  | waiting _ => exact absurd rfl h
  | _ => rfl

theorem asks_of_hold (h : t.hold ≠ .none) : t.asks = .none := by
  cases t with
  | waiting _ => exact absurd rfl h
  | _ => rfl

/-- A thread in a call holds a lock or asks for the first. -/
theorem busy_cases (h : t ≠ idle) : t.treeHold ≠ .none ∨ t.hold ≠ .none ∨ t.asks ≠ .none := by
  have hcall : ∀ c : EngineCall, c.hold ≠ .none := by intro c; cases c <;> nofun
  cases t with
  | idle => exact absurd rfl h
  | waiting c => exact Or.inr (Or.inr (hcall c))
  | inEngine c | inTree c | leavingTree c _ | leaving c _ => exact Or.inr (Or.inl (hcall c))
  | numbered _ _ | written _ | logged _ => exact Or.inr (Or.inl nofun)
  | opened _ _ | iterating _ _ _ | closing _ => exact Or.inl nofun

end Thread

namespace SharedEngine

variable {s s' : SharedEngine} {stage : Nat → Stage EngineCall EngineReply}

/-! ## §3. One thread is not blocked. -/

/-- The thread asks to share a lock that another asks to hold alone, and may
have to wait behind it. -/
def Behind (s : SharedEngine) (t : Thread) : Prop :=
  (t.asks = .shared ∧ ∃ u ∈ s.threads, u.asks = .unique) ∨
    (t.asksTree = .shared ∧ ∃ u ∈ s.threads, u.asksTree = .unique)

/-- The locks let the thread do its next step. -/
def Admits (s : SharedEngine) (t : Thread) : Prop :=
  ∀ t', Thread.Leads t t' → (∃ m, s.mutex.move t.hold t'.hold = some m) ∧
    ∃ m, s.treeMutex.move t.treeHold t'.treeHold = some m

/-- A lock is no obstacle to a thread that does not ask for it, and a lock
that nobody holds to no thread. -/
theorem Agrees.admits (h : s.Agrees env stage a)
    (hmutex : t.asks = .none ∨ ∀ u ∈ s.threads, u.hold = .none)
    (htree : t.asksTree = .none ∨ ∀ u ∈ s.threads, u.treeHold = .none) : s.Admits t := by
  intro t' hleads
  obtain ⟨hlock, htreeLock⟩ := hleads.locks
  constructor
  · rcases hlock with ⟨hkept, -⟩ | ⟨hnone, hasks⟩
    · exact SharedMutex.move_of_kept _ hkept
    · rcases hmutex with hmutex | hfree
      · exact SharedMutex.move_of_kept _ (Or.inr (hasks.trans hmutex))
      · rw [hnone]
        exact h.guards.move_of_free hfree _
  · rcases htreeLock with ⟨hkept, -⟩ | ⟨hnone, hasks⟩
    · exact SharedMutex.move_of_kept _ hkept
    · rcases htree with htree | hfree
      · exact SharedMutex.move_of_kept _ (Or.inr (hasks.trans htree))
      · rw [hnone]
        exact h.treeGuards.move_of_free hfree _

theorem not_behind (hasks : t.asks = .shared → ∀ u ∈ s.threads, u.asks ≠ .unique)
    (htree : t.asksTree = .shared → ∀ u ∈ s.threads, u.asksTree ≠ .unique) : ¬ s.Behind t := by
  rintro (⟨ht, u, hu, huniq⟩ | ⟨ht, u, hu, huniq⟩)
  · exact hasks ht u hu huniq
  · exact htree ht u hu huniq

/-- **Of the threads in a call, one is not blocked**, even where a lock lets
those that want to share it wait behind one that wants it alone. -/
theorem Agrees.not_blocked (h : s.Agrees env stage a) (hbusy : ∃ t ∈ s.threads, t ≠ .idle) :
    ∃ t ∈ s.threads, t ≠ .idle ∧ s.Admits t ∧ ¬ s.Behind t := by
  by_cases hinTree : ∃ t ∈ s.threads, t.treeHold ≠ .none
  · -- A thread in the tree asks for nothing.
    obtain ⟨t, ht, hhold⟩ := hinTree
    obtain ⟨hasks, hasksTree⟩ := Thread.asks_of_treeHold hhold
    refine ⟨t, ht, ?_, h.admits (Or.inl hasks) (Or.inl hasksTree), not_behind ?_ ?_⟩
    · rintro rfl
      exact hhold rfl
    · rw [hasks]; nofun
    · rw [hasksTree]; nofun
  have hfreeTree : ∀ u ∈ s.threads, u.treeHold = .none :=
    fun u hu => Decidable.byContradiction fun hn => hinTree ⟨u, hu, hn⟩
  by_cases hasking : ∃ t ∈ s.threads, t.asksTree ≠ .none
  · -- Nobody is in the tree, so that it can be entered.
    obtain ⟨t, ht, hask, hfirst⟩ := SharedMutex.exists_first hasking
    have hasks := Thread.asks_of_asksTree hask
    refine ⟨t, ht, ?_, h.admits (Or.inl hasks) (Or.inr hfreeTree), not_behind ?_ hfirst⟩
    · rintro rfl
      exact hask rfl
    · rw [hasks]; nofun
  have hnoAsk : ∀ u ∈ s.threads, u.asksTree = .none :=
    fun u hu => Decidable.byContradiction fun hn => hasking ⟨u, hu, hn⟩
  by_cases hinEngine : ∃ t ∈ s.threads, t.hold ≠ .none
  · -- A thread in the engine that asks for nothing.
    obtain ⟨t, ht, hhold⟩ := hinEngine
    have hasks := Thread.asks_of_hold hhold
    refine ⟨t, ht, ?_, h.admits (Or.inl hasks) (Or.inl (hnoAsk t ht)), not_behind ?_ ?_⟩
    · rintro rfl
      exact hhold rfl
    · rw [hasks]; nofun
    · rw [hnoAsk t ht]; nofun
  -- Nobody is in the engine, so that it can be entered.
  have hfree : ∀ u ∈ s.threads, u.hold = .none :=
    fun u hu => Decidable.byContradiction fun hn => hinEngine ⟨u, hu, hn⟩
  have hask : ∃ t ∈ s.threads, t.asks ≠ .none := by
    obtain ⟨t, ht, hidle⟩ := hbusy
    rcases Thread.busy_cases hidle with htree | hhold | hasks
    · exact absurd (hfreeTree t ht) htree
    · exact absurd (hfree t ht) hhold
    · exact ⟨t, ht, hasks⟩
  obtain ⟨t, ht, hask, hfirst⟩ := SharedMutex.exists_first hask
  refine ⟨t, ht, ?_, h.admits (Or.inr hfree) (Or.inr hfreeTree), not_behind hfirst ?_⟩
  · rintro rfl
    exact hask rfl
  · rw [hnoAsk t ht]; nofun

end SharedEngine

/-! ## §4. Its step is defined. -/

namespace Thread

variable {o : BTreeOptions} {m : RefMap}

/-- What the next step of a thread relies on. -/
def Fit (e : KVEngine) : Thread → Prop
  | written _ => e.wal ≠ none
  | inTree c => c.treeHold ≠ .none
  | opened it _ | iterating it _ _ => ∃ start limit, Iterator.Standing e.tree start limit it
  | _ => True

/-- The record does not fit the write buffer, where copying it has no defined
result. -/
def Overruns (env : Env) (e : KVEngine) (t : Thread) : Prop :=
  ∃ c seq w, t = numbered c seq ∧ e.wal = some w ∧ c.log env w seq = none

theorem standing_new (h : BPlusTree.Models o e.tree m) (start limit : Option Bytes) :
    ∃ it, Iterator.new e.tree start limit = some it ∧
      Iterator.Standing e.tree start limit it := by
  obtain ⟨_, _, hrep, -, -⟩ := h
  exact Iterator.standing_new hrep start limit

theorem standing_call (h : BPlusTree.Models o e.tree m) {it : Iterator}
    {start limit : Option Bytes} (hit : Iterator.Standing e.tree start limit it)
    (move : IteratorCall) :
    ∃ it', it.call e.tree move = some it' ∧ Iterator.Standing e.tree start limit it' := by
  obtain ⟨_, _, hrep, -, -⟩ := h
  exact hit.call hrep move

/-- An iterator on the chain shows something. -/
theorem standing_view {it : Iterator} {start limit : Option Bytes}
    (hit : Iterator.Standing e.tree start limit it) : ∃ view, it.view e.tree = some view := by
  obtain ⟨⟨ls, hcur⟩, -, -⟩ := hit
  rcases Iterator.valid_cases hcur with ⟨l, ls', entry, es, rfl, hd, hbelow⟩ | hinvalid
  · obtain ⟨hvalid, hentry⟩ := Iterator.valid_cons hcur hd hbelow
    exact ⟨_, by rw [Iterator.view, hvalid, hentry]; rfl⟩
  · exact ⟨_, by rw [Iterator.view, Iterator.entry, hinvalid]; rfl⟩

/-- The tree's functions are defined on a tree that represents a map. -/
theorem change_isSome (h : BPlusTree.Models o e.tree m) (hc : c.treeHold = .unique) :
    ∃ r, c.change e.tree = some r := by
  cases c with
  | put key value =>
      obtain ⟨t', hput, -⟩ := BPlusTree.apply_refines o e.tree m (.put key value) h trivial
      obtain ⟨r, hr, -⟩ := Option.map_eq_some_iff.mp hput
      exact ⟨r, hr⟩
  | delete key =>
      obtain ⟨t', hdelete, -⟩ := BPlusTree.apply_refines o e.tree m (.delete key) h trivial
      obtain ⟨r, hr, -⟩ := Option.map_eq_some_iff.mp hdelete
      exact ⟨r, hr⟩
  | get _ | flush | sync | getWalStats | verify | iterate _ _ _ => cases hc

/-- **A thread in a call has a next step**, but where its record does not fit. -/
theorem next_isSome (h : BPlusTree.Models o e.tree m) (hfit : t.Fit e) (hidle : t ≠ idle) :
    (∃ r, t.next env e = some r) ∨ t.Overruns env e := by
  cases t with
  | idle => exact absurd rfl hidle
  | waiting _ | opened _ _ | leavingTree _ _ | leaving _ _ | closing _ =>
      exact Or.inl ⟨_, rfl⟩
  | logged c =>
      refine Or.inl ?_
      unfold next
      dsimp only
      split <;> exact ⟨_, rfl⟩
  | inEngine c =>
      cases c with
      | put _ _ | delete _ | flush | sync | getWalStats | get _ | verify | iterate _ _ _ =>
          exact Or.inl ⟨_, rfl⟩
  | numbered c seq =>
      cases hwal : e.wal with
      | none => exact Or.inl ⟨_, by simp only [next, hwal]; rfl⟩
      | some w =>
          cases hlog : c.log env w seq with
          | none => exact Or.inr ⟨c, seq, w, rfl, hwal, hlog⟩
          | some r =>
              simp only [next, hwal, hlog, Option.bind_eq_bind, Option.bind_some]
              exact Or.inl (by split <;> exact ⟨_, rfl⟩)
  | written c =>
      obtain ⟨w, hwal⟩ := Option.ne_none_iff_exists'.mp hfit
      simp only [next, hwal, Option.bind_eq_bind, Option.bind_some]
      change (∃ r, (if !(e.syncLog env w).1.ok then some _ else some _) = some r) ∨ _
      exact Or.inl (by split <;> exact ⟨_, rfl⟩)
  | inTree c =>
      cases c with
      | put key value =>
          obtain ⟨r, hr⟩ := @change_isSome e (.put key value) o m h rfl
          exact Or.inl ⟨_, Option.map_eq_some_iff.mpr ⟨r, hr, rfl⟩⟩
      | delete key =>
          obtain ⟨r, hr⟩ := @change_isSome e (.delete key) o m h rfl
          exact Or.inl ⟨_, Option.map_eq_some_iff.mpr ⟨r, hr, rfl⟩⟩
      | get key => exact Or.inl ⟨_, Option.map_eq_some_iff.mpr ⟨_, h.get key, rfl⟩⟩
      | verify =>
          obtain ⟨_, _, hrep, -, -⟩ := h
          exact Or.inl ⟨_, Option.map_eq_some_iff.mpr
            ⟨_, BPlusTree.verify_of_represents hrep, rfl⟩⟩
      | iterate start limit moves =>
          obtain ⟨it, hnew, -⟩ := standing_new h start limit
          exact Or.inl ⟨_, Option.map_eq_some_iff.mpr ⟨it, hnew, rfl⟩⟩
      | flush | sync | getWalStats => exact absurd rfl hfit
  | iterating it moves seen =>
      obtain ⟨start, limit, hit⟩ := hfit
      obtain ⟨view, hview⟩ := standing_view hit
      cases moves with
      | nil => exact Or.inl ⟨_, by simp only [next, hview]; rfl⟩
      | cons move moves =>
          obtain ⟨it', hcall, -⟩ := standing_call h hit move
          exact Or.inl ⟨_, by simp only [next, hview, hcall]; rfl⟩

/-- What a thread relies on is there after its step. -/
theorem Fit.next (hfit : t.Fit e) (hag : t.Agrees env e a st) (h : BPlusTree.Models o e.tree m)
    (hnext : t.next env e = some (t', e')) : t'.Fit e' := by
  cases t with
  | idle => cases hnext
  | inEngine c =>
      cases c with
      | put _ _ | delete _ | flush | sync | getWalStats =>
          obtain ⟨rfl, -⟩ := Prod.mk.inj (Option.some.inj hnext)
          trivial
      | get _ | verify | iterate _ _ _ =>
          obtain ⟨rfl, -⟩ := Prod.mk.inj (Option.some.inj hnext)
          exact nofun
  | numbered c seq =>
      obtain ⟨-, rfl, -⟩ | ⟨_, _, _, -, -, rfl, ⟨-, rfl⟩ | ⟨-, rfl⟩⟩ := next_numbered hnext
      · trivial
      · trivial
      · exact nofun
  | written c =>
      obtain ⟨_, -, -, ⟨-, rfl⟩ | ⟨-, rfl⟩⟩ := next_written hnext
      · trivial
      · trivial
  | logged c =>
      obtain ⟨-, ⟨-, rfl⟩ | ⟨value, rfl, rfl⟩⟩ := next_logged hnext
      · show c.treeHold ≠ .none
        rw [hag.2.1]
        nofun
      · trivial
  | inTree c =>
      cases c with
      | put _ _ | delete _ | get _ | verify =>
          obtain ⟨_, -, heq⟩ := Option.map_eq_some_iff.mp hnext
          obtain ⟨rfl, -⟩ := Prod.mk.inj heq
          trivial
      | iterate start limit moves =>
          obtain ⟨it, hnew, heq⟩ := Option.map_eq_some_iff.mp hnext
          obtain ⟨rfl, rfl⟩ := Prod.mk.inj heq
          obtain ⟨it', hnew', hit⟩ := standing_new h start limit
          obtain rfl := Option.some.inj (hnew.symm.trans hnew')
          exact ⟨start, limit, hit⟩
      | flush | sync | getWalStats => cases hnext
  | opened it moves =>
      obtain ⟨rfl, rfl⟩ := Prod.mk.inj (Option.some.inj hnext)
      exact hfit
  | iterating it moves seen =>
      obtain ⟨start, limit, hit⟩ := hfit
      obtain ⟨view, -, hnext⟩ := Option.bind_eq_some_iff.mp hnext
      cases moves with
      | nil =>
          obtain ⟨rfl, -⟩ := Prod.mk.inj (Option.some.inj hnext)
          trivial
      | cons move moves =>
          obtain ⟨it₁, hcall, hnext⟩ := Option.bind_eq_some_iff.mp hnext
          obtain ⟨rfl, rfl⟩ := Prod.mk.inj (Option.some.inj hnext)
          obtain ⟨it', hcall', hit'⟩ := standing_call h hit move
          obtain rfl := Option.some.inj (hcall.symm.trans hcall')
          exact ⟨start, limit, hit'⟩
  | waiting _ | leavingTree _ _ | leaving _ _ | closing _ =>
      obtain ⟨rfl, -⟩ := Prod.mk.inj (Option.some.inj hnext)
      trivial

/-- Nor do others take it away, who lack the locks. -/
theorem Fit.frame (hfit : t.Fit e) (hwal : t.hold ≠ .none → e' = e)
    (htree : t.treeHold ≠ .none → e'.tree = e.tree) : t.Fit e' := by
  cases t with
  | written c =>
      obtain rfl := hwal nofun
      exact hfit
  | opened it moves | iterating it moves seen =>
      obtain ⟨start, limit, hit⟩ := hfit
      refine ⟨start, limit, ?_⟩
      rw [htree nofun]
      exact hit
  | inTree c => exact hfit
  | _ => trivial

end Thread

/-! ## §5. Every interleaving. -/

namespace KVEngine

variable {options : KVEngineOptions}

/-- A call leaves a tree that represents a map. -/
theorem HoldsMap.call (h : HoldsMap options e) {reply : EngineReply}
    (hrun : e.call env c = some (reply, e')) : HoldsMap options e' := by
  cases c with
  | put key value =>
      obtain ⟨⟨s, e₁⟩, hput, heq⟩ := Option.map_eq_some_iff.mp hrun
      obtain ⟨-, rfl⟩ := Prod.mk.inj heq
      exact h.logged (.put key value) (fun _ => rfl) hput
  | delete key =>
      obtain ⟨⟨s, e₁⟩, hdelete, heq⟩ := Option.map_eq_some_iff.mp hrun
      obtain ⟨-, rfl⟩ := Prod.mk.inj heq
      exact h.logged (.delete key) (fun _ => rfl) hdelete
  | flush =>
      obtain ⟨-, rfl⟩ := Prod.mk.inj (Option.some.inj hrun)
      exact h.apply (show e.apply env .flush = some _ from rfl)
  | sync =>
      obtain ⟨-, rfl⟩ := Prod.mk.inj (Option.some.inj hrun)
      exact h.apply (show e.apply env .sync = some _ from rfl)
  | getWalStats =>
      obtain ⟨-, rfl⟩ := Prod.mk.inj (Option.some.inj hrun)
      exact h
  | get _ | verify | iterate _ _ _ =>
      obtain ⟨_, -, heq⟩ := Option.map_eq_some_iff.mp hrun
      obtain ⟨-, rfl⟩ := Prod.mk.inj heq
      exact h

end KVEngine

namespace SharedEngine

variable {options : KVEngineOptions} {s s' : SharedEngine} {act : ThreadStep}

/-- What every state of every interleaving has. -/
def Sound (env : Env) (options : KVEngineOptions) (s : SharedEngine) : Prop :=
  (∃ stage a, s.Agrees env stage a ∧ KVEngine.HoldsMap options a) ∧
    ∀ t ∈ s.threads, t.Fit s.engine

theorem Sound.models (h : s.Sound env options) :
    ∃ m, BPlusTree.Models (BPlusTree.new options.btreeOptions).options s.engine.tree m := by
  obtain ⟨⟨stage, a, hagrees, -, m, hmodels⟩, -⟩ := h
  exact ⟨m, hagrees.tree ▸ hmodels⟩

/-- The steps of `run`, taken apart. -/
theorem run_cases {i : Nat} (hstep : s.step env (.run i) = some s') :
    ∃ t t', s.threads[i]? = some t ∧ t.next env s.engine = some (t', s'.engine) ∧
      s'.threads = s.threads.set i t' := by
  obtain ⟨t, hi, hstep⟩ := Option.bind_eq_some_iff.mp hstep
  obtain ⟨⟨t', e'⟩, hnext, hstep⟩ := Option.bind_eq_some_iff.mp hstep
  obtain ⟨_, -, hstep⟩ := Option.bind_eq_some_iff.mp hstep
  obtain ⟨_, -, hstep⟩ := Option.bind_eq_some_iff.mp hstep
  obtain rfl := Option.some.inj hstep
  exact ⟨t, t', hi, hnext, rfl⟩

theorem Sound.step (h : s.Sound env options) (hstep : s.step env act = some s') :
    s'.Sound env options := by
  obtain ⟨m, hmodels⟩ := h.models
  obtain ⟨⟨stage, a, hagrees, hholds⟩, hfit⟩ := h
  obtain ⟨i, st', a', seen, hadvance, -, hagrees'⟩ := hagrees.step hstep
  refine ⟨⟨_, a', hagrees', hadvance.keeps hholds (fun _ _ _ _ h hcall => h.call hcall)⟩, ?_⟩
  intro u hu
  obtain ⟨j, hj⟩ := List.mem_iff_getElem?.mp hu
  cases act with
  | call i c =>
      unfold SharedEngine.step at hstep
      dsimp only at hstep
      split at hstep
      next hi =>
        obtain rfl := Option.some.inj hstep
        rcases set_cases hj with ⟨-, rfl⟩ | ⟨-, hj⟩
        · trivial
        · exact hfit u (List.mem_of_getElem? hj)
      next => cases hstep
  | run i =>
      obtain ⟨t, t', hi, hnext, hthreads⟩ := run_cases hstep
      rw [hthreads] at hj
      rcases set_cases hj with ⟨-, rfl⟩ | ⟨hij, hj⟩
      · exact (hfit t (List.mem_of_getElem? hi)).next (hagrees.threads i t hi) hmodels hnext
      · refine (hfit u (List.mem_of_getElem? hj)).frame (fun hu => ?_) (fun hu => ?_)
        · exact Thread.next_engine hnext (fun ht => hu (hagrees.guards.alone hi ht hj hij))
        · exact Thread.next_tree hnext (fun ht => hu (hagrees.treeGuards.alone hi ht hj hij))

theorem run_sound {e₀ : KVEngine} (h₀ : KVEngine.Reached env options e₀) {n : Nat}
    {acts : List ThreadStep} (hrun : steps (step env) (start e₀ n) acts = some s) :
    s.Sound env options := by
  refine steps_invariant (fun s act s' h hstep => h.step hstep) ?_ hrun
  refine ⟨⟨_, e₀, agrees_start env e₀ n, h₀.holdsMap⟩, fun t ht => ?_⟩
  rw [List.eq_of_mem_replicate ht]
  trivial

/-- One of the threads in a call can go on. -/
theorem Sound.goes_on (h : s.Sound env options) (hbusy : ∃ t ∈ s.threads, t ≠ .idle) :
    ∃ i t, s.threads[i]? = some t ∧ ¬ s.Behind t ∧
      ((∃ s', s.step env (.run i) = some s') ∨ t.Overruns env s.engine) := by
  obtain ⟨m, hmodels⟩ := h.models
  obtain ⟨⟨stage, a, hagrees, -⟩, hfit⟩ := h
  obtain ⟨t, ht, hidle, hadmits, hbehind⟩ := hagrees.not_blocked hbusy
  obtain ⟨i, hi⟩ := List.mem_iff_getElem?.mp ht
  refine ⟨i, t, hi, hbehind, ?_⟩
  rcases @Thread.next_isSome env s.engine t _ m hmodels (hfit t ht) hidle with
    ⟨⟨t', e'⟩, hnext⟩ | hover
  · obtain ⟨⟨mutex, hmutex⟩, ⟨treeMutex, htreeMutex⟩⟩ :=
      hadmits t' (Thread.next_leads (hagrees.threads i t hi) hnext)
    exact Or.inl ⟨_, by
      simp only [SharedEngine.step, hi, hnext, hmutex, htreeMutex, Option.bind_eq_bind,
        Option.bind_some]
      rfl⟩
  · exact Or.inr hover

/-- A step of a thread brings the end of its call nearer. -/
theorem Sound.run_left (h : s.Sound env options) {i : Nat} (hstep : s.step env (.run i) = some s') :
    total Thread.left s'.threads < total Thread.left s.threads := by
  obtain ⟨⟨stage, a, hagrees, -⟩, -⟩ := h
  obtain ⟨t, t', hi, hnext, hthreads⟩ := run_cases hstep
  have hlt := (Thread.next_leads (hagrees.threads i t hi) hnext).left_lt
  have htotal := total_set (g := Thread.left) hi t'
  rw [hthreads]
  omega

theorem Sound.runs_left : ∀ {is : List Nat} {s s' : SharedEngine}, s.Sound env options →
    steps (SharedEngine.step env) s (is.map .run) = some s' →
      is.length ≤ total Thread.left s.threads := by
  intro is
  induction is with
  | nil => intro s s' _ _; exact Nat.zero_le _
  | cons i is ih =>
      intro s s' h hrun
      rw [List.map_cons, steps_cons] at hrun
      obtain ⟨s₁, hstep, hrest⟩ := Option.bind_eq_some_iff.mp hrun
      have := ih (h.step hstep) hrest
      have := h.run_left hstep
      rw [List.length_cons]
      omega

end SharedEngine

variable {options : KVEngineOptions}

/-- **Whatever threads are doing to it, the tree represents a map**, and would
pass its own check. -/
theorem interleavings_hold_map (env : Env) (options : KVEngineOptions) (e₀ : KVEngine)
    (h₀ : KVEngine.Reached env options e₀) (n : Nat) (acts : List ThreadStep) (s : SharedEngine)
    (hrun : steps (SharedEngine.step env) (SharedEngine.start e₀ n) acts = some s) :
    (∃ m, BPlusTree.Models (BPlusTree.new options.btreeOptions).options s.engine.tree m) ∧
      s.engine.tree.verify = some true := by
  obtain ⟨m, hmodels⟩ := (SharedEngine.run_sound h₀ hrun).models
  refine ⟨⟨m, hmodels⟩, ?_⟩
  obtain ⟨_, _, hrep, -, -⟩ := hmodels
  exact BPlusTree.verify_of_represents hrep

theorem interleavings_hold_map_scan : ∃ e₀ s, KVEngine.new .undisturbed {} {} = some e₀ ∧
    steps (SharedEngine.step .undisturbed) (.start e₀ 2) putDuringScan = some s ∧
    (∃ m, BPlusTree.Models (BPlusTree.new {}).options s.engine.tree m) ∧
      s.engine.tree.verify = some true := by
  obtain ⟨e₀, s, hnew, hrun, -⟩ := putDuringScan_runs
  exact ⟨e₀, s, hnew, hrun,
    interleavings_hold_map .undisturbed {} e₀ (.new hnew) 2 putDuringScan s hrun⟩

/-- **The calls under way return.**  Without new calls the threads have a
bounded number of steps left, whichever of them runs; and as long as one is in
a call, one that no lock keeps waiting has a next step, unless it is at a
record that does not fit the write buffer. -/
theorem calls_return (env : Env) (options : KVEngineOptions) (e₀ : KVEngine)
    (h₀ : KVEngine.Reached env options e₀) (n : Nat) (acts : List ThreadStep) (s : SharedEngine)
    (hrun : steps (SharedEngine.step env) (SharedEngine.start e₀ n) acts = some s) :
    (∀ (is : List Nat) s', steps (SharedEngine.step env) s (is.map .run) = some s' →
        is.length ≤ total Thread.left s.threads) ∧
      ((∀ t ∈ s.threads, t = .idle) ∨
        ∃ i t, s.threads[i]? = some t ∧ ¬ s.Behind t ∧
          ((∃ s', s.step env (.run i) = some s') ∨ t.Overruns env s.engine)) := by
  have hsound := SharedEngine.run_sound h₀ hrun
  refine ⟨fun is s' hruns => hsound.runs_left hruns, ?_⟩
  by_cases hbusy : ∃ t ∈ s.threads, t ≠ .idle
  · exact Or.inr (hsound.goes_on hbusy)
  · exact Or.inl (fun t ht => Classical.byContradiction fun hn => hbusy ⟨t, ht, hn⟩)

theorem calls_return_scan : ∃ e₀ s, KVEngine.new .undisturbed {} {} = some e₀ ∧
    steps (SharedEngine.step .undisturbed) (.start e₀ 2) putDuringScan = some s ∧
    (∀ (is : List Nat) s', steps (SharedEngine.step .undisturbed) s (is.map .run) = some s' →
        is.length ≤ total Thread.left s.threads) ∧
      ((∀ t ∈ s.threads, t = .idle) ∨
        ∃ i t, s.threads[i]? = some t ∧ ¬ s.Behind t ∧
          ((∃ s', s.step .undisturbed (.run i) = some s') ∨ t.Overruns .undisturbed s.engine)) := by
  obtain ⟨e₀, s, hnew, hrun, -⟩ := putDuringScan_runs
  exact ⟨e₀, s, hnew, hrun, calls_return .undisturbed {} e₀ (.new hnew) 2 putDuringScan s hrun⟩

end KvEngine
