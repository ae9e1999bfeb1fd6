/-
  KvEngine.SSTable.TableScan
  ──────────────────────────
  The iterator of a table.

  `NextEntry` reads the restart points and gives up, so `Next` always loads
  the next block, and loading a block stands on the entry at its first restart
  point.  The iterator is therefore a cursor over these entries, one a block:
  `calls_refine` says so for every sequence of calls, and `scan_firsts` what
  the usual loop over `Valid` and `Next` gets to see.
-/
import KvEngine.Lib.Simulation
import KvEngine.SSTable.TableLookup

namespace KvEngine

open Lib SSTable SSTableBuilder

namespace SSTableReader

/-! ## §1. Calls of the iterator. -/

inductive IteratorCall where
  | seekToFirst
  | seekToLast
  | seek (target : Bytes)
  | next
  | prev
  deriving DecidableEq

/-- What a client sees: the entry of a valid iterator, and the status. -/
abbrev Seen := Option (Bytes × Found) × Status

namespace Iterator

def seen (it : Iterator) : Seen :=
  (if it.isValid then some (it.currentKey, it.current) else none, it.status)

def call (r : SSTableReader) (file : Option Bytes) (it : Iterator) :
    IteratorCall → Except Fault Iterator
  | .seekToFirst => it.seekToFirst r file
  | .seekToLast => it.seekToLast r file
  | .seek target => it.seek r file target
  | .next => it.next r file
  | .prev => .ok it.prev

/-- A call, and what is seen behind it; none if a read was outside the block. -/
def step (r : SSTableReader) (file : Option Bytes) (it : Iterator) (c : IteratorCall) :
    Option (Seen × Iterator) :=
  (it.call r file c).toOption.map (fun it => (it.seen, it))

/-- `for (; it->Valid(); it->Next())`, and the entries seen on the way. -/
def collect (r : SSTableReader) (file : Option Bytes) :
    Nat → Iterator → Except Fault (List (Bytes × Found))
  | 0, _ => .error .endless
  | rounds + 1, it =>
      if it.isValid then do
        let after ← it.next r file
        let rest ← collect r file rounds after
        return (it.currentKey, it.current) :: rest
      else return []

end Iterator

/-! ## §2. The cursor. -/

/-- A place among the blocks: the iterator stands on the entry of block `idx`, or
has been there. -/
structure Cursor where
  idx : Nat := 0
  on : Bool := false
  status : Status := .okStatus

namespace Cursor

variable (firsts : List (Option (Bytes × Found))) (landing : Bytes → Nat)

def load (c : Cursor) (i : Nat) : Cursor :=
  match firsts[i]? with
  | none => { c with on := false }
  | some first => { c with idx := i, on := first.isSome }

def move (c : Cursor) : IteratorCall → Cursor
  | .seekToFirst => c.load firsts 0
  | .seekToLast =>
      if firsts.isEmpty then { c with on := false }
      else { c.load firsts (firsts.length - 1) with on := false }
  | .seek target => c.load firsts (landing target)
  | .next =>
      if c.idx + 1 < firsts.length then c.load firsts (c.idx + 1) else { c with on := false }
  | .prev => { c with status := .notSupported "Prev not implemented" }

def seen (c : Cursor) : Seen :=
  (if c.on && c.status.ok then (firsts[c.idx]?).join else none, c.status)

def step (c : Cursor) (call : IteratorCall) : Seen × Cursor :=
  ((c.move firsts landing call).seen firsts, c.move firsts landing call)

end Cursor

/-! ## §3. The iterator is the cursor. -/

/-- The blocks lie inside the file, and `firsts` are the entries at their first
restart points; a block without one gives none. -/
structure FirstsOf (r : SSTableReader) (content : Bytes)
    (firsts : List (Option (Bytes × Found))) : Prop where
  held : List.Forall₂ (fun i first => i.2.offset.toNat + i.2.size.toNat ≤ content.length ∧
    parseFirstEntry (readBlock content i.2) = .ok first) r.impl.indexEntries firsts
  ordered : Ordered r.options r.impl.indexEntries
  count : r.impl.indexEntries.length ≤ 2 ^ 30

/-- The block `Seek` loads: the first one if all keys of the index are below. -/
def landing (r : SSTableReader) (target : Bytes) : Nat :=
  (blockFor r.options r.impl.indexEntries target).getD 0

/-- The iterator stands where the cursor does. -/
structure Follows (firsts : List (Option (Bytes × Found))) (it : Iterator) (c : Cursor) :
    Prop where
  idx : it.currentBlockIdx = c.idx
  valid : it.valid = c.on
  status : it.status = c.status
  shows : c.on = true → firsts[c.idx]? = some (some (it.currentKey, it.current))
  read : ∃ first, parseFirstEntry it.currentBlockData = .ok first

section Cursor

variable {r : SSTableReader} {content : Bytes} {firsts : List (Option (Bytes × Found))}
  {it : Iterator} {c : Cursor}

theorem readInto_inside {old : Bytes} {handle : BlockHandle}
    (h : handle.offset.toNat + handle.size.toNat ≤ content.length) :
    (readInto content true old handle).2 = readBlock content handle := by
  have hlen : ((content.drop handle.offset.toNat).take handle.size.toNat).length
      = handle.size.toNat := by
    rw [List.length_take, List.length_drop]
    omega
  have hbuffer : (old.take handle.size.toNat
      ++ List.replicate (handle.size.toNat - old.length) 0).drop handle.size.toNat = [] := by
    refine List.drop_eq_nil_of_le ?_
    rw [List.length_append, List.length_take, List.length_replicate]
    omega
  unfold readInto readBlock
  dsimp only
  rw [if_pos rfl, hlen, hbuffer, Nat.sub_self]
  rfl

/-- **`NextEntry` only leaves the entry**, where the block has been parsed before. -/
theorem nextEntry_eq {first : Option (Bytes × Found)}
    (h : parseFirstEntry it.currentBlockData = .ok first) :
    it.nextEntry = .ok { it with valid := false } := by
  unfold Iterator.nextEntry
  dsimp only
  by_cases hsize : it.currentBlockData.length < 4
  · rw [if_pos hsize]
    rfl
  · obtain ⟨n, hn⟩ := load32_some
      (show it.currentBlockData.length - 4 + 4 ≤ it.currentBlockData.length by omega)
    have hfit : 4 + (n * 4).toNat ≤ it.currentBlockData.length := by
      by_cases hzero : n = 0
      · subst hzero
        show 4 + 0 ≤ _
        omega
      · have hinside := (parseFirstEntry_inside it.currentBlockData).mp ⟨first, h⟩
        rw [toNat_mul_four]
        refine hinside n ?_ hzero
        unfold restartCount
        rw [if_neg hsize, hn]
        rfl
    obtain ⟨restarts, hrestarts⟩ := readRestarts_inside.mpr hfit
    rw [if_neg hsize, read32_eq hn, ok_bind, hrestarts]
    rfl

/-- **Loading a block.** -/
theorem loadBlock_follows (h : FirstsOf r content firsts) (hc : Follows firsts it c) (i : Nat) :
    ∃ it', it.loadBlock r (some content) i = .ok it' ∧ Follows firsts it' (c.load firsts i) := by
  unfold Iterator.loadBlock Cursor.load
  by_cases hi : i < r.impl.indexEntries.length
  · have hi' : i < firsts.length := h.held.length_eq ▸ hi
    obtain ⟨hinside, hparse⟩ := h.held.get hi hi'
    rw [List.get_eq_getElem, List.get_eq_getElem] at hparse
    rw [List.get_eq_getElem] at hinside
    rw [List.getElem?_eq_getElem hi, List.getElem?_eq_getElem hi']
    dsimp only
    rw [readInto_inside hinside, hparse]
    cases hfirst : firsts[i] with
    | none =>
        exact ⟨_, rfl, rfl, rfl, hc.status, fun hon => (nomatch hon), none, hfirst ▸ hparse⟩
    | some p =>
        refine ⟨_, rfl, rfl, rfl, hc.status, fun _ => ?_, some p, hfirst ▸ hparse⟩
        dsimp only
        rw [List.getElem?_eq_getElem hi', hfirst]
  · rw [List.getElem?_eq_none (Nat.le_of_not_lt hi),
      List.getElem?_eq_none (h.held.length_eq ▸ Nat.le_of_not_lt hi)]
    exact ⟨_, rfl, hc.idx, rfl, hc.status, fun hon => (nomatch hon), hc.read⟩

/-- **Every call** takes the iterator where it takes the cursor. -/
theorem call_follows (h : FirstsOf r content firsts) (hc : Follows firsts it c)
    (call : IteratorCall) :
    ∃ it', it.call r (some content) call = .ok it' ∧
      Follows firsts it' (c.move firsts (landing r) call) := by
  have hlen := h.held.length_eq
  cases call with
  | seekToFirst => exact loadBlock_follows h hc 0
  | seekToLast =>
      show ∃ it', it.seekToLast r (some content) = .ok it' ∧ _
      unfold Iterator.seekToLast Cursor.move
      by_cases hnil : r.impl.indexEntries = []
      · rw [hnil] at hlen ⊢
        rw [List.isEmpty_nil, if_pos rfl, List.eq_nil_of_length_eq_zero hlen.symm]
        exact ⟨_, rfl, hc.idx, rfl, hc.status, fun hon => (nomatch hon), hc.read⟩
      · have hfirsts : firsts ≠ [] := fun hf => hnil (List.eq_nil_of_length_eq_zero (by
          rw [hlen, hf]; rfl))
        obtain ⟨it', hload, hf⟩ := loadBlock_follows h hc (r.impl.indexEntries.length - 1)
        rw [List.isEmpty_eq_false_iff.mpr hnil, List.isEmpty_eq_false_iff.mpr hfirsts, hload,
          if_neg Bool.false_ne_true, if_neg Bool.false_ne_true, ← hlen]
        exact ⟨_, rfl, hf.idx, rfl, hf.status, fun hon => (nomatch hon), hf.read⟩
  | seek target =>
      show ∃ it', it.seek r (some content) target = .ok it' ∧ _
      have hland : ((((blockFor r.options r.impl.indexEntries target).map Int.ofNat).getD 0)).toNat
          = landing r target := by
        unfold landing
        cases blockFor r.options r.impl.indexEntries target <;> rfl
      unfold Iterator.seek
      rw [searchIndex_eq h.ordered h.count, ok_bind, hland]
      exact loadBlock_follows h hc _
  | next =>
      show ∃ it', it.next r (some content) = .ok it' ∧ _
      obtain ⟨first, hparse⟩ := hc.read
      unfold Iterator.next Cursor.move
      rw [nextEntry_eq hparse, ok_bind]
      dsimp only
      rw [Bool.not_false, if_pos rfl, hlen, ← hc.idx]
      have hleft : Follows firsts { it with valid := false } { c with on := false } :=
        ⟨hc.idx, rfl, hc.status, fun hon => (nomatch hon), first, hparse⟩
      by_cases hlast : it.currentBlockIdx + 1 < firsts.length
      · rw [if_pos hlast, if_pos hlast]
        obtain ⟨it', hload, hf⟩ := loadBlock_follows h hleft (it.currentBlockIdx + 1)
        refine ⟨it', hload, ?_⟩
        unfold Cursor.load at hf ⊢
        rw [List.getElem?_eq_getElem hlast] at hf ⊢
        exact hf
      · rw [if_neg hlast, if_neg hlast]
        exact ⟨_, rfl, rfl, rfl, hc.status, fun hon => (nomatch hon), first, hparse⟩
  | prev => exact ⟨_, rfl, hc.idx, hc.valid, rfl, hc.shows, hc.read⟩

theorem follows_initial (firsts : List (Option (Bytes × Found))) : Follows firsts {} {} :=
  ⟨rfl, rfl, rfl, fun hon => (nomatch hon), none, rfl⟩

theorem Follows.seen (hc : Follows firsts it c) : it.seen = c.seen firsts := by
  unfold Iterator.seen Iterator.isValid Cursor.seen
  rw [hc.valid, hc.status]
  by_cases hon : c.on = true
  · rw [hc.shows hon]
    rfl
  · rw [Bool.not_eq_true] at hon
    rw [hon]
    rfl

theorem iterator_refines (h : FirstsOf r content firsts) :
    Lib.Refines (Follows firsts) (fun _ => True) (Iterator.step r (some content))
      (Cursor.step firsts (landing r)) := by
  intro it c call hc _
  obtain ⟨it', hcall, hf⟩ := call_follows h hc call
  refine ⟨it', ?_, hf⟩
  unfold Iterator.step
  rw [hcall]
  show some (it'.seen, it') = some ((c.move firsts (landing r) call).seen firsts, it')
  rw [hf.seen]

/-- **Any calls of an iterator** are answered as by the cursor over the first
entries of the blocks, and no call reads outside a block. -/
theorem calls_refine (r : SSTableReader) (content : Bytes)
    (firsts : List (Option (Bytes × Found))) (h : FirstsOf r content firsts)
    (calls : List IteratorCall) :
    ∃ it, run? (Iterator.step r (some content)) {} calls
      = some ((runAll (Cursor.step firsts (landing r)) {} calls).1, it) := by
  obtain ⟨it, hrun, -⟩ := (iterator_refines h).run calls (follows_initial firsts)
    (fun _ _ => trivial)
  exact ⟨it, hrun⟩

/-! ## §4. The scan. -/

/-- The entries from block `i` on, up to the first block without one. -/
def shownFrom (firsts : List (Option (Bytes × Found))) (i : Nat) : List (Bytes × Found) :=
  ((firsts.drop i).takeWhile Option.isSome).filterMap id

theorem shownFrom_some {i : Nat} {p : Bytes × Found} (h : firsts[i]? = some (some p)) :
    shownFrom firsts i = p :: shownFrom firsts (i + 1) := by
  obtain ⟨hi, heq⟩ := List.getElem?_eq_some_iff.mp h
  unfold shownFrom
  rw [List.drop_eq_getElem_cons hi, heq]
  rfl

theorem shownFrom_none {i : Nat} (h : (firsts[i]?).join = none) : shownFrom firsts i = [] := by
  unfold shownFrom
  by_cases hi : i < firsts.length
  · rw [List.getElem?_eq_getElem hi, Option.join_some] at h
    rw [List.drop_eq_getElem_cons hi, h]
    rfl
  · rw [List.drop_eq_nil_of_le (Nat.le_of_not_lt hi)]
    rfl

/-- What the loop is still to see from where the cursor is. -/
def Cursor.ahead (firsts : List (Option (Bytes × Found))) (c : Cursor) : List (Bytes × Found) :=
  if c.on then shownFrom firsts c.idx else []

theorem Cursor.ahead_load (c : Cursor) (i : Nat) :
    (c.load firsts i).ahead firsts = shownFrom firsts i := by
  unfold Cursor.load Cursor.ahead
  by_cases hi : i < firsts.length
  · rw [List.getElem?_eq_getElem hi]
    dsimp only
    split
    next => rfl
    next hnone =>
      rw [Option.not_isSome_iff_eq_none] at hnone
      exact (shownFrom_none (by rw [List.getElem?_eq_getElem hi, hnone]; rfl)).symm
  · rw [List.getElem?_eq_none (Nat.le_of_not_lt hi)]
    exact (shownFrom_none (by rw [List.getElem?_eq_none (Nat.le_of_not_lt hi)]; rfl)).symm

theorem Cursor.ahead_next (c : Cursor) (landing : Bytes → Nat) :
    (c.move firsts landing .next).ahead firsts = shownFrom firsts (c.idx + 1) := by
  unfold Cursor.move
  by_cases hlast : c.idx + 1 < firsts.length
  · simp only [if_pos hlast]
    exact c.ahead_load _
  · simp only [if_neg hlast]
    exact (shownFrom_none (by rw [List.getElem?_eq_none (Nat.le_of_not_lt hlast)]; rfl)).symm

/-- A step of the loop moves on, or ends it. -/
theorem Cursor.next_moves (c : Cursor) (landing : Bytes → Nat) :
    (c.move firsts landing .next).status = c.status ∧
      ((c.move firsts landing .next).on = true →
        (c.move firsts landing .next).idx = c.idx + 1) := by
  unfold Cursor.move
  dsimp only
  by_cases hlast : c.idx + 1 < firsts.length
  · rw [if_pos hlast]
    unfold Cursor.load
    rw [List.getElem?_eq_getElem hlast]
    exact ⟨rfl, fun _ => rfl⟩
  · rw [if_neg hlast]
    exact ⟨rfl, fun hon => (nomatch hon)⟩

/-- **The loop from where the iterator is** sees one entry a block. -/
theorem collect_follows (h : FirstsOf r content firsts) :
    ∀ {rounds : Nat} {it : Iterator} {c : Cursor}, Follows firsts it c → c.status.ok = true →
      (c.on = true → firsts.length < c.idx + rounds) → 0 < rounds →
      it.collect r (some content) rounds = .ok (c.ahead firsts) := by
  intro rounds
  induction rounds with
  | zero => intro it c _ _ _ h0; exact absurd h0 (Nat.lt_irrefl 0)
  | succ rounds ih =>
      intro it c hc hok hrounds _
      have hvalid : it.isValid = c.on := by
        unfold Iterator.isValid
        rw [hc.valid, hc.status, hok, Bool.and_true]
      unfold Iterator.collect Cursor.ahead
      rw [hvalid]
      by_cases hon : c.on = true
      · obtain ⟨it', hcall, hf⟩ := call_follows h hc .next
        have hnext : it.next r (some content) = .ok it' := hcall
        have hshows := hc.shows hon
        have hlen := (List.getElem?_eq_some_iff.mp hshows).1
        have hleft := hrounds hon
        obtain ⟨hstatus, hidx⟩ := @Cursor.next_moves firsts c (landing r)
        have hrest := ih hf (hstatus ▸ hok) (fun hon' => by rw [hidx hon']; omega) (by omega)
        rw [if_pos hon, if_pos hon, hnext, ok_bind, hrest, ok_bind, c.ahead_next,
          shownFrom_some hshows]
        rfl
      · rw [if_neg hon, if_neg hon]
        rfl

/-- Calls other than `Prev` leave the status alone. -/
theorem status_of_no_prev {calls : List IteratorCall} (hprev : .prev ∉ calls) :
    ∀ c : Cursor, (runAll (Cursor.step firsts (landing r)) c calls).2.status = c.status := by
  induction calls with
  | nil => exact fun c => rfl
  | cons call calls ih =>
      intro c
      show (runAll (Cursor.step firsts (landing r)) (c.move firsts (landing r) call) calls).2.status
        = c.status
      rw [ih (fun hmem => hprev (List.mem_cons_of_mem _ hmem))]
      have hload : ∀ i, (c.load firsts i).status = c.status := by
        intro i
        unfold Cursor.load
        split <;> rfl
      cases call with
      | seekToFirst => exact hload 0
      | seekToLast =>
          unfold Cursor.move
          dsimp only
          split
          · rfl
          · exact hload _
      | seek target => exact hload _
      | next =>
          unfold Cursor.move
          dsimp only
          split
          · exact hload _
          · rfl
      | prev => exact absurd List.mem_cons_self hprev

/-- **What a scan sees**: behind `SeekToFirst`, or `Seek` to the first block that
may hold the target, one entry of every block, up to a block that has none. -/
theorem scan_firsts (r : SSTableReader) (content : Bytes)
    (firsts : List (Option (Bytes × Found))) (h : FirstsOf r content firsts)
    (calls : List IteratorCall) (hprev : .prev ∉ calls) (start : IteratorCall) (i : Nat)
    (hstart : (start = .seekToFirst ∧ i = 0) ∨ ∃ target, start = .seek target ∧
      i = landing r target) :
    ∃ outs it₀ it, run? (Iterator.step r (some content)) {} calls = some (outs, it₀) ∧
      it₀.call r (some content) start = .ok it ∧
      it.collect r (some content) (firsts.length + 1) = .ok (shownFrom firsts i) := by
  obtain ⟨it₀, hrun, hf₀⟩ := (iterator_refines h).run calls (follows_initial firsts)
    (fun _ _ => trivial)
  have hstatus := @status_of_no_prev r firsts calls hprev {}
  generalize (runAll (Cursor.step firsts (landing r)) {} calls).2 = c at hf₀ hstatus
  obtain ⟨it, hcall, hf⟩ := call_follows h hf₀ start
  have hmove : c.move firsts (landing r) start = c.load firsts i := by
    rcases hstart with ⟨rfl, rfl⟩ | ⟨target, rfl, rfl⟩
    · rfl
    · rfl
  rw [hmove] at hf
  refine ⟨_, it₀, it, hrun, hcall, ?_⟩
  rw [← c.ahead_load i]
  refine collect_follows h hf ?_ (fun _ => by omega) (Nat.succ_pos _)
  have hload : (c.load firsts i).status = c.status := by
    unfold Cursor.load
    split <;> rfl
  rw [hload, hstatus]
  rfl

end Cursor

theorem twoReader_firsts : FirstsOf twoReader twoBlocks
    [some ([97], ⟨[1, 2, 3, 4], 1, true⟩), some ([98], ⟨[121], 2, false⟩)] where
  held := .cons ⟨by decide +kernel, by decide +kernel⟩
    (.cons ⟨by decide +kernel, by decide +kernel⟩ .nil)
  ordered := twoReader_table.ordered
  count := by decide

theorem calls_refine_two : ∃ it, run? (Iterator.step twoReader (some twoBlocks)) {}
    [.seekToFirst, .next, .next, .prev]
    = some ([(some ([97], ⟨[1, 2, 3, 4], 1, true⟩), .okStatus),
        (some ([98], ⟨[121], 2, false⟩), .okStatus), (none, .okStatus),
        (none, .notSupported "Prev not implemented")], it) :=
  calls_refine twoReader twoBlocks _ twoReader_firsts [.seekToFirst, .next, .next, .prev]

theorem scan_firsts_two : ∃ outs it₀ it,
    run? (Iterator.step twoReader (some twoBlocks)) {} [.seekToLast] = some (outs, it₀) ∧
      it₀.call twoReader (some twoBlocks) .seekToFirst = .ok it ∧
      it.collect twoReader (some twoBlocks) 3
        = .ok [([97], ⟨[1, 2, 3, 4], 1, true⟩), ([98], ⟨[121], 2, false⟩)] :=
  scan_firsts twoReader twoBlocks _ twoReader_firsts [.seekToLast] (by decide) .seekToFirst 0
    (Or.inl ⟨rfl, rfl⟩)

end SSTableReader

end KvEngine
