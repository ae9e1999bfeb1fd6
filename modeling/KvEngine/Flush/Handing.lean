/-
  KvEngine.Flush.Handing
  ──────────────────────
  What a flush hands to the table builder.

  `PerformFlush` walks the whole list, tombstones included, so the entries
  handed over are those of the memtable.  `ScheduleFlush` and `PerformFlush`
  both leave out a memtable whose `Size()` is zero, and `Size()` counts live
  keys only, in 64 bits: a `Put` on a new key counts up, a `Delete` of a live
  key counts down, and a `Put` over a tombstone does not count.

  A flush that comes to a result is not one that has written a table: `Finish`
  has none for a table with entries, unless the file cannot be opened.

  Main results:
    * `addFrom_spec` — the loop of `PerformFlush`;
    * `size_of_run` — the counter after any calls;
    * `performFlush_returns` — when a flush comes to a result;
    * `flush_hands_entries` — the memtables a flush hands over.
-/
import KvEngine.Flush.FlushManager
import KvEngine.MemTable.Reference
import KvEngine.SSTable.Footer

namespace KvEngine

open Lib SSTable

/-! ## §1. The size counter. -/

namespace MemTable

variable {t : MemTable} {es : List (Bytes × Entry)}

/-- How many calls satisfy `p`, which sees the calls before as well. -/
def tallyFrom (p : List Call → Call → Bool) : List Call → List Call → Nat
  | _, [] => 0
  | before, call :: calls =>
      (if p before call then 1 else 0) + tallyFrom p (before ++ [call]) calls

theorem tallyFrom_snoc (p : List Call → Call → Bool) (before calls : List Call) (call : Call) :
    tallyFrom p before (calls ++ [call])
      = tallyFrom p before calls + if p (before ++ calls) call then 1 else 0 := by
  induction calls generalizing before with
  | nil =>
      show _ + 0 = 0 + _
      rw [List.append_nil, Nat.zero_add, Nat.add_zero]
  | cons c calls ih =>
      show _ + tallyFrom p (before ++ [c]) (calls ++ [call])
        = (_ + tallyFrom p (before ++ [c]) calls) + _
      rw [ih, List.append_assoc, Nat.add_assoc]
      rfl

/-- A `Put` on a key no call has used. -/
def Call.isNewPut (before : List Call) : Call → Bool
  | .put key _ _ _ => (reference before key).isNone
  | .delete _ _ _ => false

/-- A `Delete` of a key that is live. -/
def Call.isLiveDelete (before : List Call) : Call → Bool
  | .put _ _ _ _ => false
  | .delete key _ _ => (reference before key).any (fun e => !e.isDeleted)

def newPuts (calls : List Call) : Nat := tallyFrom Call.isNewPut [] calls

def liveDeletes (calls : List Call) : Nat := tallyFrom Call.isLiveDelete [] calls

/-- **The counter after one call**, on a memtable that holds what the calls
before have bound. -/
theorem apply_size (h : t.Holds es) {before : List Call}
    (href : find t.impl.order es = reference before) (call : Call) {t' : MemTable}
    (hrun : t.apply call = .ok t') :
    t'.size = t.size + (if call.isNewPut before then 1 else 0)
      - (if call.isLiveDelete before then 1 else 0) := by
  have hcounts := apply_counts h hrun
  rw [href] at hcounts
  cases hbound : reference before call.key with
  -- the key has a node: no new key, and a live one only if the node is live
  | some e =>
      rw [(hcounts.present e hbound).1]
      cases call with
      | put key value sequenceNumber coins =>
          have hold : (reference before key).isNone = false := by
            rw [show reference before key = _ from hbound]
            rfl
          show t.size = t.size + (if (reference before key).isNone then 1 else 0) - 0
          rw [hold]
          grind
      | delete key sequenceNumber coins =>
          have hlive : (reference before key).any (fun e => !e.isDeleted) = !e.isDeleted := by
            rw [show reference before key = _ from hbound]
            rfl
          show (if !e.isDeleted then t.size - 1 else t.size) = t.size + 0
            - (if (reference before key).any (fun e => !e.isDeleted) then 1 else 0)
          rw [hlive]
          cases e.isDeleted <;> grind
  -- the key has none: a `Put` counts, a `Delete` leaves a tombstone uncounted
  | none =>
      rw [(hcounts.absent hbound).1]
      cases call with
      | put key value sequenceNumber coins =>
          have hnew : (reference before key).isNone = true := by
            rw [show reference before key = _ from hbound]
            rfl
          show t.size + 1 = t.size + (if (reference before key).isNone then 1 else 0) - 0
          rw [hnew]
          grind
      | delete key sequenceNumber coins =>
          have hlive : (reference before key).any (fun e => !e.isDeleted) = false := by
            rw [show reference before key = _ from hbound]
            rfl
          show t.size = t.size + 0
            - (if (reference before key).any (fun e => !e.isDeleted) then 1 else 0)
          rw [hlive]
          grind

/-- **The counter after a run**: new keys put less live keys deleted, in 64
bits. -/
theorem size_of_run {options : Options} {calls : List Call} (hrun : run options calls = .ok t) :
    t.size = UInt64.ofNat (newPuts calls) - UInt64.ofNat (liveDeletes calls) := by
  induction calls using List.reverseRecOn generalizing t with
  | nil =>
      obtain rfl := Except.ok.inj hrun
      rfl
  | append_singleton calls call ih =>
      -- the run before the last call holds its reference map
      obtain ⟨hdraws, -⟩ := drawsOne_snoc.mp (drawsOne_of_run hrun)
      obtain ⟨t₀, es, hrun₀, hholds, -, -, href⟩ := run_spec options calls hdraws
      rw [run_snoc, hrun₀] at hrun
      have hstep := apply_size hholds href call hrun
      unfold newPuts liveDeletes
      rw [tallyFrom_snoc, tallyFrom_snoc, UInt64.ofNat_add, UInt64.ofNat_add, hstep, ih hrun₀]
      show _ = UInt64.ofNat (newPuts calls) + UInt64.ofNat (if call.isNewPut calls then 1 else 0)
        - (UInt64.ofNat (liveDeletes calls)
          + UInt64.ofNat (if call.isLiveDelete calls then 1 else 0))
      rw [apply_ite UInt64.ofNat, apply_ite UInt64.ofNat]
      show _ = _ + (if call.isNewPut calls then 1 else 0)
        - (_ + (if call.isLiveDelete calls then 1 else 0))
      grind

theorem size_eq_zero_iff {options : Options} {calls : List Call}
    (hrun : run options calls = .ok t) :
    t.size = 0 ↔ newPuts calls % 2 ^ 64 = liveDeletes calls % 2 ^ 64 := by
  rw [size_of_run hrun, UInt64.sub_eq_iff_eq_add, UInt64.zero_add,
    UInt64.ofNat_eq_iff_mod_eq_toNat, UInt64.toNat_ofNat']

end MemTable

namespace FlushManager

open SSTableBuilder
open MemTable (Node Call)

/-! ## §2. The loop. -/

theorem exists_of_bind_ok {α β : Type} {x : Except Fault α} {f : α → Except Fault β} {b : β}
    (h : x >>= f = .ok b) : ∃ a, x = .ok a ∧ f a = .ok b := by
  cases x with
  | error fault => cases h
  | ok a => exact ⟨a, rfl, h⟩

theorem ok_bind {α β : Type} (a : α) (f : α → Except Fault β) : (Except.ok a >>= f) = f a := rfl

theorem ofMemTable_ok {α : Type} {x : Except MemTable.Fault α} {a : α} :
    ofMemTable x = .ok a ↔ x = .ok a := by
  cases x with
  | error fault => exact iff_of_false (fun h => nomatch h) (fun h => nomatch h)
  | ok b => exact ⟨fun h => congrArg _ (Except.ok.inj h), fun h => congrArg _ (Except.ok.inj h)⟩

/-- **The loop of `PerformFlush`** over nodes the iterator passes: it hands
over a prefix of them, and all of them unless it ends in an error. -/
theorem addFrom_spec {env : Env} {t : MemTable} {steps : Nat} {it : MemTable.Iterator}
    {nodes : List Node} (hscan : t.scanFrom steps it = .ok nodes) {builder : SSTableBuilder}
    {r : Loop} (hrun : addFrom env t steps it builder = .ok r) :
    r.handed <+: nodes.map entryOf ∧ (r.status.ok = true → r.handed = nodes.map entryOf) := by
  -- on the rounds left, with the iterator and the builder as they are then
  induction steps generalizing it nodes builder r with
  | zero =>
      unfold MemTable.scanFrom at hscan
      unfold addFrom at hrun
      split at hscan
      next hend =>
        obtain rfl := Except.ok.inj hscan
        rw [if_pos hend] at hrun
        obtain rfl := Except.ok.inj hrun
        exact ⟨List.prefix_rfl, fun _ => rfl⟩
      next => cases hscan
  | succ steps ih =>
      unfold MemTable.scanFrom at hscan
      unfold addFrom at hrun
      split at hscan
      next hend =>
        obtain rfl := Except.ok.inj hscan
        rw [if_pos hend] at hrun
        obtain rfl := Except.ok.inj hrun
        exact ⟨List.prefix_rfl, fun _ => rfl⟩
      next hvalid =>
        -- one round of the scan: the node, the next position, the rest
        obtain ⟨node, hnode, hscan⟩ := MemTable.exists_of_bind_ok hscan
        obtain ⟨next, hnext, hscan⟩ := MemTable.exists_of_bind_ok hscan
        obtain ⟨nodes, hnodes, hscan⟩ := MemTable.exists_of_bind_ok hscan
        obtain rfl := Except.ok.inj hscan
        rw [if_neg hvalid, ofMemTable_ok.mpr hnode, ofMemTable_ok.mpr hnext] at hrun
        change (do
          let added ← ofBuilder (builder.add env (entryOf node).key (entryOf node).value
            (entryOf node).seq (entryOf node).deleted)
          _) = _ at hrun
        obtain ⟨added, -, hrun⟩ := exists_of_bind_ok hrun
        split at hrun
        -- refused: the loop ends with the status of `Add`
        next hrefused =>
          obtain rfl := Except.ok.inj hrun
          refine ⟨(List.prefix_cons_inj _).mpr List.nil_prefix, fun hok => ?_⟩
          rw [Bool.not_eq_true'] at hrefused
          cases hrefused.symm.trans hok
        next =>
          change (do
            let rest ← addFrom env t steps next added.2
            _) = _ at hrun
          obtain ⟨rest, hrest, hrun⟩ := exists_of_bind_ok hrun
          obtain rfl := Except.ok.inj hrun
          obtain ⟨hhanded, hall⟩ := ih hnodes hrest
          exact ⟨(List.prefix_cons_inj _).mpr hhanded,
            fun hok => congrArg (entryOf node :: ·) (hall hok)⟩

theorem accepted_of_increasing {options : SSTableOptions} {es : List Entry}
    (h : Increasing options es) : accepted options es = es := by
  induction es using List.reverseRecOn with
  | nil => rfl
  | append_singleton es e ih =>
      obtain ⟨hes, -, hlast⟩ := List.pairwise_append.mp h
      rw [accepted_snoc, ih hes, if_pos]
      exact fun x hx => hlast x (List.mem_of_getLast? hx) e List.mem_cons_self

/-- **The loop over increasing keys** comes to its end, and the builder has taken
every entry. -/
theorem addFrom_increasing (env : Env) {options : SSTableOptions} (hwork : options.Workable)
    {t : MemTable} {steps : Nat} {it : MemTable.Iterator} {nodes : List Node}
    (hscan : t.scanFrom steps it = .ok nodes) (hstatus : it.status = .okStatus)
    (before : List Entry) (hincreasing : Increasing options (before ++ nodes.map entryOf)) :
    ∃ handed, addFrom env t steps it (addAll env options before)
      = .ok ⟨.okStatus, addAll env options (before ++ nodes.map entryOf), handed⟩ := by
  -- on the rounds left; `before` grows by the entry of each
  induction steps generalizing it nodes before with
  | zero =>
      unfold MemTable.scanFrom at hscan
      unfold addFrom
      split at hscan
      next hend =>
        obtain rfl := Except.ok.inj hscan
        rw [if_pos hend, hstatus, List.map_nil, List.append_nil]
        exact ⟨[], rfl⟩
      next => cases hscan
  | succ steps ih =>
      unfold MemTable.scanFrom at hscan
      unfold addFrom
      split at hscan
      next hend =>
        obtain rfl := Except.ok.inj hscan
        rw [if_pos hend, hstatus, List.map_nil, List.append_nil]
        exact ⟨[], rfl⟩
      next hvalid =>
        obtain ⟨node, hnode, hscan⟩ := MemTable.exists_of_bind_ok hscan
        obtain ⟨next, hnext, hscan⟩ := MemTable.exists_of_bind_ok hscan
        obtain ⟨nodes, hnodes, hscan⟩ := MemTable.exists_of_bind_ok hscan
        obtain rfl := Except.ok.inj hscan
        rw [List.map_cons, List.append_cons] at hincreasing ⊢
        -- the key is above all before it, so `Add` takes it
        have hfront := (List.pairwise_append.mp hincreasing).1
        obtain ⟨hbefore, -, hlast⟩ := List.pairwise_append.mp hfront
        have hadd := addAll_add env options before (entryOf node)
        have habove : Above options before (entryOf node) :=
          fun x hx => hlast x (List.mem_of_getLast? hx) _ List.mem_cons_self
        rw [accepted_of_increasing hbefore, if_pos hwork, if_pos habove] at hadd
        have hnextStatus : next.status = .okStatus := by
          unfold MemTable.Iterator.next at hnext
          split at hnext
          next =>
            obtain rfl := Except.ok.inj hnext
            exact hstatus
          next =>
            obtain ⟨id, -, hnext⟩ := MemTable.exists_of_bind_ok hnext
            obtain rfl := Except.ok.inj hnext
            exact hstatus
        obtain ⟨handed, hrest⟩ := ih hnodes hnextStatus _ hincreasing
        rw [if_neg hvalid, ofMemTable_ok.mpr hnode, ofMemTable_ok.mpr hnext]
        refine ⟨entryOf node :: handed, ?_⟩
        show (do
          let added ← ofBuilder ((addAll env options before).add env (entryOf node).key
            (entryOf node).value (entryOf node).seq (entryOf node).deleted)
          _) = _
        rw [hadd]
        show (do
          let rest ← addFrom env t steps next (addAll env options (before ++ [entryOf node]))
          _) = _
        rw [hrest]
        rfl

/-! ## §3. A flush. -/

/-- The `Add` call for what a node binds. -/
def handedOf (b : Bytes × MemTable.Entry) : Entry :=
  ⟨b.1, b.2.value, b.2.sequenceNumber, b.2.isDeleted⟩

/-- **`PerformFlush`** on a memtable whose counter is not zero. -/
theorem performFlush_spec {options : Options} {setting : Setting} {t : MemTable}
    {es : List (Bytes × MemTable.Entry)} (h : t.Holds es) (hsize : t.size ≠ 0) {f : Flushed}
    (hrun : performFlush options setting (some t) = .ok f) :
    f.handed <+: es.map handedOf ∧ (f.status.ok = true → f.handed = es.map handedOf) := by
  obtain ⟨nodes, hscan, hnodes⟩ := MemTable.scan_spec h
  have hmap : nodes.map entryOf = es.map handedOf := by
    rw [← hnodes, List.map_map]
    rfl
  unfold MemTable.scan at hscan
  -- `NewIterator` and `SeekToFirst` both go to the first node
  obtain ⟨start, hstart, hscan⟩ := MemTable.exists_of_bind_ok hscan
  obtain ⟨it, hit, hscan⟩ := MemTable.exists_of_bind_ok hscan
  unfold performFlush at hrun
  simp only [if_neg hsize, ofMemTable_ok.mpr hstart, ofMemTable_ok.mpr hit, ok_bind] at hrun
  obtain ⟨loop, hloop, hrun⟩ := exists_of_bind_ok hrun
  obtain ⟨hhanded, hall⟩ := addFrom_spec hscan hloop
  rw [hmap] at hhanded hall
  split at hrun
  next hadded =>
    obtain rfl := Except.ok.inj hrun
    exact ⟨hhanded, hall⟩
  next hadded =>
    rw [Bool.not_eq_true', Bool.not_eq_false] at hadded
    obtain ⟨finished, -, hrun⟩ := exists_of_bind_ok hrun
    split at hrun
    · obtain rfl := Except.ok.inj hrun
      exact ⟨hhanded, fun _ => hall hadded⟩
    · obtain rfl := Except.ok.inj hrun
      exact ⟨hhanded, fun _ => hall hadded⟩

/-- **When a flush comes to a result**, for a memtable whose counter is not zero
and that has the order of the table: when the file cannot be opened. -/
theorem performFlush_returns {options : Options} (hwork : options.sstableOptions.Workable)
    (setting : Setting) {t : MemTable} {es : List (Bytes × MemTable.Entry)} (h : t.Holds es)
    (hsize : t.size ≠ 0) (hne : es ≠ [])
    (hincreasing : Increasing options.sstableOptions (es.map handedOf)) :
    (∃ f, performFlush options setting (some t) = .ok f) ↔ (setting.env 0).ok = false := by
  obtain ⟨nodes, hscan, hnodes⟩ := MemTable.scan_spec h
  have hmap : nodes.map entryOf = es.map handedOf := by
    rw [← hnodes, List.map_map]
    rfl
  unfold MemTable.scan at hscan
  obtain ⟨start, hstart, hscan⟩ := MemTable.exists_of_bind_ok hscan
  obtain ⟨it, hit, hscan⟩ := MemTable.exists_of_bind_ok hscan
  have hstatus : it.status = .okStatus := by
    obtain ⟨_, -, hstart⟩ := MemTable.exists_of_bind_ok hstart
    obtain rfl := Except.ok.inj hstart
    obtain ⟨_, -, hit⟩ := MemTable.exists_of_bind_ok hit
    obtain rfl := Except.ok.inj hit
    rfl
  obtain ⟨handed, hloop⟩ := addFrom_increasing setting.env hwork hscan hstatus []
    (by rw [hmap]; exact hincreasing)
  rw [List.nil_append, hmap] at hloop
  -- all entries are in the builder, and `Finish` stops at the first of its index
  obtain ⟨before, block, hsplit, -, hfilling⟩ :=
    addAll_accepted setting.env options.sstableOptions (es.map handedOf)
  have hblock : block ≠ [] := by
    rintro rfl
    rw [hfilling.started rfl] at hsplit
    exact accepted_ne_nil (fun hnil => hne (List.map_eq_nil_iff.mp hnil)) hsplit.symm
  have hfinish := hfilling.finish_eq hblock setting.env (tableFile options setting)
  have hstart' : addFrom setting.env t t.impl.nodes.length it
      (SSTableBuilder.new options.sstableOptions) = _ := hloop
  unfold performFlush
  simp only [if_neg hsize, ofMemTable_ok.mpr hstart, ofMemTable_ok.mpr hit, hstart', ok_bind,
    hfinish]
  cases (setting.env 0).ok with
  | true => exact iff_of_false (fun ⟨f, hf⟩ => nomatch hf) (fun h => nomatch h)
  | false => exact iff_of_true ⟨_, rfl⟩ rfl

/-- What is to reach the builder: every key that a call has bound, once and
in order, with the value, the sequence number and the flag of the last call
on it. -/
structure HandsOver (options : MemTable.Options) (calls : List Call) (handed : List Entry) :
    Prop where
  increasing : handed.Pairwise (fun a b => (keyOrder options.comparator).lt a.key b.key)
  exact : ∀ e, e ∈ handed ↔
    MemTable.reference calls e.key = some ⟨e.value, e.seq, e.deleted⟩

theorem handsOver_of_holds {options : MemTable.Options} {calls : List Call} {t : MemTable}
    {es : List (Bytes × MemTable.Entry)} (h : t.Holds es)
    (hcmp : t.impl.comparator = options.comparator)
    (href : find t.impl.order es = MemTable.reference calls) :
    HandsOver options calls (es.map handedOf) := by
  obtain ⟨cells, hflat, rfl⟩ := h
  have horder : t.impl.order = keyOrder options.comparator := by
    unfold MemTable.Impl.order
    rw [hcmp]
  constructor
  · rw [List.pairwise_map, ← horder]
    exact hflat.sorted
  · intro e
    rw [← href, find_eq_some_iff hflat.sorted, List.mem_map]
    constructor
    · rintro ⟨b, hb, rfl⟩
      exact hb
    · intro he
      exact ⟨_, he, rfl⟩

theorem handsOver_nil_iff {options : MemTable.Options} {calls : List Call} :
    HandsOver options calls [] ↔ calls = [] := by
  constructor
  · intro h
    cases calls using List.reverseRecOn with
    | nil => rfl
    -- the last call binds its key, so something was to be handed over
    | append_singleton calls call =>
        have hbound : MemTable.reference (calls ++ [call]) call.key = some call.entry := by
          rw [MemTable.reference_snoc, Function.update_self]
        exact absurd ((h.exact (handedOf (call.key, call.entry))).mpr hbound) (by simp)
  · rintro rfl
    refine ⟨List.Pairwise.nil, fun e => ?_⟩
    constructor
    · intro he
      cases he
    · intro he
      cases he

/-- **When the flush of a reachable memtable comes to a result**, if its counter is
not zero and the table has its order: when the file cannot be opened. -/
theorem flush_returns {manager : Options} (hwork : manager.sstableOptions.Workable)
    (setting : Setting) {options : MemTable.Options}
    (horder : manager.sstableOptions.comparator = options.comparator) {calls : List Call}
    {t : MemTable} (hrun : MemTable.run options calls = .ok t) (hsize : t.size ≠ 0) :
    (∃ f, performFlush manager setting (some t) = .ok f) ↔ (setting.env 0).ok = false := by
  obtain ⟨t', es, hrun', hholds, hcmp, -, href⟩ :=
    MemTable.run_spec options calls (MemTable.drawsOne_of_run hrun)
  obtain rfl : t = t' := Except.ok.inj (hrun.symm.trans hrun')
  have hhands := handsOver_of_holds hholds hcmp href
  refine performFlush_returns hwork setting hholds hsize ?_ ?_
  · rintro rfl
    -- without entries no call was made, and nothing counted
    obtain rfl := handsOver_nil_iff.mp hhands
    exact hsize ((MemTable.size_eq_zero_iff hrun).mpr rfl)
  · unfold Increasing
    rw [horder]
    exact hhands.increasing

theorem flush_refused (options : Options) (setting : Setting) (memtable : Option MemTable) :
    flush options false setting memtable
      = .ok { status := .invalidArgument "FlushManager not started" } := rfl

/-- A memtable whose counter is zero is left out, with OK. -/
theorem flush_skipped (options : Options) (setting : Setting) {t : MemTable} (hsize : t.size = 0) :
    flush options true setting (some t) = .ok { status := .okStatus } := by
  unfold flush scheduleFlush
  simp only [hsize]
  rfl

theorem flush_queued (options : Options) (setting : Setting) {t : MemTable} (hsize : t.size ≠ 0) :
    flush options true setting (some t) = performFlush options setting (some t) := by
  unfold flush scheduleFlush
  simp only [hsize, if_false]
  rfl

/-- Every flush of the memtable that reports OK hands over what the calls have bound. -/
def HandedOver (options : MemTable.Options) (calls : List Call) (t : MemTable) : Prop :=
  ∀ (manager : Options) (running : Bool) (setting : Setting) (f : Flushed),
    flush manager running setting (some t) = .ok f → f.status.ok = true →
      HandsOver options calls f.handed

/-- **Which memtables are handed over by every flush that reports OK**: those
whose counter is not zero, that is, those with not as many live keys deleted as
new keys put, and the memtable no call was made on. -/
theorem flush_hands_entries {options : MemTable.Options} {calls : List Call} {t : MemTable}
    (hrun : MemTable.run options calls = .ok t) :
    HandedOver options calls t ↔
      calls = [] ∨ MemTable.newPuts calls % 2 ^ 64 ≠ MemTable.liveDeletes calls % 2 ^ 64 := by
  have hcount := MemTable.size_eq_zero_iff hrun
  by_cases hsize : t.size = 0
  -- nothing is handed over
  · have hequal : ¬ MemTable.newPuts calls % 2 ^ 64 ≠ MemTable.liveDeletes calls % 2 ^ 64 :=
      fun hne => hne (hcount.mp hsize)
    rw [or_iff_left hequal, ← handsOver_nil_iff]
    constructor
    · intro h
      exact h {} true ⟨0, 1000, fun _ => {}⟩ _ (flush_skipped _ _ hsize) rfl
    · intro hnil manager running setting f hflush hok
      cases running with
      | false =>
          obtain rfl := Except.ok.inj ((flush_refused manager setting (some t)).symm.trans hflush)
          cases hok
      | true =>
          obtain rfl := Except.ok.inj ((flush_skipped manager setting hsize).symm.trans hflush)
          exact hnil
  -- the whole list is
  · refine iff_of_true (fun manager running setting f hflush hok => ?_)
      (Or.inr (fun he => hsize (hcount.mpr he)))
    cases running with
    | false =>
        obtain rfl := Except.ok.inj ((flush_refused manager setting (some t)).symm.trans hflush)
        cases hok
    | true =>
        obtain ⟨t', es, hrun', hholds, hcmp, -, href⟩ :=
          MemTable.run_spec options calls (MemTable.drawsOne_of_run hrun)
        obtain rfl : t = t' := Except.ok.inj (hrun.symm.trans hrun')
        obtain ⟨-, hall⟩ := performFlush_spec hholds hsize
          ((flush_queued manager setting hsize).symm.trans hflush)
        rw [hall hok]
        exact handsOver_of_holds hholds hcmp href

/-- A memtable with one tombstone, flushed with OK and lost. -/
theorem flush_hands_entries_tombstone :
    ∃ t, MemTable.run {} [.delete [97] 1 []] = .ok t ∧
      (∀ setting, flush {} true setting (some t) = .ok { status := .okStatus }) ∧
      ¬ HandedOver {} [.delete [97] 1 []] t := by
  refine ⟨_, rfl, fun setting => flush_skipped {} setting rfl, fun h => ?_⟩
  have hhands := h {} true ⟨0, 1000, fun _ => {}⟩ _ (flush_skipped {} _ rfl) rfl
  cases handsOver_nil_iff.mp hhands

/-- A live key and a tombstone: no flush reports OK without them. -/
theorem flush_hands_entries_two :
    ∃ t, MemTable.run {} [.put [97] [120] 1 [], .delete [98] 2 []] = .ok t ∧
      HandedOver {} [.put [97] [120] 1 [], .delete [98] 2 []] t :=
  ⟨_, rfl, (flush_hands_entries rfl).mpr (Or.inr (by decide))⟩

end FlushManager

end KvEngine
