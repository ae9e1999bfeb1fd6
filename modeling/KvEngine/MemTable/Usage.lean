/-
  KvEngine.MemTable.Usage
  ───────────────────────
  `MemoryUsage()` against what the nodes take, and `MaxSequenceNumber()`.

  A node takes its key, its value, the node itself and one pointer for every
  level.  A call on a key that is there adds the size of the new value less
  the size of the old one, in 64 bits; a tombstone holds no value, so a second
  `Delete` has nothing to take off and a `Put` gives back nothing.  The counter
  is the sum over the nodes after every call (`apply_usage`), and so after
  every run.
-/
import KvEngine.Lib.Extremes
import KvEngine.Lib.Slots
import KvEngine.MemTable.Reference

namespace KvEngine

open Lib

namespace MemTable

/-! ## §1. What a node takes. -/

/-- Key, value, node and tower. -/
def Node.footprint (n : Node) : Nat :=
  n.key.length + n.value.length + sizeofNode.toNat + n.forward.length * sizeofPointer.toNat

/-- What a node of height one takes. -/
def weight (b : Bytes × Entry) : Nat :=
  b.1.length + b.2.value.length + sizeofNode.toNat + 1 * sizeofPointer.toNat

def Call.sequenceNumber (c : Call) : UInt64 := c.entry.sequenceNumber

variable {t t' : MemTable} {es : List (Bytes × Entry)} {call : Call} {options : Options}

/-- The nodes of a flat list take what its entries weigh. -/
theorem scan_footprint (h : t.Holds es) :
    ∃ nodes, t.scan = .ok nodes ∧ total Node.footprint nodes = total weight es := by
  obtain ⟨cells, hflat, rfl⟩ := h
  obtain ⟨nodes, hrun, hnodes⟩ := scan_visits hflat
  refine ⟨nodes, hrun, ?_⟩
  clear hrun hflat
  induction hnodes with
  | nil => rfl
  | @cons c n cells nodes hc _ ih =>
      obtain ⟨hentry, hheight⟩ := hc
      rw [List.map_cons, total_cons, total_cons, ih, ← hentry]
      unfold Node.footprint weight
      rw [hheight]
      rfl

/-! ## §2. One call. -/

/-- What changes in one entry of the sum, in 64 bits. -/
theorem usage_replaced (usage : UInt64) (old new rest : Nat) :
    usage + (UInt64.ofNat new - UInt64.ofNat old) + UInt64.ofNat (rest + old)
      = usage + UInt64.ofNat (rest + new) := by
  rw [UInt64.ofNat_add, UInt64.ofNat_add]
  grind

/-- One entry under another value. -/
theorem total_weight_replaced (below above : List (Bytes × Entry)) (key : Bytes) (e : Entry) :
    total weight (below ++ (key, e) :: above)
      = (total weight below + total weight above + key.length + sizeofNode.toNat
        + 1 * sizeofPointer.toNat) + e.value.length := by
  rw [total_append, total_cons]
  unfold weight
  dsimp only
  omega

/-- One entry more. -/
theorem usage_inserted (usage : UInt64) (below above : List (Bytes × Entry)) (key : Bytes)
    (e : Entry) :
    usage + (sizeOf key + sizeOf e.value + sizeofNode + UInt64.ofNat 1 * sizeofPointer)
        + UInt64.ofNat (total weight (below ++ above))
      = usage + UInt64.ofNat (total weight (below ++ (key, e) :: above)) := by
  have hweight : UInt64.ofNat (weight (key, e))
      = sizeOf key + sizeOf e.value + sizeofNode + UInt64.ofNat 1 * sizeofPointer := by
    unfold weight sizeOf
    rw [UInt64.ofNat_add, UInt64.ofNat_add, UInt64.ofNat_add]
    rfl
  have htotal : total weight (below ++ (key, e) :: above)
      = weight (key, e) + total weight (below ++ above) := by
    rw [total_append, total_append, total_cons]
    omega
  rw [htotal, UInt64.ofNat_add, hweight, UInt64.add_assoc]

/-- **The memory counter after a call** moves by as much as the sum over the
entries. -/
theorem apply_usage (h : t.Holds es) (hrun : t.apply call = .ok t') :
    t'.memoryUsage + UInt64.ofNat (total weight es)
      = t.memoryUsage
        + UInt64.ofNat (total weight (insertEntry t.impl.order call.key call.entry es)) := by
  have hcounts := apply_counts h hrun
  have hhigh := apply_high h call
  obtain ⟨cells, hflat, rfl⟩ := h
  cases hflat.locate call.key with
  | present below c above n prev hcut hbefore hhere hnode hentry hfound hequal =>
      rw [(hcounts.present _ (find_present hflat.sorted hcut hhere)).2]
      rw [hcut, List.map_append, List.map_cons, show c.2 = (c.2.1, c.2.2) from rfl, hhere,
        insertEntry_present (cells_below hbefore), total_weight_replaced, total_weight_replaced]
      exact usage_replaced _ _ _ _
  | absent below above hcut hbefore hbehind hfound hdiffers =>
      subst hcut
      have habsent := find_absent hbefore hbehind
      -- the call went through, so the node it inserted is one level high
      have hone : Impl.randomLevel t.impl.maxLevel call.coins = 1 := by
        by_contra hne
        cases hrun.symm.trans (hhigh habsent hne)
      rw [(hcounts.absent habsent).2, hone, List.map_append,
        insertEntry_absent (cells_below hbefore) (cells_above hbehind)]
      exact usage_inserted _ _ _ _ _

/-! ## §3. Runs. -/

/-- **A run of calls**: the memory counter is the sum over the entries. -/
theorem run_usage {calls : List Call} (hrun : run options calls = .ok t) :
    ∃ es, t.Holds es ∧ t.memoryUsage = UInt64.ofNat (total weight es) ∧ t.options = options := by
  induction calls using List.reverseRecOn generalizing t with
  | nil =>
      obtain rfl := Except.ok.inj hrun
      exact ⟨[], new_holds options, rfl, rfl⟩
  | append_singleton calls call ih =>
      rw [run_snoc] at hrun
      obtain ⟨t₀, hrun₀, hcall⟩ := exists_of_bind_ok hrun
      obtain ⟨es, hholds, husage, hoptions⟩ := ih hrun₀
      obtain ⟨t', hcall', hholds', -, -⟩ := apply_spec hholds call (fun habsent => by
        by_contra hne
        cases hcall.symm.trans (apply_high hholds call habsent hne))
      obtain rfl : t = t' := Except.ok.inj (hcall.symm.trans hcall')
      refine ⟨_, hholds', ?_, (apply_counts hholds hcall).options.trans hoptions⟩
      have hstep := apply_usage hholds hcall
      rw [husage, UInt64.add_comm] at hstep
      exact (UInt64.add_right_inj _).mp hstep

/-- **`MaxSequenceNumber()`** is the largest number passed so far. -/
theorem run_maxSequence {calls : List Call} (hrun : run options calls = .ok t) :
    (calls = [] → t.maxSequence = 0) ∧
      (calls ≠ [] → IsGreatest (values (fun c : Call => c.sequenceNumber.toNat) calls)
        t.maxSequence.toNat) := by
  induction calls using List.reverseRecOn generalizing t with
  | nil =>
      obtain rfl := Except.ok.inj hrun
      exact ⟨fun _ => rfl, fun hne => absurd rfl hne⟩
  | append_singleton calls call ih =>
      rw [run_snoc] at hrun
      obtain ⟨t₀, hrun₀, hcall⟩ := exists_of_bind_ok hrun
      obtain ⟨hnew, hold⟩ := ih hrun₀
      obtain ⟨es, hholds, -⟩ := run_usage hrun₀
      have hmax : t.maxSequence = max t₀.maxSequence call.sequenceNumber :=
        (apply_counts hholds hcall).maxSequence
      refine ⟨fun hnil => absurd hnil (by simp), fun _ => ?_⟩
      rw [hmax, toNat_max]
      refine isGreatest_snoc (f := fun c : Call => c.sequenceNumber.toNat) call
        (fun hnil => ?_) hold
      rw [hnew hnil]
      exact Nat.zero_le _

/-- **The counters of a memtable are true after any calls that go through**: the
memory counter is what its nodes take, in 64 bits and exactly wherever that
fits into 64 bits, where `IsFull()` compares it with the limit; and the largest
sequence number is the largest that was passed. -/
theorem memoryUsage_exact (options : Options) (calls : List Call) {t : MemTable}
    (hrun : run options calls = .ok t) :
    ∃ nodes, t.scan = .ok nodes ∧
      t.memoryUsage = UInt64.ofNat (total Node.footprint nodes) ∧
      (total Node.footprint nodes < 2 ^ 64 →
        t.memoryUsage.toNat = total Node.footprint nodes ∧
        (t.isFull = true ↔ options.maxSize.toNat ≤ total Node.footprint nodes)) ∧
      (calls ≠ [] → IsGreatest (values (fun c : Call => c.sequenceNumber.toNat) calls)
        t.maxSequence.toNat) := by
  obtain ⟨es, hholds, husage, hoptions⟩ := run_usage hrun
  obtain ⟨nodes, hscan, htotal⟩ := scan_footprint hholds
  refine ⟨nodes, hscan, htotal ▸ husage, fun hfits => ?_, (run_maxSequence hrun).2⟩
  have hexact : t.memoryUsage.toNat = total Node.footprint nodes := by
    rw [husage, ← htotal, UInt64.toNat_ofNat', Nat.mod_eq_of_lt hfits]
  refine ⟨hexact, ?_⟩
  unfold isFull
  rw [decide_eq_true_iff, ge_iff_le, UInt64.le_iff_toNat_le, hexact, hoptions]

/-- A value that shrinks, a key deleted twice and put again. -/
theorem memoryUsage_exact_again :
    let calls : List Call := [.put [97] [120, 121, 122] 3 [], .put [97] [120] 1 [],
      .delete [97] 4 [], .delete [97] 2 [], .put [97] [120, 121] 5 []]
    ∃ t nodes, run {} calls = .ok t ∧ t.memoryUsage = 115 ∧ t.scan = .ok nodes ∧
      t.memoryUsage = UInt64.ofNat (total Node.footprint nodes) ∧
      (total Node.footprint nodes < 2 ^ 64 →
        t.memoryUsage.toNat = total Node.footprint nodes ∧
        (t.isFull = true ↔ (64 * 1024 * 1024 : UInt64).toNat ≤ total Node.footprint nodes)) ∧
      (calls ≠ [] → IsGreatest (values (fun c : Call => c.sequenceNumber.toNat) calls)
        t.maxSequence.toNat) := by
  intro calls
  obtain ⟨t, hrun, hcount⟩ : ∃ t, run {} calls = .ok t ∧ t.memoryUsage = 115 := ⟨_, rfl, rfl⟩
  obtain ⟨nodes, hall⟩ := memoryUsage_exact {} calls hrun
  exact ⟨t, nodes, hrun, hcount, hall⟩

end MemTable

end KvEngine
