/-
  KvEngine.MemTable.Size
  ──────────────────────
  `Size()` against the number of live keys.

  A key is live if the latest call on it was a `Put`.  One call adds its key to
  the live keys or takes it out; the counter follows, but for a `Put` on a
  deleted key (`Revives`), which writes the tombstone over and counts nothing.
  From there on the counter is short, and the next `Delete` takes one too many.
-/
import KvEngine.MemTable.Reference
import Mathlib.Data.Finset.Card

namespace KvEngine

open Lib

namespace MemTable

/-! ## §1. Live keys. -/

def Call.isPut : Call → Bool
  | .put .. => true
  | .delete .. => false

/-- The latest call on the key. -/
def latest (calls : List Call) (key : Bytes) : Option Call :=
  calls.reverse.find? (fun c => c.key = key)

/-- The keys whose latest call was a `Put`. -/
def liveKeys (calls : List Call) : Finset Bytes :=
  (calls.map Call.key).toFinset.filter (fun key => (latest calls key).any Call.isPut)

/-- The call is a `Put` on a key whose latest call was a `Delete`. -/
def Revives (calls : List Call) (call : Call) : Prop :=
  call.isPut = true ∧ ∃ c, latest calls call.key = some c ∧ c.isPut = false

variable {calls : List Call} {call : Call} {key : Bytes}

theorem latest_snoc (calls : List Call) (call : Call) (key : Bytes) :
    latest (calls ++ [call]) key = if call.key = key then some call else latest calls key := by
  unfold latest
  rw [List.reverse_append, List.reverse_singleton, List.singleton_append, List.find?_cons]
  by_cases h : call.key = key <;> simp [h]

/-- The reference binds a key to the entry of the latest call. -/
theorem reference_eq_latest (calls : List Call) (key : Bytes) :
    reference calls key = (latest calls key).map Call.entry := by
  induction calls using List.reverseRecOn with
  | nil => rfl
  | append_singleton calls call ih =>
      rw [reference_snoc, latest_snoc]
      by_cases h : call.key = key
      · subst h
        rw [Function.update_self, if_pos rfl]
        rfl
      · rw [Function.update_of_ne (Ne.symm h), if_neg h, ih]

theorem mem_liveKeys : key ∈ liveKeys calls ↔ (latest calls key).any Call.isPut = true := by
  unfold liveKeys
  rw [Finset.mem_filter, List.mem_toFinset]
  refine and_iff_right_of_imp (fun h => ?_)
  cases hlatest : latest calls key with
  | none => rw [hlatest] at h; exact absurd h (by simp)
  | some c =>
      exact List.mem_map.mpr ⟨c, List.mem_reverse.mp (List.mem_of_find?_eq_some hlatest),
        by simpa using List.find?_some hlatest⟩

/-- **One call on the live keys.** -/
theorem liveKeys_snoc (calls : List Call) (call : Call) :
    liveKeys (calls ++ [call]) = if call.isPut then insert call.key (liveKeys calls)
      else (liveKeys calls).erase call.key := by
  ext key
  rw [mem_liveKeys, latest_snoc]
  by_cases hput : call.isPut = true
  · rw [if_pos hput, Finset.mem_insert, mem_liveKeys]
    by_cases h : call.key = key
    · simp [h, hput]
    · simp [h, Ne.symm h]
  · rw [if_neg hput, Finset.mem_erase, mem_liveKeys]
    by_cases h : call.key = key
    · simp [h, hput]
    · simp [h, Ne.symm h]

/-! ## §2. The counter. -/

variable {t t' : MemTable} {es : List (Bytes × Entry)} {options : Options}

/-- What a call makes of the counter; `bound` is what the key is bound to. -/
def sizeAfter (size : UInt64) (bound : Option Entry) (call : Call) : UInt64 :=
  if call.isPut then (if bound.isSome then size else size + 1)
  else (if bound.any (fun e => !e.isDeleted) then size - 1 else size)

theorem Call.isPut_eq (c : Call) : c.isPut = !c.entry.isDeleted := by
  cases c <;> rfl

/-- **The counter after a call.** -/
theorem apply_counted (h : t.Holds es) (hrun : t.apply call = .ok t') :
    t'.size = sizeAfter t.size (find t.impl.order es call.key) call := by
  have hcounts := apply_counts h hrun
  unfold sizeAfter
  rw [call.isPut_eq]
  cases hbound : find t.impl.order es call.key with
  | some e =>
      rw [(hcounts.present e hbound).1]
      cases call.entry.isDeleted <;> rfl
  | none =>
      rw [(hcounts.absent hbound).1]
      cases call.entry.isDeleted <;> rfl

/-! ## §3. Runs. -/

theorem run_size (h : run options (calls ++ [call]) = .ok t') :
    ∃ t, run options calls = .ok t ∧
      t'.size = sizeAfter t.size (reference calls call.key) call := by
  rw [run_snoc] at h
  cases hrun : run options calls with
  | error fault => rw [hrun] at h; cases h
  | ok t =>
      rw [hrun] at h
      obtain ⟨t₁, es, hrun₁, hholds, -, -, href⟩ := run_spec options calls (drawsOne_of_run hrun)
      obtain rfl : t = t₁ := Except.ok.inj (hrun.symm.trans hrun₁)
      exact ⟨t, rfl, href ▸ apply_counted hholds h⟩

/-- **One call keeps the counter true**, unless it revives a key. -/
theorem sizeAfter_live (calls : List Call) (call : Call) :
    sizeAfter (UInt64.ofNat (liveKeys calls).card) (reference calls call.key) call
        = UInt64.ofNat (liveKeys (calls ++ [call])).card ↔ ¬ Revives calls call := by
  have hstep : ∀ n : Nat, UInt64.ofNat (n + 1) = UInt64.ofNat n + 1 := fun n => by
    rw [UInt64.ofNat_add]
    rfl
  unfold sizeAfter Revives
  rw [liveKeys_snoc, reference_eq_latest]
  cases hput : call.isPut with
  | true =>
      simp only [if_true, true_and]
      cases hlatest : latest calls call.key with
      | none =>
          have hmem : call.key ∉ liveKeys calls := by rw [mem_liveKeys, hlatest]; decide
          rw [Finset.card_insert_of_notMem hmem, hstep]
          simp
      | some c =>
          cases hc : c.isPut with
          | true =>
              have hmem : call.key ∈ liveKeys calls := by rw [mem_liveKeys, hlatest]; exact hc
              rw [Finset.insert_eq_of_mem hmem]
              simp [hc]
          | false =>
              have hmem : call.key ∉ liveKeys calls := by
                rw [mem_liveKeys, hlatest, Option.any_some, hc]
                decide
              rw [Finset.card_insert_of_notMem hmem, hstep]
              simp [hc]
  | false =>
      have hany : ((latest calls call.key).map Call.entry).any (fun e => !e.isDeleted)
          = (latest calls call.key).any Call.isPut := by
        cases latest calls call.key with
        | none => rfl
        | some c => exact c.isPut_eq.symm
      simp only [Bool.false_eq_true, if_false, false_and, not_false_eq_true, iff_true, hany]
      by_cases hmem : call.key ∈ liveKeys calls
      · obtain ⟨n, hn⟩ : ∃ n, (liveKeys calls).card = n + 1 :=
          ⟨_, (Nat.succ_pred_eq_of_pos (Finset.card_pos.mpr ⟨_, hmem⟩)).symm⟩
        rw [if_pos (mem_liveKeys.mp hmem), Finset.card_erase_of_mem hmem, hn, hstep]
        simp
      · rw [if_neg (fun h => hmem (mem_liveKeys.mpr h)), Finset.erase_eq_of_notMem hmem]

/-- **`Size()` is the number of live keys all along a run** if and only if no
call inserts a node above height one, which would follow a null pointer, and
none is a `Put` on a deleted key. -/
theorem size_counts_live (options : Options) (calls : List Call) :
    (∀ before, before <+: calls →
        ∃ t, run options before = .ok t ∧ t.size = UInt64.ofNat (liveKeys before).card) ↔
      DrawsOne options.maxLevel calls ∧
        ∀ before call, before ++ [call] <+: calls → ¬ Revives before call := by
  constructor
  · intro h
    obtain ⟨t, hrun, -⟩ := h calls (List.prefix_refl _)
    refine ⟨drawsOne_of_run hrun, fun before call hpre => ?_⟩
    obtain ⟨t', hrun', hsize'⟩ := h _ hpre
    obtain ⟨t₀, hrun₀, hsize₀⟩ := run_size hrun'
    obtain ⟨t₁, hrun₁, hsize₁⟩ := h before ((List.prefix_append _ _).trans hpre)
    obtain rfl : t₀ = t₁ := Except.ok.inj (hrun₀.symm.trans hrun₁)
    rw [← sizeAfter_live, ← hsize₁, ← hsize₀, hsize']
  · rintro ⟨hdraws, hrevives⟩ before hpre
    induction before using List.reverseRecOn with
    | nil => exact ⟨_, rfl, rfl⟩
    | append_singleton before call ih =>
        obtain ⟨t₀, hrun₀, hsize₀⟩ := ih ((List.prefix_append _ _).trans hpre)
        have hdraws' : DrawsOne options.maxLevel (before ++ [call]) := by
          obtain ⟨after, rfl⟩ := hpre
          intro b c a hcut hnew
          exact hdraws b c (a ++ after) (by rw [hcut, List.append_assoc, List.cons_append]) hnew
        obtain ⟨t, -, hrun, -⟩ := run_spec options _ hdraws'
        obtain ⟨t₁, hrun₁, hsize⟩ := run_size hrun
        obtain rfl : t₀ = t₁ := Except.ok.inj (hrun₀.symm.trans hrun₁)
        refine ⟨t, hrun, ?_⟩
        rw [hsize, hsize₀]
        exact (sizeAfter_live before call).mpr (hrevives before call hpre)

/-- A key is put, deleted, put again and deleted again. -/
theorem size_counts_live_again :
    (run {} [.put [97] [120] 1 [], .delete [97] 2 [], .put [97] [120] 3 []]).map MemTable.size
        = .ok 0 ∧
      (liveKeys [.put [97] [120] 1 [], .delete [97] 2 [], .put [97] [120] 3 []]).card = 1 ∧
      (run {} [.put [97] [120] 1 [], .delete [97] 2 [], .put [97] [120] 3 [],
        .delete [97] 4 []]).map MemTable.size = .ok 0xFFFFFFFFFFFFFFFF :=
  ⟨rfl, by decide, rfl⟩

end MemTable

end KvEngine
