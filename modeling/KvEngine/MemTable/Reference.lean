/-
  KvEngine.MemTable.Reference
  ───────────────────────────
  The memtable against a map from keys to entries.

  `reference calls` binds every key to the entry of the last call on it.
  `memTable_refines` says for which runs the memtable is that map: those in
  which every inserted node draws height one.  Any other run follows a null
  pointer at the first higher node.

  Main results:
    * `apply_spec` / `apply_high` — one call, on a memtable whose list is flat;
    * `apply_counts` — its counters;
    * `run_spec` — a run of calls;
    * `memTable_refines` — the runs that agree with the reference.
-/
import KvEngine.Lib.LastWriter
import KvEngine.MemTable.Levels

namespace KvEngine

open Lib

namespace MemTable

/-! ## §1. Calls and their reference. -/

/-- A `Put` or a `Delete`, with the coins `RandomLevel` would throw. -/
inductive Call where
  | put (key value : Bytes) (sequenceNumber : UInt64) (coins : List Bool)
  | delete (key : Bytes) (sequenceNumber : UInt64) (coins : List Bool)

namespace Call

def key : Call → Bytes
  | .put key _ _ _ => key
  | .delete key _ _ => key

def entry : Call → Entry
  | .put _ value sequenceNumber _ => ⟨value, sequenceNumber, false⟩
  | .delete _ sequenceNumber _ => ⟨[], sequenceNumber, true⟩

def coins : Call → List Bool
  | .put _ _ _ coins => coins
  | .delete _ _ coins => coins

end Call

def apply (t : MemTable) : Call → Except Fault MemTable
  | .put key value sequenceNumber coins => do return (← t.put key value sequenceNumber coins).2
  | .delete key sequenceNumber coins => do return (← t.delete key sequenceNumber coins).2

def run (options : Options) (calls : List Call) : Except Fault MemTable :=
  calls.foldlM apply (new options)

/-- The last call on a key decides. -/
def reference (calls : List Call) : Bytes → Option Entry :=
  overwriteAll (fun c : Call => some (c.key, some c.entry)) (fun _ => none) calls

/-- What `Get` answers for an entry. -/
def answer : Option Entry → Status × Option (Bytes × UInt64)
  | none => (.notFound "Key not found", none)
  | some e =>
      if e.isDeleted then (.notFound "Key deleted", none)
      else (.okStatus, some (e.value, e.sequenceNumber))

/-- The node at `id` comes before the node at `id'` in the order of the keys. -/
def Impl.Before (t : Impl) (id id' : NodeId) : Prop :=
  ∃ n n', t.nodes[id]? = some n ∧ t.nodes[id']? = some n' ∧ t.order.lt n.key n'.key

/-- Every level strictly sorted and a sublist of the level below; `Get` and
iteration give what the reference holds. -/
structure Refines (t : MemTable) (ref : Bytes → Option Entry) : Prop where
  sorted : ∀ l ≤ t.impl.maxLevel, ∃ ids, t.impl.level l = some ids ∧ ids.Pairwise t.impl.Before
  sublist : ∀ l < t.impl.maxLevel, ∃ upper lower, t.impl.level (l + 1) = some upper ∧
    t.impl.level l = some lower ∧ upper.Sublist lower
  get : ∀ key, t.get key = .ok (answer (ref key))
  iteration : ∃ nodes, t.scan = .ok nodes ∧ Sorted t.impl.order (nodes.map Node.entry) ∧
    ∀ key e, (key, e) ∈ nodes.map Node.entry ↔ ref key = some e

theorem reference_snoc (calls : List Call) (call : Call) :
    reference (calls ++ [call])
      = Function.update (reference calls) call.key (some call.entry) := by
  unfold reference
  rw [overwriteAll_append]
  rfl

theorem reference_eq_none_iff (calls : List Call) (key : Bytes) :
    reference calls key = none ↔ ∀ c ∈ calls, c.key ≠ key := by
  induction calls using List.reverseRecOn with
  | nil => exact ⟨fun _ c hc => absurd hc (by simp), fun _ => rfl⟩
  | append_singleton calls call ih =>
      rw [reference_snoc]
      by_cases hkey : key = call.key
      · subst hkey
        rw [Function.update_self]
        constructor
        · intro h
          cases h
        · intro h
          exact absurd rfl (h call (by simp))
      · rw [Function.update_of_ne hkey, ih]
        constructor
        · intro h c hc
          rcases List.mem_append.mp hc with hc | hc
          · exact h c hc
          · rw [List.mem_singleton.mp hc]
            exact Ne.symm hkey
        · exact fun h c hc => h c (List.mem_append_left _ hc)

/-! ## §2. Heights. -/

theorem raiseLevel_bounds (maxLevel : Nat) (coins : List Bool) :
    ∀ level, level ≤ Impl.raiseLevel maxLevel coins level ∧
      Impl.raiseLevel maxLevel coins level ≤ max level maxLevel := by
  induction coins with
  | nil => exact fun level => ⟨Nat.le_refl _, Nat.le_max_left _ _⟩
  | cons coin coins ih =>
      intro level
      cases coin with
      | false => exact ⟨Nat.le_refl _, Nat.le_max_left _ _⟩
      | true =>
          unfold Impl.raiseLevel
          split
          next hlt =>
            obtain ⟨hlow, hhigh⟩ := ih (level + 1)
            exact ⟨by omega, by omega⟩
          next => exact ⟨Nat.le_refl _, Nat.le_max_left _ _⟩

theorem randomLevel_pos (maxLevel : Nat) (coins : List Bool) :
    1 ≤ Impl.randomLevel maxLevel coins :=
  (raiseLevel_bounds maxLevel coins 1).1

theorem randomLevel_le {maxLevel : Nat} (coins : List Bool) (h : 1 ≤ maxLevel) :
    Impl.randomLevel maxLevel coins ≤ maxLevel := by
  have := (raiseLevel_bounds maxLevel coins 1).2
  unfold Impl.randomLevel
  omega

/-- Every height up to the maximum is drawn by some coins. -/
theorem exists_coins {maxLevel level : Nat} (hlow : 1 ≤ level) (hhigh : level ≤ maxLevel) :
    ∃ coins, Impl.randomLevel maxLevel coins = level := by
  have hraise : ∀ k start, start + k ≤ maxLevel →
      Impl.raiseLevel maxLevel (List.replicate k true) start = start + k := by
    intro k
    induction k with
    | zero => exact fun start _ => rfl
    | succ k ih =>
        intro start h
        rw [List.replicate_succ]
        unfold Impl.raiseLevel
        rw [if_pos (by omega), ih (start + 1) (by omega)]
        omega
  refine ⟨List.replicate (level - 1) true, ?_⟩
  unfold Impl.randomLevel
  rw [hraise (level - 1) 1 (by omega)]
  omega

/-! ## §3. One call. -/

/-- A flat list holding the entries `es`. -/
def Holds (t : MemTable) (es : List (Bytes × Entry)) : Prop :=
  ∃ cells, t.impl.Flat cells ∧ cells.map Prod.snd = es

variable {t : MemTable} {es : List (Bytes × Entry)}

theorem new_holds (options : Options) : (new options).Holds [] :=
  ⟨[], Impl.new_flat _ _, rfl⟩

theorem cells_below {below : List Cell} {c : Comparator} {key : Bytes}
    (h : ∀ d ∈ below, c.lt d.2.1 key) : ∀ e ∈ below.map Prod.snd, c.lt e.1 key := by
  intro e he
  obtain ⟨d, hd, rfl⟩ := List.mem_map.mp he
  exact h d hd

theorem cells_above {above : List Cell} {c : Comparator} {key : Bytes}
    (h : ∀ d ∈ above, c.lt key d.2.1) : ∀ e ∈ above.map Prod.snd, c.lt key e.1 := by
  intro e he
  obtain ⟨d, hd, rfl⟩ := List.mem_map.mp he
  exact h d hd

/-- A key that is there, in the list of entries. -/
theorem find_present {cells below above : List Cell} {d : Cell} {c : Comparator} {key : Bytes}
    (hsorted : Sorted c (cells.map Prod.snd)) (hcut : cells = below ++ d :: above)
    (hkey : d.2.1 = key) : find c (cells.map Prod.snd) key = some d.2.2 := by
  subst hcut hkey
  rw [List.map_append, List.map_cons] at hsorted ⊢
  exact hsorted.find_middle

/-- A key that is not. -/
theorem find_absent {below above : List Cell} {c : Comparator} {key : Bytes}
    (hbelow : ∀ d ∈ below, c.lt d.2.1 key) (habove : ∀ d ∈ above, c.lt key d.2.1) :
    find c ((below ++ above).map Prod.snd) key = none := by
  rw [List.map_append]
  exact find_between (cells_below hbelow) (cells_above habove)

theorem put_present {key : Bytes} {id : NodeId} {n : Node} {prev : List (Option NodeId)}
    (hfound : t.impl.findGreaterOrEqual key = .ok (some id, prev))
    (hequal : t.impl.matching (some id) key = .ok (some (id, n))) (value : Bytes)
    (sequenceNumber : UInt64) (coins : List Bool) :
    t.put key value sequenceNumber coins = .ok (.okStatus, { t with
      impl := t.impl.setNode id { n with value, sequenceNumber, isDeleted := false }
      memoryUsage := t.memoryUsage + (sizeOf value - sizeOf n.value)
      maxSequence := max t.maxSequence sequenceNumber }) := by
  unfold put
  rw [hfound]
  show (t.impl.matching (some id) key).bind _ = _
  rw [hequal]
  rfl

theorem delete_present {key : Bytes} {id : NodeId} {n : Node} {prev : List (Option NodeId)}
    (hfound : t.impl.findGreaterOrEqual key = .ok (some id, prev))
    (hequal : t.impl.matching (some id) key = .ok (some (id, n)))
    (sequenceNumber : UInt64) (coins : List Bool) :
    t.delete key sequenceNumber coins = .ok (.okStatus, { t with
      impl := t.impl.setNode id { n with
        value := if n.isDeleted then n.value else [], sequenceNumber, isDeleted := true }
      size := if n.isDeleted then t.size else t.size - 1
      memoryUsage := if n.isDeleted then t.memoryUsage else t.memoryUsage - sizeOf n.value
      maxSequence := max t.maxSequence sequenceNumber }) := by
  unfold delete
  rw [hfound]
  show (t.impl.matching (some id) key).bind _ = _
  rw [hequal]
  show Except.ok _ = Except.ok _
  cases n.isDeleted <;> rfl

theorem put_absent {key : Bytes} {p : Option NodeId} {prev : List (Option NodeId)}
    (hfound : t.impl.findGreaterOrEqual key = .ok (p, prev))
    (hdiffers : t.impl.matching p key = .ok none) (value : Bytes)
    (sequenceNumber : UInt64) (coins : List Bool) :
    t.put key value sequenceNumber coins
      = (t.impl.insertNode ⟨key, value,
          List.replicate (Impl.randomLevel t.impl.maxLevel coins) none, sequenceNumber, false⟩
          prev).map (fun impl => (.okStatus, { t with
            impl
            size := t.size + 1
            memoryUsage := t.memoryUsage + (sizeOf key + sizeOf value + sizeofNode +
              UInt64.ofNat (Impl.randomLevel t.impl.maxLevel coins) * sizeofPointer)
            maxSequence := max t.maxSequence sequenceNumber })) := by
  unfold put
  rw [hfound]
  show (t.impl.matching p key).bind _ = _
  rw [hdiffers]
  show (t.impl.insertNode _ prev).bind _ = _
  cases t.impl.insertNode _ prev <;> rfl

theorem delete_absent {key : Bytes} {p : Option NodeId} {prev : List (Option NodeId)}
    (hfound : t.impl.findGreaterOrEqual key = .ok (p, prev))
    (hdiffers : t.impl.matching p key = .ok none)
    (sequenceNumber : UInt64) (coins : List Bool) :
    t.delete key sequenceNumber coins
      = (t.impl.insertNode ⟨key, [],
          List.replicate (Impl.randomLevel t.impl.maxLevel coins) none, sequenceNumber, true⟩
          prev).map (fun impl => (.okStatus, { t with
            impl
            memoryUsage := t.memoryUsage + (sizeOf key + sizeofNode +
              UInt64.ofNat (Impl.randomLevel t.impl.maxLevel coins) * sizeofPointer)
            maxSequence := max t.maxSequence sequenceNumber })) := by
  unfold delete
  rw [hfound]
  show (t.impl.matching p key).bind _ = _
  rw [hdiffers]
  show (t.impl.insertNode _ prev).bind _ = _
  cases t.impl.insertNode _ prev <;> rfl

theorem apply_put (t : MemTable) (key value : Bytes) (sequenceNumber : UInt64)
    (coins : List Bool) : t.apply (.put key value sequenceNumber coins)
      = (t.put key value sequenceNumber coins).map Prod.snd := by
  show (t.put key value sequenceNumber coins).bind _ = _
  cases t.put key value sequenceNumber coins <;> rfl

theorem apply_delete (t : MemTable) (key : Bytes) (sequenceNumber : UInt64)
    (coins : List Bool) : t.apply (.delete key sequenceNumber coins)
      = (t.delete key sequenceNumber coins).map Prod.snd := by
  show (t.delete key sequenceNumber coins).bind _ = _
  cases t.delete key sequenceNumber coins <;> rfl

theorem map_map {α β γ : Type} (x : Except Fault α) (f : α → β) (g : β → γ) :
    (x.map f).map g = x.map (fun a => g (f a)) := by
  cases x <;> rfl

/-- A call on a key that is there writes its node in place. -/
theorem apply_present {call : Call} {id : NodeId} {n : Node} {prev : List (Option NodeId)}
    (hfound : t.impl.findGreaterOrEqual call.key = .ok (some id, prev))
    (hequal : t.impl.matching (some id) call.key = .ok (some (id, n)))
    (hburied : n.isDeleted = true → n.value = []) :
    ∃ t' n', t.apply call = .ok t' ∧ t'.impl = t.impl.setNode id n' ∧ n'.key = n.key ∧
      n'.forward = n.forward ∧ n'.entry.2 = call.entry := by
  cases call with
  | put key value sequenceNumber coins =>
      have hrun := put_present hfound hequal value sequenceNumber coins
      have happly := apply_put t key value sequenceNumber coins
      rw [show t.put key value sequenceNumber coins = _ from hrun] at happly
      exact ⟨_, { n with value, sequenceNumber, isDeleted := false }, happly, rfl, rfl, rfl, rfl⟩
  | delete key sequenceNumber coins =>
      have hrun := delete_present hfound hequal sequenceNumber coins
      have happly := apply_delete t key sequenceNumber coins
      rw [show t.delete key sequenceNumber coins = _ from hrun] at happly
      refine ⟨_, { n with
        value := if n.isDeleted then n.value else [], sequenceNumber, isDeleted := true },
        happly, rfl, rfl, rfl, ?_⟩
      -- a tombstone has no value left to drop
      show (⟨if n.isDeleted then n.value else [], sequenceNumber, true⟩ : Entry) = ⟨[], _, true⟩
      split
      next hdel => rw [hburied hdel]
      next => rfl

/-- A call on a key that is not there inserts a node of the drawn height. -/
theorem apply_absent {call : Call} {p : Option NodeId} {prev : List (Option NodeId)}
    (hfound : t.impl.findGreaterOrEqual call.key = .ok (p, prev))
    (hdiffers : t.impl.matching p call.key = .ok none) :
    ∃ (node : Node) (done : Impl → MemTable), node.entry = (call.key, call.entry) ∧
      node.forward = List.replicate (Impl.randomLevel t.impl.maxLevel call.coins) none ∧
      (∀ impl, (done impl).impl = impl) ∧
      t.apply call = (t.impl.insertNode node prev).map done := by
  cases call with
  | put key value sequenceNumber coins =>
      have hrun := put_absent hfound hdiffers value sequenceNumber coins
      have happly := apply_put t key value sequenceNumber coins
      rw [show t.put key value sequenceNumber coins = _ from hrun, map_map] at happly
      exact ⟨_, _, rfl, rfl, fun impl => rfl, happly⟩
  | delete key sequenceNumber coins =>
      have hrun := delete_absent hfound hdiffers sequenceNumber coins
      have happly := apply_delete t key sequenceNumber coins
      rw [show t.delete key sequenceNumber coins = _ from hrun, map_map] at happly
      exact ⟨_, _, rfl, rfl, fun impl => rfl, happly⟩

/-- A node bound by a call holds no value if it is a tombstone. -/
theorem Call.buried {n : Node} (call : Call) (h : n.entry.2 = call.entry) :
    n.isDeleted = true → n.value = [] := by
  intro hdel
  have hvalue : n.value = call.entry.value := congrArg Entry.value h
  have hdeleted : n.isDeleted = call.entry.isDeleted := congrArg Entry.isDeleted h
  cases call with
  | put => cases hdeleted.symm.trans hdel
  | delete => exact hvalue

/-- A call on the nodes of a flat list: none of them goes, or changes its key. -/
theorem apply_cells {cells : List Cell} (hflat : t.impl.Flat cells) (call : Call)
    (hone : find t.impl.order (cells.map Prod.snd) call.key = none →
      Impl.randomLevel t.impl.maxLevel call.coins = 1) :
    ∃ t' cells', t.apply call = .ok t' ∧ t'.impl.Flat cells' ∧
      cells'.map Prod.snd
        = insertEntry t.impl.order call.key call.entry (cells.map Prod.snd) ∧
      (∀ c ∈ cells, ∃ c' ∈ cells', c'.1 = c.1 ∧ c'.2.1 = c.2.1) ∧
      t'.impl.comparator = t.impl.comparator ∧ t'.impl.maxLevel = t.impl.maxLevel := by
  cases hflat.locate call.key with
  | present below c above n prev hcut hbefore hhere hnode hentry hfound hequal =>
      subst hcut
      have hburied : n.isDeleted = true → n.value = [] := by
        have := hflat.buried c (by simp)
        rw [← hentry] at this
        exact this
      -- written in place, under the same key
      obtain ⟨t', n', hrun, himpl, hkey, hforward, hcall⟩ :=
        apply_present hfound hequal hburied
      have hflat' := hflat.update hnode hentry hkey hforward (hhere ▸ hbefore)
        (call.buried hcall)
      have hfst : n'.entry.1 = call.key := hkey.trans ((congrArg Prod.fst hentry).trans hhere)
      refine ⟨t', _, hrun, himpl ▸ hflat', ?_, ?_, by rw [himpl]; rfl, by rw [himpl]; rfl⟩
      · rw [List.map_append, List.map_cons, List.map_append, List.map_cons,
          show c.2 = (c.2.1, c.2.2) from rfl, hhere, insertEntry_present (cells_below hbefore),
          ← hfst, ← hcall]
      · intro d hd
        rcases List.mem_append.mp hd with hd | hd
        · exact ⟨d, List.mem_append_left _ hd, rfl, rfl⟩
        rcases List.mem_cons.mp hd with rfl | hd
        · exact ⟨_, List.mem_append_right _ List.mem_cons_self, rfl, hfst.trans hhere.symm⟩
        · exact ⟨d, List.mem_append_right _ (List.mem_cons_of_mem _ hd), rfl, rfl⟩
  | absent below above hcut hbefore hbehind hfound hdiffers =>
      subst hcut
      obtain ⟨node, done, hentry, hforward, hdone, hrun⟩ := apply_absent hfound hdiffers
      -- a new node of height one, where the search stopped
      rw [hone (find_absent hbefore hbehind)] at hforward
      have hkey : node.key = call.key := congrArg Prod.fst hentry
      have hcall : node.entry.2 = call.entry := congrArg Prod.snd hentry
      obtain ⟨impl, hinsert, hflat', hcmp, hmax⟩ := Impl.insertNode_spec hflat hforward
        (hkey ▸ hbefore) (hkey ▸ hbehind) (call.buried hcall)
      rw [hinsert] at hrun
      refine ⟨done impl, _, hrun, (hdone impl).symm ▸ hflat', ?_, ?_,
        (hdone impl).symm ▸ hcmp, (hdone impl).symm ▸ hmax⟩
      · rw [List.map_append, List.map_append, List.map_cons,
          insertEntry_absent (cells_below hbefore) (cells_above hbehind), hentry]
      · intro d hd
        rcases List.mem_append.mp hd with hd | hd
        · exact ⟨d, List.mem_append_left _ hd, rfl, rfl⟩
        · exact ⟨d, List.mem_append_right _ (List.mem_cons_of_mem _ hd), rfl, rfl⟩

/-- **One call**: it goes through unless it inserts a node above height one,
and binds its key to its entry. -/
theorem apply_spec (h : t.Holds es) (call : Call)
    (hone : find t.impl.order es call.key = none →
      Impl.randomLevel t.impl.maxLevel call.coins = 1) :
    ∃ t', t.apply call = .ok t' ∧
      t'.Holds (insertEntry t.impl.order call.key call.entry es) ∧
      t'.impl.comparator = t.impl.comparator ∧ t'.impl.maxLevel = t.impl.maxLevel := by
  obtain ⟨cells, hflat, rfl⟩ := h
  obtain ⟨t', cells', hrun, hflat', hcells', -, hcmp, hmax⟩ := apply_cells hflat call hone
  exact ⟨t', hrun, ⟨cells', hflat', hcells'⟩, hcmp, hmax⟩

/-- **A higher node follows a null pointer.** -/
theorem apply_high (h : t.Holds es) (call : Call)
    (habsent : find t.impl.order es call.key = none)
    (hhigh : Impl.randomLevel t.impl.maxLevel call.coins ≠ 1) :
    t.apply call = .error .nullPointer := by
  obtain ⟨cells, hflat, rfl⟩ := h
  cases hflat.locate call.key with
  | present below c above n prev hcut hbefore hhere hnode hentry hfound hequal =>
      rw [find_present hflat.sorted hcut hhere] at habsent
      cases habsent
  | absent below above hcut hbefore hbehind hfound hdiffers =>
      subst hcut
      obtain ⟨node, done, hentry, hforward, hdone, hrun⟩ := apply_absent hfound hdiffers
      have hpos := randomLevel_pos t.impl.maxLevel call.coins
      have hle := (raiseLevel_bounds t.impl.maxLevel call.coins 1).2
      obtain ⟨k, hk⟩ : ∃ k, Impl.randomLevel t.impl.maxLevel call.coins = k + 2 :=
        ⟨Impl.randomLevel t.impl.maxLevel call.coins - 2, by omega⟩
      rw [hk] at hforward
      rw [hrun, Impl.insertNode_high hflat hforward (by unfold Impl.randomLevel at hk; omega)]
      rfl

theorem exists_of_bind_ok {α β : Type} {x : Except Fault α} {f : α → Except Fault β} {b : β}
    (h : x >>= f = .ok b) : ∃ a, x = .ok a ∧ f a = .ok b := by
  cases x with
  | error fault => cases h
  | ok a => exact ⟨a, rfl, h⟩

theorem ok_of_map {α β : Type} {x : Except Fault α} {f : α → β} {b : β}
    (h : x.map f = .ok b) : ∃ a, x = .ok a ∧ f a = b := by
  cases x with
  | error fault => cases h
  | ok a => exact ⟨a, rfl, Except.ok.inj h⟩

/-- What a call makes of the counters; `bound` is what its key is bound to. -/
structure Counts (t t' : MemTable) (call : Call) (bound : Option Entry) : Prop where
  options : t'.options = t.options
  maxSequence : t'.maxSequence = max t.maxSequence call.entry.sequenceNumber
  present : ∀ e, bound = some e →
    t'.size = (if call.entry.isDeleted && !e.isDeleted then t.size - 1 else t.size) ∧
    t'.memoryUsage = t.memoryUsage + (sizeOf call.entry.value - sizeOf e.value)
  absent : bound = none →
    t'.size = (if call.entry.isDeleted then t.size else t.size + 1) ∧
    t'.memoryUsage = t.memoryUsage + (sizeOf call.key + sizeOf call.entry.value + sizeofNode +
      UInt64.ofNat (Impl.randomLevel t.impl.maxLevel call.coins) * sizeofPointer)

/-- **The counters after a call.** -/
theorem apply_counts (h : t.Holds es) {call : Call} {t' : MemTable}
    (hrun : t.apply call = .ok t') : Counts t t' call (find t.impl.order es call.key) := by
  obtain ⟨cells, hflat, rfl⟩ := h
  cases hflat.locate call.key with
  | present below c above n prev hcut hbefore hhere hnode hentry hfound hequal =>
      have hburied : n.isDeleted = true → n.value = [] := by
        have := hflat.buried c (by rw [hcut]; exact List.mem_append_right _ List.mem_cons_self)
        rwa [← hentry] at this
      have hzero : sizeOf [] - sizeOf [] = 0 := rfl
      rw [find_present hflat.sorted hcut hhere, ← hentry]
      cases call with
      | put key value sequenceNumber coins =>
          have hput := put_present hfound hequal value sequenceNumber coins
          rw [apply_put, show t.put key value sequenceNumber coins = _ from hput] at hrun
          obtain rfl := Except.ok.inj hrun
          refine ⟨rfl, rfl, ?_, nofun⟩
          intro e he
          obtain rfl := Option.some.inj he
          exact ⟨rfl, rfl⟩
      | delete key sequenceNumber coins =>
          have hdelete := delete_present hfound hequal sequenceNumber coins
          rw [apply_delete, show t.delete key sequenceNumber coins = _ from hdelete] at hrun
          obtain rfl := Except.ok.inj hrun
          refine ⟨rfl, rfl, ?_, nofun⟩
          intro e he
          obtain rfl := Option.some.inj he
          show (if n.isDeleted then t.size else t.size - 1)
              = (if true && !n.isDeleted then t.size - 1 else t.size) ∧
            (if n.isDeleted then t.memoryUsage else t.memoryUsage - sizeOf n.value)
              = t.memoryUsage + (sizeOf [] - sizeOf n.value)
          cases hdeleted : n.isDeleted with
          -- a tombstone holds no value
          | true =>
              rw [hburied hdeleted, hzero, UInt64.add_zero]
              exact ⟨rfl, rfl⟩
          | false =>
              refine ⟨rfl, ?_⟩
              show t.memoryUsage - sizeOf n.value = t.memoryUsage + (0 - sizeOf n.value)
              rw [UInt64.zero_sub, UInt64.sub_eq_add_neg]
  | absent below above hcut hbefore hbehind hfound hdiffers =>
      subst hcut
      rw [find_absent hbefore hbehind]
      cases call with
      | put key value sequenceNumber coins =>
          have hput := put_absent hfound hdiffers value sequenceNumber coins
          rw [apply_put, show t.put key value sequenceNumber coins = _ from hput, map_map] at hrun
          obtain ⟨impl, -, rfl⟩ := ok_of_map hrun
          exact ⟨rfl, rfl, nofun, fun _ => ⟨rfl, rfl⟩⟩
      | delete key sequenceNumber coins =>
          have hdelete := delete_absent hfound hdiffers sequenceNumber coins
          rw [apply_delete, show t.delete key sequenceNumber coins = _ from hdelete, map_map]
            at hrun
          obtain ⟨impl, -, rfl⟩ := ok_of_map hrun
          refine ⟨rfl, rfl, nofun, fun _ => ⟨rfl, ?_⟩⟩
          show t.memoryUsage + (sizeOf key + sizeofNode + _)
            = t.memoryUsage + (sizeOf key + 0 + sizeofNode + _)
          rw [UInt64.add_zero]
          rfl

/-! ## §4. Reading. -/

/-- `Get` on a flat list. -/
theorem get_spec (h : t.Holds es) (key : Bytes) :
    t.get key = .ok (answer (find t.impl.order es key)) := by
  obtain ⟨cells, hflat, rfl⟩ := h
  unfold get
  cases hflat.locate key with
  | present below c above n prev hcut hbefore hhere hnode hentry hfound hequal =>
      rw [find_present hflat.sorted hcut hhere, hfound]
      show (t.impl.matching (some c.1) key).bind _ = _
      rw [hequal, ← hentry]
      show (if n.isDeleted then _ else _) = _
      show _ = Except.ok (if n.isDeleted then _ else _)
      split <;> rfl
  | absent below above hcut hbefore hbehind hfound hdiffers =>
      subst hcut
      rw [find_absent hbefore hbehind, hfound]
      show (t.impl.matching (Impl.headId above) key).bind _ = _
      rw [hdiffers]
      rfl

/-- The iterator on the rest of the list. -/
theorem scanFrom_spec {cells : List Cell}
    (hnode : ∀ c ∈ cells, ∃ n, t.impl.nodes[c.1]? = some n) :
    ∀ {steps : Nat} {p : Option NodeId}, cells.length ≤ steps →
      Follows (t.impl.next 0) p (cells.map Prod.fst) →
      ∃ nodes, t.scanFrom steps ⟨p, .okStatus⟩ = .ok nodes ∧
        List.Forall₂ (fun c n => t.impl.nodes[c.1]? = some n) cells nodes := by
  induction cells with
  | nil =>
      intro steps p _ hfollows
      obtain rfl : p = none := hfollows
      refine ⟨[], ?_, List.Forall₂.nil⟩
      -- One step: the node is read, then its pointer on level 0.
      unfold scanFrom
      rfl
  | cons c cells ih =>
      intro steps p hsteps hfollows
      obtain ⟨rfl, q, hq, hrest⟩ := hfollows
      obtain ⟨n, hn⟩ := hnode c List.mem_cons_self
      obtain ⟨steps, rfl⟩ : ∃ s, steps = s + 1 :=
        ⟨steps - 1, by rw [List.length_cons] at hsteps; omega⟩
      obtain ⟨nodes, hrun, hnodes⟩ :=
        ih (fun d hd => hnode d (List.mem_cons_of_mem c hd)) (by simpa using hsteps) hrest
      refine ⟨n :: nodes, ?_, List.Forall₂.cons hn hnodes⟩
      unfold scanFrom
      show (t.impl.node (some c.1)).bind _ = _
      rw [Impl.node_of_getElem hn]
      show ((t.impl.forward (some c.1) 0).bind _).bind _ = _
      rw [Impl.forward_of_next hq]
      show (t.scanFrom steps ⟨q, .okStatus⟩).bind _ = _
      rw [hrun]
      rfl

/-- **Iteration** visits the nodes of the list in order. -/
theorem scan_visits {cells : List Cell} (hflat : t.impl.Flat cells) :
    ∃ nodes, t.scan = .ok nodes ∧
      List.Forall₂ (fun c n => n.entry = c.2 ∧ n.forward.length = 1) cells nodes := by
  obtain ⟨-, q, hq, hrest⟩ := hflat.linked
  have hnode : ∀ c ∈ cells, ∃ n, t.impl.nodes[c.1]? = some n := by
    intro c hc
    obtain ⟨n, hn, -, -⟩ := hflat.cell c hc
    exact ⟨n, hn⟩
  obtain ⟨nodes, hrun, hnodes⟩ := scanFrom_spec hnode (Nat.le_of_lt hflat.size) hrest
  refine ⟨nodes, ?_, ?_⟩
  · unfold scan
    have hfirst : ∀ it, Iterator.seekToFirst t it = .ok { it with current := q } := by
      intro it
      show (t.impl.forward (some 0) 0).bind _ = _
      rw [Impl.forward_of_next hq]
      rfl
    show ((Iterator.seekToFirst t _).bind _) = _
    rw [hfirst]
    show ((Iterator.seekToFirst t _).bind _) = _
    rw [hfirst]
    exact hrun
  · have hboth := (List.forall₂_and_left (p := (· ∈ cells)) _ _).mpr ⟨fun c hc => hc, hnodes⟩
    refine hboth.imp fun c n ⟨hc, hn⟩ => ?_
    obtain ⟨n', hn', hentry, hheight⟩ := hflat.cell c hc
    obtain rfl := Option.some.inj (hn.symm.trans hn')
    exact ⟨hentry, hheight⟩

/-- It gives the entries in order. -/
theorem scan_spec (h : t.Holds es) :
    ∃ nodes, t.scan = .ok nodes ∧ nodes.map Node.entry = es := by
  obtain ⟨cells, hflat, rfl⟩ := h
  obtain ⟨nodes, hrun, hnodes⟩ := scan_visits hflat
  refine ⟨nodes, hrun, ?_⟩
  clear hrun hflat
  induction hnodes with
  | nil => rfl
  | cons hc _ ih => rw [List.map_cons, List.map_cons, hc.1, ih]

/-- **A flat list is the map it holds**, level for level. -/
theorem Holds.refines (h : t.Holds es) : t.Refines (find t.impl.order es) := by
  obtain ⟨cells, hflat, hcells⟩ := id h
  refine ⟨?_, ?_, get_spec h, ?_⟩
  · intro l hl
    cases l with
    | zero =>
        refine ⟨_, hflat.level_zero, ?_⟩
        rw [List.pairwise_map]
        refine List.Pairwise.imp_of_mem (fun {a b} ha hb hlt => ?_)
          (List.pairwise_map.mp hflat.sorted)
        obtain ⟨n, hn, hentry, -⟩ := hflat.cell a ha
        obtain ⟨m, hm, hentry', -⟩ := hflat.cell b hb
        refine ⟨n, m, hn, hm, ?_⟩
        rwa [← hentry, ← hentry'] at hlt
    -- The levels above 0 are empty.
    | succ l => exact ⟨[], hflat.level_succ hl, List.Pairwise.nil⟩
  · intro l hl
    have hupper := hflat.level_succ hl
    cases l with
    | zero => exact ⟨_, _, hupper, hflat.level_zero, List.nil_sublist _⟩
    | succ l => exact ⟨_, _, hupper, hflat.level_succ (Nat.lt_of_succ_lt hl), List.nil_sublist _⟩
  · obtain ⟨nodes, hrun, hnodes⟩ := scan_spec h
    have hsorted : Sorted t.impl.order es := hcells ▸ hflat.sorted
    refine ⟨nodes, hrun, hnodes ▸ hsorted, fun key e => ?_⟩
    rw [hnodes, find_eq_some_iff hsorted]

/-! ## §5. Runs. -/

/-- Every call on a new key draws height one. -/
def DrawsOne (maxLevel : Nat) (calls : List Call) : Prop :=
  ∀ before call after, calls = before ++ call :: after → (∀ c ∈ before, c.key ≠ call.key) →
    Impl.randomLevel maxLevel call.coins = 1

theorem drawsOne_snoc {maxLevel : Nat} {calls : List Call} {call : Call} :
    DrawsOne maxLevel (calls ++ [call]) ↔ DrawsOne maxLevel calls ∧
      ((∀ c ∈ calls, c.key ≠ call.key) → Impl.randomLevel maxLevel call.coins = 1) := by
  constructor
  · intro h
    refine ⟨fun before c after hcut => ?_, h calls call [] rfl⟩
    exact h before c (after ++ [call]) (by rw [hcut, List.append_assoc, List.cons_append])
  · rintro ⟨h, hlast⟩ before c after hcut hnew
    rcases List.eq_nil_or_concat after with rfl | ⟨after, last, rfl⟩
    · obtain ⟨rfl, hc⟩ := List.append_inj' hcut rfl
      obtain rfl : call = c := (List.cons.inj hc).1
      exact hlast hnew
    · rw [List.concat_eq_append, ← List.cons_append, ← List.append_assoc] at hcut
      exact h before c after (List.append_inj' hcut rfl).1 hnew

theorem run_snoc (options : Options) (calls : List Call) (call : Call) :
    run options (calls ++ [call]) = (run options calls).bind (fun t => t.apply call) := by
  unfold run
  rw [List.foldlM_append]
  show Except.bind _ _ = _
  congr 1
  funext t
  show (t.apply call).bind _ = _
  cases t.apply call <;> rfl

/-- **A run of calls** whose inserted nodes draw height one. -/
theorem run_spec (options : Options) (calls : List Call) (h : DrawsOne options.maxLevel calls) :
    ∃ t es, run options calls = .ok t ∧ t.Holds es ∧ t.impl.comparator = options.comparator ∧
      t.impl.maxLevel = options.maxLevel ∧ find t.impl.order es = reference calls := by
  induction calls using List.reverseRecOn with
  | nil => exact ⟨new options, [], rfl, new_holds options, rfl, rfl, rfl⟩
  | append_singleton calls call ih =>
      obtain ⟨h, hlast⟩ := drawsOne_snoc.mp h
      obtain ⟨t, es, hrun, hholds, hcmp, hmax, href⟩ := ih h
      obtain ⟨t', hcall, hholds', hcmp', hmax'⟩ := apply_spec hholds call (by
        intro habsent
        rw [href, reference_eq_none_iff] at habsent
        rw [hmax]
        exact hlast habsent)
      have horder : t'.impl.order = t.impl.order := by
        unfold Impl.order
        rw [hcmp']
      obtain ⟨cells, hflat, hcells⟩ := hholds
      refine ⟨t', _, ?_, hholds', hcmp'.trans hcmp, hmax'.trans hmax, ?_⟩
      · rw [run_snoc, hrun]
        exact hcall
      · rw [horder, find_insertEntry (hcells ▸ hflat.sorted), href, reference_snoc]

/-- A run that ends has drawn height one for every node it inserted. -/
theorem drawsOne_of_run {options : Options} {calls : List Call} {t : MemTable}
    (h : run options calls = .ok t) : DrawsOne options.maxLevel calls := by
  induction calls using List.reverseRecOn generalizing t with
  | nil =>
      intro before call after hcut _
      cases before <;> cases hcut
  | append_singleton calls call ih =>
      rw [run_snoc] at h
      cases hrun : run options calls with
      | error fault => rw [hrun] at h; cases h
      | ok t₀ =>
          rw [hrun] at h
          have hdraws := ih hrun
          refine drawsOne_snoc.mpr ⟨hdraws, fun hnew => ?_⟩
          obtain ⟨t₁, es, hrun₁, hholds, -, hmax, href⟩ := run_spec options calls hdraws
          obtain rfl : t₀ = t₁ := Except.ok.inj (hrun.symm.trans hrun₁)
          -- a higher node would have followed a null pointer
          by_contra hhigh
          rw [← reference_eq_none_iff, ← href] at hnew
          have hfault := apply_high hholds call hnew (by rwa [hmax])
          cases h.symm.trans hfault

/-- **Which runs are the reference map**: those in which every inserted node
draws height one.  All others follow a null pointer. -/
theorem memTable_refines (options : Options) (calls : List Call) :
    (∃ t, run options calls = .ok t ∧ t.Refines (reference calls)) ↔
      ∀ before call after, calls = before ++ call :: after →
        (∀ c ∈ before, c.key ≠ call.key) →
        Impl.randomLevel options.maxLevel call.coins = 1 := by
  constructor
  · rintro ⟨t, hrun, -⟩
    exact drawsOne_of_run hrun
  · intro h
    obtain ⟨t, es, hrun, hholds, -, -, href⟩ := run_spec options calls h
    exact ⟨t, hrun, href ▸ hholds.refines⟩

/-- One `Put` that draws height two. -/
theorem memTable_refines_high :
    run {} [.put [97] [120] 1 [true, false]] = .error .nullPointer ∧
      ¬ ∃ t, run {} [.put [97] [120] 1 [true, false]] = .ok t ∧
        t.Refines (reference [.put [97] [120] 1 [true, false]]) := by
  have hrun : run {} [.put [97] [120] 1 [true, false]] = .error .nullPointer := rfl
  refine ⟨hrun, ?_⟩
  rintro ⟨t, hok, -⟩
  cases hrun.symm.trans hok

end MemTable

end KvEngine
