/-
  KvEngine.MemTable.Cursors
  ─────────────────────────
  Iterators of a memtable that is written to.

  No node is freed or moved before the table is, so an iterator stays where it is
  while keys are bound around it.  `Ledger` is what the table and its iterators
  are together: the bound keys in order, and for each iterator the key it stands
  on.  Where the iterator goes is decided by the keys bound by then.

  Main results:
    * `accesses_refine` — table and iterators are the ledger, in the runs in
      which every inserted node draws height one, and no other run ends.
-/
import KvEngine.Lib.Simulation
import KvEngine.MemTable.Reference

namespace KvEngine

open Lib

namespace MemTable

/-! ## §1. The code. -/

/-- The loop of `Verify`, at most one round for every node there is. -/
def verifyFrom (t : MemTable) : Nat → Option NodeId → Except Fault Bool
  | _, none => .ok true
  | 0, some _ => .error .endless
  | steps + 1, some id => do
      let current ← t.impl.node (some id)
      match ← t.impl.forward (some id) 0 with
      | none => .ok true
      | some next => do
          let behind ← t.impl.node (some next)
          if compareKeys t.impl.comparator current.key behind.key ≥ 0 then .ok false
          else t.verifyFrom steps (some next)

def verify (t : MemTable) : Except Fault Bool := do
  t.verifyFrom t.impl.nodes.length (← t.impl.forward (some 0) 0)

/-- What the accessors of an iterator return. -/
structure View where
  valid : Bool
  key : Bytes
  value : Bytes
  sequenceNumber : UInt64
  isDeleted : Bool
  status : Status
  deriving DecidableEq

inductive Move where
  | seekToFirst
  | seekToLast
  | seek (target : Bytes)
  | next
  | prev
  deriving DecidableEq

namespace Iterator

def view (t : MemTable) (it : Iterator) : Except Fault View :=
  match it.current with
  | none => .ok ⟨it.valid, [], [], 0, false, it.status⟩
  | some id => do
      let n ← t.impl.node (some id)
      .ok ⟨it.valid, n.key, n.value, n.sequenceNumber, n.isDeleted, it.status⟩

def move (t : MemTable) (it : Iterator) : Move → Except Fault Iterator
  | .seekToFirst => it.seekToFirst t
  | .seekToLast => it.seekToLast t
  | .seek target => it.seek t target
  | .next => it.next t
  | .prev => .ok it.prev

end Iterator

/-- A `Put` or a `Delete`, with the status it returns. -/
def write (t : MemTable) : Call → Except Fault (Status × MemTable)
  | .put key value sequenceNumber coins => t.put key value sequenceNumber coins
  | .delete key sequenceNumber coins => t.delete key sequenceNumber coins

/-! ## §2. A table and its iterators. -/

/-- What a client does; `H` tells its iterators apart. -/
inductive Access (H : Type) where
  | write (call : Call)
  | get (key : Bytes)
  | contains (key : Bytes)
  | verify
  | newIterator (h : H)
  | move (h : H) (m : Move)
  | view (h : H)

/-- What it is told. -/
inductive Answer where
  | done (s : Status)
  | got (s : Status) (found : Option (Bytes × UInt64))
  | told (b : Bool)
  | viewed (v : View)
  | quiet
  deriving DecidableEq

structure Session (H : Type) where
  table : MemTable
  iterators : H → Iterator

variable {H : Type} [DecidableEq H]

namespace Session

/-- The iterators are ones of the empty table at first. -/
def new (options : Options) : Session H :=
  ⟨MemTable.new options, fun _ => { current := none }⟩

def setIterator (s : Session H) (h : H) (it : Iterator) : Session H :=
  { s with iterators := Function.update s.iterators h it }

def access (s : Session H) : Access H → Except Fault (Answer × Session H)
  | .write call => do
      let (status, table) ← s.table.write call
      return (.done status, { s with table })
  | .get key => do
      let (status, found) ← s.table.get key
      return (.got status found, s)
  | .contains key => do return (.told (← s.table.contains key), s)
  | .verify => do return (.told (← s.table.verify), s)
  | .newIterator h => do return (.quiet, s.setIterator h (← Iterator.new s.table))
  | .move h m => do return (.quiet, s.setIterator h (← (s.iterators h).move s.table m))
  | .view h => do return (.viewed (← (s.iterators h).view s.table), s)

def step (s : Session H) (a : Access H) : Option (Answer × Session H) := (s.access a).toOption

end Session

/-! ## §3. The ledger. -/

/-- An iterator on a key, or behind the last. -/
structure Place where
  key : Option Bytes := none
  status : Status := .okStatus

/-- The bound keys in order, and the places of the iterators. -/
structure Ledger (H : Type) where
  entries : List (Bytes × Entry) := []
  places : H → Place := fun _ => {}

namespace Place

variable (c : Comparator) (es : List (Bytes × Entry))

def move (p : Place) : Move → Place
  | .seekToFirst => { p with key := es.head?.map Prod.fst }
  | .seekToLast => { p with key := es.getLast?.map Prod.fst }
  | .seek target => { p with key := (es.find? (fun e => ¬ c.lt e.1 target)).map Prod.fst }
  | .next =>
      { p with key := p.key.bind (fun key => (es.find? (fun e => c.lt key e.1)).map Prod.fst) }
  | .prev => { p with status := .notSupported "Prev not implemented for skip list iterator" }

/-- The entry the key is bound to now. -/
def view (p : Place) : View :=
  match p.key.bind (fun key => (find c es key).map (key, ·)) with
  | none => ⟨false, [], [], 0, false, p.status⟩
  | some (key, e) => ⟨p.status.ok, key, e.value, e.sequenceNumber, e.isDeleted, p.status⟩

end Place

namespace Ledger

variable (c : Comparator)

def setPlace (l : Ledger H) (h : H) (p : Place) : Ledger H :=
  { l with places := Function.update l.places h p }

def step (l : Ledger H) : Access H → Answer × Ledger H
  | .write call =>
      (.done .okStatus, { l with entries := insertEntry c call.key call.entry l.entries })
  | .get key =>
      let (status, found) := answer (find c l.entries key)
      (.got status found, l)
  | .contains key => (.told (find c l.entries key).isSome, l)
  | .verify => (.told true, l)
  | .newIterator h => (.quiet, l.setPlace h { key := l.entries.head?.map Prod.fst })
  | .move h m => (.quiet, l.setPlace h ((l.places h).move c l.entries m))
  | .view h => (.viewed ((l.places h).view c l.entries), l)

/-- A write of a key that is not bound draws height one. -/
def Fits (maxLevel : Nat) (l : Ledger H) (a : Access H) : Prop :=
  ∀ call, a = .write call → find c l.entries call.key = none →
    Impl.randomLevel maxLevel call.coins = 1

end Ledger

/-! ## §4. The list under the iterators. -/

section List

variable {impl : Impl} {t : MemTable} {cells front rest : List Cell} {c : Cell}

theorem forward_head (h : impl.Flat cells) :
    impl.forward (some 0) 0 = .ok (Impl.headId cells) := by
  obtain ⟨-, q, hq, hrest⟩ := h.linked
  obtain rfl := Impl.follows_headId hrest
  exact Impl.forward_of_next hq

theorem forward_cell (h : impl.Flat (front ++ c :: rest)) :
    impl.forward (some c.1) 0 = .ok (Impl.headId rest) := by
  have hlinked := h.linked
  rw [List.map_append, List.map_cons, ← List.cons_append] at hlinked
  obtain ⟨q, hq, hrest⟩ := hlinked.split
  obtain rfl := Impl.follows_headId hrest
  exact Impl.forward_of_next hq

theorem node_cell (h : impl.Flat cells) (hc : c ∈ cells) :
    ∃ n, impl.node (some c.1) = .ok n ∧ n.entry = c.2 := by
  obtain ⟨n, hn, hentry, -⟩ := h.cell c hc
  exact ⟨n, Impl.node_of_getElem hn, hentry⟩

theorem findLastLoop_spec {cells : List Cell} : ∀ {steps : Nat} {current : NodeId},
    cells.length < steps →
    Follows (impl.next 0) (some current) (current :: cells.map Prod.fst) →
    impl.findLastLoop steps current 0 = .ok (Impl.lastId current cells) := by
  induction cells with
  | nil =>
      intro steps current hsteps hfollows
      obtain ⟨steps, rfl⟩ : ∃ s, steps = s + 1 := ⟨steps - 1, by omega⟩
      obtain ⟨-, q, hq, hrest⟩ := hfollows
      obtain rfl : q = none := hrest
      unfold Impl.findLastLoop
      rw [Impl.forward_of_next hq]
      rfl
  | cons c cells ih =>
      intro steps current hsteps hfollows
      obtain ⟨steps, rfl⟩ : ∃ s, steps = s + 1 := ⟨steps - 1, by omega⟩
      obtain ⟨-, q, hq, rfl, hrest⟩ := hfollows
      unfold Impl.findLastLoop
      rw [Impl.forward_of_next hq, Impl.lastId_cons]
      exact ih (by simpa using hsteps) ⟨rfl, hrest⟩

/-- **`FindLast`** stops at the last node, or at the head. -/
theorem findLast_spec (h : impl.Flat cells) : impl.findLast = .ok (Impl.lastId 0 cells) := by
  have hsize := h.size
  unfold Impl.findLast
  rw [h.one]
  exact findLastLoop_spec (by omega) h.linked

theorem lastId_concat (id : NodeId) (front : List Cell) (c : Cell) :
    Impl.lastId id (front ++ [c]) = c.1 := by
  unfold Impl.lastId
  simp

/-- **`Verify`** finds nothing wrong with a list in order. -/
theorem verifyFrom_spec {cells : List Cell}
    (hnode : ∀ c ∈ cells, ∃ n, t.impl.nodes[c.1]? = some n ∧ n.entry = c.2)
    (hsorted : Sorted t.impl.order (cells.map Prod.snd)) :
    ∀ {steps : Nat} {p : Option NodeId}, cells.length ≤ steps →
      Follows (t.impl.next 0) p (cells.map Prod.fst) → t.verifyFrom steps p = .ok true := by
  induction cells with
  | nil =>
      intro steps p _ hfollows
      obtain rfl : p = none := hfollows
      unfold verifyFrom
      rfl
  | cons c cells ih =>
      intro steps p hsteps hfollows
      obtain ⟨rfl, q, hq, hrest⟩ := hfollows
      obtain ⟨steps, rfl⟩ : ∃ s, steps = s + 1 :=
        ⟨steps - 1, by rw [List.length_cons] at hsteps; omega⟩
      obtain ⟨n, hn, hentry⟩ := hnode c List.mem_cons_self
      obtain ⟨hlt, hbehind⟩ := sorted_cons.mp hsorted
      have htail := @ih (fun d hd => hnode d (List.mem_cons_of_mem c hd)) hbehind steps q
        (by simpa using hsteps) hrest
      unfold verifyFrom
      rw [Impl.node_of_getElem hn]
      show (t.impl.forward (some c.1) 0).bind _ = _
      rw [Impl.forward_of_next hq]
      cases cells with
      | nil =>
          obtain rfl : q = none := hrest
          rfl
      | cons d cells =>
          obtain ⟨rfl, -⟩ := hrest
          obtain ⟨m, hm, hentry'⟩ := hnode d (List.mem_cons_of_mem c List.mem_cons_self)
          have hkey : t.impl.order.lt n.key m.key := by
            have := hlt d.2 (List.mem_map_of_mem List.mem_cons_self)
            rwa [← hentry, ← hentry'] at this
          have hnot : ¬ compareKeys t.impl.comparator n.key m.key ≥ 0 := by
            rw [compareKeys_eq]
            exact Int.not_le.mpr hkey
          show (t.impl.node (some d.1)).bind _ = _
          rw [Impl.node_of_getElem hm]
          show (if compareKeys t.impl.comparator n.key m.key ≥ 0 then _ else _) = _
          rw [if_neg hnot]
          exact htail

theorem verify_spec (h : t.impl.Flat cells) : t.verify = .ok true := by
  obtain ⟨-, q, hq, hrest⟩ := h.linked
  unfold verify
  rw [Impl.forward_of_next hq]
  refine verifyFrom_spec (fun c hc => ?_) h.sorted (Nat.le_of_lt h.size) hrest
  obtain ⟨n, hn, hentry, -⟩ := h.cell c hc
  exact ⟨n, hn, hentry⟩

/-- **`Contains`**, tombstones included. -/
theorem contains_spec (h : t.impl.Flat cells) (key : Bytes) :
    t.contains key = .ok (find t.impl.order (cells.map Prod.snd) key).isSome := by
  unfold contains
  cases h.locate key with
  | present below c above n prev hcut hbefore hhere hnode hentry hfound hequal =>
      rw [find_present h.sorted hcut hhere, hfound]
      show (t.impl.matching (some c.1) key).bind _ = _
      rw [hequal]
      rfl
  | absent below above hcut hbefore hbehind hfound hdiffers =>
      subst hcut
      rw [find_absent hbefore hbehind, hfound]
      show (t.impl.matching (Impl.headId above) key).bind _ = _
      rw [hdiffers]
      rfl

/-- **`Put` and `Delete`** return OK where they return. -/
theorem write_eq (t : MemTable) (call : Call) :
    t.write call = (t.apply call).map (fun t' => (.okStatus, t')) := by
  cases call with
  | put key value sequenceNumber coins =>
      rw [apply_put, map_map]
      show t.put key value sequenceNumber coins = _
      unfold put
      cases t.impl.findGreaterOrEqual key with
      | error fault => rfl
      | ok r =>
          cases hmatch : t.impl.matching r.1 key with
          | error fault => simp [bind, Except.bind, hmatch, Except.map]
          | ok found =>
              cases found with
              | none =>
                  simp only [bind, Except.bind, hmatch]
                  split <;> rfl
              | some found => simp [bind, Except.bind, hmatch, Except.map]
  | delete key sequenceNumber coins =>
      rw [apply_delete, map_map]
      show t.delete key sequenceNumber coins = _
      unfold delete
      cases t.impl.findGreaterOrEqual key with
      | error fault => rfl
      | ok r =>
          cases hmatch : t.impl.matching r.1 key with
          | error fault => simp [bind, Except.bind, hmatch, Except.map]
          | ok found =>
              cases found with
              | none =>
                  simp only [bind, Except.bind, hmatch]
                  split <;> rfl
              | some found => simp [bind, Except.bind, hmatch, Except.map]

end List

/-! ## §5. Where an iterator stands. -/

section Places

variable {t : MemTable} {cells : List Cell} {it : Iterator} {p : Place}

/-- The iterator stands on a node of the list, and the place on its key; or both
are behind the last. -/
def Stands (cells : List Cell) (it : Iterator) (p : Place) : Prop :=
  it.status = p.status ∧ ∃ o : Option Cell, (∀ c, o = some c → c ∈ cells) ∧
    it.current = o.map Prod.fst ∧ p.key = o.map (fun c => c.2.1)

theorem map_key (o : Option Cell) :
    (o.map Prod.snd).map Prod.fst = o.map (fun c => c.2.1) := by
  rw [Option.map_map]
  rfl

/-- The first one behind a cut. -/
theorem find?_cut {α : Type} {q : α → Bool} {xs ys : List α} (hx : ∀ x ∈ xs, q x = false)
    (hy : ∀ y ∈ ys, q y = true) : (xs ++ ys).find? q = ys.head? := by
  have hnone : xs.find? q = none :=
    List.find?_eq_none.mpr (fun x hmem => by rw [hx x hmem]; exact Bool.false_ne_true)
  rw [List.find?_append, hnone, Option.none_or]
  cases ys with
  | nil => rfl
  | cons y ys => exact List.find?_cons_of_pos (hy y List.mem_cons_self)

/-- **Every move** takes the iterator where it takes the place. -/
theorem move_stands (h : t.impl.Flat cells) (hit : Stands cells it p) (m : Move) :
    ∃ it', it.move t m = .ok it' ∧
      Stands cells it' (p.move t.impl.order (cells.map Prod.snd) m) := by
  obtain ⟨hstatus, o, hmem, hcurrent, hkey⟩ := hit
  cases m with
  | seekToFirst =>
      refine ⟨{ it with current := Impl.headId cells }, ?_, hstatus, cells.head?,
        fun c hc => List.mem_of_mem_head? hc, rfl, ?_⟩
      · show (t.impl.forward (some 0) 0).bind _ = _
        rw [forward_head h]
        rfl
      · show (cells.map Prod.snd).head?.map Prod.fst = _
        rw [List.head?_map, map_key]
  | seekToLast =>
      have hrun : it.move t .seekToLast = .ok { it with
          current := if Impl.lastId 0 cells = 0 then none else some (Impl.lastId 0 cells) } := by
        show (t.impl.findLast).bind _ = _
        rw [findLast_spec h]
        rfl
      refine ⟨_, hrun, hstatus, cells.getLast?, fun c hc => List.mem_of_getLast? hc, ?_, ?_⟩
      · rcases List.eq_nil_or_concat cells with rfl | ⟨front, c, rfl⟩
        · rfl
        · rw [List.concat_eq_append] at h ⊢
          -- the head is not in the list
          have hne : c.1 ≠ 0 := by
            intro hzero
            refine (List.nodup_cons.mp h.nodup).1 (hzero ▸ ?_)
            exact List.mem_map_of_mem (List.mem_append_right front List.mem_cons_self)
          rw [List.getLast?_concat]
          show (if Impl.lastId 0 (front ++ [c]) = 0 then none else _) = _
          rw [lastId_concat, if_neg hne]
          rfl
      · show (cells.map Prod.snd).getLast?.map Prod.fst = _
        rw [List.getLast?_map, map_key]
  | seek target =>
      obtain ⟨below, above, rfl, hbelow, habove⟩ := h.cut target
      refine ⟨{ it with current := Impl.headId above }, ?_, hstatus, above.head?,
        fun c hc => List.mem_append_right below (List.mem_of_mem_head? hc), rfl, ?_⟩
      · show (t.impl.findGreaterOrEqual target).bind _ = _
        rw [Impl.find_spec h hbelow habove]
        rfl
      · show (List.find? _ ((below ++ above).map Prod.snd)).map Prod.fst = _
        rw [List.map_append, find?_cut, List.head?_map, map_key]
        · exact fun e he => by simpa using cells_below hbelow e he
        · intro e he
          obtain ⟨d, hd, rfl⟩ := List.mem_map.mp he
          simpa using habove d hd
  | next =>
      cases o with
      | none =>
          have hrun : it.move t .next = .ok it := by
            show it.next t = _
            unfold Iterator.next
            rw [hcurrent]
            rfl
          refine ⟨it, hrun, hstatus, none, nofun, hcurrent, ?_⟩
          show p.key.bind _ = _
          rw [hkey]
          rfl
      | some c =>
          obtain ⟨front, rest, rfl⟩ := List.append_of_mem (hmem c rfl)
          have hrun : it.move t .next = .ok { it with current := Impl.headId rest } := by
            show it.next t = _
            unfold Iterator.next
            rw [hcurrent]
            show (t.impl.forward (some c.1) 0).bind _ = _
            rw [forward_cell h]
            rfl
          have hsorted := h.sorted
          rw [List.map_append, List.map_cons] at hsorted
          obtain ⟨-, hbehind, hacross⟩ := sorted_append.mp hsorted
          refine ⟨_, hrun, hstatus, rest.head?,
            fun d hd => List.mem_append_right _ (List.mem_cons_of_mem c (List.mem_of_mem_head? hd)),
            rfl, ?_⟩
          show p.key.bind _ = _
          rw [hkey]
          show (List.find? _ ((front ++ c :: rest).map Prod.snd)).map Prod.fst = _
          rw [List.append_cons, List.map_append, find?_cut, List.head?_map, map_key]
          · intro e he
            rw [List.map_append] at he
            rcases List.mem_append.mp he with he | he
            · exact decide_eq_false (t.impl.order.lt_asymm (hacross e he c.2 List.mem_cons_self))
            · rw [List.mem_singleton.mp he]
              exact decide_eq_false (t.impl.order.lt_irrefl _)
          · exact fun e he => decide_eq_true ((sorted_cons.mp hbehind).1 e he)
  | prev => exact ⟨it.prev, rfl, rfl, o, hmem, hcurrent, hkey⟩

/-- **What an iterator shows** is what its key is bound to. -/
theorem view_stands (h : t.impl.Flat cells) (hit : Stands cells it p) :
    it.view t = .ok (p.view t.impl.order (cells.map Prod.snd)) := by
  obtain ⟨hstatus, o, hmem, hcurrent, hkey⟩ := hit
  unfold Iterator.view Place.view
  rw [hcurrent, hkey]
  cases o with
  | none =>
      show Except.ok (View.mk it.valid _ _ _ _ _) = _
      rw [Iterator.valid, hcurrent, hstatus]
      rfl
  | some c =>
      obtain ⟨n, hn, hentry⟩ := node_cell h (hmem c rfl)
      have hbound : find t.impl.order (cells.map Prod.snd) c.2.1 = some c.2.2 :=
        (find_eq_some_iff h.sorted).mpr (List.mem_map_of_mem (hmem c rfl))
      show (t.impl.node (some c.1)).bind _ = _
      rw [hn, Option.map_some, Option.bind_some, hbound, ← hentry]
      show Except.ok (View.mk it.valid _ _ _ _ _) = _
      rw [Iterator.valid, hcurrent, hstatus]
      rfl

/-- The nodes of the list may become more, as long as they keep their keys. -/
theorem Stands.mono {cells' : List Cell}
    (hkeep : ∀ c ∈ cells, ∃ c' ∈ cells', c'.1 = c.1 ∧ c'.2.1 = c.2.1)
    (hit : Stands cells it p) : Stands cells' it p := by
  obtain ⟨hstatus, o, hmem, hcurrent, hkey⟩ := hit
  cases o with
  | none => exact ⟨hstatus, none, nofun, hcurrent, hkey⟩
  | some c =>
      obtain ⟨c', hc', hid, hsame⟩ := hkeep c (hmem c rfl)
      refine ⟨hstatus, some c', fun d hd => ?_, ?_, ?_⟩
      · obtain rfl := Option.some.inj hd
        exact hc'
      · rw [hcurrent, Option.map_some, Option.map_some, hid]
      · rw [hkey, Option.map_some, Option.map_some, hsame]

end Places

/-! ## §6. Table and iterators are the ledger. -/

/-- The list holds the entries, and every iterator stands at its place. -/
structure Models (c : Comparator) (maxLevel : Nat) (s : Session H) (l : Ledger H) : Prop where
  order : s.table.impl.order = c
  maxLevel : s.table.impl.maxLevel = maxLevel
  held : ∃ cells, s.table.impl.Flat cells ∧ cells.map Prod.snd = l.entries ∧
    ∀ h, Stands cells (s.iterators h) (l.places h)

variable {c : Comparator} {maxLevel : Nat} {s : Session H} {l : Ledger H}

omit [DecidableEq H] in
theorem Models.new (options : Options) :
    Models (H := H) (keyOrder options.comparator) options.maxLevel (Session.new options) {} :=
  ⟨rfl, rfl, [], Impl.new_flat _ _, rfl, fun _ => ⟨rfl, none, nofun, rfl, rfl⟩⟩

/-- One iterator goes elsewhere. -/
theorem stands_update {cells : List Cell} {iterators : H → Iterator} {places : H → Place}
    (hall : ∀ h, Stands cells (iterators h) (places h)) (h : H) {it : Iterator} {p : Place}
    (hit : Stands cells it p) (h' : H) :
    Stands cells (Function.update iterators h it h') (Function.update places h p h') := by
  by_cases heq : h' = h
  · subst heq
    rw [Function.update_self, Function.update_self]
    exact hit
  · rw [Function.update_of_ne heq, Function.update_of_ne heq]
    exact hall h'

/-- **Every access** is answered by the ledger; only a new node above height one
ends the run. -/
theorem access_refines :
    RefinesWhere (Models (H := H) c maxLevel) (Ledger.Fits c maxLevel) Session.step
      (Ledger.step c) := by
  intro s l a hs
  obtain ⟨cells, hflat, hentries, hstands⟩ := hs.held
  obtain ⟨rfl, rfl, -⟩ := id hs
  have hfits : ∀ {a : Access H}, (∀ call, a ≠ .write call) →
      Ledger.Fits s.table.impl.order s.table.impl.maxLevel l a :=
    fun hne call heq => absurd heq (hne call)
  have hmap : ∀ {α β : Type} {x : Except Fault α} {b : α} {f : α → β}, x = .ok b →
      (x.bind (fun b => .ok (f b))).toOption = some (f b) := by
    rintro α β _ b f rfl
    rfl
  cases a with
  | write call =>
      have hstep : s.step (.write call)
          = ((s.table.write call).map
              (fun r => (Answer.done r.1, { s with table := r.2 }))).toOption := by
        show ((s.table.write call).bind _).toOption = _
        cases s.table.write call <;> rfl
      by_cases hone : find s.table.impl.order l.entries call.key = none →
          Impl.randomLevel s.table.impl.maxLevel call.coins = 1
      · obtain ⟨t', cells', hrun, hflat', hcells', hkeep, hcmp, hmax⟩ :=
          apply_cells hflat call (hentries ▸ hone)
        refine Or.inl ⟨fun call' heq => ?_, { s with table := t' }, ?_, ?_⟩
        · obtain rfl := Access.write.inj heq
          exact hone
        · rw [hstep, write_eq, hrun]
          rfl
        · refine ⟨?_, hmax, cells', hflat', ?_, fun h => (hstands h).mono hkeep⟩
          · show keyOrder t'.impl.comparator = _
            rw [hcmp]
            rfl
          · rw [hcells', hentries]
            rfl
      · refine Or.inr ⟨fun hfit => hone (hfit call rfl), ?_⟩
        rw [Classical.not_imp] at hone
        rw [hstep, write_eq,
          apply_high ⟨cells, hflat, rfl⟩ call (hentries ▸ hone.1) hone.2]
        rfl
  | get key =>
      refine Or.inl ⟨hfits nofun, s, ?_, hs⟩
      have hget := get_spec ⟨cells, hflat, rfl⟩ key
      rw [hentries] at hget
      exact hmap hget
  | contains key =>
      refine Or.inl ⟨hfits nofun, s, ?_, hs⟩
      exact hmap (hentries ▸ contains_spec hflat key)
  | verify => exact Or.inl ⟨hfits nofun, s, hmap (verify_spec hflat), hs⟩
  | newIterator h =>
      obtain ⟨it, hrun, hit⟩ := move_stands hflat
        (show Stands cells { current := none } {} from ⟨rfl, none, nofun, rfl, rfl⟩) .seekToFirst
      rw [hentries] at hit
      exact Or.inl ⟨hfits nofun, s.setIterator h it, hmap hrun, rfl, rfl, cells, hflat, hentries,
        stands_update hstands h hit⟩
  | move h m =>
      obtain ⟨it, hrun, hit⟩ := move_stands hflat (hstands h) m
      rw [hentries] at hit
      exact Or.inl ⟨hfits nofun, s.setIterator h it, hmap hrun, rfl, rfl, cells, hflat, hentries,
        stands_update hstands h hit⟩
  | view h =>
      refine Or.inl ⟨hfits nofun, s, ?_, hs⟩
      exact hmap (hentries ▸ view_stands hflat (hstands h))

/-! ## §7. Runs. -/

/-- The writes among the accesses. -/
def writes (accesses : List (Access H)) : List Call :=
  accesses.filterMap (fun a => match a with
    | .write call => some call
    | _ => none)

/-- **The ledger binds every key to the last write of it.** -/
theorem ledger_reference (c : Comparator) (accesses : List (Access H)) :
    ∀ l : Ledger H, Sorted c l.entries →
      find c (runAll (Ledger.step c) l accesses).2.entries
        = overwriteAll (fun call : Call => some (call.key, some call.entry)) (find c l.entries)
            (writes accesses) ∧
      Sorted c (runAll (Ledger.step c) l accesses).2.entries := by
  induction accesses with
  | nil => exact fun l hsorted => ⟨rfl, hsorted⟩
  | cons a accesses ih =>
      intro l hsorted
      cases a with
      | write call =>
          have hins := sorted_insertEntry (k := call.key) (v := call.entry) hsorted
          obtain ⟨hfind, hsorted'⟩ := ih { l with entries := _ } hins
          refine ⟨?_, hsorted'⟩
          rw [find_insertEntry hsorted] at hfind
          exact hfind
      | get | contains | verify | newIterator | move | view => exact ih _ hsorted

/-- All accesses fit just if the writes of new keys draw height one. -/
theorem allFit_iff (c : Comparator) (maxLevel : Nat) (accesses : List (Access H)) :
    AllFit (Ledger.Fits c maxLevel) (Ledger.step c) {} accesses ↔
      DrawsOne maxLevel (writes accesses) := by
  have hbound : ∀ before : List (Access H), ∀ key,
      find c (runAll (Ledger.step c) {} before).2.entries key = none ↔
        ∀ call ∈ writes before, call.key ≠ key := by
    intro before key
    rw [(ledger_reference c before {} List.Pairwise.nil).1]
    exact reference_eq_none_iff _ key
  constructor
  · intro h before call after hcut hnew
    obtain ⟨xs, ys, rfl, hxs, hys⟩ := List.filterMap_eq_append_iff.mp hcut
    obtain ⟨zs, a, ws, rfl, hzs, ha, -⟩ := List.filterMap_eq_cons_iff.mp hys
    have hwrite : a = .write call := by
      cases a with
      | write call' => rw [Option.some.inj ha]
      | get | contains | verify | newIterator | move | view => cases ha
    have hwrites : writes (xs ++ zs) = before := by
      unfold writes
      rw [List.filterMap_append, hxs, List.filterMap_eq_nil_iff.mpr hzs, List.append_nil]
    refine h (xs ++ zs) a ws (List.append_assoc _ _ _).symm call hwrite ?_
    rw [hbound, hwrites]
    exact hnew
  · rintro h before a after rfl call rfl hnone
    refine h (writes before) call (writes after) ?_ ((hbound before call.key).mp hnone)
    unfold writes
    rw [List.filterMap_append, List.filterMap_cons]

/-- **A memtable and its iterators are the ledger**: in any order of writes,
reads, `Verify` and calls of any number of iterators, each access is answered as
by the list of the bound keys in order, tombstones among them, and `Verify` finds
nothing.  The run ends early just if a new key draws more than height one. -/
theorem accesses_refine (options : Options) (accesses : List (Access H)) :
    ((run? Session.step (Session.new options) accesses).isSome ↔
      DrawsOne options.maxLevel (writes accesses)) ∧
    ∀ answers s, run? Session.step (Session.new options) accesses = some (answers, s) →
      ∃ l, runAll (Ledger.step (keyOrder options.comparator)) {} accesses = (answers, l) ∧
        Sorted (keyOrder options.comparator) l.entries ∧
        find (keyOrder options.comparator) l.entries = reference (writes accesses) := by
  obtain ⟨href, hsorted⟩ := ledger_reference (keyOrder options.comparator) accesses {}
    List.Pairwise.nil
  rw [← allFit_iff (keyOrder options.comparator)]
  rcases access_refines.run accesses (Models.new options) with
    ⟨hall, s, hrun, -⟩ | ⟨hnot, hrun⟩
  · rw [hrun]
    refine ⟨iff_of_true rfl hall, fun answers s' heq => ⟨_, ?_, hsorted, href⟩⟩
    obtain ⟨rfl, -⟩ := Prod.mk.inj (Option.some.inj heq)
    rfl
  · rw [hrun]
    exact ⟨iff_of_false Bool.false_ne_true hnot, fun _ _ heq => nomatch heq⟩

/-- Two iterators, a key bound between theirs and one changed under them. -/
def accessesUnder : List (Access Bool) :=
  [.write (.put [97] [49] 1 []), .write (.put [99] [51] 2 []), .newIterator true,
    .move false (.seek [98]), .write (.put [98] [50] 3 []), .write (.delete [99] 4 []),
    .move true .next, .view true, .view false, .contains [99], .get [99], .verify]

theorem accesses_refine_under : ∃ answers s,
    run? Session.step (Session.new {}) accessesUnder = some (answers, s) ∧
    answers.drop 7 = [.viewed ⟨true, [98], [50], 3, false, .okStatus⟩,
      .viewed ⟨true, [99], [], 4, true, .okStatus⟩, .told true,
      .got (.notFound "Key deleted") none, .told true] ∧
    ∃ l, runAll (Ledger.step (keyOrder none)) {} accessesUnder = (answers, l) := by
  have hrun : (run? Session.step (Session.new {}) accessesUnder).map (fun r => r.1.drop 7)
      = some [.viewed ⟨true, [98], [50], 3, false, .okStatus⟩,
        .viewed ⟨true, [99], [], 4, true, .okStatus⟩, .told true,
        .got (.notFound "Key deleted") none, .told true] := by
    decide +kernel
  obtain ⟨⟨answers, s⟩, hsome, hdrop⟩ := Option.map_eq_some_iff.mp hrun
  obtain ⟨l, hl, -, -⟩ := (accesses_refine {} accessesUnder).2 answers s hsome
  exact ⟨answers, s, hsome, hdrop, l, hl⟩

end MemTable

end KvEngine
