/-
  KvEngine.MemTable.Levels
  ────────────────────────
  The levels of the skip list, and one step of `Put` and `Delete` on them.

  `FindGreaterOrEqual` fills `prev` for the levels in use only, and a node
  is linked on all of its own.  The list starts with one level in use, so it
  stays flat (`Flat`: all nodes on level 0, none above) as long as every
  inserted node is one level high, and the first higher node makes
  `InsertNode` follow a null pointer (`insertNode_high`).

  Main results:
    * `find_spec` — where the search stops, and the node before;
    * `insertNode_spec` / `insertNode_high` — a node of height one goes in
      where the order puts it, a higher one does not go in;
    * `Flat.level_zero` / `Flat.level_succ` — the levels of a flat list.
-/
import KvEngine.Lib.LinkedList
import KvEngine.Lib.SortedEntries
import KvEngine.MemTable.MemTable

namespace KvEngine

open Lib

namespace MemTable

/-! ## §1. Levels. -/

/-- What a node binds its key to. -/
structure Entry where
  value : Bytes
  sequenceNumber : UInt64
  isDeleted : Bool
  deriving DecidableEq, Repr

def Node.entry (n : Node) : Bytes × Entry := (n.key, ⟨n.value, n.sequenceNumber, n.isDeleted⟩)

/-- A node of the list: its id and what it binds. -/
abbrev Cell := NodeId × (Bytes × Entry)

namespace Impl

/-- The pointer of a node on a level. -/
def next (t : Impl) (level : Nat) (id : NodeId) : Option (Option NodeId) :=
  (t.nodes[id]?).bind (fun n => n.forward[level]?)

/-- The nodes of a level, from the head on. -/
def level (t : Impl) (level : Nat) : Option (List NodeId) :=
  (t.next level 0).bind (walk (t.next level) t.nodes.length)

/-- All nodes on level 0 and one level high; tombstones hold no value. -/
structure Flat (t : Impl) (cells : List Cell) : Prop where
  one : t.currentMaxLevel = 1
  head : ∃ h p, t.nodes[0]? = some h ∧ h.forward = p :: List.replicate t.maxLevel none
  linked : Follows (t.next 0) (some 0) (0 :: cells.map Prod.fst)
  cell : ∀ c ∈ cells, ∃ n, t.nodes[c.1]? = some n ∧ n.entry = c.2 ∧ n.forward.length = 1
  nodup : (0 :: cells.map Prod.fst).Nodup
  sorted : Sorted t.order (cells.map Prod.snd)
  buried : ∀ c ∈ cells, c.2.2.isDeleted = true → c.2.2.value = []
  size : cells.length < t.nodes.length

variable {t : Impl} {cells : List Cell}

theorem node_of_getElem {id : NodeId} {n : Node} (h : t.nodes[id]? = some n) :
    t.node (some id) = .ok n := by
  unfold node
  simp only [h]

theorem forward_of_next {level : Nat} {id : NodeId} {q : Option NodeId}
    (h : t.next level id = some q) : t.forward (some id) level = .ok q := by
  obtain ⟨n, hn, hq⟩ := Option.bind_eq_some_iff.mp h
  unfold forward
  rw [node_of_getElem hn]
  simp only [bind, Except.bind, hq]

theorem new_flat (maxLevel : Nat) (comparator : Option Comparator) :
    (new maxLevel comparator).Flat [] where
  one := rfl
  head := ⟨_, none, rfl, rfl⟩
  linked := ⟨rfl, none, rfl, rfl⟩
  cell c hc := absurd hc (by simp)
  nodup := by simp
  sorted := by simp [Sorted]
  buried c hc := absurd hc (by simp)
  size := by simp [new]

/-- Level 0 holds all nodes. -/
theorem Flat.level_zero (h : t.Flat cells) : t.level 0 = some (cells.map Prod.fst) := by
  obtain ⟨-, q, hq, hrest⟩ := h.linked
  unfold level
  rw [hq, Option.bind_some]
  exact walk_follows hrest (by rw [List.length_map]; exact Nat.le_of_lt h.size)

/-- The levels above hold none. -/
theorem Flat.level_succ (h : t.Flat cells) {l : Nat} (hl : l < t.maxLevel) :
    t.level (l + 1) = some [] := by
  obtain ⟨hd, p, hhead, hforward⟩ := h.head
  have hnext : t.next (l + 1) 0 = some none := by
    unfold next
    rw [hhead, Option.bind_some, hforward, List.getElem?_cons_succ, List.getElem?_replicate,
      if_pos hl]
  unfold level
  rw [hnext, Option.bind_some]
  unfold walk
  rfl

/-! ## §2. Searching a flat list. -/

/-- The last node of a part of the list behind `id`, or `id` itself. -/
def lastId (id : NodeId) (cells : List Cell) : NodeId :=
  (id :: cells.map Prod.fst).getLast (List.cons_ne_nil _ _)

theorem lastId_cons (id : NodeId) (c : Cell)
    (cells : List Cell) : lastId id (c :: cells) = lastId c.1 cells := by
  unfold lastId
  simp only [List.map_cons, List.getLast_cons_cons]

/-- The pointer to the first node of a part of the list. -/
def headId (cells : List Cell) : Option NodeId := cells.head?.map Prod.fst

theorem follows_headId {next : NodeId → Option (Option NodeId)} {p : Option NodeId}
    (h : Follows next p (cells.map Prod.fst)) : p = headId cells := by
  cases cells with
  | nil => exact h
  | cons c cells => exact h.1

theorem before_eq {id : NodeId} {n : Node} (hn : t.nodes[id]? = some n) (key : Bytes) :
    t.before (some id) key = .ok (if t.order.lt n.key key then some id else none) := by
  show (t.node (some id)).bind _ = _
  rw [node_of_getElem hn]
  show Except.ok (if compareKeys t.comparator n.key key < 0 then some id else none) = _
  rw [compareKeys_eq]
  rfl

/-- **Where the search stops**: before the first key that is not below. -/
theorem findLoop_spec {key : Bytes} {prev : List (Option NodeId)}
    {below above : List Cell}
    (hnode : ∀ c ∈ below ++ above, ∃ n, t.nodes[c.1]? = some n ∧ n.entry = c.2)
    (hbelow : ∀ c ∈ below, t.order.lt c.2.1 key)
    (habove : ∀ c ∈ above, ¬ t.order.lt c.2.1 key) :
    ∀ {steps : Nat} {current : NodeId}, below.length < steps →
      Follows (t.next 0) (some current) (current :: (below ++ above).map Prod.fst) →
      t.findLoop key steps current 0 prev
        = .ok (headId above, prev.set 0 (some (lastId current below))) := by
  -- on the nodes still to pass; `current` stands before the first of them
  induction below with
  | nil =>
      intro steps current hsteps hfollows
      obtain ⟨steps, rfl⟩ : ∃ s, steps = s + 1 := ⟨steps - 1, by omega⟩
      obtain ⟨-, q, hq, hrest⟩ := hfollows
      obtain rfl := follows_headId hrest
      unfold findLoop
      rw [forward_of_next hq]
      -- the next key is not below: the search is over
      have hstop : t.before (headId above) key = .ok none := by
        cases above with
        | nil => rfl
        | cons c above =>
            obtain ⟨n, hn, hentry⟩ := hnode c List.mem_cons_self
            have hkey : n.key = c.2.1 := congrArg Prod.fst hentry
            show t.before (some c.1) key = _
            rw [before_eq hn, hkey, if_neg (habove c List.mem_cons_self)]
      show (t.before (headId above) key).bind _ = _
      rw [hstop]
      rfl
  | cons c below ih =>
      intro steps current hsteps hfollows
      obtain ⟨steps, rfl⟩ : ∃ s, steps = s + 1 := ⟨steps - 1, by omega⟩
      obtain ⟨-, q, hq, hrest⟩ := hfollows
      obtain ⟨rfl, hrest⟩ := hrest
      unfold findLoop
      rw [forward_of_next hq]
      -- the next key is below: one node on
      have hgo : t.before (some c.1) key = .ok (some c.1) := by
        obtain ⟨n, hn, hentry⟩ := hnode c List.mem_cons_self
        have hkey : n.key = c.2.1 := congrArg Prod.fst hentry
        rw [before_eq hn, hkey, if_pos (hbelow c List.mem_cons_self)]
      show (t.before (some c.1) key).bind _ = _
      rw [hgo, lastId_cons]
      exact ih (fun d hd => hnode d (List.mem_cons_of_mem c hd))
        (fun d hd => hbelow d (List.mem_cons_of_mem c hd))
        (by simpa using hsteps) ⟨rfl, hrest⟩

/-- The nodes before a key and the others. -/
theorem Flat.cut (h : t.Flat cells) (key : Bytes) : ∃ below above, cells = below ++ above ∧
    (∀ c ∈ below, t.order.lt c.2.1 key) ∧ ∀ c ∈ above, ¬ t.order.lt c.2.1 key := by
  obtain ⟨below, above, hcut, hb, ha⟩ := exists_prefix_of_pairwise
    (fun c : Cell => decide (t.order.lt c.2.1 key))
    (fun a b hab hr => by
      rw [decide_eq_true_eq] at hr ⊢
      exact t.order.lt_trans hab hr)
    cells (List.pairwise_map.mp h.sorted)
  exact ⟨below, above, hcut, fun c hc => of_decide_eq_true (hb c hc),
    fun c hc => of_decide_eq_false (ha c hc)⟩

/-- **`FindGreaterOrEqual` on a flat list.** -/
theorem find_spec {key : Bytes} {below above : List Cell}
    (h : t.Flat (below ++ above)) (hbelow : ∀ c ∈ below, t.order.lt c.2.1 key)
    (habove : ∀ c ∈ above, ¬ t.order.lt c.2.1 key) :
    t.findGreaterOrEqual key
      = .ok (headId above, some (lastId 0 below) :: List.replicate t.maxLevel none) := by
  unfold findGreaterOrEqual
  have hsize := h.size
  rw [List.length_append] at hsize
  rw [h.one, findLoop_spec (fun c hc => ?_) hbelow habove (by omega) h.linked]
  · rfl
  · obtain ⟨n, hn, hentry, -⟩ := h.cell c hc
    exact ⟨n, hn, hentry⟩

/-! ## §3. Inserting into a flat list. -/

theorem getElem_setNode {id : NodeId} {m : Node} (h : t.nodes[id]? = some m) (n : Node)
    (j : NodeId) :
    (t.setNode id n).nodes[j]? = if j = id then some n else t.nodes[j]? := by
  show (t.nodes.set id n)[j]? = _
  obtain ⟨hlt, -⟩ := List.getElem?_eq_some_iff.mp h
  rw [List.getElem?_set]
  by_cases hj : j = id
  · subst hj
    rw [if_pos rfl, if_pos rfl, if_pos hlt]
  · rw [if_neg (Ne.symm hj), if_neg hj]

theorem setForward_of_getElem {id : NodeId} {n : Node} (h : t.nodes[id]? = some n) {level : Nat}
    (hlevel : level < n.forward.length) (q : Option NodeId) :
    t.setForward (some id) level q
      = .ok (t.setNode id { n with forward := n.forward.set level q }) := by
  unfold setForward
  rw [node_of_getElem h]
  show (if level < n.forward.length then _ else _) = _
  rw [if_pos hlevel]
  rfl

/-- One round of `InsertNode`: the new node takes over the pointer of the
node before it, which then points to the new one. -/
theorem linkAt_spec {id last : NodeId} (prev : List (Option NodeId)) {i : Nat} {n m : Node}
    {q : Option NodeId} (hprev : prev[i]? = some (some last)) (hid : t.nodes[id]? = some n)
    (hlast : t.nodes[last]? = some m) (hq : m.forward[i]? = some q) (hi : i < n.forward.length)
    (hne : last ≠ id) :
    linkAt id prev t i = .ok ((t.setNode id { n with forward := n.forward.set i q }).setNode last
      { m with forward := m.forward.set i (some id) }) := by
  have hnext : t.next i last = some q := by
    unfold next
    rw [hlast, Option.bind_some, hq]
  have hlast' : (t.setNode id { n with forward := n.forward.set i q }).nodes[last]? = some m := by
    rw [getElem_setNode hid, if_neg hne, hlast]
  unfold linkAt
  simp only [hprev]
  rw [forward_of_next hnext]
  show (t.setForward (some id) i q).bind _ = _
  rw [setForward_of_getElem hid hi]
  show setForward _ (some last) i (some id) = _
  obtain ⟨hlt, -⟩ := List.getElem?_eq_some_iff.mp hq
  exact setForward_of_getElem hlast' hlt (some id)

theorem linkAt_null {id : NodeId} {prev : List (Option NodeId)} {i : Nat}
    (hprev : prev[i]? = some none) : linkAt id prev t i = .error .nullPointer := by
  unfold linkAt
  simp only [hprev]
  rfl

/-- The node the search stops at is there, and one of the list. -/
theorem Flat.last {below above : List Cell} (h : t.Flat (below ++ above)) :
    ∃ front m, 0 :: below.map Prod.fst = front ++ [lastId 0 below] ∧
      t.nodes[lastId 0 below]? = some m ∧ m.forward[0]? = some (headId above) := by
  have hfront := (List.dropLast_concat_getLast (List.cons_ne_nil 0 (below.map Prod.fst))).symm
  have hlinked := h.linked
  rw [List.map_append, ← List.cons_append, hfront, List.append_assoc] at hlinked
  obtain ⟨q, hq, hrest⟩ := hlinked.split
  obtain rfl := follows_headId hrest
  obtain ⟨m, hm, hforward⟩ := Option.bind_eq_some_iff.mp hq
  exact ⟨_, m, hfront, hm, hforward⟩

/-- A flat list with one more node, behind the last of `below`. -/
theorem Flat.splice {below above : List Cell} (h : t.Flat (below ++ above))
    {t' : Impl} {m : Node} (new : Node) (hm : t.nodes[lastId 0 below]? = some m)
    (hq : m.forward[0]? = some (headId above)) (hforward : new.forward = [headId above])
    (hpred : t'.nodes[lastId 0 below]?
      = some { m with forward := m.forward.set 0 (some t.nodes.length) })
    (hnew : t'.nodes[t.nodes.length]? = some new)
    (hother : ∀ j < t.nodes.length, j ≠ lastId 0 below → t'.nodes[j]? = t.nodes[j]?)
    (hlength : t'.nodes.length = t.nodes.length + 1) (hmax : t'.maxLevel = t.maxLevel)
    (hone : t'.currentMaxLevel = 1)
    (hsorted : Sorted t'.order ((below ++ (t.nodes.length, new.entry) :: above).map Prod.snd))
    (hburied : new.isDeleted = true → new.value = []) :
    t'.Flat (below ++ (t.nodes.length, new.entry) :: above) := by
  obtain ⟨front, -, hfront, -, -⟩ := h.last
  -- the ids of the list are all old
  have hold : ∀ j ∈ 0 :: (below ++ above).map Prod.fst, j < t.nodes.length := by
    intro j hj
    rcases List.mem_cons.mp hj with rfl | hj
    · obtain ⟨hd, p, hhead, -⟩ := h.head
      exact (List.getElem?_eq_some_iff.mp hhead).1
    · obtain ⟨c, hc, rfl⟩ := List.mem_map.mp hj
      obtain ⟨n, hn, -, -⟩ := h.cell c hc
      exact (List.getElem?_eq_some_iff.mp hn).1
  have hids : 0 :: (below ++ above).map Prod.fst
      = front ++ lastId 0 below :: above.map Prod.fst := by
    rw [List.map_append, ← List.cons_append, hfront, List.append_assoc]
    rfl
  have hids' : 0 :: (below ++ (t.nodes.length, new.entry) :: above).map Prod.fst
      = front ++ lastId 0 below :: t.nodes.length :: above.map Prod.fst := by
    rw [List.map_append, ← List.cons_append, hfront, List.append_assoc]
    rfl
  -- the list as its nodes are now: entries are kept, and so is every height
  have hkeep : ∀ (j : NodeId) n, j < t.nodes.length → t.nodes[j]? = some n →
      ∃ n', t'.nodes[j]? = some n' ∧ n'.entry = n.entry ∧
        n'.forward.length = n.forward.length ∧ n'.forward.tail = n.forward.tail := by
    intro j n hj hn
    by_cases hlast : j = lastId 0 below
    · subst hlast
      obtain rfl := Option.some.inj (hm.symm.trans hn)
      refine ⟨_, hpred, rfl, List.length_set, ?_⟩
      cases m.forward <;> rfl
    · exact ⟨n, (hother j hj hlast).trans hn, rfl, rfl, rfl⟩
  refine ⟨hone, ?_, ?_, ?_, ?_, hsorted, ?_, ?_⟩
  -- the head
  · obtain ⟨hd, p, hhead, hdf⟩ := h.head
    obtain ⟨hd', hhead', -, hlen', htail'⟩ :=
      hkeep 0 hd (hold 0 List.mem_cons_self) hhead
    rw [hdf, List.length_cons] at hlen'
    rw [hdf, List.tail_cons, ← hmax] at htail'
    cases hf : hd'.forward with
    | nil => rw [hf] at hlen'; cases hlen'
    | cons p' rest =>
        rw [hf] at htail'
        exact ⟨hd', p', hhead', by rw [hf]; exact congrArg (p' :: ·) htail'⟩
  -- the pointers
  · rw [hids']
    refine follows_splice (hids ▸ h.linked) (hids ▸ h.nodup) ?_ ?_ ?_
    · unfold next
      rw [hnew, hm, Option.bind_some, Option.bind_some, hforward, hq]
      rfl
    · unfold next
      rw [hpred, Option.bind_some]
      exact List.getElem?_set_self (List.getElem?_eq_some_iff.mp hq).1
    · intro j hj hne
      unfold next
      rw [hother j (hold j (hids ▸ hj)) hne]
  -- the nodes
  · intro c hc
    have hcases : c ∈ below ++ above ∨ c = (t.nodes.length, new.entry) := by
      simp only [List.mem_append, List.mem_cons] at hc ⊢
      tauto
    rcases hcases with hc | rfl
    · obtain ⟨n, hn, hentry, hlen⟩ := h.cell c hc
      obtain ⟨n', hn', hentry', hlen', -⟩ :=
        hkeep c.1 n (hold c.1 (List.mem_cons_of_mem 0 (List.mem_map_of_mem hc))) hn
      exact ⟨n', hn', hentry'.trans hentry, hlen'.trans hlen⟩
    · exact ⟨new, hnew, rfl, by rw [hforward]; rfl⟩
  -- no id twice
  · rw [hids']
    have hnodup : (front ++ lastId 0 below :: above.map Prod.fst).Nodup := hids ▸ h.nodup
    have hfresh : t.nodes.length ∉ front ++ lastId 0 below :: above.map Prod.fst :=
      fun hmem => Nat.lt_irrefl _ (hold _ (hids ▸ hmem))
    have hperm : (front ++ lastId 0 below :: t.nodes.length :: above.map Prod.fst).Perm
        (t.nodes.length :: (front ++ lastId 0 below :: above.map Prod.fst)) := by
      refine (List.Perm.append_left front (List.Perm.swap _ _ _)).trans ?_
      exact List.perm_middle
    exact hperm.nodup_iff.mpr (List.nodup_cons.mpr ⟨hfresh, hnodup⟩)
  -- tombstones
  · intro c hc hdel
    rcases List.mem_append.mp hc with hc | hc
    · exact h.buried c (List.mem_append_left above hc) hdel
    · rcases List.mem_cons.mp hc with rfl | hc
      · exact hburied hdel
      · exact h.buried c (List.mem_append_right below hc) hdel
  · have hsize := h.size
    rw [List.length_append] at hsize
    rw [List.length_append, List.length_cons, hlength]
    omega

/-- **A node of height one goes in where the order puts it.** -/
theorem insertNode_spec {below above : List Cell}
    (h : t.Flat (below ++ above)) {node : Node} (hone : node.forward = [none])
    (hbelow : ∀ c ∈ below, t.order.lt c.2.1 node.key)
    (habove : ∀ c ∈ above, t.order.lt node.key c.2.1)
    (hburied : node.isDeleted = true → node.value = []) :
    ∃ t', t.insertNode node (some (lastId 0 below) :: List.replicate t.maxLevel none) = .ok t' ∧
      t'.Flat (below ++ (t.nodes.length, node.entry) :: above) ∧
      t'.comparator = t.comparator ∧ t'.maxLevel = t.maxLevel := by
  obtain ⟨front, m, hfront, hm, hq⟩ := h.last
  obtain ⟨hlast, -⟩ := List.getElem?_eq_some_iff.mp hm
  have hne : lastId 0 below ≠ t.nodes.length := Nat.ne_of_lt hlast
  -- the store with the new node at its end
  let t₁ : Impl := { t with nodes := t.nodes ++ [node] }
  have hold : ∀ j < t.nodes.length, t₁.nodes[j]? = t.nodes[j]? :=
    fun j hj => List.getElem?_append_left hj
  have hnew : t₁.nodes[t.nodes.length]? = some node := by
    show (t.nodes ++ [node])[t.nodes.length]? = _
    rw [List.getElem?_append_right (Nat.le_refl _), Nat.sub_self]
    rfl
  have hm₁ : t₁.nodes[lastId 0 below]? = some m := (hold _ hlast).trans hm
  have hlink := linkAt_spec (some (lastId 0 below) :: List.replicate t.maxLevel none) rfl
    hnew hm₁ hq (by rw [hone]; exact Nat.zero_lt_one) hne
  let new : Node := { node with forward := node.forward.set 0 (headId above) }
  let pred : Node := { m with forward := m.forward.set 0 (some t.nodes.length) }
  let t₂ : Impl := (t₁.setNode t.nodes.length new).setNode (lastId 0 below) pred
  have hget : ∀ j, t₂.nodes[j]? = if j = lastId 0 below then some pred
      else if j = t.nodes.length then some new else t₁.nodes[j]? := by
    intro j
    rw [getElem_setNode (by rw [getElem_setNode hnew, if_neg hne, hm₁]), getElem_setNode hnew]
  refine ⟨t₂, ?_, ?_, rfl, rfl⟩
  · unfold insertNode
    rw [hone]
    show ((linkAt t.nodes.length _ t₁ 0).bind _).bind _ = _
    rw [hlink]
    show Except.ok (if 1 > t₂.currentMaxLevel then _ else t₂) = _
    rw [if_neg (by show ¬ 1 > t.currentMaxLevel; rw [h.one]; omega)]
  · refine h.splice new hm hq ?_ ?_ ?_ ?_ ?_ rfl h.one ?_ hburied
    · show node.forward.set 0 (headId above) = _
      rw [hone]
      rfl
    · rw [hget, if_pos rfl]
    · rw [hget, if_neg hne.symm, if_pos rfl]
    · intro j hj hj'
      rw [hget, if_neg hj', if_neg (Nat.ne_of_lt hj), hold j hj]
    · show ((_ : List Node).set _ _).length = _
      rw [List.length_set]
      show ((t.nodes ++ [node]).set _ _).length = _
      rw [List.length_set, List.length_append]
      rfl
    · have hins := sorted_insertEntry (k := node.key) (v := node.entry.2) h.sorted
      rw [List.map_append, insertEntry_absent] at hins
      · rw [List.map_append]
        exact hins
      · intro e he
        obtain ⟨c, hc, rfl⟩ := List.mem_map.mp he
        exact hbelow c hc
      · intro e he
        obtain ⟨c, hc, rfl⟩ := List.mem_map.mp he
        exact habove c hc

/-- **A higher node does not go in**: `prev` is null above the levels in use. -/
theorem insertNode_high {below above : List Cell}
    (h : t.Flat (below ++ above)) {node : Node} {k : Nat}
    (hhigh : node.forward = List.replicate (k + 2) none) (hmax : k + 2 ≤ t.maxLevel) :
    t.insertNode node (some (lastId 0 below) :: List.replicate t.maxLevel none)
      = .error .nullPointer := by
  obtain ⟨front, m, hfront, hm, hq⟩ := h.last
  obtain ⟨hlast, -⟩ := List.getElem?_eq_some_iff.mp hm
  have hne : lastId 0 below ≠ t.nodes.length := Nat.ne_of_lt hlast
  let t₁ : Impl := { t with nodes := t.nodes ++ [node] }
  have hnew : t₁.nodes[t.nodes.length]? = some node := by
    show (t.nodes ++ [node])[t.nodes.length]? = _
    rw [List.getElem?_append_right (Nat.le_refl _), Nat.sub_self]
    rfl
  have hm₁ : t₁.nodes[lastId 0 below]? = some m := (List.getElem?_append_left hlast).trans hm
  have hlen : node.forward.length = k + 2 := by
    rw [hhigh, List.length_replicate]
  -- level 0 is linked; on level 1 there is no node before
  have hlink := linkAt_spec (some (lastId 0 below) :: List.replicate t.maxLevel none) rfl
    hnew hm₁ hq (by omega) hne
  have hnull : (some (lastId 0 below) :: List.replicate t.maxLevel none)[1]?
      = some (none : Option NodeId) := by
    rw [List.getElem?_cons_succ, List.getElem?_replicate, if_pos (by omega)]
  unfold insertNode
  rw [hlen, List.range_succ_eq_map, List.range_succ_eq_map]
  show ((linkAt t.nodes.length _ t₁ 0).bind _).bind _ = _
  rw [hlink]
  show (((linkAt t.nodes.length _ _ 1).bind _)).bind _ = _
  rw [linkAt_null hnull]
  rfl

/-! ## §4. Changing a node in place, and finding one. -/

/-- No two nodes of the list share an id. -/
theorem Flat.apart {below above : List Cell} {c : Cell}
    (h : t.Flat (below ++ c :: above)) : ∀ d ∈ below ++ above, d.1 ≠ c.1 := by
  have hperm : ((below ++ c :: above).map Prod.fst).Perm
      (c.1 :: (below ++ above).map Prod.fst) := List.perm_middle.map Prod.fst
  have hnodup := hperm.nodup_iff.mp (List.nodup_cons.mp h.nodup).2
  intro d hd heq
  exact (List.nodup_cons.mp hnodup).1 (heq ▸ List.mem_map_of_mem hd)

/-- A node that keeps its key and its pointers may be written. -/
theorem Flat.update {below above : List Cell} {c : Cell}
    (h : t.Flat (below ++ c :: above)) {n n' : Node} (hn : t.nodes[c.1]? = some n)
    (hentry : n.entry = c.2) (hkey : n'.key = n.key) (hforward : n'.forward = n.forward)
    (hbelow : ∀ d ∈ below, t.order.lt d.2.1 c.2.1)
    (hburied : n'.isDeleted = true → n'.value = []) :
    (t.setNode c.1 n').Flat (below ++ (c.1, n'.entry) :: above) := by
  have hids : (below ++ (c.1, n'.entry) :: above).map Prod.fst
      = (below ++ c :: above).map Prod.fst := by
    simp only [List.map_append, List.map_cons]
  have hget := getElem_setNode hn n'
  -- no pointer changes, so the levels stay as they are
  have hnext : ∀ level j, (t.setNode c.1 n').next level j = t.next level j := by
    intro level j
    unfold next
    rw [hget]
    by_cases hj : j = c.1
    · rw [if_pos hj, hj, hn, Option.bind_some, Option.bind_some, hforward]
    · rw [if_neg hj]
  have hzero : c.1 ≠ 0 := by
    intro h0
    refine (List.nodup_cons.mp h.nodup).1 (h0 ▸ ?_)
    exact List.mem_map_of_mem (by simp)
  refine ⟨h.one, ?_, ?_, ?_, ?_, ?_, ?_, ?_⟩
  -- the head is another node
  · obtain ⟨hd, p, hhead, hdf⟩ := h.head
    exact ⟨hd, p, by rw [hget, if_neg hzero.symm, hhead], hdf⟩
  · rw [hids]
    exact h.linked.congr fun j _ => hnext 0 j
  · intro d hd
    have hcases : d = (c.1, n'.entry) ∨ d ∈ below ++ above := by
      simp only [List.mem_append, List.mem_cons] at hd ⊢
      tauto
    rcases hcases with rfl | hmem
    · obtain ⟨m, hm, -, hlen⟩ := h.cell c (by simp)
      obtain rfl := Option.some.inj (hn.symm.trans hm)
      exact ⟨n', by rw [hget, if_pos rfl], rfl, by rw [hforward, hlen]⟩
    · obtain ⟨m, hm, hment, hlen⟩ := h.cell d (by
        simp only [List.mem_append, List.mem_cons] at hmem ⊢
        tauto)
      exact ⟨m, by rw [hget, if_neg (h.apart d hmem), hm], hment, hlen⟩
  · rw [hids]
    exact h.nodup
  -- to bind a key anew keeps the order
  · have hins := sorted_insertEntry (k := c.2.1) (v := n'.entry.2) h.sorted
    have hfst : n'.entry.1 = c.2.1 := by
      rw [← hentry]
      exact hkey
    rw [List.map_append, List.map_cons, show c.2 = (c.2.1, c.2.2) from rfl,
      insertEntry_present] at hins
    · rw [List.map_append, List.map_cons, show n'.entry = (n'.entry.1, n'.entry.2) from rfl, hfst]
      exact hins
    · intro e he
      obtain ⟨d, hd, rfl⟩ := List.mem_map.mp he
      exact hbelow d hd
  · intro d hd hdel
    rcases List.mem_append.mp hd with hb | ha
    · exact h.buried d (List.mem_append_left _ hb) hdel
    · rcases List.mem_cons.mp ha with rfl | ha
      · exact hburied hdel
      · exact h.buried d (List.mem_append_right _ (List.mem_cons_of_mem _ ha)) hdel
  · have hsize := h.size
    show _ < (t.nodes.set c.1 n').length
    rw [List.length_set]
    simpa using hsize

/-- What `FindGreaterOrEqual` and the comparison after it find of a key. -/
inductive Located (t : Impl) (cells : List Cell) (key : Bytes) : Prop where
  | present (below : List Cell) (c : Cell)
      (above : List Cell) (n : Node) (prev : List (Option NodeId))
      (cut : cells = below ++ c :: above) (before : ∀ d ∈ below, t.order.lt d.2.1 key)
      (here : c.2.1 = key) (node : t.nodes[c.1]? = some n) (entry : n.entry = c.2)
      (found : t.findGreaterOrEqual key = .ok (some c.1, prev))
      (equal : t.matching (some c.1) key = .ok (some (c.1, n)))
  | absent (below above : List Cell)
      (cut : cells = below ++ above) (before : ∀ d ∈ below, t.order.lt d.2.1 key)
      (behind : ∀ d ∈ above, t.order.lt key d.2.1)
      (found : t.findGreaterOrEqual key
        = .ok (headId above, some (lastId 0 below) :: List.replicate t.maxLevel none))
      (differs : t.matching (headId above) key = .ok none)

theorem matching_eq {id : NodeId} {n : Node} (hn : t.nodes[id]? = some n) (key : Bytes) :
    t.matching (some id) key = .ok (if n.key = key then some (id, n) else none) := by
  show (t.node (some id)).bind _ = _
  rw [node_of_getElem hn]
  show Except.ok (if compareKeys t.comparator n.key key = 0 then some (id, n) else none) = _
  rw [compareKeys_eq]
  simp only [(keyOrder t.comparator).compare_eq_zero_iff]

theorem Flat.locate (h : t.Flat cells) (key : Bytes) : t.Located cells key := by
  obtain ⟨below, above, rfl, hbelow, habove⟩ := h.cut key
  have hfind := find_spec h hbelow habove
  cases above with
  | nil => exact .absent below [] rfl hbelow (by simp) hfind rfl
  | cons c above =>
      obtain ⟨n, hn, hentry, -⟩ := h.cell c (by simp)
      have hkey : n.key = c.2.1 := congrArg Prod.fst hentry
      have hmatch := matching_eq hn key
      -- The node the search stops at is the first not below the key: it holds the key or none
      -- does.
      by_cases hc : c.2.1 = key
      · rw [if_pos (hkey.trans hc)] at hmatch
        exact .present below c above n _ rfl hbelow hc hn hentry hfind hmatch
      · rw [if_neg (fun heq => hc (hkey.symm.trans heq))] at hmatch
        have hlt : t.order.lt key c.2.1 := by
          rcases t.order.lt_trichotomy c.2.1 key with hlt | heq | hgt
          · exact absurd hlt (habove c List.mem_cons_self)
          · exact absurd heq hc
          · exact hgt
        refine .absent below (c :: above) rfl hbelow (fun d hd => ?_) hfind hmatch
        rcases List.mem_cons.mp hd with rfl | hd
        · exact hlt
        · have hsorted := h.sorted
          rw [List.map_append, List.map_cons] at hsorted
          obtain ⟨-, hrest, -⟩ := sorted_append.mp hsorted
          exact t.order.lt_trans hlt ((sorted_cons.mp hrest).1 d.2 (List.mem_map_of_mem hd))

end Impl

end MemTable

end KvEngine
