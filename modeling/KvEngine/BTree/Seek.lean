/-
  KvEngine.BTree.Seek
  ───────────────────
  **`Seek` and `SeekToLast` on a bounded iterator.**

  An iterator is moved by any sequence of `SeekToFirst`, `SeekToLast`, `Seek`
  and `Next`; `standing_after` is that all of them leave it on the leaf chain
  with its bounds and status.  `Seek` looks at the limit but not at the start
  bound, and `SeekToLast` at neither, so that each is right for some targets
  and some trees only: `seek_range` and `seekToLast_range` say for which.
-/
import KvEngine.BTree.Scan
import KvEngine.Lib.Steps

namespace KvEngine

open Lib

/-- A call that moves an iterator. -/
inductive IteratorCall where
  | seekToFirst
  | seekToLast
  | seek (target : Bytes)
  | next
  deriving DecidableEq, Repr

namespace Iterator

/-- One call on an iterator. -/
def call (tree : BPlusTree) (it : Iterator) : IteratorCall → Option Iterator
  | .seekToFirst => it.seekToFirst tree
  | .seekToLast => it.seekToLast tree
  | .seek target => it.seek tree target
  | .next => it.next tree

/-- A new iterator after some calls. -/
def after (tree : BPlusTree) (start limit : Option Bytes) (calls : List IteratorCall) :
    Option Iterator :=
  (new tree start limit).bind (fun it => steps (call tree) it calls)

/-- `Valid()` holds, and `key()` and `value()` are these. -/
def Shows (tree : BPlusTree) (it : Iterator) (key value : Bytes) : Prop :=
  it.valid tree = some true ∧ it.entry tree = some (key, value)

variable {t : BPlusTree} {n : Nat} {s : Tree Bytes Bytes n} {it : Iterator}
  {start limit : Option Bytes}

/-! ## §1. Any position in the chain. -/

/-- The iterator is valid exactly on an entry below the limit. -/
theorem valid_cases {ls : List (Tree Bytes Bytes 0)} (h : Cursor t it ls) :
    (∃ l ls' e es, ls = l :: ls' ∧ l.items.drop it.currentIdx = e :: es ∧
      it.belowLimit t e.1 = true) ∨ it.valid t = some false := by
  cases ls with
  | nil => exact Or.inr (valid_nil h)
  | cons l ls =>
      have hleaf : it.currentLeaf = l.id := h.leaf
      have hkey : (l.items.map Prod.fst)[it.currentIdx]?
          = (l.items.drop it.currentIdx).head?.map Prod.fst := by
        rw [List.getElem?_map, List.head?_drop]
      cases hd : l.items.drop it.currentIdx with
      | nil =>
          rw [hd] at hkey
          refine Or.inr ?_
          simp only [valid, h.status, Status.ok_okStatus, if_true, atEnd, hleaf,
            if_neg h.chain.ne_zero, h.chain.leafPtr, Option.bind_eq_bind, Option.bind_some, hkey,
            List.head?_nil, Option.map_none, Option.map_some, Bool.not_true]
      | cons e es =>
          rw [hd] at hkey
          cases hbelow : it.belowLimit t e.1 with
          | true => exact Or.inl ⟨l, ls, e, es, rfl, hd, hbelow⟩
          | false =>
              refine Or.inr ?_
              simp only [valid, h.status, Status.ok_okStatus, if_true, atEnd, hleaf,
                if_neg h.chain.ne_zero, h.chain.leafPtr, Option.bind_eq_bind, Option.bind_some,
                hkey, List.head?_cons, Option.map_some, hbelow, Bool.not_false, Bool.not_true]

/-- What an iterator shows is the first entry pending. -/
theorem shows_iff {ls : List (Tree Bytes Bytes 0)} {l : Tree Bytes Bytes 0}
    {e : Bytes × Bytes} {es : List (Bytes × Bytes)} (h : Cursor t it (l :: ls))
    (hd : l.items.drop it.currentIdx = e :: es) (hbelow : it.belowLimit t e.1 = true)
    (key value : Bytes) : Shows t it key value ↔ e = (key, value) := by
  obtain ⟨hvalid, hentry⟩ := valid_cons h hd hbelow
  unfold Shows
  rw [hvalid, hentry, and_iff_right rfl, Option.some.injEq]

/-- `Next` where the iterator is not valid. -/
theorem next_invalid (h : it.valid t = some false) : it.next t = some it := by
  simp only [next, h, Option.bind_eq_bind, Option.bind_some, Bool.false_eq_true, if_false]

/-! ## §2. `Seek`. -/

/-- **`Seek`**: from any position, to the first entry that is not below the
target and is below the limit. -/
theorem seek_spec (h : BPlusTree.Represents t s) (hstatus : it.status = .okStatus)
    (target : Bytes) :
    ∃ it' ls, it.seek t target = some it' ∧ Cursor t it' ls ∧ Settled t it' ls ∧
      it'.start = it.start ∧ it'.limit = it.limit ∧
      pending t it' ls = (itemEntries (n + 1) s).filter (fun e =>
        !decide (t.order.lt e.1 target) && it.limit.all (fun l => decide (t.order.lt e.1 l))) := by
  obtain ⟨l, ls, idx, hrun, hchain, hpos, hahead⟩ := findLeaf_position h target
  let it₁ : Iterator := { it with currentLeaf := l.id, currentIdx := idx }
  have hcur : Cursor t it₁ (l :: ls) := ⟨hchain, rfl, hstatus⟩
  obtain ⟨it', ls', hskip, hcur', hset, hstart, hlimit, hpend⟩ :=
    skipLoop_spec hcur hchain.length_lt
  refine ⟨it', ls', ?_, hcur', hset, hstart, hlimit,
    hpend.trans (@pending_eq_filter t n s h it₁ _ _ hahead)⟩
  simp only [seek, hrun, Option.bind_eq_bind, Option.bind_some, hchain.leafPtr, hpos]
  exact hskip

/-! ## §3. `SeekToLast`. -/

/-- The descent ends at the last leaf, which is empty in an empty tree only. -/
theorem rightmostLeaf_spec {d m : Nat} (hd : 1 ≤ d) :
    ∀ {n lo fuel : Nat} {s : Tree Bytes Bytes n}, n < fuel → Stored t.getNode (n + 1) s →
      Sized lo d m s →
      ∃ ls l, leafNodes n s = ls ++ [l] ∧ rightmostLeaf t fuel s.id = some (l.id, true) ∧
        (l.items = [] → itemEntries (n + 1) s = []) := by
  intro n
  induction n with
  | zero =>
      intro lo fuel s hfuel hs _
      obtain ⟨fuel, rfl⟩ : ∃ f, fuel = f + 1 := ⟨fuel - 1, by omega⟩
      refine ⟨[], s, rfl, ?_, fun hnil => (itemEntries_leaf s).trans hnil⟩
      simp only [rightmostLeaf, if_neg (Impl.ne_zero_of_getNode hs.get), hs.get, cell]
  | succ n ih =>
      intro lo fuel s hfuel hs hsize
      obtain ⟨fuel, rfl⟩ : ∃ f, fuel = f + 1 := ⟨fuel - 1, by omega⟩
      rcases List.eq_nil_or_concat' s.items with hnil | ⟨is, c, hitems⟩
      · have hlow := hsize.lower
        rw [hnil] at hlow
        simp [slack] at hlow
      · have hc : c ∈ s.items := by simp [hitems]
        have hfilled := hsize.below c hc
        obtain ⟨ls, l, hleaves, hrun, hempty⟩ := ih (show n < fuel by omega) (hs.2 c hc)
          hfilled.sized
        refine ⟨is.flatMap (leafNodes n) ++ ls, l, ?_, ?_, fun hnil => ?_⟩
        · rw [leafNodes_succ, hitems, List.flatMap_append, List.flatMap_singleton, hleaves,
            List.append_assoc]
        · simp only [rightmostLeaf, if_neg (Impl.ne_zero_of_getNode hs.get), hs.get, cell, hitems,
            List.map_append, List.map_singleton, List.getLast?_concat, Option.getD_some]
          exact hrun
        -- a node below another one is not empty
        · have hge := hfilled.length_entries_ge
          have hpos : 0 < (d + 1) ^ n * d := Nat.mul_pos (Nat.pow_pos (by omega)) hd
          rw [hempty hnil, List.length_nil] at hge
          omega

/-- **`SeekToLast`**: from any position, to the last entry of the tree. -/
theorem seekToLast_spec (h : BPlusTree.Represents t s) (hstatus : it.status = .okStatus) :
    ∃ it' l, it.seekToLast t = some it' ∧ Cursor t it' [l] ∧ it'.start = it.start ∧
      it'.limit = it.limit ∧
      l.items.drop it'.currentIdx = (itemEntries (n + 1) s).getLast?.toList := by
  have hthree := h.three
  obtain ⟨ls, l, hleaves, hrun, hempty⟩ := rightmostLeaf_spec (show 1 ≤ t.maxKeys / 2 by omega)
    (Nat.lt_succ_of_lt h.lt_fuel) h.stored h.sized
  have hchain := chain_leafNodes h
  rw [hleaves] at hchain
  have hlast := hchain.suffix
  rw [← h.rootId] at hrun
  have hseek : it.seekToLast t = some { it with
      currentLeaf := l.id
      currentIdx := if l.items.isEmpty then 0 else l.items.length - 1 } := by
    simp only [seekToLast, hrun, Option.bind_eq_bind, Option.bind_some, not_true, if_false,
      if_neg hlast.ne_zero, hlast.leafPtr, List.isEmpty_map, List.length_map]
  refine ⟨_, l, hseek, ⟨hlast, rfl, hstatus⟩, rfl, rfl, ?_⟩
  have hentries : itemEntries (n + 1) s = ls.flatMap Node.items ++ l.items := by
    rw [itemEntries_eq_leafNodes, hleaves, List.flatMap_append, List.flatMap_singleton]
  rcases List.eq_nil_or_concat' l.items with hnil | ⟨es, e, hes⟩
  · rw [hempty hnil, hnil]
    rfl
  · simp [hentries, hes]

/-! ## §4. Sequences of calls. -/

/-- The iterator is somewhere on the leaf chain, with its bounds. -/
structure Standing (t : BPlusTree) (start limit : Option Bytes) (it : Iterator) : Prop where
  cursor : ∃ ls, Cursor t it ls
  start : it.start = start
  limit : it.limit = limit

theorem standing_new (h : BPlusTree.Represents t s) (start limit : Option Bytes) :
    ∃ it, new t start limit = some it ∧ Standing t start limit it := by
  obtain ⟨it, ls, hrun, hcur, -, hstart, hlimit, -⟩ :=
    @findFirst_spec t n s h { start, limit } rfl
  exact ⟨it, hrun, ⟨ls, hcur⟩, hstart, hlimit⟩

theorem Standing.call (h : BPlusTree.Represents t s) (hit : Standing t start limit it)
    (c : IteratorCall) : ∃ it', it.call t c = some it' ∧ Standing t start limit it' := by
  obtain ⟨⟨ls, hcur⟩, rfl, rfl⟩ := hit
  cases c with
  | seekToFirst =>
      obtain ⟨it', ls', hrun, hcur', -, hstart, hlimit, -⟩ := findFirst_spec h hcur.status
      exact ⟨it', hrun, ⟨ls', hcur'⟩, hstart, hlimit⟩
  | seekToLast =>
      obtain ⟨it', l, hrun, hcur', hstart, hlimit, -⟩ := seekToLast_spec h hcur.status
      exact ⟨it', hrun, ⟨[l], hcur'⟩, hstart, hlimit⟩
  | seek target =>
      obtain ⟨it', ls', hrun, hcur', -, hstart, hlimit, -⟩ := seek_spec h hcur.status target
      exact ⟨it', hrun, ⟨ls', hcur'⟩, hstart, hlimit⟩
  | next =>
      rcases valid_cases hcur with ⟨l, ls', e, es, rfl, hd, hbelow⟩ | hinvalid
      · obtain ⟨it', ls'', hrun, hcur', -, hstart, hlimit, -⟩ := next_spec hcur hd hbelow
        exact ⟨it', hrun, ⟨ls'', hcur'⟩, hstart, hlimit⟩
      · exact ⟨it, next_invalid hinvalid, ⟨ls, hcur⟩, rfl, rfl⟩

/-- **Every sequence of calls is defined** and leaves the iterator on the
chain. -/
theorem standing_after (h : BPlusTree.Represents t s) (start limit : Option Bytes)
    (calls : List IteratorCall) :
    ∃ it, after t start limit calls = some it ∧ Standing t start limit it := by
  obtain ⟨it, hnew, hit⟩ := standing_new h start limit
  obtain ⟨it', hrun, hit'⟩ := steps_total hit
    (fun it hit c (_ : c ∈ calls) => hit.call h c)
  refine ⟨it', ?_, hit'⟩
  rw [after, hnew]
  exact hrun

/-! ## §5. The start bound and `Seek`. -/

/-- The key lies in `[start, limit)`. -/
def InRange (o : Comparator) (start limit : Option Bytes) (key : Bytes) : Prop :=
  (∀ s ∈ start, ¬ o.lt key s) ∧ ∀ l ∈ limit, o.lt key l

/-- No key that `Seek(target)` may stop at is below the start bound. -/
def SeeksInRange (o : Comparator) (m : RefMap) (start limit : Option Bytes) (target : Bytes) :
    Prop :=
  ∀ key, m key ≠ none → ¬ o.lt key target → (∀ l ∈ limit, o.lt key l) →
    ∀ s ∈ start, ¬ o.lt key s

/-- From here the iterator shows the bindings in range that are not below the
target, in ascending order, each once, and no others. -/
def ShowsFrom (t : BPlusTree) (o : Comparator) (m : RefMap) (start limit : Option Bytes)
    (target : Bytes) (it : Iterator) : Prop :=
  ∃ es, Sorted o es ∧
    (∀ key value, (key, value) ∈ es ↔
      m key = some value ∧ InRange o start limit key ∧ ¬ o.lt key target) ∧
    scan t (t.size + 1) it = some (es.map (fun e => (.okStatus, e)), .okStatus)

theorem inRange_iff (start limit : Option Bytes) (key : Bytes) :
    inRange t start limit key = true ↔ InRange t.order start limit key := by
  simp [inRange, InRange, Option.all_eq_true]

theorem mem_sought (target key value : Bytes) :
    (key, value) ∈ (itemEntries (n + 1) s).filter (fun e =>
        !decide (t.order.lt e.1 target) && limit.all (fun l => decide (t.order.lt e.1 l))) ↔
      (key, value) ∈ itemEntries (n + 1) s ∧ ¬ t.order.lt key target ∧
        ∀ l ∈ limit, t.order.lt key l := by
  rw [List.mem_filter]
  simp [Option.all_eq_true]

/-- **`Seek` is right exactly where no key it may stop at is below the start
bound.** -/
theorem seek_showsFrom (h : BPlusTree.Represents t s) (hit : Standing t start limit it)
    (target : Bytes) :
    ∃ it', it.seek t target = some it' ∧
      (ShowsFrom t t.order (find t.order (itemEntries (n + 1) s)) start limit target it' ↔
        SeeksInRange t.order (find t.order (itemEntries (n + 1) s)) start limit target) := by
  obtain ⟨⟨ls, hcur⟩, rfl, rfl⟩ := hit
  obtain ⟨it', ls', hrun, hcur', hset, -, hlimit, hpend⟩ := seek_spec h hcur.status target
  refine ⟨it', hrun, ?_⟩
  have hfuel : (pending t it' ls').length < t.size + 1 := by
    rw [hpend, h.size]
    exact Nat.lt_succ_of_le (List.length_filter_le _ _)
  have hscan := scan_spec hcur' hset hpend (hpend ▸ hfuel)
  constructor
  · rintro ⟨es, -, hmem, hscan'⟩ key hkey htarget hbelow
    obtain ⟨value, hvalue⟩ := Option.ne_none_iff_exists'.mp hkey
    have hsame := (Prod.mk.inj (Option.some.inj (hscan.symm.trans hscan'))).1
    have hes := (List.map_injective_iff.mpr (fun a b hab => (Prod.mk.inj hab).2)) hsame
    have hin := (mem_sought target key value).mpr
      ⟨(find_eq_some_iff h.sorted).mp hvalue, htarget, hbelow⟩
    rw [hes] at hin
    exact ((hmem key value).mp hin).2.1.1
  · intro hall
    refine ⟨_, h.sorted.sublist List.filter_sublist, fun key value => ?_, hscan⟩
    rw [mem_sought, ← find_eq_some_iff h.sorted]
    constructor
    · rintro ⟨hvalue, htarget, hbelow⟩
      exact ⟨hvalue, ⟨hall key (by simp [hvalue]) htarget hbelow, hbelow⟩, htarget⟩
    · rintro ⟨hvalue, hin, htarget⟩
      exact ⟨hvalue, htarget, hin.2⟩

/-- All that the iterator has yet to show is in range. -/
structure Inside (t : BPlusTree) (start limit : Option Bytes) (it : Iterator) : Prop where
  standing : Standing t start limit it
  pending : ∃ ls, Cursor t it ls ∧ ∀ e ∈ pending t it ls, InRange t.order start limit e.1

theorem Inside.shows (h : Inside t start limit it) {key value : Bytes}
    (hshows : Shows t it key value) : InRange t.order start limit key := by
  obtain ⟨ls, hcur, hall⟩ := h.pending
  rcases valid_cases hcur with ⟨l, ls', e, es, rfl, hd, hbelow⟩ | hinvalid
  · obtain rfl := (shows_iff hcur hd hbelow key value).mp hshows
    obtain ⟨it', ls'', -, -, -, -, -, hcons⟩ := next_spec hcur hd hbelow
    exact hall (key, value) (by rw [hcons]; exact List.mem_cons_self)
  · rw [hshows.1] at hinvalid
    exact absurd hinvalid (by simp)

theorem inside_new (h : BPlusTree.Represents t s) (start limit : Option Bytes) :
    ∃ it, new t start limit = some it ∧ Inside t start limit it := by
  obtain ⟨it, ls, hrun, hcur, -, hstart, hlimit, hpend⟩ :=
    @findFirst_spec t n s h { start, limit } rfl
  refine ⟨it, hrun, ⟨⟨ls, hcur⟩, hstart, hlimit⟩, ls, hcur, fun e he => ?_⟩
  rw [hpend, List.mem_filter] at he
  exact (inRange_iff start limit e.1).mp he.2

theorem Inside.call (h : BPlusTree.Represents t s) (hit : Inside t start limit it)
    {c : IteratorCall} (hlast : c ≠ .seekToLast)
    (hseek : ∀ target, c = .seek target →
      SeeksInRange t.order (find t.order (itemEntries (n + 1) s)) start limit target) :
    ∃ it', it.call t c = some it' ∧ Inside t start limit it' := by
  obtain ⟨⟨-, rfl, rfl⟩, ls, hcur, hall⟩ := hit
  cases c with
  | seekToFirst =>
      obtain ⟨it', ls', hrun, hcur', -, hstart, hlimit, hpend⟩ := findFirst_spec h hcur.status
      refine ⟨it', hrun, ⟨⟨ls', hcur'⟩, hstart, hlimit⟩, ls', hcur', fun e he => ?_⟩
      rw [hpend, List.mem_filter] at he
      exact (inRange_iff _ _ e.1).mp he.2
  | seekToLast => exact absurd rfl hlast
  | seek target =>
      obtain ⟨it', ls', hrun, hcur', -, hstart, hlimit, hpend⟩ := seek_spec h hcur.status target
      refine ⟨it', hrun, ⟨⟨ls', hcur'⟩, hstart, hlimit⟩, ls', hcur', fun e he => ?_⟩
      rw [hpend] at he
      obtain ⟨hmem, htarget, hbelow⟩ := (mem_sought target e.1 e.2).mp he
      have hvalue := (find_eq_some_iff h.sorted).mpr hmem
      exact ⟨hseek target rfl e.1 (by simp [hvalue]) htarget hbelow, hbelow⟩
  | next =>
      rcases valid_cases hcur with ⟨l, ls', e, es, rfl, hd, hbelow⟩ | hinvalid
      · obtain ⟨it', ls'', hrun, hcur', -, hstart, hlimit, hcons⟩ := next_spec hcur hd hbelow
        refine ⟨it', hrun, ⟨⟨ls'', hcur'⟩, hstart, hlimit⟩, ls'', hcur', fun d hd' => ?_⟩
        exact hall d (by rw [hcons]; exact List.mem_cons_of_mem _ hd')
      · exact ⟨it, next_invalid hinvalid, ⟨⟨ls, hcur⟩, rfl, rfl⟩, ls, hcur, hall⟩

/-- The first of the sorted entries that pass a filter is not above another
one that does. -/
theorem shows_least {ls : List (Tree Bytes Bytes 0)} (hcur : Cursor t it ls)
    (hset : Settled t it ls) (hsorted : Sorted t.order (pending t it ls)) {d : Bytes × Bytes}
    (hd : d ∈ pending t it ls) :
    ∃ key value, Shows t it key value ∧ ¬ t.order.lt d.1 key := by
  rcases hset with rfl | ⟨l, ls', e, es, rfl, hdrop, hbelow⟩
  · exact absurd hd (by simp [pending, ahead])
  · obtain ⟨it', ls'', -, -, -, -, -, hcons⟩ := next_spec hcur hdrop hbelow
    refine ⟨e.1, e.2, (shows_iff hcur hdrop hbelow e.1 e.2).mpr rfl, ?_⟩
    rw [hcons] at hd hsorted
    rcases List.mem_cons.mp hd with rfl | hd
    · exact t.order.lt_irrefl _
    · exact t.order.lt_asymm ((sorted_cons.mp hsorted).1 d hd)

/-- **`SeekToFirst`, `Seek` and `Next` keep to the range exactly where every
`Seek` does.** -/
theorem shows_inRange_iff (h : BPlusTree.Represents t s) (start limit : Option Bytes)
    {calls : List IteratorCall} (hcalls : .seekToLast ∉ calls) :
    (∀ calls' it key value, calls' <+: calls → after t start limit calls' = some it →
        Shows t it key value → InRange t.order start limit key) ↔
      ∀ target, .seek target ∈ calls →
        SeeksInRange t.order (find t.order (itemEntries (n + 1) s)) start limit target := by
  constructor
  · intro hall target hmem key hkey htarget hbelow b hb hlt
    -- right after that call the iterator shows a key not above `key`
    obtain ⟨pre, post, rfl⟩ := List.append_of_mem hmem
    obtain ⟨it, hafter, ⟨ls, hcur⟩, -, rfl⟩ := standing_after h start limit pre
    obtain ⟨it', ls', hrun, hcur', hset, -, -, hpend⟩ := seek_spec h hcur.status target
    have hafter' : after t start it.limit (pre ++ [.seek target]) = some it' := by
      unfold after at hafter ⊢
      obtain ⟨it₀, hnew, hsteps⟩ := Option.bind_eq_some_iff.mp hafter
      rw [hnew, Option.bind_some, steps_snoc, hsteps]
      exact hrun
    obtain ⟨value, hvalue⟩ := Option.ne_none_iff_exists'.mp hkey
    have hd : (key, value) ∈ pending t it' ls' := by
      rw [hpend]
      exact (mem_sought target key value).mpr
        ⟨(find_eq_some_iff h.sorted).mp hvalue, htarget, hbelow⟩
    obtain ⟨k, v, hshows, hle⟩ := shows_least hcur' hset
      (by rw [hpend]; exact h.sorted.sublist List.filter_sublist) hd
    have hin := hall (pre ++ [.seek target]) it' k v ⟨post, by simp⟩ hafter' hshows
    exact hin.1 b hb (t.order.lt_of_not_lt_of_lt hle hlt)
  · intro hseek calls' it key value hprefix hafter hshows
    obtain ⟨it₀, hnew, hinside⟩ := inside_new h start limit
    obtain ⟨it', hrun, hinside'⟩ := steps_total hinside
      (fun it hit c (hc : c ∈ calls') => hit.call h
        (fun hlast => hcalls (hlast ▸ hprefix.subset hc))
        (fun target htarget => hseek target (htarget ▸ hprefix.subset hc)))
    unfold after at hafter
    rw [hnew, Option.bind_some, hrun] at hafter
    exact (Option.some.inj hafter ▸ hinside').shows hshows

/-- **`Seek` on reachable trees.**  After any calls, `Seek(target)` shows the
bindings in `[start, limit)` from the target on exactly if no stored key is
at or above the target, below the limit, and below the start bound; and
`SeekToFirst`, `Seek` and `Next` never show a key outside the range exactly
if that holds of every target sought. -/
theorem seek_range (options : BTreeOptions) (ops : List TreeOp) (start limit : Option Bytes) :
    ∃ t outs, run? BPlusTree.apply (BPlusTree.new options) ops = some (outs, t) ∧
      (∀ calls target, ∃ it it', after t start limit calls = some it ∧
        it.seek t target = some it' ∧
        (ShowsFrom t (keyOrder options.comparator) (runAll RefMap.apply RefMap.empty ops).2
            start limit target it' ↔
          SeeksInRange (keyOrder options.comparator) (runAll RefMap.apply RefMap.empty ops).2
            start limit target)) ∧
      ∀ calls, .seekToLast ∉ calls →
        ((∀ calls' it key value, calls' <+: calls → after t start limit calls' = some it →
            Shows t it key value → InRange (keyOrder options.comparator) start limit key) ↔
          ∀ target, .seek target ∈ calls →
            SeeksInRange (keyOrder options.comparator) (runAll RefMap.apply RefMap.empty ops).2
              start limit target) := by
  obtain ⟨t, hrun, n, s, hrep, hoptions, hfind⟩ := BPlusTree.runs_model options ops
  have hord : keyOrder options.comparator = t.order := by
    rw [BPlusTree.order, hoptions, BPlusTree.new_comparator]
  rw [← hfind, hord]
  refine ⟨t, _, hrun, fun calls target => ?_, fun calls hcalls =>
    shows_inRange_iff hrep start limit hcalls⟩
  obtain ⟨it, hafter, hit⟩ := standing_after hrep start limit calls
  obtain ⟨it', hseek, hiff⟩ := seek_showsFrom hrep hit target
  exact ⟨it, it', hafter, hseek, hiff⟩

/-- `Seek` to a stored key below the start bound shows that key. -/
theorem seek_range_below : ∃ t outs it,
    run? BPlusTree.apply (BPlusTree.new {}) [.put [1] [10]] = some (outs, t) ∧
      after t (some [5]) none [.seek [1]] = some it ∧ Shows t it [1] [10] ∧
      ¬ InRange (keyOrder none) (some [5]) none [1] := by
  have hrun : (do
      let r ← run? BPlusTree.apply (BPlusTree.new {}) [.put [1] [10]]
      let it ← after r.2 (some [5]) none [.seek [1]]
      let valid ← it.valid r.2
      let entry ← it.entry r.2
      some (valid, entry)) = some (true, [1], [10]) := by decide +kernel
  simp only [Option.bind_eq_bind, Option.bind_eq_some_iff, Option.some.injEq,
    Prod.mk.injEq] at hrun
  obtain ⟨⟨outs, t⟩, hops, it, hafter, valid, hvalid, entry, hentry, rfl, hentry'⟩ := hrun
  refine ⟨t, outs, it, hops, hafter, ⟨hvalid, ?_⟩, fun hin => ?_⟩
  · rw [hentry, hentry']
  · exact hin.1 [5] rfl (by decide)

/-! ## §6. The bounds and `SeekToLast`. -/

/-- The greatest stored key. -/
def IsLast (o : Comparator) (m : RefMap) (key : Bytes) : Prop :=
  m key ≠ none ∧ ∀ k, m k ≠ none → ¬ o.lt key k

/-- The iterator shows the greatest binding in range, or is not valid and no
stored key is in range. -/
def ShowsLast (t : BPlusTree) (o : Comparator) (m : RefMap) (start limit : Option Bytes)
    (it : Iterator) : Prop :=
  (∃ key value, Shows t it key value ∧ m key = some value ∧ InRange o start limit key ∧
    ∀ k, m k ≠ none → InRange o start limit k → ¬ o.lt key k) ∨
  (it.valid t = some false ∧ ∀ k, m k ≠ none → ¬ InRange o start limit k)

/-- The greatest stored key is in range, or it is cut off by the limit and
nothing is in range. -/
def LastInRange (o : Comparator) (m : RefMap) (start limit : Option Bytes) : Prop :=
  ∀ last, IsLast o m last → InRange o start limit last ∨
    ((∃ l ∈ limit, ¬ o.lt last l) ∧ ∀ k, m k ≠ none → ¬ InRange o start limit k)

theorem isLast_iff {es : List (Bytes × Bytes)} {e : Bytes × Bytes}
    (hsorted : Sorted t.order (es ++ [e])) (key : Bytes) :
    IsLast t.order (find t.order (es ++ [e])) key ↔ key = e.1 := by
  have hfind : ∀ k, find t.order (es ++ [e]) k ≠ none ↔ ∃ d ∈ es ++ [e], d.1 = k := by
    intro k
    rw [Ne, find_eq_none_iff]
    simp only [not_forall, not_not, exists_prop]
  have hlast : ∀ d ∈ es ++ [e], ¬ t.order.lt e.1 d.1 := by
    intro d hd
    rcases List.mem_append.mp hd with hd | hd
    · exact t.order.lt_asymm ((sorted_append.mp hsorted).2.2 d hd e (List.mem_singleton.mpr rfl))
    · rw [List.mem_singleton.mp hd]
      exact t.order.lt_irrefl _
  constructor
  · rintro ⟨hkey, hall⟩
    obtain ⟨d, hd, rfl⟩ := (hfind key).mp hkey
    exact t.order.eq_of_not_lt (hall e.1 ((hfind e.1).mpr ⟨e, by simp, rfl⟩)) (hlast d hd)
  · rintro rfl
    refine ⟨(hfind e.1).mpr ⟨e, by simp, rfl⟩, fun k hk => ?_⟩
    obtain ⟨d, hd, rfl⟩ := (hfind k).mp hk
    exact hlast d hd

/-- **`SeekToLast` is right exactly where the greatest stored key is in range,
or cut off by the limit with nothing in range.** -/
theorem seekToLast_showsLast (h : BPlusTree.Represents t s) (hit : Standing t start limit it) :
    ∃ it', it.seekToLast t = some it' ∧
      (ShowsLast t t.order (find t.order (itemEntries (n + 1) s)) start limit it' ↔
        LastInRange t.order (find t.order (itemEntries (n + 1) s)) start limit) := by
  obtain ⟨⟨ls, hcur⟩, rfl, rfl⟩ := hit
  obtain ⟨it', l, hrun, hcur', -, hlimit, hdrop⟩ := seekToLast_spec h hcur.status
  refine ⟨it', hrun, ?_⟩
  have hsorted := h.sorted
  rcases List.eq_nil_or_concat' (itemEntries (n + 1) s) with hnil | ⟨es, e, hes⟩
  -- an empty tree: nothing to show, nothing in range
  · rw [hnil]
    have hinvalid : it'.valid t = some false := by
      rcases valid_cases hcur' with ⟨l', ls', e, es, hl, hd, -⟩ | hinvalid
      · obtain ⟨rfl, rfl⟩ := List.cons.inj hl
        rw [hdrop, hnil] at hd
        cases hd
      · exact hinvalid
    exact ⟨fun _ last hlast => absurd rfl hlast.1,
      fun _ => Or.inr ⟨hinvalid, fun k hk => absurd rfl hk⟩⟩
  · rw [hes] at hsorted hdrop ⊢
    rw [List.getLast?_concat] at hdrop
    have hlast := isLast_iff hsorted
    have hcond : LastInRange t.order (find t.order (es ++ [e])) it.start it.limit ↔
        InRange t.order it.start it.limit e.1 ∨ ((∃ l ∈ it.limit, ¬ t.order.lt e.1 l) ∧
          ∀ k, find t.order (es ++ [e]) k ≠ none → ¬ InRange t.order it.start it.limit k) :=
      ⟨fun hall => hall e.1 ((hlast e.1).mpr rfl),
        fun hor last hl => (hlast last).mp hl ▸ hor⟩
    have hbelow : it'.belowLimit t e.1 = true ↔ ∀ l ∈ it.limit, t.order.lt e.1 l := by
      rw [belowLimit_eq, hlimit]
      simp [Option.all_eq_true]
    rw [hcond]
    by_cases hb : it'.belowLimit t e.1 = true
    · have hshows := shows_iff hcur' hdrop hb
      have hvalid := (valid_cons hcur' hdrop hb).1
      constructor
      · rintro (⟨key, value, hkey, -, hin, -⟩ | ⟨hinvalid, -⟩)
        · rw [(hshows key value).mp hkey]
          exact Or.inl hin
        · rw [hvalid] at hinvalid
          cases hinvalid
      · rintro (hin | ⟨⟨l, hl, hnlt⟩, -⟩)
        · have hmem := (find_eq_some_iff hsorted).mpr (List.mem_append_right es List.mem_cons_self)
          exact Or.inl ⟨e.1, e.2, (hshows e.1 e.2).mpr rfl, hmem, hin,
            fun k hk _ => ((hlast e.1).mpr rfl).2 k hk⟩
        · exact absurd (hbelow.mp hb l hl) hnlt
    · have hinvalid : it'.valid t = some false := by
        rcases valid_cases hcur' with ⟨l', ls', e', es', hl, hd, hb'⟩ | hinvalid
        · obtain ⟨rfl, rfl⟩ := List.cons.inj hl
          obtain ⟨rfl, -⟩ := List.cons.inj (hdrop.symm.trans hd)
          exact absurd hb' hb
        · exact hinvalid
      have hcut : ∃ l ∈ it.limit, ¬ t.order.lt e.1 l := by
        by_contra hnone
        exact hb (hbelow.mpr (fun l hl => not_not.mp (fun hnlt => hnone ⟨l, hl, hnlt⟩)))
      constructor
      · rintro (⟨key, value, hkey, -⟩ | ⟨-, hnone⟩)
        · rw [hkey.1] at hinvalid
          cases hinvalid
        · exact Or.inr ⟨hcut, hnone⟩
      · rintro (hin | ⟨-, hnone⟩)
        · obtain ⟨l, hl, hnlt⟩ := hcut
          exact absurd (hin.2 l hl) hnlt
        · exact Or.inr ⟨hinvalid, hnone⟩

/-- **`SeekToLast` on reachable trees**, after any calls. -/
theorem seekToLast_range (options : BTreeOptions) (ops : List TreeOp)
    (start limit : Option Bytes) :
    ∃ t outs, run? BPlusTree.apply (BPlusTree.new options) ops = some (outs, t) ∧
      ∀ calls, ∃ it it', after t start limit calls = some it ∧ it.seekToLast t = some it' ∧
        (ShowsLast t (keyOrder options.comparator) (runAll RefMap.apply RefMap.empty ops).2
            start limit it' ↔
          LastInRange (keyOrder options.comparator) (runAll RefMap.apply RefMap.empty ops).2
            start limit) := by
  obtain ⟨t, hrun, n, s, hrep, hoptions, hfind⟩ := BPlusTree.runs_model options ops
  have hord : keyOrder options.comparator = t.order := by
    rw [BPlusTree.order, hoptions, BPlusTree.new_comparator]
  rw [← hfind, hord]
  refine ⟨t, _, hrun, fun calls => ?_⟩
  obtain ⟨it, hafter, hit⟩ := standing_after hrep start limit calls
  obtain ⟨it', hseek, hiff⟩ := seekToLast_showsLast hrep hit
  exact ⟨it, it', hafter, hseek, hiff⟩

/-- With keys in range and one above the limit, `SeekToLast` is not valid. -/
theorem seekToLast_range_cutOff : ∃ t outs it,
    run? BPlusTree.apply (BPlusTree.new {}) [.put [1] [10], .put [9] [90]] = some (outs, t) ∧
      after t none (some [5]) [.seekToLast] = some it ∧ it.valid t = some false ∧
      t.get [1] = some (.okStatus, some [10]) ∧ InRange (keyOrder none) none (some [5]) [1] := by
  have hrun : (do
      let r ← run? BPlusTree.apply (BPlusTree.new {}) [.put [1] [10], .put [9] [90]]
      let it ← after r.2 none (some [5]) [.seekToLast]
      let valid ← it.valid r.2
      let got ← r.2.get [1]
      some (valid, got)) = some (false, .okStatus, some [10]) := by decide +kernel
  simp only [Option.bind_eq_bind, Option.bind_eq_some_iff, Option.some.injEq,
    Prod.mk.injEq] at hrun
  obtain ⟨⟨outs, t⟩, hops, it, hafter, valid, hvalid, got, hgot, rfl, hgot'⟩ := hrun
  refine ⟨t, outs, it, hops, hafter, hvalid, by rw [hgot, hgot'], ?_, ?_⟩
  · rintro b ⟨⟩
  · rintro l ⟨⟩
    decide

end Iterator

end KvEngine
