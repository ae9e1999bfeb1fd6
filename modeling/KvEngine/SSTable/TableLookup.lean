/-
  KvEngine.SSTable.TableLookup
  ────────────────────────────
  Lookups in a table, and scans of it.

  The search over the index finds the first entry that is not below the key
  (`searchIndex_eq`), and the block behind it is the only one that may hold
  the key.  A table whose blocks answer for their entries therefore answers
  for all of them (`get_lookup`).

  `Open` reads the index, filter and meta blocks and leaves them to their
  parsers (`readAndParse_delimits`); what the builder has put there comes back
  if the footer passes its checks, which the builder's own does not.

  Main results:
    * `get_lookup` — `Get` is the lookup in the entries of all blocks;
    * `open_restores` — what `Open` restores of a table.
-/
import KvEngine.SSTable.Block
import KvEngine.SSTable.Filter
import KvEngine.SSTable.Index
import KvEngine.SSTable.Inside
import KvEngine.SSTable.Layout
import KvEngine.SSTable.Metadata
import KvEngine.SSTable.Table

namespace KvEngine

open Lib SSTable SSTableBuilder

namespace SSTableReader

/-! ## §1. The search over the index. -/

/-- The first index entry that is not below the key. -/
def blockFor (options : SSTableReaderOptions) (entries : List (Bytes × BlockHandle))
    (key : Bytes) : Option Nat :=
  entries.findIdx? (fun entry => decide (compareKeys options.comparator key entry.1 ≤ 0))

section Search

variable {options : SSTableReaderOptions} {entries ys zs : List (Bytes × BlockHandle)}
  {key : Bytes} {missing : Int}

theorem toInt_eq {n : Int} (hlow : -2 ^ 31 ≤ n) (hhigh : n < 2 ^ 31) : toInt n = .ok n := by
  unfold toInt
  rw [if_pos ⟨hlow, hhigh⟩]

/-- What has been found once `[b, …)` is known not to be below the key. -/
def foundAt (count : Nat) (missing : Int) (b : Nat) : Int := if b < count then b else missing

theorem searchRound_loop (hy : ∀ y ∈ ys, ¬ compareKeys options.comparator key y.1 ≤ 0)
    (hz : ∀ z ∈ zs, compareKeys options.comparator key z.1 ≤ 0)
    (hcount : (ys ++ zs).length ≤ 2 ^ 30) :
    ∀ {rounds a b : Nat}, a ≤ ys.length → ys.length ≤ b → b ≤ (ys ++ zs).length →
      b - a < rounds →
      loop (searchRound options (ys ++ zs) key) .endless rounds
          ((a : Int), (b : Int) - 1, foundAt (ys ++ zs).length missing b)
        = .ok (foundAt (ys ++ zs).length missing ys.length) := by
  intro rounds
  induction rounds with
  | zero => intro a b _ _ _ h; exact absurd h (Nat.not_lt_zero _)
  | succ rounds ih =>
      intro a b ha hb hlen hrounds
      by_cases hlt : a < b
      · -- the entry in the middle decides which half is kept
        obtain ⟨m, hm⟩ : ∃ m : Nat, m = (a + b - 1) / 2 := ⟨_, rfl⟩
        have hbounds : a ≤ m ∧ m < b := by omega
        have hmid : Int.tdiv ((a : Int) + ((b : Int) - 1)) 2 = (m : Int) := by
          rw [Int.tdiv_eq_ediv_of_nonneg (by omega)]
          omega
        obtain ⟨entry, hentry⟩ : ∃ entry, (ys ++ zs)[m]? = some entry :=
          ⟨_, List.getElem?_eq_getElem (by omega)⟩
        have hround : searchRound options (ys ++ zs) key
            ((a : Int), (b : Int) - 1, foundAt (ys ++ zs).length missing b)
            = if compareKeys options.comparator key entry.1 ≤ 0 then
                .ok (.inl ((a : Int), (m : Int) - 1, (m : Int)))
              else .ok
                (.inl ((m : Int) + 1, (b : Int) - 1, foundAt (ys ++ zs).length missing b)) := by
          unfold searchRound
          simp only [if_pos (show (a : Int) ≤ (b : Int) - 1 by omega)]
          rw [toInt_eq (by omega) (by omega), ok_bind]
          simp only [hmid, if_pos (Int.natCast_nonneg m), Int.toNat_natCast, hentry]
          rfl
        by_cases hside : m < ys.length
        · have hbelow := hy entry (by
            rw [List.getElem?_append_left hside] at hentry
            exact List.mem_of_getElem? hentry)
          rw [if_neg hbelow] at hround
          rw [loop_next hround]
          exact ih (a := m + 1) hside hb hlen (by omega)
        · have habove := hz entry (by
            rw [List.getElem?_append_right (Nat.le_of_not_lt hside)] at hentry
            exact List.mem_of_getElem? hentry)
          rw [if_pos habove] at hround
          rw [loop_next hround]
          have hrest := ih (b := m) ha (Nat.le_of_not_lt hside) (by omega) (by omega)
          rw [show foundAt (ys ++ zs).length missing m = (m : Int) from if_pos (by omega)] at hrest
          exact hrest
      · -- nothing is left, so `b` is where the entries not below the key begin
        obtain rfl : b = ys.length := by omega
        refine loop_done ?_
        unfold searchRound
        simp only [if_neg (show ¬ (a : Int) ≤ (ys.length : Int) - 1 by omega)]
        rfl

theorem blockFor_append (hy : ∀ y ∈ ys, ¬ compareKeys options.comparator key y.1 ≤ 0)
    (hz : ∀ z ∈ zs, compareKeys options.comparator key z.1 ≤ 0) :
    blockFor options (ys ++ zs) key = if zs = [] then none else some ys.length := by
  unfold blockFor
  rw [List.findIdx?_append, List.findIdx?_eq_none_iff.mpr fun y hmem =>
    decide_eq_false (hy y hmem)]
  cases zs with
  | nil => rfl
  | cons z zs =>
      rw [List.findIdx?_cons, if_pos (decide_eq_true (hz z List.mem_cons_self)),
        if_neg (List.cons_ne_nil z zs)]
      exact congrArg some (Nat.zero_add _)

/-- The keys of an index in order. -/
def Ordered (options : SSTableReaderOptions) (entries : List (Bytes × BlockHandle)) : Prop :=
  entries.Pairwise (fun a b => (keyOrder options.comparator).lt a.1 b.1)

/-- The index is cut in two by a key. -/
theorem Ordered.cut (h : Ordered options entries) (key : Bytes) :
    ∃ ys zs, entries = ys ++ zs ∧ (∀ y ∈ ys, ¬ compareKeys options.comparator key y.1 ≤ 0) ∧
      ∀ z ∈ zs, compareKeys options.comparator key z.1 ≤ 0 := by
  obtain ⟨ys, zs, hsplit, hy, hz⟩ := exists_prefix_of_pairwise
    (R := fun a b : Bytes × BlockHandle => (keyOrder options.comparator).lt a.1 b.1)
    (fun entry : Bytes × BlockHandle =>
      !decide (compareKeys options.comparator key entry.1 ≤ 0)) (fun a b hlt hb => by
        rw [Bool.not_eq_true', decide_eq_false_iff_not, compareKeys_eq,
          TotalCompare.compare_nonpos_iff, not_not] at hb ⊢
        exact (keyOrder options.comparator).lt_trans hlt hb) entries h
  refine ⟨ys, zs, hsplit, fun y hmem => ?_, fun z hmem => ?_⟩
  · simpa using hy y hmem
  · simpa using hz z hmem

/-- **What the search finds**: the first entry that is not below the key. -/
theorem searchIndex_eq (h : Ordered options entries) (hcount : entries.length ≤ 2 ^ 30)
    (key : Bytes) (missing : Int) :
    searchIndex options entries key missing
      = .ok (((blockFor options entries key).map Int.ofNat).getD missing) := by
  obtain ⟨ys, zs, rfl, hy, hz⟩ := h.cut key
  unfold searchIndex
  rw [toInt_eq (by omega) (by omega), ok_bind, blockFor_append hy hz]
  have hloop := @searchRound_loop options ys zs key missing hy hz hcount _ _ _
    (Nat.zero_le _) (show ys.length ≤ (ys ++ zs).length by rw [List.length_append]; omega)
    (Nat.le_refl _) (Nat.lt_succ_self _)
  have hstart : foundAt (ys ++ zs).length missing (ys ++ zs).length = missing :=
    if_neg (Nat.lt_irrefl _)
  rw [hstart] at hloop
  refine hloop.trans (congrArg Except.ok ?_)
  unfold foundAt
  rw [List.length_append]
  cases zs with
  | nil => rw [List.length_nil, Nat.add_zero, if_neg (Nat.lt_irrefl _), if_pos rfl]; rfl
  | cons z zs =>
      rw [if_pos (by rw [List.length_cons]; omega), if_neg (List.cons_ne_nil z zs)]
      rfl

end Search

/-! ## §2. `Get`. -/

/-- The file holds, where the index says, blocks that answer for their entries;
the key of a block in the index is its last key, and the filter lets every key
pass that is in the table. -/
structure TableOf (r : SSTableReader) (content : Bytes) (blocks : List (List Entry)) : Prop where
  held : List.Forall₂ (fun i block => block.getLast?.map Entry.key = some i.1 ∧
    Answers r.options (readBlock content i.2) block) r.impl.indexEntries blocks
  increasing : Increasing { comparator := r.options.comparator } blocks.flatten
  count : r.impl.indexEntries.length ≤ 2 ^ 30
  filter : ∀ e ∈ blocks.flatten, r.impl.bloomFilterCheck e.key = true

section Get

variable {r : SSTableReader} {content : Bytes} {blocks : List (List Entry)} {key : Bytes}

/-- No key of a block is above its last. -/
theorem not_above_last {options : SSTableOptions} {block : List Entry} {last : Bytes}
    (hkeys : Increasing options block) (hlast : block.getLast?.map Entry.key = some last) :
    ∀ e ∈ block, ¬ (keyOrder options.comparator).lt last e.key := by
  obtain ⟨z, hz, rfl⟩ := Option.map_eq_some_iff.mp hlast
  obtain ⟨before, rfl⟩ := List.getLast?_eq_some_iff.mp hz
  intro e he
  rcases List.mem_append.mp he with he | he
  · exact (keyOrder options.comparator).lt_asymm
      ((List.pairwise_append.mp hkeys).2.2 e he z (List.mem_singleton_self z))
  · rw [List.mem_singleton.mp he]
    exact (keyOrder options.comparator).lt_irrefl _

/-- The blocks and their index entries, one by one. -/
theorem TableOf.at (h : TableOf r content blocks) {i : Nat} {entry : Bytes × BlockHandle}
    (hi : r.impl.indexEntries[i]? = some entry) :
    ∃ block, blocks[i]? = some block ∧ block.getLast?.map Entry.key = some entry.1 ∧
      Answers r.options (readBlock content entry.2) block := by
  obtain ⟨hlen, rfl⟩ := List.getElem?_eq_some_iff.mp hi
  have hlen' : i < blocks.length := h.held.length_eq ▸ hlen
  exact ⟨blocks[i], List.getElem?_eq_getElem hlen', h.held.get hlen hlen'⟩

theorem TableOf.ordered (h : TableOf r content blocks) :
    Ordered r.options r.impl.indexEntries := by
  refine List.pairwise_iff_getElem.mpr fun i j hi hj hij => ?_
  obtain ⟨bi, hbi, hlasti, -⟩ := h.at (List.getElem?_eq_getElem hi)
  obtain ⟨bj, hbj, hlastj, -⟩ := h.at (List.getElem?_eq_getElem hj)
  obtain ⟨x, hx, hxkey⟩ := Option.map_eq_some_iff.mp hlasti
  obtain ⟨y, hy, hykey⟩ := Option.map_eq_some_iff.mp hlastj
  obtain ⟨hi', rfl⟩ := List.getElem?_eq_some_iff.mp hbi
  obtain ⟨hj', rfl⟩ := List.getElem?_eq_some_iff.mp hbj
  have hacross := List.pairwise_iff_getElem.mp (List.pairwise_flatten.mp h.increasing).2
    i j hi' hj' hij
  rw [← hxkey, ← hykey]
  exact hacross x (List.mem_of_getLast? hx) y (List.mem_of_getLast? hy)

/-- **Where a key can be**: in the first block whose last key is not below it. -/
theorem TableOf.place (h : TableOf r content blocks) {e : Entry} (he : e ∈ blocks.flatten)
    (hkey : e.key = key) :
    ∃ i block, blockFor r.options r.impl.indexEntries key = some i ∧
      blocks[i]? = some block ∧ e ∈ block := by
  obtain ⟨hwithin, hacross⟩ := List.pairwise_flatten.mp h.increasing
  obtain ⟨block, hblock, hmem⟩ := List.mem_flatten.mp he
  obtain ⟨j, hj, rfl⟩ := List.mem_iff_getElem.mp hblock
  have hj' : j < r.impl.indexEntries.length := h.held.length_eq ▸ hj
  obtain ⟨b, hb, hlast, -⟩ := h.at (List.getElem?_eq_getElem hj')
  obtain rfl := Option.some.inj ((List.getElem?_eq_getElem hj).symm.trans hb)
  refine ⟨j, _, ?_, List.getElem?_eq_getElem hj, hmem⟩
  unfold blockFor
  rw [List.findIdx?_eq_some_iff_getElem]
  refine ⟨hj', ?_, fun k hk => ?_⟩
  · rw [decide_eq_true_eq, compareKeys_eq, TotalCompare.compare_nonpos_iff, ← hkey]
    exact not_above_last (hwithin _ hblock) hlast e hmem
  · -- the blocks before end below the key
    have hk' : k < r.impl.indexEntries.length := Nat.lt_trans hk hj'
    obtain ⟨b, hb, hlast, -⟩ := h.at (List.getElem?_eq_getElem hk')
    obtain ⟨z, hz, hzkey⟩ := Option.map_eq_some_iff.mp hlast
    obtain ⟨hkb, rfl⟩ := List.getElem?_eq_some_iff.mp hb
    have hlt := List.pairwise_iff_getElem.mp hacross k j hkb hj hk
      z (List.mem_of_getLast? hz) e hmem
    rw [Bool.not_eq_true, decide_eq_false_iff_not, compareKeys_eq,
      TotalCompare.compare_nonpos_iff, not_not, ← hzkey, ← hkey]
    exact hlt

/-- What the search of a block finds, its reads inside the block. -/
theorem readFromBlock_of_search {options : SSTableReaderOptions} {data : Bytes}
    {x : Status × Option Found} (h : searchBlock options data key = some x) :
    readFromBlock options data key = .ok x := by
  rw [searchBlock_eq_read] at h
  cases hread : readFromBlock options data key with
  | error fault =>
      rw [hread] at h
      cases h
  | ok y =>
      rw [hread] at h
      exact congrArg Except.ok (Option.some.inj h)

/-- The block `Get` looks into. -/
def blockOf (r : SSTableReader) (key : Bytes) : Nat :=
  (blockFor r.options r.impl.indexEntries key).getD (r.impl.indexEntries.length - 1)

/-- **`Get` is the search of one block**, if the filter lets the key pass. -/
theorem get_eq (hordered : Ordered r.options r.impl.indexEntries)
    (hcount : r.impl.indexEntries.length ≤ 2 ^ 30)
    (hfilter : r.impl.bloomFilterCheck key = true) :
    get r (some content) key = match r.impl.indexEntries[blockOf r key]? with
      | none => .ok (.notFound "Key not found", none)
      | some entry => readFromBlock r.options (readBlock content entry.2) key := by
  unfold get blockOf
  rw [hfilter, Bool.not_true, if_neg Bool.false_ne_true]
  dsimp only
  rw [searchIndex_eq hordered hcount, ok_bind]
  cases hblock : blockFor r.options r.impl.indexEntries key with
  | some i =>
      obtain ⟨hi, -⟩ := List.findIdx?_eq_some_iff_getElem.mp hblock
      rw [Option.map_some, Option.getD_some, Option.getD_some, Int.ofNat_eq_natCast,
        if_neg (show ¬ (i : Int) = -1 by omega), if_pos (by omega), Int.toNat_natCast,
        List.getElem?_eq_getElem hi]
      rfl
  | none =>
      rw [Option.map_none, Option.getD_none, Option.getD_none, if_pos rfl]
      cases hentries : r.impl.indexEntries with
      | nil => rfl
      | cons entry rest =>
          have hlast : (((entry :: rest).length : Int) - 1).toNat = (entry :: rest).length - 1 := by
            omega
          rw [if_pos (by rw [List.length_cons]; omega), hlast,
            List.getElem?_eq_getElem (by rw [List.length_cons]; omega)]
          rfl

/-- **`Get` is the lookup in all entries of a table.** -/
theorem get_lookup (r : SSTableReader) (content : Bytes) (blocks : List (List Entry))
    (h : TableOf r content blocks) (key : Bytes) :
    (∀ e ∈ blocks.flatten, e.key = key →
        get r (some content) key = .ok (.okStatus, some ⟨e.value, e.seq, e.deleted⟩)) ∧
      ((∀ e ∈ blocks.flatten, e.key ≠ key) →
        ∃ msg, get r (some content) key = .ok (.notFound msg, none)) := by
  constructor
  · intro e he hkey
    obtain ⟨i, block, hblock, hi, hmem⟩ := h.place he hkey
    rw [get_eq h.ordered h.count (hkey ▸ h.filter e he)]
    unfold blockOf
    rw [hblock, Option.getD_some]
    obtain ⟨hlen, -⟩ := List.findIdx?_eq_some_iff_getElem.mp hblock
    obtain ⟨block', hi', -, hanswers⟩ := h.at (List.getElem?_eq_getElem hlen)
    obtain rfl := Option.some.inj (hi.symm.trans hi')
    rw [List.getElem?_eq_getElem hlen]
    exact readFromBlock_of_search (hkey ▸ hanswers.present e hmem)
  · intro habsent
    by_cases hfilter : r.impl.bloomFilterCheck key = true
    · rw [get_eq h.ordered h.count hfilter]
      cases hentry : r.impl.indexEntries[blockOf r key]? with
      | none => exact ⟨_, rfl⟩
      | some entry =>
          obtain ⟨block, hblock, -, hanswers⟩ := h.at hentry
          obtain ⟨msg, hmsg⟩ := hanswers.absent key fun e he =>
            habsent e (List.mem_flatten.mpr ⟨block, List.mem_of_getElem? hblock, he⟩)
          exact ⟨msg, readFromBlock_of_search hmsg⟩
    · refine ⟨"Key not found (bloom filter)", ?_⟩
      unfold get
      rw [Bool.not_eq_true] at hfilter
      rw [hfilter]
      rfl

end Get

/-! ## §3. `Open`. -/

theorem bind_ok {α β : Type} {x : Except Fault α} {f : α → Except Fault β} {b : β}
    (h : (x >>= f) = .ok b) : ∃ a, x = .ok a ∧ f a = .ok b := by
  cases x with
  | error fault => cases h
  | ok a => exact ⟨a, rfl, h⟩

/-- `ParseIndexBlock` sets the index and what it tells of it. -/
theorem parseIndexBlock_fields {data : Bytes} {s : Impl}
    (h : ({} : Impl).parseIndexBlock data = .ok s) :
    s.numEntries = s.indexEntries.length ∧ s.bloomFilter = [] ∧ s.bloomK = 0 ∧ s.bloomBits = 0 := by
  unfold Impl.parseIndexBlock at h
  dsimp only at h
  split at h
  next =>
    obtain rfl := Except.ok.inj h
    exact ⟨rfl, rfl, rfl, rfl⟩
  next hsize =>
    obtain ⟨n, hn⟩ := load32_some (show data.length - 4 + 4 ≤ data.length by omega)
    rw [read32_eq hn, ok_bind] at h
    split at h
    next =>
      obtain rfl := Except.ok.inj h
      exact ⟨rfl, rfl, rfl, rfl⟩
    next =>
      obtain ⟨restarts, -, h⟩ := bind_ok h
      obtain ⟨last, -, h⟩ := bind_ok h
      obtain ⟨entries, -, h⟩ := bind_ok h
      split at h
      next =>
        obtain rfl := Except.ok.inj h
        exact ⟨rfl, rfl, rfl, rfl⟩
      next =>
        obtain rfl := Except.ok.inj h
        exact ⟨rfl, rfl, rfl, rfl⟩

/-- A block of the file, read into an empty buffer. -/
theorem readInto_delimits {content block : Bytes} {handle : BlockHandle}
    (h : Delimits content handle block) : readInto content true [] handle = (true, block) := by
  obtain ⟨hinside, hblock⟩ := h
  have hlen : block.length = handle.size.toNat := by
    rw [← hblock, List.length_take, List.length_drop]
    omega
  unfold readInto
  dsimp only
  rw [if_pos rfl, hblock, hlen, decide_eq_true hinside, List.drop_eq_nil_of_le, List.append_nil]
  rw [List.take_nil, List.nil_append, List.length_replicate]
  exact Nat.sub_le _ _

/-- **A block that is where its handle says** reaches its parser. -/
theorem readAndParse_delimits {content block : Bytes} {handle : BlockHandle}
    {parse : Impl → Bytes → Except Fault Impl} {impl impl' : Impl}
    (h : Delimits content handle block) (hnil : ∀ impl, parse impl [] = .ok impl)
    (hparse : parse impl block = .ok impl') :
    readAndParse content true [] handle parse impl = .ok (true, block, impl') := by
  unfold readAndParse
  by_cases hsize : handle.size > 0
  · rw [if_pos hsize, readInto_delimits h]
    dsimp only
    rw [hparse, ok_bind]
    rfl
  · have hzero : handle.size.toNat = 0 := by
      rw [gt_iff_lt, UInt64.lt_iff_toNat_lt] at hsize
      exact Nat.eq_zero_of_not_pos hsize
    obtain ⟨-, rfl⟩ := h
    rw [hzero, List.take_zero] at hparse ⊢
    rw [if_neg hsize, Except.ok.inj ((hnil impl).symm.trans hparse)]
    rfl

/-- `ParseFilterBlock` behind `ParseIndexBlock`: the filter is that of a new reader. -/
theorem parseFilterBlock_fresh {s f : Impl} {data : Bytes}
    (hs : s.bloomFilter = [] ∧ s.bloomK = 0 ∧ s.bloomBits = 0)
    (h : ({} : Impl).parseFilterBlock data = .ok f) :
    s.parseFilterBlock data = .ok
      { s with bloomFilter := f.bloomFilter, bloomK := f.bloomK, bloomBits := f.bloomBits } := by
  obtain ⟨hfilter, hk, hbits⟩ := hs
  unfold Impl.parseFilterBlock at h ⊢
  dsimp only at h ⊢
  by_cases hsize : data.length < 4
  · rw [if_pos hsize] at h ⊢
    obtain rfl := Except.ok.inj h
    cases s
    dsimp only at hfilter hk hbits
    subst hfilter hk hbits
    rfl
  · rw [if_neg hsize] at h ⊢
    obtain ⟨k, hread, h⟩ := bind_ok h
    obtain ⟨bytes, hbytes, h⟩ := bind_ok h
    obtain rfl := Except.ok.inj h
    rw [hread, ok_bind, hbytes, ok_bind, hk]
    rfl

/-- **What `Open` restores** of a table in the builder's format, behind a footer
that passes its checks; `num_entries_` is the number of blocks. -/
theorem open_restores (content : Bytes) (fname : String) (footer : SSTableFooter)
    (s : SSTableBuilder.Impl) (hfooter : loadFooter fname (some content) = .ok footer)
    (hindex : Delimits content footer.indexBlock s.indexBytes)
    (hfilter : Delimits content footer.filterBlock s.filterBlock.flatten)
    (hmeta : Delimits content footer.metaBlock s.metaBytes)
    (hsize : s.indexBytes.length < 2 ^ 32)
    (hback : ReadsBack s.options.blockRestartInterval
      (tailLength s.options.blockRestartInterval s.indexEntries.length) 0 [] s.indexEntries)
    (hkeys : s.smallestKey.length < 2 ^ 32 ∧ s.largestKey.length < 2 ^ 32) :
    ∃ r, openFile {} fname (some content) = .ok (.okStatus, r) ∧
      r.impl.indexEntries = s.indexEntries ∧ r.numEntries = s.indexEntries.length ∧
      (r.minSequence, r.maxSequence, r.smallestKey, r.largestKey)
        = (s.minSeq, s.maxSeq, s.smallestKey, s.largestKey) ∧
      ∀ f, ({} : Impl).parseFilterBlock s.filterBlock.flatten = .ok f →
        (r.impl.bloomFilter, r.impl.bloomK, r.impl.bloomBits)
          = (f.bloomFilter, f.bloomK, f.bloomBits) := by
  obtain ⟨i, hi, hentries⟩ := parseIndexBlock_eq s hsize
  obtain ⟨run, rest, hruns⟩ := runs_cons s.options.blockRestartInterval 0 s.indexEntries
  have hindexEntries : i.indexEntries = s.indexEntries := by
    rw [hentries, hruns]
    exact (decodeRuns_eq_iff _ _ _ hruns).mpr hback
  obtain ⟨hcount, hbloom⟩ := parseIndexBlock_fields hi
  obtain ⟨f, hf⟩ := parseFilterBlock_inside {} s.filterBlock.flatten
  have hfiltered := parseFilterBlock_fresh hbloom hf
  have hmetaRead := parseMetaBlock_metaBytes
    { i with bloomFilter := f.bloomFilter, bloomK := f.bloomK, bloomBits := f.bloomBits } s
    hkeys.1 hkeys.2
  have hnil : ∀ {parse : Impl → Bytes → Except Fault Impl}, parse = Impl.parseIndexBlock ∨
      parse = Impl.parseFilterBlock ∨ parse = Impl.parseMetaBlock →
      ∀ impl, parse impl [] = .ok impl := by
    rintro parse (rfl | rfl | rfl) impl <;> rfl
  unfold openFile loadFile
  rw [hfooter]
  dsimp only [Option.getD_some]
  rw [readAndParse_delimits hindex (hnil (Or.inl rfl)) hi, ok_bind]
  dsimp only
  rw [readAndParse_delimits hfilter (hnil (Or.inr (Or.inl rfl))) hfiltered, ok_bind]
  dsimp only
  rw [readAndParse_delimits hmeta (hnil (Or.inr (Or.inr rfl))) hmetaRead, ok_bind]
  refine ⟨_, rfl, hindexEntries, hcount.trans (congrArg List.length hindexEntries), rfl,
    fun f' hf' => ?_⟩
  obtain rfl := Except.ok.inj (hf.symm.trans hf')
  rfl

/-- A block for every entry, and a restart point for it. -/
def oneEach : SSTableOptions := { blockSize := 1, blockRestartInterval := 1 }

/-- Two blocks as the builder cuts them, behind each other. -/
def twoBlocks : Bytes :=
  (addAll (fun _ => {}) oneEach [⟨[97], [1, 2, 3, 4], 1, true⟩]).impl.sealed
    ++ (addAll (fun _ => {}) oneEach
      [⟨[97], [1, 2, 3, 4], 1, true⟩, ⟨[98], [121], 2, false⟩]).impl.sealed

/-- A reader of them. -/
def twoReader : SSTableReader :=
  { impl := { indexEntries := [([97], ⟨0, 30⟩), ([98], ⟨30, 31⟩)] } }

/-- A block that the builder cuts behind `before`, read back. -/
theorem answers_of_cut {options : SSTableOptions} {before : List Entry} {e : Entry}
    (hkeys : Increasing options (before ++ [e]))
    (hcut : (addAll (fun _ => {}) options (before ++ [e])).impl.entriesInBlock = 1)
    (hreadable : Readable options before [e]) :
    Answers ⟨options.comparator⟩
      (addAll (fun _ => {}) options (before ++ [e])).impl.sealed [e] := by
  obtain ⟨before', block', hsplit, hfilling⟩ := addAll_filling (fun _ => {}) options _ hkeys
  obtain ⟨rfl, rfl⟩ := List.append_inj' hsplit (hfilling.entriesInBlock.symm.trans hcut)
  exact answers_of_readable hfilling (List.pairwise_append.mp hkeys).2.1 hreadable

theorem two_increasing :
    Increasing oneEach ([⟨[97], [1, 2, 3, 4], 1, true⟩] ++ [⟨[98], [121], 2, false⟩]) := by
  refine List.pairwise_pair.mpr ?_
  show Slice.compare [97] [98] < 0
  decide

theorem twoReader_table : TableOf twoReader twoBlocks
    [[⟨[97], [1, 2, 3, 4], 1, true⟩], [⟨[98], [121], 2, false⟩]] where
  held := by
    have hfirst : readBlock twoBlocks ⟨0, 30⟩
        = (addAll (fun _ => {}) oneEach ([] ++ [⟨[97], [1, 2, 3, 4], 1, true⟩])).impl.sealed := by
      decide +kernel
    have hsecond : readBlock twoBlocks ⟨30, 31⟩ = (addAll (fun _ => {}) oneEach
        ([⟨[97], [1, 2, 3, 4], 1, true⟩] ++ [⟨[98], [121], 2, false⟩])).impl.sealed := by
      decide +kernel
    refine .cons ⟨rfl, ?_⟩ (.cons ⟨rfl, ?_⟩ .nil)
    · rw [hfirst]
      exact @answers_of_cut oneEach [] _ (List.pairwise_singleton _ _) (by decide +kernel)
        ⟨Or.inr ⟨rfl, rfl⟩, by decide, ⟨by decide, trivial⟩, by decide⟩
    · rw [hsecond]
      exact @answers_of_cut oneEach [⟨[97], [1, 2, 3, 4], 1, true⟩] _ two_increasing
        (by decide +kernel)
        ⟨Or.inr ⟨rfl, rfl⟩, by decide, ⟨by decide, trivial⟩, by decide⟩
  increasing := two_increasing
  count := by decide
  filter e he := rfl

theorem get_lookup_two :
    get twoReader (some twoBlocks) [98] = .ok (.okStatus, some ⟨[121], 2, false⟩) :=
  (get_lookup twoReader twoBlocks _ twoReader_table [98]).1 ⟨[98], [121], 2, false⟩
    (List.mem_cons_of_mem _ List.mem_cons_self) rfl

/-- What the builder has for the other blocks of that table, but for the filter. -/
def twoIndex : SSTableBuilder.Impl :=
  { options := { oneEach with enableBloomFilter := false }
    indexEntries := twoReader.impl.indexEntries
    minSeq := 1, maxSeq := 2, smallestKey := [97], largestKey := [98] }

/-- The checksum is over the footer that already holds it. -/
def twoFooter : SSTableFooter :=
  { indexBlock := ⟨61, 74⟩, metaBlock := ⟨135, 26⟩, crc32 := 0x3d78a92d }

def twoFile : Bytes :=
  twoBlocks ++ twoIndex.indexBytes ++ twoIndex.metaBytes ++ twoFooter.encode

theorem open_restores_two : ∃ r, openFile {} "two.sst" (some twoFile) = .ok (.okStatus, r) ∧
    r.impl.indexEntries = twoIndex.indexEntries ∧ r.numEntries = twoIndex.indexEntries.length ∧
    (r.minSequence, r.maxSequence, r.smallestKey, r.largestKey) = (1, 2, [97], [98]) ∧
    ∀ f, ({} : Impl).parseFilterBlock twoIndex.filterBlock.flatten = .ok f →
      (r.impl.bloomFilter, r.impl.bloomK, r.impl.bloomBits)
        = (f.bloomFilter, f.bloomK, f.bloomBits) :=
  open_restores twoFile "two.sst" twoFooter twoIndex (by decide +kernel) (by decide +kernel)
    (by decide +kernel) (by decide +kernel) (by decide +kernel)
    ⟨by decide, by decide, by decide, by decide, trivial⟩ (by decide)

end SSTableReader

end KvEngine
