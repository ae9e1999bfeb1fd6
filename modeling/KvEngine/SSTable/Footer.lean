/-
  KvEngine.SSTable.Footer
  ───────────────────────
  The footer `Finish` writes and the footer `Open` reads.

  `Finish` does not get past the index block of a table with entries: the
  header of the first index entry is written to nowhere.  The one table it
  reports OK for is the empty one.

  `Finish` computes the checksum of the encoded footer, stores it in the
  structure, and writes the encoding from before: the checksum field of the
  file is zero.  `LoadFile` compares it with the checksum of the same bytes,
  which is not zero for the empty table, with or without a filter.

  Main results:
    * `decode_encode` — a footer survives the file;
    * `Filling.finish_eq` — `Finish` behind at least one entry;
    * `finish_new` — `Finish` of a builder without entries;
    * `finish_opens` — when what `Finish` reports OK for opens.
-/
import KvEngine.SSTable.Accepting
import KvEngine.SSTable.Reader

namespace KvEngine

open SSTable

/-! ## §1. Encoding and decoding. -/

namespace SSTableFooter

theorem length_encode_handle (h : BlockHandle) : h.encode.length = 16 := by
  unfold BlockHandle.encode
  rw [List.length_append, length_store64, length_store64]

theorem length_encode (f : SSTableFooter) : f.encode.length = kEncodedSize := by
  unfold encode
  simp only [List.length_append, length_encode_handle, length_store64, length_store32,
    List.length_replicate]
  rfl

/-- The fields of an encoded footer are those of the footer. -/
theorem fields_encode (f : SSTableFooter) : fields f.encode = some f := by
  have hbytes : f.encode
      = store64 f.indexBlock.offset ++ (store64 f.indexBlock.size
        ++ (store64 f.filterBlock.offset ++ (store64 f.filterBlock.size
        ++ (store64 f.metaBlock.offset ++ (store64 f.metaBlock.size
        ++ (store64 f.magicNumber ++ (store32 f.version
        ++ (store32 f.crc32 ++ List.replicate (kEncodedSize - 64) 0)))))))) := by
    unfold encode BlockHandle.encode
    simp only [List.append_assoc]
  unfold fields
  rw [hbytes]
  simp only [load64_store, load64_store64_add, load32_store64_add, load32_store32_add,
    load32_store, Option.bind_eq_bind, Option.bind_some]

/-- **A footer survives the file** if it carries the magic number. -/
theorem decode_encode {f : SSTableFooter} (h : f.magicNumber = kMagicNumber) :
    decode f.encode = .ok f := by
  unfold decode
  rw [if_neg (by rw [length_encode]; omega), fields_encode]
  show (if f.magicNumber ≠ 0xDBDBDBDBDBDBDBDB then _ else _) = _
  rw [if_neg (by rw [h]; exact fun hne => hne rfl)]

end SSTableFooter

/-! ## §2. What a stream has written. -/

namespace SSTable.OFStream

/-- All bytes written since the file was opened, handed over or not. -/
def written (s : OFStream) : Option Bytes := s.content.map (· ++ s.pending)

/-- A write that leaves the stream good has found it good and open. -/
theorem write_good {env : Env} {s : OFStream} {bytes : Bytes}
    (h : (s.write env bytes).good = true) :
    s.good = true ∧ s.isOpen = true ∧ (s.write env bytes).isOpen = true ∧
      (s.write env bytes).written = s.written.map (· ++ bytes) := by
  unfold write at h ⊢
  split at h
  next hbad => rw [h] at hbad; cases hbad
  next hgood =>
    split at h
    next => cases h
    next hopen =>
      rw [if_neg hgood, if_neg hopen]
      refine ⟨by simpa using hgood, by simpa using hopen, by simpa using hopen, ?_⟩
      unfold written
      cases s.content with
      | none => rfl
      | some content =>
          have hok : (env s.requests).ok = true := h
          show some (content ++ List.take (env s.requests).moved (s.pending ++ bytes)
            ++ (if (env s.requests).ok = true then
                List.drop (env s.requests).moved (s.pending ++ bytes) else s.pending))
            = some (content ++ s.pending ++ bytes)
          rw [if_pos hok, List.append_assoc, List.take_append_drop, List.append_assoc]

theorem close_good {env : Env} {s : OFStream} (h : (s.close env).good = true) :
    s.good = true ∧ (s.close env).content = s.written := by
  unfold close at h ⊢
  split at h
  next => cases h
  next hopen =>
    rw [if_neg hopen]
    obtain ⟨hgood, hok⟩ := Bool.and_eq_true_iff.mp h
    refine ⟨hgood, ?_⟩
    show s.content.map (· ++ (if (env s.requests).ok then s.pending else _)) = _
    rw [if_pos hok]
    rfl

/-- A file just opened has nothing in it. -/
theorem openTrunc_written {env : Env} {s : OFStream} (hgood : (s.openTrunc env).good = true) :
    (s.openTrunc env).written = some [] := by
  unfold openTrunc at hgood ⊢
  split at hgood
  next => cases hgood
  next hclosed =>
    split at hgood
    next hok => rw [if_neg hclosed, if_pos hok]; rfl
    next => cases hgood

end SSTable.OFStream

/-- Several writes in a row. -/
def SSTable.OFStream.writes (env : Env) (s : OFStream) (pieces : List Bytes) : OFStream :=
  pieces.foldl (OFStream.write env) s

theorem SSTable.OFStream.writes_good {env : Env} {s : OFStream} {pieces : List Bytes}
    (h : (s.writes env pieces).good = true) :
    s.good = true ∧ (s.writes env pieces).written = s.written.map (· ++ pieces.flatten) := by
  induction pieces generalizing s with
  | nil => exact ⟨h, by cases hw : s.written <;> simp [writes, hw]⟩
  | cons piece pieces ih =>
      obtain ⟨hgood, hrest⟩ := ih (s := s.write env piece) h
      obtain ⟨hstart, -, -, hwrite⟩ := OFStream.write_good hgood
      refine ⟨hstart, ?_⟩
      show ((s.write env piece).writes env pieces).written = _
      rw [hrest, hwrite]
      cases s.written with
      | none => rfl
      | some content =>
          show some ((content ++ piece) ++ pieces.flatten) = some (content ++ (piece ++ _))
          rw [List.append_assoc]

/-- A write on a good stream is one request, and the stream is as good as its answer. -/
theorem SSTable.OFStream.write_next (env : Env) {s : OFStream} (hopen : s.isOpen = true)
    (hgood : s.good = true) (bytes : Bytes) :
    (s.write env bytes).good = (env s.requests).ok ∧ (s.write env bytes).isOpen = true ∧
      (s.write env bytes).requests = s.requests + 1 := by
  unfold write
  rw [if_neg (by rw [hgood]; decide), if_neg (by rw [hopen]; decide)]
  exact ⟨rfl, hopen, rfl⟩

/-- Some writes and the close leave the stream good if every request succeeds. -/
theorem SSTable.OFStream.writes_close_good {env : Env} {s : OFStream} {n : Nat}
    (hopen : s.isOpen = true) (hgood : s.good = true) (hn : s.requests = n)
    (pieces : List Bytes) : ((s.writes env pieces).close env).good = true ↔
      ∀ i < pieces.length + 1, (env (n + i)).ok = true := by
  induction pieces generalizing s n with
  | nil =>
      have hclose : (s.close env).good = (env n).ok := by
        unfold close
        rw [if_neg (by rw [hopen]; decide), hgood, hn]
        rfl
      show (s.close env).good = true ↔ _
      rw [hclose]
      exact ⟨fun hok i hi => by rwa [Nat.lt_one_iff.mp hi], fun h => h 0 Nat.one_pos⟩
  | cons piece pieces ih =>
      obtain ⟨hnext, hopen', hrequests⟩ := write_next env hopen hgood piece
      rw [hn] at hnext hrequests
      show (((s.write env piece).writes env pieces).close env).good = true ↔ _
      by_cases hok : (env n).ok = true
      · rw [ih hopen' (hnext.trans hok) hrequests]
        constructor
        · intro h i hi
          cases i with
          | zero => exact hok
          | succ i =>
              rw [Nat.add_succ, ← Nat.succ_add]
              exact h i (Nat.lt_of_succ_lt_succ hi)
        · intro h i hi
          have hlater := h (i + 1) (Nat.succ_lt_succ hi)
          rwa [Nat.add_comm i 1, ← Nat.add_assoc] at hlater
      · constructor
        · intro h
          have hstill := (writes_good (close_good h).1).1
          exact absurd (hnext.symm.trans hstill) hok
        · intro h
          exact absurd (h 0 (Nat.succ_pos _)) hok

/-! ## §3. What `Finish` writes. -/

namespace SSTableBuilder

/-- The block that is still being filled, if there is one. -/
def Impl.lastBlock (s : Impl) : List Bytes := if s.entriesInBlock = 0 then [] else [s.sealed]

/-- `Finish` on its file, before anything is written. -/
def opened (env : Env) (b : SSTableBuilder) (filename : String) : Impl :=
  { b.impl with filename, file := b.impl.file.openTrunc env }

theorem Filling.opened_isOpen {options : SSTableOptions} {before block : List Entry}
    {b : SSTableBuilder} (h : b.Filling options before block) (env : Env) (filename : String) :
    (b.opened env filename).file.isOpen = (env 0).ok := by
  obtain ⟨hclosed, hrequests, -⟩ := h.untouched
  show (b.impl.file.openTrunc env).isOpen = _
  unfold OFStream.openTrunc
  rw [hrequests, if_neg (by rw [hclosed]; exact Bool.false_ne_true)]
  by_cases hok : (env 0).ok = true
  · rw [if_pos hok, hok]
  · rw [if_neg hok, Bool.eq_false_iff.mpr hok]
    exact hclosed

/-- **`Finish` behind at least one entry**: an error if the file cannot be opened,
and otherwise no result. -/
theorem Filling.finish_eq {options : SSTableOptions} {before block : List Entry}
    {b : SSTableBuilder} (h : b.Filling options before block) (hne : block ≠ []) (env : Env)
    (filename : String) : b.finish env filename = if (env 0).ok then none else
      some (.ioError ("Failed to open file: " ++ filename),
        { b with impl := b.opened env filename }) := by
  have hblocks : b.finishBlocks env (b.opened env filename) = none := by
    have hentries : (b.opened env filename).entriesInBlock ≠ 0 := by
      rw [show (b.opened env filename).entriesInBlock = block.length from h.entriesInBlock]
      exact fun hnil => hne (List.length_eq_zero_iff.mp hnil)
    -- the block being filled makes an index entry
    have hindex : ∃ es e, ((b.opened env filename).flushBlock env).indexEntries = es ++ [e] := by
      unfold Impl.flushBlock
      rw [if_neg hentries]
      exact ⟨_, _, rfl⟩
    obtain ⟨es, e, hindex⟩ := hindex
    have hnone : ((b.opened env filename).flushBlock env).writeIndexBlock env = none := by
      unfold Impl.writeIndexBlock
      rw [hindex]
      cases es <;> rfl
    unfold finishBlocks
    dsimp only
    rw [hnone]
    rfl
  unfold finish
  rw [h.running, if_neg Bool.false_ne_true]
  change (if (!(b.opened env filename).file.isOpen) = true then _ else
    (b.finishBlocks env (b.opened env filename)).bind _) = _
  rw [h.opened_isOpen, hblocks]
  cases (env 0).ok <;> rfl

/-- The blocks of a table without entries. -/
def emptyBlocks : List Bytes := [restartBytes [0], (new {}).impl.metaBytes]

/-- The footer of a table without entries. -/
def emptyFooter (options : SSTableOptions) : SSTableFooter where
  indexBlock := ⟨0, 8⟩
  filterBlock := if options.enableBloomFilter then ⟨8, 0⟩ else ⟨0, 0⟩
  metaBlock := ⟨8, 24⟩

/-- **Before the footer**: a builder without entries writes its index and its
metadata. -/
theorem finishBlocks_new (env : Env) (options : SSTableOptions) (filename : String) :
    ∃ s, (new options).finishBlocks env ((new options).opened env filename)
        = some (s, emptyFooter options) ∧
      s.file = ((new options).opened env filename).file.writes env emptyBlocks ∧
      s.indexEntries = [] ∧ s.indexBuffer = restartBytes [0] ∧ s.filterBuffer = [] ∧
      s.metaBytes = (new {}).impl.metaBytes := by
  refine ⟨{ (new options).opened env filename with
    file := ((new options).opened env filename).file.writes env emptyBlocks
    indexBuffer := restartBytes [0]
    blockOffset := 32 }, ?_, rfl, rfl, rfl, rfl, rfl⟩
  let index := sizeOf (restartBytes [0])
  let metadata := sizeOf (new {}).impl.metaBytes
  -- the handles as `Finish` computes them
  have hfooter : emptyFooter options = {
      indexBlock := ⟨0 + index - index, index⟩
      filterBlock := if options.enableBloomFilter then ⟨0 + index, 0⟩ else ⟨0, 0⟩
      metaBlock := ⟨0 + index, 0 + index + metadata - (0 + index)⟩ } := by
    unfold emptyFooter
    cases options.enableBloomFilter <;> decide +kernel
  rw [hfooter]
  obtain ⟨blockSize, interval, comparator, bloom, bitsPerKey, hashes⟩ := options
  cases bloom <;> rfl

/-- **`Finish` of a builder without entries**: OK if the file can be opened, written
three times and closed. -/
theorem finish_new (env : Env) (options : SSTableOptions) (filename : String) :
    ∃ r, (new options).finish env filename = some r ∧
      (r.1 = .okStatus ↔ ∀ i < 5, (env i).ok = true) ∧
      (r.1 = .okStatus →
        r.2.impl.file.content = some (emptyBlocks.flatten ++ (emptyFooter options).encode) ∧
        r.2.impl.indexEntries = [] ∧ r.2.impl.indexBuffer = restartBytes [0] ∧
        r.2.impl.filterBuffer = [] ∧ r.2.impl.metaBytes = (new {}).impl.metaBytes) := by
  obtain ⟨s, hblocks, hfile, hindex, hbuffer, hfilter, hmeta⟩ :=
    finishBlocks_new env options filename
  have hisOpen := (new_filling options).opened_isOpen env filename
  -- `open` asks first, the writes and the close after it
  have hsplit : (∀ i < 5, (env i).ok = true) ↔
      (env 0).ok = true ∧ ∀ i < 4, (env (1 + i)).ok = true := by
    constructor
    · intro h
      exact ⟨h 0 (by omega), fun i hi => h (1 + i) (by omega)⟩
    · rintro ⟨hzero, h⟩ i hi
      cases i with
      | zero => exact hzero
      | succ i =>
          rw [Nat.add_comm i 1]
          exact h i (by omega)
  unfold finish
  rw [if_neg (by exact Bool.false_ne_true)]
  change ∃ r, (if (!((new options).opened env filename).file.isOpen) = true then _ else
    ((new options).finishBlocks env ((new options).opened env filename)).bind _) = _ ∧ _
  rw [hisOpen, hblocks, hsplit]
  by_cases hopen : (env 0).ok = true
  · let footer := (emptyFooter options).encode
    have hopened : ((new options).opened env filename).file
        = { isOpen := true, good := true, pending := [], content := some [], requests := 1 } := by
      show OFStream.openTrunc env {} = _
      unfold OFStream.openTrunc
      rw [if_neg (by decide), if_pos hopen]
    have hwrites : s.file.write env footer
        = ((new options).opened env filename).file.writes env (emptyBlocks ++ [footer]) := by
      rw [hfile]
      rfl
    have hgood : ((s.file.write env footer).close env).good = true ↔
        ∀ i < 4, (env (1 + i)).ok = true := by
      rw [hwrites, hopened]
      exact OFStream.writes_close_good rfl rfl rfl (emptyBlocks ++ [footer])
    rw [hopen, if_neg (by decide), and_iff_right rfl, ← hgood]
    change ∃ r, (if (!((s.file.write env footer).close env).good) = true then _ else _) = _ ∧ _
    by_cases hclosed : ((s.file.write env footer).close env).good = true
    · rw [hclosed, if_neg (by decide)]
      refine ⟨_, rfl, iff_of_true rfl rfl, fun _ => ⟨?_, hindex, hbuffer, hfilter, hmeta⟩⟩
      obtain ⟨hwritten, hcontent⟩ := OFStream.close_good hclosed
      rw [hwrites, hopened] at hwritten hcontent
      show ((s.file.write env footer).close env).content = _
      rw [hwrites, hopened, hcontent, (OFStream.writes_good hwritten).2, List.flatten_append,
        List.flatten_singleton]
      rfl
    · rw [Bool.eq_false_iff.mpr hclosed, if_pos (by decide)]
      exact ⟨_, rfl, iff_of_false (fun h => by cases h) (by decide), fun h => by cases h⟩
  · rw [Bool.eq_false_iff.mpr hopen, if_pos (by decide)]
    exact ⟨_, rfl, iff_of_false (fun h => by cases h) (fun h => Bool.false_ne_true h.1),
      fun h => by cases h⟩

/-! ## §4. Which files open. -/

/-- `Finish` reports OK for nothing but the empty builder. -/
theorem adds_finish {env : Env} {options : SSTableOptions} {es taken : List Entry}
    {b : SSTableBuilder} (hadds : adds env options es = some (b, taken)) {filename : String}
    {b' : SSTableBuilder} (h : b.finish env filename = some (.okStatus, b')) : es = [] := by
  by_contra hne
  obtain ⟨rfl, -, -⟩ := adds_some hadds
  obtain ⟨before, block, hsplit, -, hfilling⟩ := addAll_accepted env options es
  have hblock : block ≠ [] := by
    rintro rfl
    rw [hfilling.started rfl] at hsplit
    exact accepted_ne_nil hne hsplit.symm
  rw [hfilling.finish_eq hblock] at h
  split at h
  · cases h
  · cases h

/-- What `Finish` reports OK for is opened, with the handles `Finish` has computed. -/
def Opens (env : Env) (b : SSTableBuilder) (filename : String) : Prop :=
  ∀ b', b.finish env filename = some (.okStatus, b') →
    ∃ s f g, b.finishBlocks env (b.opened env filename) = some (s, f) ∧
      SSTableReader.loadFooter filename b'.impl.file.content = .ok g ∧
      g.indexBlock = f.indexBlock ∧ g.filterBlock = f.filterBlock ∧ g.metaBlock = f.metaBlock

/-- The checksum of the empty table is not the zero in its file. -/
theorem loadFooter_empty (options : SSTableOptions) (filename : String) :
    SSTableReader.loadFooter filename
        (some (emptyBlocks.flatten ++ (emptyFooter options).encode))
      = .error (.corruption "Footer CRC mismatch") := by
  have hcrc : computeCRC32 ((emptyFooter options).encode.take (SSTableFooter.kEncodedSize - 4))
      ≠ 0 := by
    unfold emptyFooter
    cases options.enableBloomFilter <;> decide +kernel
  have hlen := SSTableFooter.length_encode (emptyFooter options)
  unfold SSTableReader.loadFooter
  simp only [List.length_append, hlen]
  rw [if_neg (by omega), Nat.add_sub_cancel, List.drop_left, SSTableFooter.decode_encode rfl]
  show (if computeCRC32 ((emptyFooter options).encode.take
    ((emptyFooter options).encode.length - 4)) ≠ 0 then _ else _) = _
  rw [hlen, if_pos hcrc]

/-- **When what `Finish` reports OK for opens**: when it reports something else,
because an entry was added or a request on the file fails. -/
theorem finish_opens (env : Env) (options : SSTableOptions) (es : List Entry)
    (filename : String) :
    (∀ b taken, adds env options es = some (b, taken) → b.Opens env filename) ↔
      es ≠ [] ∨ ∃ i < 5, (env i).ok = false := by
  constructor
  · intro h
    by_contra hnone
    rw [not_or, Classical.not_not] at hnone
    obtain ⟨rfl, hrequests⟩ := hnone
    obtain ⟨⟨status, b'⟩, hfinish, hok, hcontent⟩ := finish_new env options filename
    obtain rfl : status = .okStatus := hok.mpr fun i hi => by
      by_contra hbad
      exact hrequests ⟨i, hi, Bool.eq_false_iff.mpr hbad⟩
    obtain ⟨s, f, g, -, hload, -⟩ := h _ _ rfl b' hfinish
    rw [(hcontent rfl).1, loadFooter_empty] at hload
    cases hload
  · intro hcase b taken hadds b' hfinish
    obtain rfl := adds_finish hadds hfinish
    obtain ⟨i, hi, hbad⟩ := hcase.resolve_left (fun hne => hne rfl)
    obtain ⟨rfl, -, -⟩ := adds_some hadds
    obtain ⟨r, hr, hok, -⟩ := finish_new env options filename
    have hall := hok.mp (congrArg Prod.fst (Option.some.inj (hr.symm.trans hfinish))) i hi
    rw [hbad] at hall
    cases hall

/-- The empty table, with every request on the file answered. -/
theorem finish_opens_empty :
    ∃ b', (new {}).finish (fun _ => {}) "empty.sst" = some (.okStatus, b') ∧
      SSTableReader.loadFooter "empty.sst" b'.impl.file.content
        = .error (.corruption "Footer CRC mismatch") ∧
      ¬ (new {}).Opens (fun _ => {}) "empty.sst" := by
  have hload : ((new {}).finish (fun _ => {}) "empty.sst").map (fun r => (r.1,
      SSTableReader.loadFooter "empty.sst" r.2.impl.file.content))
      = some (.okStatus, .error (.corruption "Footer CRC mismatch")) := by decide +kernel
  obtain ⟨⟨status, b'⟩, hfinish, hpair⟩ := Option.map_eq_some_iff.mp hload
  obtain ⟨rfl, hmismatch⟩ := Prod.mk.inj hpair
  refine ⟨b', hfinish, hmismatch, fun h => ?_⟩
  obtain ⟨s, f, g, -, hg, -⟩ := h b' hfinish
  cases hmismatch.symm.trans hg

end SSTableBuilder

end KvEngine
