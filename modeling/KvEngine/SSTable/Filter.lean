/-
  KvEngine.SSTable.Filter
  ───────────────────────
  The bloom filter written and asked.

  `FlushBlock` puts the keys of the index into the filter, so the last keys of
  the blocks, and those again with every block; no other key is hashed.
  `WriteFilterBlock` takes the bits modulo their number, `BloomFilterCheck`
  modulo the number that fills the last byte.  A key passes if each of its
  bits happens to be one of a last key, under the other modulus.

  The filter here is the one `WriteFilterBlock` makes once the last block is
  flushed; `Finish` itself does not come to it for a table with entries.

  Main results:
    * `addAll_hashed` — what a run of `Add` calls leaves for the filter;
    * `filterBytes_eq` — the bits `WriteFilterBlock` sets;
    * `filter_complete` — which filters have no false negatives.
-/
import KvEngine.Lib.Bits
import KvEngine.SSTable.Accepting
import KvEngine.SSTable.Inside

namespace KvEngine

open Lib SSTable

namespace SSTableBuilder

/-! ## §1. The blocks of a table. -/

/-- Puts an entry into the block being filled, or into a new one if that is full. -/
def place (options : SSTableOptions) :
    List (List Entry) × List Entry → Entry → List (List Entry) × List Entry
  | (cut, block), e =>
      if block ≠ [] ∧
          options.blockSize < (codeEntries (lastKeyOf cut.flatten) (block ++ [e])).length then
        (cut ++ [block], [e])
      else (cut, block ++ [e])

/-- The blocks cut behind some entries, and the one being filled. -/
def placed (options : SSTableOptions) (es : List Entry) : List (List Entry) × List Entry :=
  es.foldl (place options) ([], [])

/-- All blocks of a table. -/
def blocksOf (options : SSTableOptions) (es : List Entry) : List (List Entry) :=
  (placed options es).1 ++ if (placed options es).2 = [] then [] else [(placed options es).2]

theorem placed_snoc (options : SSTableOptions) (es : List Entry) (e : Entry) :
    placed options (es ++ [e]) = place options (placed options es) e := by
  unfold placed
  rw [List.foldl_append]
  rfl

theorem flatten_placed (options : SSTableOptions) (es : List Entry) :
    (placed options es).1.flatten ++ (placed options es).2 = es := by
  induction es using List.reverseRecOn with
  | nil => rfl
  | append_singleton es e ih =>
      rw [placed_snoc]
      generalize placed options es = p at ih ⊢
      obtain ⟨cut, block⟩ := p
      change cut.flatten ++ block = es at ih
      unfold place
      dsimp only
      split
      · show (cut ++ [block]).flatten ++ [e] = es ++ [e]
        rw [List.flatten_append, List.flatten_singleton, ih]
      · show cut.flatten ++ (block ++ [e]) = es ++ [e]
        rw [← List.append_assoc, ih]

/-! ## §2. The hashes. -/

/-- The hashes of a filter over blocks with these last keys: with every block
those of all blocks so far. -/
def hashesOf (keys : List Bytes) : List UInt64 :=
  (List.range keys.length).flatMap fun i => (keys.take (i + 1)).map bloomHash

theorem hashesOf_snoc (keys : List Bytes) (key : Bytes) :
    hashesOf (keys ++ [key]) = hashesOf keys ++ (keys ++ [key]).map bloomHash := by
  unfold hashesOf
  rw [List.length_append, List.length_singleton, List.range_succ, List.flatMap_append,
    List.flatMap_singleton, List.take_of_length_le (by rw [List.length_append]; rfl)]
  congr 1
  refine List.flatMap_congr fun i hi => ?_
  rw [List.take_append_of_le_length (List.mem_range.mp hi)]

theorem mem_hashesOf {keys : List Bytes} {hash : UInt64} :
    hash ∈ hashesOf keys ↔ ∃ key ∈ keys, bloomHash key = hash := by
  induction keys using List.reverseRecOn with
  | nil => exact ⟨fun h => (nomatch h), fun ⟨_, h, _⟩ => (nomatch h)⟩
  | append_singleton keys key ih =>
      rw [hashesOf_snoc, List.mem_append, ih, List.mem_map]
      refine ⟨?_, Or.inr⟩
      rintro (⟨k, hk, h⟩ | h)
      · exact ⟨k, List.mem_append_left _ hk, h⟩
      · exact h

theorem length_hashesOf (keys : List Bytes) :
    (hashesOf keys).length = keys.length * (keys.length + 1) / 2 := by
  have hdouble : 2 * (hashesOf keys).length = keys.length * (keys.length + 1) := by
    induction keys using List.reverseRecOn with
    | nil => rfl
    | append_singleton keys key ih =>
        rw [hashesOf_snoc, List.length_append, Nat.mul_add, ih, List.length_map, List.length_append,
          List.length_singleton]
        ring
  omega

/-- What the blocks with the last keys `keys` leave for the filter. -/
structure Hashed (keys : List Bytes) (s : Impl) : Prop where
  bloom : s.options.enableBloomFilter = true
  keys_eq : s.indexEntries.map Prod.fst = keys
  hashes : s.filterKeysHash = hashesOf keys
  filterBuffer : s.filterBuffer = []

variable {env : Env} {options : SSTableOptions} {keys : List Bytes} {s : Impl}

/-- **One block more.** -/
theorem Hashed.flush (h : Hashed keys s) (env : Env) (hne : s.entriesInBlock ≠ 0) :
    Hashed (keys ++ [s.lastKey]) (s.flushBlock env) := by
  unfold Impl.flushBlock
  rw [if_neg hne]
  refine ⟨h.bloom, ?_, ?_, h.filterBuffer⟩
  · show (s.indexEntries ++ [_]).map Prod.fst = _
    rw [List.map_append, h.keys_eq]
    rfl
  · show (if s.options.enableBloomFilter then _ else _) = _
    rw [if_pos h.bloom, h.hashes, hashesOf_snoc, ← h.keys_eq, List.map_append, List.map_append,
      List.map_map]
    rfl

theorem Hashed.of_progress {s' : Impl} (h : Hashed keys s) (hprogress : s'.progress = s.progress)
    (hoptions : s'.options = s.options) : Hashed keys s' := by
  simp only [Impl.progress, Prod.mk.injEq] at hprogress
  obtain ⟨hindex, hhashes, -, hbuffer⟩ := hprogress
  exact ⟨hoptions ▸ h.bloom, hindex ▸ h.keys_eq, hhashes.trans h.hashes,
    hbuffer.trans h.filterBuffer⟩

theorem lastKeyOf_append_of_ne_nil (before : List Entry) {block : List Entry} (h : block ≠ []) :
    lastKeyOf (before ++ block) = lastKeyOf block := by
  obtain ⟨front, e, rfl⟩ := List.eq_nil_or_concat block |>.resolve_left h
  rw [List.concat_eq_append, ← List.append_assoc, lastKeyOf_snoc, lastKeyOf_snoc]

theorem flushBlock_options (env : Env) (s : Impl) : (s.flushBlock env).options = s.options := by
  unfold Impl.flushBlock
  split <;> rfl

/-- **A run of `Add` calls**, refused ones among them. -/
theorem addAll_hashed (env : Env) (es : List Entry) (hbloom : options.enableBloomFilter = true) :
    (addAll env options es).Filling options (placed options (accepted options es)).1.flatten
        (placed options (accepted options es)).2 ∧
      Hashed ((placed options (accepted options es)).1.map lastKeyOf)
        (addAll env options es).impl := by
  induction es using List.reverseRecOn with
  | nil => exact ⟨new_filling options, ⟨hbloom, rfl, rfl, rfl⟩⟩
  | append_singleton es e ih =>
      obtain ⟨hfilling, hhashed⟩ := ih
      have hflat := flatten_placed options (accepted options es)
      rw [addAll_snoc, accepted_snoc]
      by_cases habove : Above options (accepted options es) e
      · rw [if_pos habove, placed_snoc]
        obtain ⟨-, hcase⟩ := hfilling.add_cases env (e := e) (by rw [hflat]; exact habove)
        have hfull := hfilling.full_iff e
        generalize placed options (accepted options es) = p at *
        obtain ⟨cut, block⟩ := p
        unfold place
        dsimp only at *
        rcases hcase with ⟨hroom, hnext, hprogress⟩ | ⟨hcut, hne, hnext, hprogress⟩
        · rw [if_neg (fun h => hroom (hfull.mpr h))]
          exact ⟨hnext, hhashed.of_progress hprogress
            (hnext.options_eq.2.trans hfilling.options_eq.2.symm)⟩
        · rw [if_pos (hfull.mp hcut), List.flatten_append, List.flatten_singleton, List.map_append,
            List.map_singleton, ← lastKeyOf_append_of_ne_nil cut.flatten hne, ← hfilling.lastKey]
          exact ⟨hnext, (hhashed.flush env (Nat.ne_of_gt hcut.2)).of_progress hprogress
            (hnext.options_eq.2.trans (hfilling.options_eq.2.symm.trans
              (flushBlock_options env _).symm))⟩
      · rw [if_neg habove, hfilling.add_refused env (by rw [hflat]; exact habove)]
        exact ⟨hfilling, hhashed⟩

/-! ## §3. The bits `WriteFilterBlock` sets. -/

/-- The bit number `i` of a hash in a filter of `bits` bits. -/
def probe (hash : UInt64) (i bits : Nat) : Nat :=
  (hash + UInt64.ofNat i * 0x9e3779b97f4a7c15).toNat % bits

/-- All bits of some hashes. -/
def probes (hashes bits : Nat) (keys : List UInt64) : List Nat :=
  keys.flatMap fun hash => (List.range hashes).map fun i => probe hash i bits

theorem toNat_probe (hash : UInt64) (i : Nat) {bits : Nat} (h : bits < 2 ^ 64) :
    ((hash + UInt64.ofNat i * 0x9e3779b97f4a7c15) % UInt64.ofNat bits).toNat
      = probe hash i bits := by
  unfold probe
  rw [UInt64.toNat_mod, UInt64.toNat_ofNat', Nat.mod_eq_of_lt h]

/-- The byte and the mask of a bit. -/
theorem byte_mask (bit : UInt64) :
    (bit / 8).toNat = bit.toNat / 8 ∧ (bit % 8).toUInt8 = UInt8.ofNat (bit.toNat % 8) := by
  have hmod : (bit % 8).toNat = bit.toNat % 8 := UInt64.toNat_mod _ _
  refine ⟨UInt64.toNat_div _ _, ?_⟩
  rw [← hmod]
  rfl

theorem setBits_eq {bits : Nat} (h : bits < 2 ^ 64) (hashes : Nat) (filter : Bytes)
    (hash : UInt64) :
    Impl.setBits (UInt64.ofNat bits) hashes filter hash
      = ((List.range hashes).map fun i => probe hash i bits).foldl setBit filter := by
  unfold Impl.setBits
  rw [List.foldl_map]
  congr 1
  funext filter i
  dsimp only
  obtain ⟨hbyte, hmask⟩ := byte_mask
    ((hash + UInt64.ofNat i * 0x9e3779b97f4a7c15) % UInt64.ofNat bits)
  rw [hbyte, hmask, toNat_probe hash i h]
  rfl

/-- **The filter block**: the bits of all hashes, and how many each of them has. -/
theorem filterBytes_eq (s : Impl)
    (h : s.filterKeysHash.length * s.options.bloomFilterBitsPerKey < 2 ^ 64) :
    s.filterBytes = (probes s.options.bloomHashes
        (s.filterKeysHash.length * s.options.bloomFilterBitsPerKey) s.filterKeysHash).foldl setBit
          (List.replicate ((s.filterKeysHash.length * s.options.bloomFilterBitsPerKey + 7) / 8) 0)
      ++ store32 (UInt32.ofNat s.options.bloomHashes) := by
  -- One hash after the other, over any bits set before.
  have hfold : ∀ (hashes : List UInt64) (filter : Bytes),
      hashes.foldl (Impl.setBits (UInt64.ofNat
          (s.filterKeysHash.length * s.options.bloomFilterBitsPerKey)) s.options.bloomHashes) filter
        = (probes s.options.bloomHashes
            (s.filterKeysHash.length * s.options.bloomFilterBitsPerKey) hashes).foldl setBit
              filter := by
    intro hashes
    induction hashes with
    | nil => exact fun _ => rfl
    | cons hash hashes ih =>
        intro filter
        rw [List.foldl_cons, setBits_eq h, ih]
        unfold probes
        rw [List.flatMap_cons, List.foldl_append]
  unfold Impl.filterBytes
  dsimp only
  rw [hfold]

theorem mem_probes {hashes bits n : Nat} {keys : List UInt64} :
    n ∈ probes hashes bits keys ↔ ∃ hash ∈ keys, ∃ i < hashes, probe hash i bits = n := by
  unfold probes
  simp only [List.mem_flatMap, List.mem_map, List.mem_range]

end SSTableBuilder

namespace SSTableReader

open SSTableBuilder

/-! ## §4. The filter as the reader has it. -/

/-- The filter block, taken apart. -/
theorem parseFilterBlock_eq (filter : Bytes) (k : UInt32) :
    ({} : Impl).parseFilterBlock (filter ++ store32 k)
      = .ok { bloomFilter := filter, bloomK := k.toNat, bloomBits := filter.length * 8 } := by
  have hlen : (filter ++ store32 k).length = filter.length + 4 := by
    rw [List.length_append, length_store32]
  have hk : load32 (filter ++ store32 k) filter.length = some k := by
    have happend := load32_append filter (store32 k) 0
    have hstore := load32_store k []
    rw [List.append_nil] at hstore
    rw [← Nat.add_zero filter.length, happend, hstore]
  unfold Impl.parseFilterBlock
  simp only [hlen, Nat.add_sub_cancel, if_neg (show ¬ filter.length + 4 < 4 by omega),
    read32_eq hk, ok_bind]
  rw [readBytes_eq (by rw [hlen]; omega), ok_bind, List.drop_zero, List.take_left]
  rw [Nat.zero_div, Nat.zero_mul, Nat.zero_add]
  rfl

/-- **`BloomFilterCheck`**: all bits of the key are set. -/
theorem bloomFilterCheck_iff {r : Impl} (hfilter : r.bloomFilter ≠ [])
    (hbits : r.bloomBits < 2 ^ 64) (key : Bytes) : r.bloomFilterCheck key = true ↔
      ∀ i < r.bloomK, bitAt r.bloomFilter (probe (bloomHash key) i r.bloomBits) = true := by
  have hempty : r.bloomFilter.isEmpty = false := List.isEmpty_eq_false_iff.mpr hfilter
  have hbit : ∀ i, ((r.bloomFilter.getD
      ((bloomHash key + UInt64.ofNat i * 0x9e3779b97f4a7c15) % UInt64.ofNat r.bloomBits / 8).toNat 0
        &&& (1 <<< ((bloomHash key + UInt64.ofNat i * 0x9e3779b97f4a7c15)
          % UInt64.ofNat r.bloomBits % 8).toUInt8)) != 0) = true ↔
      bitAt r.bloomFilter (probe (bloomHash key) i r.bloomBits) = true := by
    intro i
    obtain ⟨hbyte, hmask⟩ := byte_mask
      ((bloomHash key + UInt64.ofNat i * 0x9e3779b97f4a7c15) % UInt64.ofNat r.bloomBits)
    rw [hbyte, hmask, toNat_probe _ i hbits, bne_iff_ne]
    exact mask_iff _ (Nat.mod_lt _ (by decide))
  -- Without hashes both sides hold: there is no bit to look at.
  unfold Impl.bloomFilterCheck
  rw [hempty, Bool.false_or]
  by_cases hk : r.bloomK = 0
  · rw [if_pos (beq_iff_eq.mpr hk), hk]
    exact ⟨fun _ i hi => absurd hi (Nat.not_lt_zero i), fun _ => rfl⟩
  · rw [if_neg (fun h => hk (beq_iff_eq.mp h))]
    dsimp only
    rw [List.all_eq_true]
    exact ⟨fun h i hi => (hbit i).mp (h i (List.mem_range.mpr hi)),
      fun h i hi => (hbit i).mpr (h i (List.mem_range.mp hi))⟩

/-! ## §5. Which filters have no false negatives. -/

/-- The number of bits of the filter over `blocks` blocks. -/
def filterBits (options : SSTableOptions) (blocks : Nat) : Nat :=
  blocks * (blocks + 1) / 2 * options.bloomFilterBitsPerKey

/-- Every bit that the reader looks at for an added key is one that the writer has
set for the last key of a block; the reader fills the last byte up, and it has
32 bits of the number of hashes. -/
def Covered (options : SSTableOptions) (es : List Entry) : Prop :=
  let blocks := blocksOf options es
  let bits := filterBits options blocks.length
  ∀ e ∈ es, ∀ i < options.bloomHashes % 2 ^ 32, ∃ block ∈ blocks, ∃ j < options.bloomHashes,
    probe (bloomHash (lastKeyOf block)) j bits
      = probe (bloomHash e.key) i (8 * ((bits + 7) / 8))

/-- What `FlushBlock` leaves for the filter at the end. -/
theorem flushed_hashed (env : Env) {options : SSTableOptions} (es : List Entry)
    (hbloom : options.enableBloomFilter = true) (last : Env) :
    Hashed ((blocksOf options (accepted options es)).map lastKeyOf)
      ((addAll env options es).impl.flushBlock last) := by
  obtain ⟨hfilling, hhashed⟩ := addAll_hashed env es hbloom
  unfold blocksOf
  generalize placed options (accepted options es) = p at *
  obtain ⟨cut, block⟩ := p
  dsimp only at *
  by_cases hnil : block = []
  -- No block is being filled, so `Finish` cuts none.
  · rw [if_pos hnil, List.append_nil]
    have hentries : (addAll env options es).impl.entriesInBlock = 0 := by
      rw [hfilling.entriesInBlock, hnil]
      rfl
    unfold Impl.flushBlock
    rw [if_pos hentries]
    exact hhashed
  · have hentries : (addAll env options es).impl.entriesInBlock ≠ 0 := by
      rw [hfilling.entriesInBlock]
      exact fun h => hnil (List.length_eq_zero_iff.mp h)
    rw [if_neg hnil, List.map_append, List.map_singleton,
      ← lastKeyOf_append_of_ne_nil cut.flatten hnil, ← hfilling.lastKey]
    exact hhashed.flush _ hentries

theorem eq_nil_of_blocksOf {options : SSTableOptions} {es : List Entry}
    (h : blocksOf options es = []) : es = [] := by
  have hflat := flatten_placed options es
  unfold blocksOf at h
  obtain ⟨hcut, hblock⟩ := List.append_eq_nil_iff.mp h
  by_cases hnil : (placed options es).2 = []
  · rw [hcut, hnil] at hflat
    exact hflat.symm
  · rw [if_neg hnil] at hblock
    exact absurd hblock (List.cons_ne_nil _ _)

/-- The filter block in the buffer, and what the reader makes of it. -/
theorem written_filter (env last : Env) {options : SSTableOptions} {es : List Entry}
    (hbloom : options.enableBloomFilter = true) (hne : accepted options es ≠ [])
    (hbits : filterBits options (blocksOf options (accepted options es)).length + 7 < 2 ^ 64) :
    let bits := filterBits options (blocksOf options (accepted options es)).length
    ({} : Impl).parseFilterBlock
        (((addAll env options es).impl.flushBlock last).writeFilterBlock last).filterBuffer = .ok
      { bloomFilter := (probes options.bloomHashes bits
          (hashesOf ((blocksOf options (accepted options es)).map lastKeyOf))).foldl setBit
            (List.replicate ((bits + 7) / 8) 0)
        bloomK := options.bloomHashes % 2 ^ 32
        bloomBits := 8 * ((bits + 7) / 8) } := by
  obtain ⟨hfilling, -⟩ := addAll_hashed env es hbloom
  have hflushed := flushed_hashed env es hbloom last
  have hoptions : ((addAll env options es).impl.flushBlock last).options = options :=
    (flushBlock_options _ _).trans hfilling.options_eq.2
  generalize (addAll env options es).impl.flushBlock last = s at *
  have hblocks : blocksOf options (accepted options es) ≠ [] := fun h => hne (eq_nil_of_blocksOf h)
  generalize blocksOf options (accepted options es) = blocks at *
  have hcount : s.filterKeysHash.length * s.options.bloomFilterBitsPerKey
      = filterBits options blocks.length := by
    rw [hflushed.hashes, length_hashesOf, List.length_map, hoptions]
    rfl
  have hsome : s.filterKeysHash ≠ [] := by
    obtain ⟨block, rest, rfl⟩ := List.exists_cons_of_ne_nil hblocks
    rw [hflushed.hashes]
    exact List.ne_nil_of_mem (mem_hashesOf.mpr ⟨_, List.mem_cons_self, rfl⟩)
  have hwritten : (s.writeFilterBlock last).filterBuffer = s.filterBytes := by
    unfold Impl.writeFilterBlock
    rw [hflushed.bloom, List.isEmpty_eq_false_iff.mpr hsome, if_neg (by decide)]
  rw [hwritten, filterBytes_eq s (by rw [hcount]; omega), hcount,
    hflushed.hashes, hoptions, parseFilterBlock_eq, length_setBits, List.length_replicate,
    UInt32.toNat_ofNat', Nat.mul_comm _ 8]

/-- **Which filters have no false negatives**: of those `WriteFilterBlock` makes of the
entries taken, once `FlushBlock` has put the last block into the index. -/
theorem filter_complete {env : Env} {options : SSTableOptions} {es taken : List Entry}
    {b : SSTableBuilder} (hadds : adds env options es = some (b, taken))
    (hbloom : options.enableBloomFilter = true) (hpos : 1 ≤ options.bloomFilterBitsPerKey)
    (hbits : filterBits options (blocksOf options taken).length + 7 < 2 ^ 64) (last : Env) :
    ∃ r, ({} : Impl).parseFilterBlock
        ((b.impl.flushBlock last).writeFilterBlock last).filterBuffer = .ok r ∧
      ((∀ e ∈ taken, mightContain r e.key = true) ↔ Covered options taken) := by
  obtain ⟨rfl, rfl, -⟩ := adds_some hadds
  by_cases hnil : accepted options es = []
  · -- Nothing is added, and nothing asked.
    obtain ⟨r, hr⟩ := parseFilterBlock_inside {}
      (((addAll env options es).impl.flushBlock last).writeFilterBlock last).filterBuffer
    refine ⟨r, hr, ?_⟩
    rw [hnil]
    exact ⟨fun _ e he => absurd he List.not_mem_nil, fun _ e he => absurd he List.not_mem_nil⟩
  · refine ⟨_, written_filter env last hbloom hnil hbits, ?_⟩
    unfold Covered
    dsimp only
    have hblocks : 0 < (blocksOf options (accepted options es)).length :=
      List.length_pos_of_ne_nil fun h => hnil (eq_nil_of_blocksOf h)
    generalize blocksOf options (accepted options es) = blocks at *
    have hsome : 1 ≤ filterBits options blocks.length := by
      have htri : 1 ≤ blocks.length * (blocks.length + 1) / 2 := by
        rw [Nat.le_div_iff_mul_le (by decide)]
        exact Nat.le_trans (by omega) (Nat.mul_le_mul_right _ hblocks)
      exact Nat.mul_le_mul htri hpos
    generalize hN : filterBits options blocks.length = bits at *
    let filter := (probes options.bloomHashes bits (hashesOf (blocks.map lastKeyOf))).foldl setBit
      (List.replicate ((bits + 7) / 8) 0)
    have hlength : filter.length = (bits + 7) / 8 := by
      rw [length_setBits, List.length_replicate]
    -- The bits of the filter are those of the last keys.
    have hset : ∀ n, bitAt filter n = true ↔ ∃ block ∈ blocks, ∃ j < options.bloomHashes,
        probe (bloomHash (lastKeyOf block)) j bits = n := by
      intro n
      rw [bitAt_setBits fun i hi => ?_, mem_probes, bitAt_replicate]
      · simp only [mem_hashesOf, List.mem_map]
        constructor
        · rintro (⟨hash, ⟨key, ⟨block, hblock, rfl⟩, rfl⟩, hj⟩ | hfalse)
          · exact ⟨block, hblock, hj⟩
          · exact absurd hfalse Bool.false_ne_true
        · rintro ⟨block, hblock, hj⟩
          exact Or.inl ⟨_, ⟨_, ⟨block, hblock, rfl⟩, rfl⟩, hj⟩
      · obtain ⟨hash, -, j, -, rfl⟩ := mem_probes.mp hi
        have hlt : probe hash j bits < bits := Nat.mod_lt _ hsome
        rw [List.length_replicate]
        omega
    refine forall₂_congr fun e _ => ?_
    unfold mightContain
    rw [bloomFilterCheck_iff (List.ne_nil_of_length_pos (by rw [hlength]; omega))
      (by dsimp only; omega)]
    exact forall₂_congr fun i _ => hset _

/-- Where every entry is the last of its block, and the bits fill their bytes. -/
theorem covered_of_last {options : SSTableOptions} {es : List Entry}
    (hlast : ∀ e ∈ es, ∃ block ∈ blocksOf options es, lastKeyOf block = e.key)
    (hbits : 8 ∣ filterBits options (blocksOf options es).length) : Covered options es := by
  intro e he i hi
  obtain ⟨block, hblock, hkey⟩ := hlast e he
  obtain ⟨bytes, hbytes⟩ := hbits
  refine ⟨block, hblock, i, Nat.lt_of_lt_of_le hi (Nat.mod_le _ _), ?_⟩
  rw [hkey, hbytes, show 8 * ((8 * bytes + 7) / 8) = 8 * bytes by omega]

/-- Where no hashes are asked for, as with one bit a key. -/
theorem covered_of_no_hashes {options : SSTableOptions} (es : List Entry)
    (h : options.bloomHashes % 2 ^ 32 = 0) : Covered options es := by
  intro e _ i hi
  rw [h] at hi
  exact absurd hi (Nat.not_lt_zero i)

/-- Two keys in one block under the default options: the first is not found. -/
theorem filter_complete_missed :
    let es : List Entry := [⟨[97], [], 1, false⟩, ⟨[98], [], 2, false⟩]
    ∃ b r, adds (fun _ => {}) {} es = some (b, es) ∧
      ({} : Impl).parseFilterBlock
        ((b.impl.flushBlock (fun _ => {})).writeFilterBlock (fun _ => {})).filterBuffer = .ok r ∧
      mightContain r [97] = false := by
  intro es
  have htaken : accepted {} es = es := by decide +kernel
  have hcheck : ((({} : Impl).parseFilterBlock ((((addAll (fun _ => {}) {} es).impl.flushBlock
      (fun _ => {})).writeFilterBlock (fun _ => {})).filterBuffer)).toOption.map
      (mightContain · [97])) = some false := by decide +kernel
  refine ⟨addAll (fun _ => {}) {} es, ?_⟩
  cases hparse : ({} : Impl).parseFilterBlock ((((addAll (fun _ => {}) {} es).impl.flushBlock
      (fun _ => {})).writeFilterBlock (fun _ => {})).filterBuffer) with
  | error e =>
      rw [hparse] at hcheck
      exact nomatch hcheck
  | ok r =>
      rw [hparse] at hcheck
      refine ⟨r, ?_, rfl, Option.some.inj hcheck⟩
      rw [adds_eq, htaken, if_pos (Or.inr (by decide))]

/-- A block for every key, and eight bits a key. -/
def eightBits : SSTableOptions := { blockSize := 17, bloomFilterBitsPerKey := 8, bloomHashes := 5 }

def twoAdds : List Entry := [⟨[97], [], 1, false⟩, ⟨[98], [], 2, false⟩]

theorem filter_complete_two : ∃ b r, adds (fun _ => {}) eightBits twoAdds = some (b, twoAdds) ∧
    ({} : Impl).parseFilterBlock
      ((b.impl.flushBlock (fun _ => {})).writeFilterBlock (fun _ => {})).filterBuffer = .ok r ∧
    ∀ e ∈ twoAdds, mightContain r e.key = true := by
  have htaken : accepted eightBits twoAdds = twoAdds := by decide +kernel
  have hadds : adds (fun _ => {}) eightBits twoAdds
      = some (addAll (fun _ => {}) eightBits twoAdds, twoAdds) := by
    rw [adds_eq, htaken, if_pos (Or.inr (by decide))]
  have hlast : ∀ e ∈ twoAdds, ∃ block ∈ blocksOf eightBits twoAdds, lastKeyOf block = e.key := by
    decide +kernel
  obtain ⟨r, hparse, hcomplete⟩ :=
    filter_complete hadds rfl (by decide) (by decide +kernel) (fun _ => {})
  exact ⟨_, r, hadds, hparse, hcomplete.mpr (covered_of_last hlast (by decide +kernel))⟩

end SSTableReader

end KvEngine
