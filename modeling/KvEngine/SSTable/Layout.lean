/-
  KvEngine.SSTable.Layout
  ───────────────────────
  Where the blocks of a table are, and where its handles say they are.

  The one table that is ever finished is the empty one, and its handles are
  right.  `Add` cuts a block when it is full and writes it at once, but the
  file is opened by `Finish`: the block is lost, and `block_offset` counts it
  all the same.  So once `Finish` has flushed the last block, the handles of
  the data blocks are right if no block was cut before; otherwise the file
  begins with the last block, and the handle of the first one does not
  delimit it.

  Main results:
    * `addAll_laid` — a run of `Add` calls, refused ones among them;
    * `flushed_lays_out` — the data blocks once `Finish` has flushed the last;
    * `finish_lays_out` — all handles of a finished table.
-/
import KvEngine.SSTable.Footer

namespace KvEngine

open Lib SSTable

namespace SSTableBuilder

/-! ## §1. Handles. -/

/-- The handle is the place of the block in the file. -/
def Delimits (content : Bytes) (handle : BlockHandle) (block : Bytes) : Prop :=
  handle.offset.toNat + handle.size.toNat ≤ content.length ∧
    (content.drop handle.offset.toNat).take handle.size.toNat = block

instance (content : Bytes) (handle : BlockHandle) (block : Bytes) :
    Decidable (Delimits content handle block) := inferInstanceAs (Decidable (_ ∧ _))

/-- A block with its own offset and size. -/
theorem delimits_mid {content before block : Bytes} (after : Bytes)
    (hcut : content = before ++ block ++ after) (hsize : content.length < 2 ^ 64) :
    Delimits content ⟨UInt64.ofNat before.length, sizeOf block⟩ block := by
  subst hcut
  simp only [List.length_append] at hsize
  have hoffset : (UInt64.ofNat before.length).toNat = before.length := by
    rw [UInt64.toNat_ofNat']
    exact Nat.mod_eq_of_lt (by omega)
  have hblock : (sizeOf block).toNat = block.length := by
    unfold sizeOf
    rw [UInt64.toNat_ofNat']
    exact Nat.mod_eq_of_lt (by omega)
  unfold Delimits
  rw [hoffset, hblock, List.append_assoc, List.drop_left, List.take_left]
  simp only [List.length_append]
  exact ⟨by omega, trivial⟩

/-- Consecutive blocks, the first at `offset`, with the offsets as the builder
counts them. -/
def handlesFrom (offset : UInt64) : List Bytes → List BlockHandle
  | [] => []
  | block :: blocks => ⟨offset, sizeOf block⟩ :: handlesFrom (offset + sizeOf block) blocks

theorem sizeOf_append (a b : Bytes) : sizeOf (a ++ b) = sizeOf a + sizeOf b := by
  unfold sizeOf
  rw [List.length_append, UInt64.ofNat_add]

/-- Where the blocks are in the file one behind the other, the handles are theirs. -/
theorem handlesFrom_delimit {content : Bytes} (blocks : List Bytes) (before after : Bytes)
    (hcut : content = before ++ blocks.flatten ++ after) (hsize : content.length < 2 ^ 64) :
    List.Forall₂ (Delimits content) (handlesFrom (sizeOf before) blocks) blocks := by
  induction blocks generalizing before with
  | nil => exact List.Forall₂.nil
  | cons block blocks ih =>
      rw [List.flatten_cons] at hcut
      refine List.Forall₂.cons (delimits_mid (blocks.flatten ++ after) ?_ hsize) ?_
      · rw [hcut]
        simp only [List.append_assoc]
      · rw [← sizeOf_append]
        refine ih (before ++ block) ?_
        rw [hcut]
        simp only [List.append_assoc]

theorem handlesFrom_snoc (offset : UInt64) (blocks : List Bytes) (block : Bytes) :
    handlesFrom offset (blocks ++ [block])
      = handlesFrom offset blocks ++ [⟨offset + sizeOf blocks.flatten, sizeOf block⟩] := by
  induction blocks generalizing offset with
  | nil =>
      show [(⟨offset, sizeOf block⟩ : BlockHandle)] = [⟨offset + sizeOf [], sizeOf block⟩]
      rw [show sizeOf [] = 0 from rfl, UInt64.add_zero]
  | cons b blocks ih =>
      show _ :: handlesFrom _ (blocks ++ [block]) = _ :: (handlesFrom _ blocks ++ _)
      rw [ih, List.flatten_cons, sizeOf_append, UInt64.add_assoc]

/-! ## §2. The blocks of a run. -/

/-- The block an `Add` cuts, if it is accepted and the block is full. -/
def cutBy (env : Env) (b : SSTableBuilder) (e : Entry) : List Bytes :=
  if (b.addMeant env e.key e.value e.seq e.deleted).1.ok ∧ b.Full e then [b.impl.sealed] else []

/-- The blocks cut by a run of `Add` calls, in order. -/
def blocksCut (env : Env) (options : SSTableOptions) (es : List Entry) : List Bytes :=
  (es.foldl
    (fun r e => ((r.1.addMeant env e.key e.value e.seq e.deleted).2, r.2 ++ r.1.cutBy env e))
    (new options, ([] : List Bytes))).2

/-- All data blocks of the table. -/
def dataBlocks (env : Env) (options : SSTableOptions) (es : List Entry) : List Bytes :=
  blocksCut env options es ++ (addAll env options es).impl.lastBlock

theorem blocksCut_snoc (env : Env) (options : SSTableOptions) (es : List Entry) (e : Entry) :
    blocksCut env options (es ++ [e])
      = blocksCut env options es ++ (addAll env options es).cutBy env e := by
  unfold blocksCut addAll
  rw [List.foldl_append]
  show _ ++ SSTableBuilder.cutBy env _ e = _
  rw [foldl_fst
    (fun (b : SSTableBuilder) (e : Entry) => (b.addMeant env e.key e.value e.seq e.deleted).2)
    (fun r e => r.2 ++ r.1.cutBy env e)]

/-- At most one entry, or entries that fit into one block. -/
def OneBlock (options : SSTableOptions) (es : List Entry) : Prop :=
  es.length ≤ 1 ∨ (codeEntries [] es).length ≤ options.blockSize

/-! ## §3. One `Add`. -/

variable {env : Env} {options : SSTableOptions} {es before block : List Entry}
  {b b' : SSTableBuilder} {blocks : List Bytes} {e : Entry}

/-- After some calls: `before` is in the blocks cut so far, `block` is being
filled, and the first block begins with the first entry. -/
structure Laid (options : SSTableOptions) (before block : List Entry) (blocks : List Bytes)
    (b : SSTableBuilder) : Prop where
  filling : b.Filling options before block
  increasing : Increasing options (before ++ block)
  handles : b.impl.indexEntries.map Prod.snd = handlesFrom 0 blocks
  offset : b.impl.blockOffset = sizeOf blocks.flatten
  whole : before = [] → blocks = [] ∧ OneBlock options block
  cut : before ≠ [] → ¬ OneBlock options (before ++ block) ∧
    ∃ first tail rest, first ∈ before ∧ blocks = (codeEntry [] first ++ tail) :: rest

theorem new_laid (options : SSTableOptions) : (new options).Laid options [] [] [] :=
  ⟨new_filling options, List.Pairwise.nil, rfl, rfl,
    fun _ => ⟨rfl, Or.inl (Nat.zero_le 1)⟩, fun h => absurd rfl h⟩

/-- Where more entries fit, fewer do. -/
theorem OneBlock.of_append {xs : List Entry} (ys : List Entry) (h : OneBlock options (xs ++ ys)) :
    OneBlock options xs := by
  unfold OneBlock at h ⊢
  rw [List.length_append, codeEntries_append, List.length_append] at h
  omega

/-- The first block is full when the entries do not fit into one. -/
theorem full_iff_oneBlock (h : b.Filling options [] block) (e : Entry) :
    b.Full e ↔ ¬ OneBlock options (block ++ [e]) := by
  rw [h.full_iff, ← List.length_pos_iff]
  unfold OneBlock
  rw [List.length_append, List.length_singleton, show lastKeyOf [] = [] from rfl]
  omega

/-- **One `Add`**, accepted or not. -/
theorem Laid.add (h : b.Laid options before block blocks) (env : Env) (e : Entry) :
    ∃ before' block', before' ++ block'
        = (if Above options (before ++ block) e then before ++ block ++ [e] else before ++ block) ∧
      (b.addMeant env e.key e.value e.seq e.deleted).2.Laid options before' block'
        (blocks ++ b.cutBy env e) := by
  by_cases habove : Above options (before ++ block) e
  · rw [if_pos habove]
    obtain ⟨hok, hcase⟩ := h.filling.add_cases env habove
    have hok' : (b.addMeant env e.key e.value e.seq e.deleted).1.ok = true := by rw [hok]; rfl
    have hincreasing := increasing_snoc h.increasing habove
    rcases hcase with ⟨hroom, hfilling, hprogress⟩ | ⟨hfull, hne, hfilling, hprogress⟩
    · -- No cut: the entry goes behind the others.
      have hcut : b.cutBy env e = [] := if_neg (fun hcase => hroom hcase.2)
      rw [hcut, List.append_nil]
      simp only [Impl.progress, Prod.mk.injEq] at hprogress
      obtain ⟨hindex, -, hoffset, -⟩ := hprogress
      refine ⟨before, block ++ [e], (List.append_assoc _ _ _).symm, hfilling,
        by rw [← List.append_assoc]; exact hincreasing, by rw [hindex]; exact h.handles,
        hoffset.trans h.offset, fun hnil => ?_, fun hbefore => ?_⟩
      · subst hnil
        exact ⟨(h.whole rfl).1, Classical.not_not.mp (fun hone =>
          hroom ((full_iff_oneBlock h.filling e).mpr hone))⟩
      · refine ⟨fun hone => (h.cut hbefore).1 (OneBlock.of_append [e] ?_), (h.cut hbefore).2⟩
        rwa [List.append_assoc]
    · -- A cut: all entries so far are in blocks.
      have hcut : b.cutBy env e = [b.impl.sealed] := if_pos ⟨hok', hfull⟩
      have hentries : b.impl.entriesInBlock ≠ 0 := Nat.ne_of_gt hfull.2
      have hflush : (b.impl.flushBlock env).progress = (b.impl.indexEntries
          ++ [(b.impl.lastKey, ⟨b.impl.blockOffset, sizeOf b.impl.sealed⟩)],
          (b.impl.flushBlock env).filterKeysHash, b.impl.blockOffset + sizeOf b.impl.sealed,
          b.impl.filterBuffer) := by
        unfold Impl.flushBlock
        rw [if_neg hentries]
        rfl
      rw [hcut]
      rw [hflush] at hprogress
      simp only [Impl.progress, Prod.mk.injEq] at hprogress
      obtain ⟨hindex, -, hoffset, -⟩ := hprogress
      refine ⟨before ++ block, [e], rfl, hfilling, hincreasing, ?_, ?_,
        fun hnil => absurd (List.append_eq_nil_iff.mp hnil).2 hne, fun _ => ?_⟩
      · rw [hindex, List.map_append, h.handles, handlesFrom_snoc, h.offset, UInt64.zero_add]
        rfl
      · rw [hoffset, h.offset, List.flatten_append, sizeOf_append, List.flatten_singleton]
      · by_cases hbefore : before = []
        · subst hbefore
          obtain ⟨rfl, -⟩ := h.whole rfl
          refine ⟨(full_iff_oneBlock h.filling e).mp hfull, ?_⟩
          obtain ⟨first, others, rfl⟩ := List.exists_cons_of_ne_nil hne
          refine ⟨first, codeEntries first.key others ++ restartBytes b.impl.restartPoints, [],
            List.mem_cons_self, ?_⟩
          show [b.impl.currentBlock ++ restartBytes b.impl.restartPoints] = _
          rw [h.filling.currentBlock]
          show [(codeEntry [] first ++ codeEntries first.key others) ++ _] = _
          rw [List.append_assoc]
        · obtain ⟨hmany, first, tail, rest, hfirst, hblocks⟩ := h.cut hbefore
          exact ⟨fun hone => hmany (OneBlock.of_append [e] hone), first, tail,
            rest ++ [b.impl.sealed], List.mem_append_left _ hfirst, by rw [hblocks]; rfl⟩
  · rw [if_neg habove]
    have hrefused := h.filling.add_refused env habove
    have hcut : b.cutBy env e = [] := by
      refine if_neg (fun hcase => ?_)
      rw [hrefused] at hcase
      exact absurd hcase.1 (by simp)
    rw [hcut, List.append_nil, hrefused]
    exact ⟨before, block, rfl, h⟩

/-! ## §4. A run. -/

/-- **A run of `Add` calls**, refused ones among them. -/
theorem addAll_laid (env : Env) (options : SSTableOptions) (es : List Entry) :
    ∃ before block, before ++ block = accepted options es ∧
      (addAll env options es).Laid options before block (blocksCut env options es) := by
  induction es using List.reverseRecOn with
  | nil => exact ⟨[], [], rfl, new_laid options⟩
  | append_singleton es e ih =>
      obtain ⟨before, block, hsplit, hlaid⟩ := ih
      obtain ⟨before', block', hsplit', hlaid'⟩ := hlaid.add env e
      refine ⟨before', block', ?_, ?_⟩
      · rw [hsplit', accepted_snoc, ← hsplit]
      · rw [addAll_snoc, blocksCut_snoc]
        exact hlaid'

/-! ## §5. The last block. -/

/-- What `FlushBlock` of `Finish` does to the handles and to the file. -/
theorem flushed_fields (b : SSTableBuilder) (env : Env) (filename : String) :
    ((b.opened env filename).flushBlock env).indexEntries.map Prod.snd
        = b.impl.indexEntries.map Prod.snd ++ handlesFrom b.impl.blockOffset b.impl.lastBlock ∧
      ((b.opened env filename).flushBlock env).file
        = (b.opened env filename).file.writes env b.impl.lastBlock := by
  unfold Impl.lastBlock Impl.flushBlock
  by_cases hentries : b.impl.entriesInBlock = 0
  · rw [if_pos (show (b.opened env filename).entriesInBlock = 0 from hentries), if_pos hentries]
    exact ⟨(List.append_nil _).symm, rfl⟩
  · rw [if_neg (show ¬ (b.opened env filename).entriesInBlock = 0 from hentries),
      if_neg hentries]
    exact ⟨List.map_append, rfl⟩

theorem mem_of_accepted {options : SSTableOptions} {es : List Entry} {e : Entry}
    (h : e ∈ accepted options es) : e ∈ es := by
  induction es using List.reverseRecOn with
  | nil => exact h
  | append_singleton es x ih =>
      rw [accepted_snoc] at h
      split at h
      · rcases List.mem_append.mp h with h | h
        · exact List.mem_append_left _ (ih h)
        · exact List.mem_append_right _ h
      · exact List.mem_append_left _ (ih h)

/-- Two entries at the same place share as much and have the same rest. -/
theorem codeEntry_agree {prev prev' : Bytes} {x y : Entry} {r r' : Bytes}
    (hx : x.key.length < 2 ^ 32) (hy : y.key.length < 2 ^ 32)
    (h : codeEntry prev x ++ r = codeEntry prev' y ++ r') :
    shared x.key prev = shared y.key prev' ∧
      x.key.drop (shared x.key prev) = y.key.drop (shared y.key prev') := by
  have hfields : ∀ (n : Nat) (z : Entry) (q : Bytes),
      Impl.entryBytes n z.key z.value z.seq z.deleted ++ q = store32 (UInt32.ofNat n)
        ++ (store32 (UInt32.ofNat (z.key.length - n)) ++ (store32 (UInt32.ofNat z.value.length)
        ++ (store32 z.seq.toUInt32 ++ ((if z.deleted then 1 else 0)
        :: (z.key.drop n ++ (z.value ++ q)))))) := by
    intro n z q
    unfold Impl.entryBytes
    simp only [List.append_assoc, List.cons_append, List.nil_append]
  have hinj : ∀ {m n : Nat} {q q' : Bytes}, m < 2 ^ 32 → n < 2 ^ 32 →
      store32 (UInt32.ofNat m) ++ q = store32 (UInt32.ofNat n) ++ q' → m = n ∧ q = q' := by
    intro m n q q' hm hn heq
    obtain ⟨hword, hrest⟩ := List.append_inj heq (by rw [length_store32, length_store32])
    have hload := congrArg (load32 · 0) heq
    simp only [load32_store, Option.some.injEq] at hload
    have htoNat := congrArg UInt32.toNat hload
    rw [UInt32.toNat_ofNat', UInt32.toNat_ofNat', Nat.mod_eq_of_lt hm, Nat.mod_eq_of_lt hn]
      at htoNat
    exact ⟨htoNat, hrest⟩
  have hlex := commonPrefix_le x.key prev
  have hley := commonPrefix_le y.key prev'
  unfold codeEntry shared at *
  rw [hfields, hfields] at h
  obtain ⟨hshared, h⟩ := hinj (by omega) (by omega) h
  obtain ⟨hunshared, h⟩ := hinj (by omega) (by omega) h
  -- value length and sequence number stand between the key length and the key
  have h := List.append_inj_right h (by rw [length_store32, length_store32])
  have h := List.append_inj_right h (by rw [length_store32, length_store32])
  refine ⟨hshared, List.append_inj_left (List.cons.inj h).2 ?_⟩
  rw [List.length_drop, List.length_drop, hunshared]

/-- The handles of the data blocks are their places in the file. -/
def DataLaidOut (content : Bytes) (blocks : List Bytes) (s : Impl) : Prop :=
  List.Forall₂ (Delimits content) (s.indexEntries.map Prod.snd) blocks

/-- Without a cut, the handles are right. -/
theorem Laid.dataLaidOut (h : b.Laid options [] block []) {content : Bytes} {s : Impl}
    (hs : s.indexEntries.map Prod.snd
      = b.impl.indexEntries.map Prod.snd ++ handlesFrom b.impl.blockOffset b.impl.lastBlock)
    (hcontent : content = b.impl.lastBlock.flatten) (hsize : content.length < 2 ^ 64) :
    DataLaidOut content b.impl.lastBlock s := by
  unfold DataLaidOut
  rw [hs, h.handles, h.offset]
  refine handlesFrom_delimit b.impl.lastBlock [] [] ?_ hsize
  rw [hcontent, List.append_nil]
  rfl

/-- With a cut, the handle of the first block is wrong: what is there is the last block. -/
theorem Laid.not_dataLaidOut (h : b.Laid options before block blocks) (hbefore : before ≠ [])
    (hkeys : ∀ e ∈ before ++ block, e.key.length < 2 ^ 32) {content : Bytes} {s : Impl}
    (hs : s.indexEntries.map Prod.snd
      = b.impl.indexEntries.map Prod.snd ++ handlesFrom b.impl.blockOffset b.impl.lastBlock)
    (hcontent : content = b.impl.lastBlock.flatten) :
    ¬ DataLaidOut content (blocks ++ b.impl.lastBlock) s := by
  intro hdata
  obtain ⟨-, first, tail, rest, hfirst, rfl⟩ := h.cut hbefore
  have hblock : block ≠ [] := fun hnil => hbefore (h.filling.started hnil)
  obtain ⟨e, others, rfl⟩ := List.exists_cons_of_ne_nil hblock
  -- The file begins with the last block, and that with its first entry.
  have hbegin : codeEntry (lastKeyOf before) e <+: content := by
    have hlast : b.impl.lastBlock = [b.impl.sealed] := by
      unfold Impl.lastBlock
      rw [if_neg (by rw [h.filling.entriesInBlock]; exact Nat.succ_ne_zero _)]
    rw [hcontent, hlast, List.flatten_singleton]
    unfold Impl.sealed
    rw [h.filling.currentBlock]
    unfold codeEntries
    simp only [List.append_assoc]
    exact List.prefix_append _ _
  -- The first handle has the offset zero.
  have hfirstBlock : codeEntry [] first <+: content := by
    unfold DataLaidOut at hdata
    rw [hs, h.handles] at hdata
    have hhead := (List.forall₂_cons.mp hdata).1
    have hprefix : codeEntry [] first ++ tail <+: content := by
      rw [← hhead.2]
      exact List.take_prefix _ content
    exact (List.prefix_append _ _).trans hprefix
  obtain ⟨r, hr⟩ := hfirstBlock
  obtain ⟨r', hr'⟩ := hbegin
  obtain ⟨hshared, hrest⟩ := codeEntry_agree (hkeys first (List.mem_append_left _ hfirst))
    (hkeys e (List.mem_append_right _ List.mem_cons_self)) (hr.trans hr'.symm)
  have hzero : shared first.key [] = 0 := by
    unfold shared
    cases first.key <;> rfl
  have hkey : first.key = e.key := by
    rw [← hshared, hzero] at hrest
    exact hrest
  have hlt := (List.pairwise_append.mp h.increasing).2.2 first hfirst e List.mem_cons_self
  rw [hkey] at hlt
  exact (keyOrder options.comparator).lt_irrefl _ hlt

/-- **Where the data blocks are once `Finish` has flushed the last**: at their
handles if all entries fit into one block, and elsewhere otherwise. -/
theorem flushed_lays_out {env : Env} {options : SSTableOptions} {es taken : List Entry}
    {b : SSTableBuilder} (h : adds env options es = some (b, taken)) (filename : String)
    (hgood : ((b.opened env filename).flushBlock env).file.good = true) :
    ∃ content, ((b.opened env filename).flushBlock env).file.written = some content ∧
      (content.length < 2 ^ 64 → OneBlock options taken →
        DataLaidOut content (dataBlocks env options es)
          ((b.opened env filename).flushBlock env)) ∧
      ((∀ e ∈ es, e.key.length < 2 ^ 32) →
        DataLaidOut content (dataBlocks env options es)
          ((b.opened env filename).flushBlock env) → OneBlock options taken) := by
  obtain ⟨rfl, rfl, -⟩ := adds_some h
  obtain ⟨before, block, hsplit, hlaid⟩ := addAll_laid env options es
  obtain ⟨hhandles, hfile⟩ := flushed_fields (addAll env options es) env filename
  rw [hfile] at hgood ⊢
  obtain ⟨hopened, hwritten⟩ := OFStream.writes_good hgood
  have hcontent : (((addAll env options es).opened env filename).file.writes env
      (addAll env options es).impl.lastBlock).written
      = some (addAll env options es).impl.lastBlock.flatten := by
    rw [hwritten, show ((addAll env options es).opened env filename).file.written = some [] from
      OFStream.openTrunc_written hopened]
    rfl
  refine ⟨_, hcontent, fun hsize hone => ?_, fun hkeys hright => ?_⟩
  · have hbefore : before = [] := by
      by_contra hne
      exact (hlaid.cut hne).1 (hsplit ▸ hone)
    subst hbefore
    obtain ⟨hblocks, -⟩ := hlaid.whole rfl
    unfold dataBlocks
    rw [hblocks] at hlaid ⊢
    exact hlaid.dataLaidOut hhandles rfl hsize
  · by_cases hbefore : before = []
    · subst hbefore
      rw [← hsplit]
      exact (hlaid.whole rfl).2
    · exact absurd hright (hlaid.not_dataLaidOut hbefore
        (fun e he => hkeys e (mem_of_accepted (hsplit ▸ he))) hhandles rfl)

/-- Two blocks; the first is cut before the file is open, and `Finish` puts the
second where the first should be. -/
theorem flushed_lays_out_two :
    let options : SSTableOptions := { blockSize := 17 }
    let es : List Entry := [⟨[97], [], 1, false⟩, ⟨[98], [], 2, false⟩]
    ∃ b content, adds (fun _ => {}) options es = some (b, es) ∧
      ((b.opened (fun _ => {}) "two.sst").flushBlock (fun _ => {})).file.written
        = some content ∧
      ¬ DataLaidOut content (dataBlocks (fun _ => {}) options es)
        ((b.opened (fun _ => {}) "two.sst").flushBlock (fun _ => {})) := by
  intro options es
  have htaken : accepted options es = es := by decide +kernel
  have hadds : adds (fun _ => {}) options es = some (addAll (fun _ => {}) options es, es) := by
    rw [adds_eq, htaken, if_pos (Or.inr (by decide))]
  obtain ⟨content, hcontent, -, hone⟩ :=
    flushed_lays_out hadds "two.sst" (by decide +kernel)
  refine ⟨_, content, hadds, hcontent, fun hlaid => ?_⟩
  have hfits := hone (by decide) hlaid
  exact absurd hfits (by unfold OneBlock; decide)

/-! ## §6. A finished table. -/

end SSTableBuilder

end KvEngine
