/-
  KvEngine.SSTable.Filling
  ────────────────────────
  What a run of `Add` calls leaves in the builder.

  The entries added so far are those of the blocks already cut and those of
  the block being filled.  The first key of a block is coded against the
  last key of the block before, and the first block starts without the
  restart point every later block starts with.

  Main results:
    * `Filling.add` — one `Add`;
    * `addAll_filling` — a run of them.
-/
import Mathlib.Data.List.Induction
import KvEngine.SSTable.Builder

namespace KvEngine

open Lib SSTable

namespace SSTable

/-- The arguments of one `Add`. -/
structure Entry where
  key : Bytes
  value : Bytes
  seq : UInt64
  deleted : Bool
  deriving DecidableEq, Repr

/-- A stream no file was opened on. -/
def OFStream.Untouched (s : OFStream) : Prop :=
  s.isOpen = false ∧ s.requests = 0 ∧ s.content = none

/-- Writing without a file writes nothing. -/
theorem OFStream.Untouched.write {s : OFStream} (h : s.Untouched) (env : Env) (bytes : Bytes) :
    (s.write env bytes).Untouched := by
  unfold OFStream.write
  split
  · exact h
  · rw [if_pos (by rw [h.1]; rfl)]
    exact h

end SSTable

namespace SSTableBuilder

/-! ## §1. Runs. -/

def addAll (env : Env) (options : SSTableOptions) (es : List Entry) : SSTableBuilder :=
  es.foldl (fun b e => (b.addMeant env e.key e.value e.seq e.deleted).2) (new options)

theorem addAll_snoc (env : Env) (options : SSTableOptions) (es : List Entry) (e : Entry) :
    addAll env options (es ++ [e])
      = ((addAll env options es).addMeant env e.key e.value e.seq e.deleted).2 := by
  unfold addAll
  rw [List.foldl_append]
  rfl

/-- What a run records on the side does not touch the builder. -/
theorem foldl_fst {α β γ : Type} (f : α → γ → α) (g : α × β → γ → β) (es : List γ) (r : α × β) :
    (es.foldl (fun r e => (f r.1 e, g r e)) r).1 = es.foldl f r.1 := by
  induction es generalizing r with
  | nil => rfl
  | cons e es ih => exact ih _

/-- Strictly increasing keys, in the order of the comparator. -/
def Increasing (options : SSTableOptions) (es : List Entry) : Prop :=
  es.Pairwise (fun a b => (keyOrder options.comparator).lt a.key b.key)

/-! ## §2. A block as a list of entries. -/

/-- The last key, or the empty string. -/
def lastKeyOf (es : List Entry) : Bytes := (es.getLast?.map Entry.key).getD []

@[simp] theorem lastKeyOf_snoc (es : List Entry) (e : Entry) : lastKeyOf (es ++ [e]) = e.key := by
  unfold lastKeyOf
  rw [List.getLast?_concat]
  rfl

/-- An entry behind the key `prev`. -/
def codeEntry (prev : Bytes) (e : Entry) : Bytes :=
  Impl.entryBytes (shared e.key prev) e.key e.value e.seq e.deleted

theorem length_entryBytes (n : Nat) (key value : Bytes) (seq : UInt64) (deleted : Bool) :
    (Impl.entryBytes n key value seq deleted).length = 17 + (key.length - n) + value.length := by
  unfold Impl.entryBytes
  simp only [List.length_append, length_store32, List.length_drop, List.length_singleton]

theorem length_codeEntry (prev : Bytes) (e : Entry) : (codeEntry prev e).length
    = 17 + (e.key.length - shared e.key prev) + e.value.length := length_entryBytes _ _ _ _ _

/-- The entries of a block whose first key is coded against `prev`. -/
def codeEntries : Bytes → List Entry → Bytes
  | _, [] => []
  | prev, e :: es => codeEntry prev e ++ codeEntries e.key es

theorem codeEntries_append (prev : Bytes) (xs ys : List Entry) :
    codeEntries prev (xs ++ ys)
      = codeEntries prev xs ++ codeEntries ((xs.getLast?.map Entry.key).getD prev) ys := by
  induction xs generalizing prev with
  | nil => rfl
  | cons x xs ih =>
      show codeEntry prev x ++ codeEntries x.key (xs ++ ys) = _
      rw [ih]
      show _ = codeEntry prev x ++ codeEntries x.key xs ++ _
      rw [List.append_assoc]
      congr 2
      cases xs with
      | nil => rfl
      | cons y ys =>
          rw [List.getLast?_cons_cons]
          obtain ⟨z, hz⟩ : ∃ z, (y :: ys).getLast? = some z :=
            ⟨_, List.getLast?_eq_some_getLast (List.cons_ne_nil y ys)⟩
          rw [hz]
          rfl

/-- Where the entry `i` of a block starts. -/
def startOf (prev : Bytes) (block : List Entry) (i : Nat) : Nat :=
  (codeEntries prev (block.take i)).length

/-- The restart points `AddToBlock` pushes: the start of every entry whose
number in the block is a multiple of the interval. -/
def pushedRestarts (interval : Nat) (prev : Bytes) (block : List Entry) : List UInt32 :=
  (List.range block.length).filterMap fun i =>
    if (i + 1) % interval = 0 then some (UInt32.ofNat (startOf prev block i)) else none

theorem pushedRestarts_snoc (interval : Nat) (prev : Bytes) (block : List Entry) (e : Entry) :
    pushedRestarts interval prev (block ++ [e]) = pushedRestarts interval prev block
      ++ (if (block.length + 1) % interval = 0 then
            [UInt32.ofNat (codeEntries prev block).length] else []) := by
  unfold pushedRestarts
  rw [List.length_append, List.length_singleton, List.range_succ, List.filterMap_append]
  congr 1
  · refine List.filterMap_congr fun i hi => ?_
    have hle : i ≤ block.length := Nat.le_of_lt (List.mem_range.mp hi)
    unfold startOf
    rw [List.take_append_of_le_length hle]
  · unfold startOf
    rw [List.filterMap_cons, List.filterMap_nil, List.take_left]
    by_cases h : (block.length + 1) % interval = 0
    · rw [if_pos h, if_pos h]
    · rw [if_neg h, if_neg h]

theorem pushedRestarts_of_short {interval : Nat} (prev : Bytes) {block : List Entry}
    (h : block.length < interval) : pushedRestarts interval prev block = [] := by
  unfold pushedRestarts
  rw [List.filterMap_eq_nil_iff]
  intro i hi
  have hlt := List.mem_range.mp hi
  rw [if_neg (by rw [Nat.mod_eq_of_lt (by omega)]; omega)]

/-- The last restart point of a block of at least `interval` entries. -/
theorem pushedRestarts_last {interval : Nat} (hpos : 1 ≤ interval) (prev : Bytes)
    {block : List Entry} (h : interval ≤ block.length) :
    ∃ i < block.length, (i + 1) % interval = 0 ∧ block.length < i + 1 + interval ∧
      (pushedRestarts interval prev block).getLast?
        = some (UInt32.ofNat (startOf prev block i)) := by
  induction block using List.reverseRecOn with
  | nil =>
      rw [List.length_nil] at h
      omega
  | append_singleton block e ih =>
      rw [List.length_append, List.length_singleton] at h ⊢
      rw [pushedRestarts_snoc]
      by_cases hmod : (block.length + 1) % interval = 0
      · refine ⟨block.length, by omega, hmod, by omega, ?_⟩
        rw [if_pos hmod, List.getLast?_concat]
        unfold startOf
        rw [List.take_left]
      · have hne : block.length + 1 ≠ interval := by
          intro heq
          exact hmod (heq ▸ Nat.mod_self interval)
        obtain ⟨i, hi, hmul, hnear, hlast⟩ := ih (by omega)
        refine ⟨i, by omega, hmul, ?_, ?_⟩
        -- the next multiple of the interval is not reached yet
        · by_contra hfar
          have heq : block.length + 1 = i + 1 + interval := by omega
          exact hmod (by rw [heq, Nat.add_mod_right, hmul])
        · unfold startOf
          rw [if_neg hmod, List.append_nil, hlast, List.take_append_of_le_length (Nat.le_of_lt hi)]
          rfl

/-! ## §3. The block being filled. -/

/-- After `before`, cut into blocks, and `block`, not cut yet. -/
structure Filling (options : SSTableOptions) (before block : List Entry) (b : SSTableBuilder) :
    Prop where
  options_eq : b.options = options ∧ b.impl.options = options
  running : (b.finished || b.abandoned) = false
  numEntries : b.impl.numEntries = (before ++ block).length
  lastKey : b.impl.lastKey = lastKeyOf (before ++ block)
  entriesInBlock : b.impl.entriesInBlock = block.length
  currentBlock : b.impl.currentBlock = codeEntries (lastKeyOf before) block
  restartPoints : b.impl.restartPoints = (if before = [] then [] else [0])
    ++ pushedRestarts options.blockRestartInterval (lastKeyOf before) block
  started : block = [] → before = []
  untouched : b.impl.file.Untouched

theorem new_filling (options : SSTableOptions) : (new options).Filling options [] [] :=
  ⟨⟨rfl, rfl⟩, rfl, rfl, rfl, rfl, rfl, rfl, fun _ => rfl, rfl, rfl, rfl⟩

theorem lastKeyOf_append (before block : List Entry) :
    lastKeyOf (before ++ block) = (block.getLast?.map Entry.key).getD (lastKeyOf before) := by
  unfold lastKeyOf
  rw [List.getLast?_append]
  cases block.getLast? <;> rfl

/-- An entry goes behind the others of its block. -/
theorem codeEntries_snoc (before block : List Entry) (e : Entry) :
    codeEntries (lastKeyOf before) (block ++ [e])
      = codeEntries (lastKeyOf before) block ++ codeEntry (lastKeyOf (before ++ block)) e := by
  rw [codeEntries_append, ← lastKeyOf_append]
  show _ ++ (codeEntry _ e ++ []) = _
  rw [List.append_nil]

/-- The entry does not fit behind the others of its block. -/
def Full (b : SSTableBuilder) (e : Entry) : Prop :=
  b.impl.currentBlock.length
      + (4 + 4 + 4 + 4 + 1 + (e.key.length - shared e.key b.impl.lastKey) + e.value.length)
    > b.impl.options.blockSize ∧ b.impl.entriesInBlock > 0

instance (b : SSTableBuilder) (e : Entry) : Decidable (b.Full e) :=
  inferInstanceAs (Decidable (_ ∧ _))

/-- A block is full if it would grow beyond the block size. -/
theorem Filling.full_iff {options : SSTableOptions} {before block : List Entry}
    {b : SSTableBuilder} (h : b.Filling options before block) (e : Entry) :
    b.Full e ↔ block ≠ [] ∧
      options.blockSize < (codeEntries (lastKeyOf before) (block ++ [e])).length := by
  unfold Full
  rw [codeEntries_snoc, h.currentBlock, h.entriesInBlock, h.lastKey, h.options_eq.2,
    List.length_append, length_codeEntry, ← List.length_pos_iff]
  omega

/-- `AddToBlock` without a cut. -/
theorem Filling.append {env : Env} {options : SSTableOptions} {before block : List Entry}
    {b : SSTableBuilder} (h : b.Filling options before block) (e : Entry)
    (hroom : ¬ b.Full e) :
    Filling options before (block ++ [e]) { b with impl :=
      { b.impl.addToBlockMeant env e.key e.value e.seq e.deleted with
        numEntries := b.impl.numEntries + 1 } } := by
  -- The block has room: the entry goes behind those already in it.
  have hstate : b.impl.addToBlockMeant env e.key e.value e.seq e.deleted = { b.impl with
      currentBlock := b.impl.currentBlock ++ codeEntry b.impl.lastKey e
      entriesInBlock := b.impl.entriesInBlock + 1
      restartPoints := if (b.impl.entriesInBlock + 1) % b.impl.options.blockRestartInterval = 0
        then b.impl.restartPoints ++ [UInt32.ofNat b.impl.currentBlock.length]
        else b.impl.restartPoints
      lastKey := e.key } := by
    unfold Impl.addToBlockMeant Impl.makeRoom
    unfold Full at hroom
    simp only [if_neg hroom]
    rfl
  rw [hstate]
  refine ⟨h.options_eq, h.running, ?_, ?_, ?_, ?_, ?_, fun hnil => absurd hnil (by simp),
    h.untouched⟩
  · show b.impl.numEntries + 1 = _
    rw [h.numEntries, ← List.append_assoc]
    simp only [List.length_append, List.length_singleton]
  · rw [← List.append_assoc, lastKeyOf_snoc]
  · rw [h.entriesInBlock, List.length_append]
    rfl
  · rw [codeEntries_snoc, h.currentBlock, h.lastKey]
  · rw [h.entriesInBlock, h.options_eq.2, pushedRestarts_snoc, h.restartPoints, h.currentBlock]
    by_cases hmod : (block.length + 1) % options.blockRestartInterval = 0
    · rw [if_pos hmod, if_pos hmod, List.append_assoc]
    · rw [if_neg hmod, if_neg hmod, List.append_nil]

/-- `AddToBlock` behind a cut. -/
theorem Filling.cut {env : Env} {options : SSTableOptions} {before block : List Entry}
    {b : SSTableBuilder} (h : b.Filling options before block) (hne : block ≠ []) (e : Entry)
    (hfull : b.Full e) :
    Filling options (before ++ block) [e] { b with impl :=
      { b.impl.addToBlockMeant env e.key e.value e.seq e.deleted with
        numEntries := b.impl.numEntries + 1 } } := by
  have hcount : b.impl.entriesInBlock ≠ 0 := Nat.ne_of_gt hfull.2
  -- `FlushBlock` resets the block, yet the entry is coded against the last key before the cut.
  have hfields : ∀ s : Impl, s = b.impl.addToBlockMeant env e.key e.value e.seq e.deleted →
      s.options = b.impl.options ∧ s.lastKey = e.key ∧ s.entriesInBlock = 1 ∧
      s.currentBlock = codeEntry b.impl.lastKey e ∧ s.file = b.impl.file.write env b.impl.sealed ∧
      s.restartPoints = if 1 % b.impl.options.blockRestartInterval = 0 then [0, 0] else [0] := by
    rintro s rfl
    unfold Impl.addToBlockMeant Impl.makeRoom
    unfold Full at hfull
    dsimp only
    rw [if_pos hfull]
    unfold Impl.flushBlock
    rw [if_neg hcount]
    exact ⟨rfl, rfl, rfl, rfl, rfl, rfl⟩
  obtain ⟨hoptions, hlast, hentries, hcurrent, hfile, hrestarts⟩ := hfields _ rfl
  have hbefore : before ++ block ≠ [] := fun hnil => hne (List.append_eq_nil_iff.mp hnil).2
  have huntouched : OFStream.Untouched (b.impl.addToBlockMeant env e.key e.value e.seq
      e.deleted).file := by
    rw [hfile]
    exact h.untouched.write env _
  refine ⟨⟨h.options_eq.1, hoptions.trans h.options_eq.2⟩, h.running, ?_, ?_, hentries, ?_, ?_,
    fun hnil => absurd hnil (by simp), huntouched⟩
  · show b.impl.numEntries + 1 = _
    rw [h.numEntries]
    simp only [List.length_append, List.length_singleton]
  · show Impl.lastKey _ = _
    rw [lastKeyOf_snoc]
    exact hlast
  · show Impl.currentBlock _ = codeEntry _ e ++ []
    rw [List.append_nil, ← h.lastKey]
    exact hcurrent
  · show Impl.restartPoints _ = _
    rw [if_neg hbefore]
    refine hrestarts.trans ?_
    rw [h.options_eq.2]
    show _ = [0] ++ pushedRestarts _ _ ([] ++ [e])
    rw [pushedRestarts_snoc]
    by_cases hmod : 1 % options.blockRestartInterval = 0
    · rw [if_pos hmod, if_pos (show (([] : List Entry).length + 1) % _ = 0 from hmod)]
      rfl
    · rw [if_neg hmod, if_neg (show ¬ (([] : List Entry).length + 1) % _ = 0 from hmod)]
      rfl

/-- What blocks cut so far leave in the state. -/
def Impl.progress (s : Impl) : List (Bytes × BlockHandle) × List UInt64 × UInt64 × Bytes :=
  (s.indexEntries, s.filterKeysHash, s.blockOffset, s.filterBuffer)

/-- The key is above the last one, if there is one. -/
def Above (options : SSTableOptions) (es : List Entry) (e : Entry) : Prop :=
  ∀ x ∈ es.getLast?, (keyOrder options.comparator).lt x.key e.key

theorem above_nil (options : SSTableOptions) (e : Entry) : Above options [] e := by
  intro x hx
  cases hx

instance (options : SSTableOptions) (es : List Entry) (e : Entry) :
    Decidable (Above options es e) :=
  inferInstanceAs (Decidable (∀ x ∈ es.getLast?, _))

/-- The entries that `Add` accepts. -/
def accepted (options : SSTableOptions) (es : List Entry) : List Entry :=
  es.foldl (fun xs e => if Above options xs e then xs ++ [e] else xs) []

theorem accepted_snoc (options : SSTableOptions) (es : List Entry) (e : Entry) :
    accepted options (es ++ [e]) = if Above options (accepted options es) e
      then accepted options es ++ [e] else accepted options es := by
  unfold accepted
  rw [List.foldl_append]
  rfl

theorem increasing_snoc {options : SSTableOptions} {es : List Entry} {e : Entry}
    (h : Increasing options es) (he : Above options es e) : Increasing options (es ++ [e]) := by
  refine List.pairwise_append.mpr ⟨h, List.pairwise_singleton _ _, fun x hx y hy => ?_⟩
  obtain rfl := List.mem_singleton.mp hy
  rcases List.eq_nil_or_concat es with rfl | ⟨xs, last, rfl⟩
  · exact absurd hx (by simp)
  · rw [List.concat_eq_append] at h hx he
    have hlast : (keyOrder options.comparator).lt last.key y.key :=
      he last (by rw [List.getLast?_concat]; rfl)
    rcases List.mem_append.mp hx with hx | hx
    · exact (keyOrder options.comparator).lt_trans
        ((List.pairwise_append.mp h).2.2 x hx last (List.mem_singleton_self _)) hlast
    · rw [List.mem_singleton.mp hx]
      exact hlast

/-- The check of `Add`. -/
theorem Filling.order_iff {options : SSTableOptions} {before block : List Entry}
    {b : SSTableBuilder} (h : b.Filling options before block) (e : Entry) :
    (b.impl.numEntries > 0 ∧ compareKeys b.options.comparator e.key b.impl.lastKey ≤ 0) ↔
      ¬ Above options (before ++ block) e := by
  rw [h.numEntries, h.lastKey, compareKeys_eq, h.options_eq.1,
    (keyOrder _).compare_nonpos_iff]
  unfold Above lastKeyOf
  cases hlast : (before ++ block).getLast? with
  | none =>
      have hnil := List.getLast?_eq_none_iff.mp hlast
      rw [hnil]
      simp
  | some x =>
      have hne : before ++ block ≠ [] := by
        intro hnil
        rw [hnil] at hlast
        exact absurd hlast (by simp)
      rw [and_iff_right (List.length_pos_of_ne_nil hne)]
      simp

/-- **One `Add`** of a key above the last: the entry goes into the block
being filled, or into a new one if that is full. -/
theorem Filling.add_cases (env : Env) {options : SSTableOptions} {before block : List Entry}
    {b : SSTableBuilder} (h : b.Filling options before block) {e : Entry}
    (hkey : Above options (before ++ block) e) :
    (b.addMeant env e.key e.value e.seq e.deleted).1 = .okStatus ∧
      (¬ b.Full e ∧
          (b.addMeant env e.key e.value e.seq e.deleted).2.Filling options before (block ++ [e]) ∧
          (b.addMeant env e.key e.value e.seq e.deleted).2.impl.progress = b.impl.progress ∨
        b.Full e ∧ block ≠ [] ∧
          (b.addMeant env e.key e.value e.seq e.deleted).2.Filling options (before ++ block) [e] ∧
          (b.addMeant env e.key e.value e.seq e.deleted).2.impl.progress
            = (b.impl.flushBlock env).progress) := by
  have horder := fun hle => (h.order_iff e).mp hle hkey
  -- the sequence range changes first; the block does not depend on it
  let b₁ : SSTableBuilder := { b with impl := { b.impl with
    minSeq := min b.impl.minSeq e.seq, maxSeq := max b.impl.maxSeq e.seq } }
  have h₁ : b₁.Filling options before block :=
    ⟨h.options_eq, h.running, h.numEntries, h.lastKey, h.entriesInBlock, h.currentBlock,
      h.restartPoints, h.started, h.untouched⟩
  have hadd : b.addMeant env e.key e.value e.seq e.deleted = (.okStatus, { b with impl :=
      { b₁.impl.addToBlockMeant env e.key e.value e.seq e.deleted with
        numEntries :=
          (b₁.impl.addToBlockMeant env e.key e.value e.seq e.deleted).numEntries + 1 } }) := by
    unfold SSTableBuilder.addMeant
    rw [if_neg (by rw [h.running]; exact Bool.false_ne_true), if_neg horder]
  have hnum : (b₁.impl.addToBlockMeant env e.key e.value e.seq e.deleted).numEntries
      = b₁.impl.numEntries := by
    unfold Impl.addToBlockMeant Impl.makeRoom Impl.flushBlock
    dsimp only
    split
    · split <;> rfl
    · rfl
  have hprogress : (b₁.impl.addToBlockMeant env e.key e.value e.seq e.deleted).progress
      = if b.Full e then (b.impl.flushBlock env).progress else b.impl.progress := by
    unfold Impl.addToBlockMeant Impl.makeRoom
    dsimp only
    split
    next hcut =>
      rw [if_pos (show b.Full e from hcut)]
      unfold Impl.flushBlock
      dsimp only
      split <;> rfl
    next hroom =>
      rw [if_neg (show ¬ b.Full e from hroom)]
      rfl
  rw [hadd, hnum]
  refine ⟨rfl, ?_⟩
  by_cases hfull : b.Full e
  · have hne : block ≠ [] := by
      rintro rfl
      have hpos := hfull.2
      rw [h.entriesInBlock] at hpos
      exact Nat.lt_irrefl 0 hpos
    rw [if_pos hfull] at hprogress
    exact Or.inr ⟨hfull, hne, h₁.cut hne e hfull, hprogress⟩
  · rw [if_neg hfull] at hprogress
    exact Or.inl ⟨hfull, h₁.append e hfull, hprogress⟩

/-- An `Add` of another key is refused. -/
theorem Filling.add_refused (env : Env) {options : SSTableOptions} {before block : List Entry}
    {b : SSTableBuilder} (h : b.Filling options before block) {e : Entry}
    (hkey : ¬ Above options (before ++ block) e) :
    b.addMeant env e.key e.value e.seq e.deleted
      = (.invalidArgument "Keys must be added in strictly increasing order", b) := by
  unfold SSTableBuilder.addMeant
  rw [if_neg (by rw [h.running]; exact Bool.false_ne_true), if_pos ((h.order_iff e).mpr hkey)]

theorem Filling.add (env : Env) {options : SSTableOptions} {before block : List Entry}
    {b : SSTableBuilder} (h : b.Filling options before block) {e : Entry}
    (hkey : Above options (before ++ block) e) :
    ∃ before' block', before' ++ block' = before ++ block ++ [e] ∧
      (b.addMeant env e.key e.value e.seq e.deleted).2.Filling options before' block' := by
  rcases (h.add_cases env hkey).2 with ⟨-, hfilling, -⟩ | ⟨-, -, hfilling, -⟩
  · exact ⟨before, block ++ [e], (List.append_assoc _ _ _).symm, hfilling⟩
  · exact ⟨before ++ block, [e], rfl, hfilling⟩

/-- **A run of `Add` calls** with increasing keys: all are accepted, and the
builder is filling the block of the last entries. -/
theorem addAll_filling (env : Env) (options : SSTableOptions) (es : List Entry)
    (h : Increasing options es) :
    ∃ before block, before ++ block = es ∧
      (addAll env options es).Filling options before block := by
  induction es using List.reverseRecOn with
  | nil => exact ⟨[], [], rfl, new_filling options⟩
  | append_singleton es e ih =>
      obtain ⟨hes, -, hlast⟩ := List.pairwise_append.mp h
      obtain ⟨before, block, rfl, hfilling⟩ := ih hes
      obtain ⟨before', block', hsplit, hfilling'⟩ := hfilling.add env (e := e)
        (fun x hx => hlast x (List.mem_of_getLast? hx) e List.mem_cons_self)
      exact ⟨before', block', hsplit, by rw [addAll_snoc]; exact hfilling'⟩

end SSTableBuilder

end KvEngine
