/-
  KvEngine.SSTable.Accepting
  ──────────────────────────
  Which entries `Add` takes, and which options it can work with.

  `Add` compares a key with `last_key`, and a full block resets `last_key` in
  the middle of an `Add`.  The same call sets it again behind the cut, so what
  the next call compares with is the last key taken, wherever the blocks were
  cut.

  The constructor reserves `block_size` bytes, and the header of an entry is
  written into them before the block grows.  Behind the cut there is room for
  it, unless the block size is below the 17 bytes of a header; an interval of
  zero is divided by.  With other options a run of `Add` calls is the run meant.

  Main results:
    * `Filling.add_eq` — one `Add`, next to the one meant;
    * `adds_eq` — a run of `Add` calls;
    * `add_takes` — when all entries are taken as the order has it.
-/
import KvEngine.SSTable.Filling

namespace KvEngine

open Lib SSTable

/-- A header fits into an empty block, and the restart interval can be divided by. -/
def SSTableOptions.Workable (options : SSTableOptions) : Prop :=
  17 ≤ options.blockSize ∧ 1 ≤ options.blockRestartInterval

instance (options : SSTableOptions) : Decidable options.Workable :=
  inferInstanceAs (Decidable (_ ∧ _))

namespace SSTableBuilder

/-! ## §1. One `Add`. -/

/-- Behind the cut the block is empty, or has room for the whole entry. -/
theorem Impl.makeRoom_room (env : Env) {s : Impl} (key value : Bytes)
    (hempty : s.entriesInBlock = 0 → s.currentBlock = []) :
    (s.makeRoom env key value).options = s.options ∧
      ((s.makeRoom env key value).currentBlock = [] ∨
        (s.makeRoom env key value).currentBlock.length + 17 ≤ s.options.blockSize) := by
  unfold makeRoom
  dsimp only
  split
  next hfull =>
    unfold flushBlock
    rw [if_neg (Nat.ne_of_gt hfull.2)]
    exact ⟨rfl, Or.inl rfl⟩
  next hroom =>
    refine ⟨rfl, ?_⟩
    by_cases hentries : s.entriesInBlock = 0
    · exact Or.inl (hempty hentries)
    · right
      have hfits := fun h => hroom ⟨h, Nat.pos_of_ne_zero hentries⟩
      omega

/-- **`AddToBlock`** writes what is meant, or has no result. -/
theorem Impl.addToBlock_eq (env : Env) {s : Impl} (key value : Bytes) (seq : UInt64)
    (deleted : Bool) (hempty : s.entriesInBlock = 0 → s.currentBlock = []) :
    s.addToBlock env key value seq deleted
      = if s.options.Workable then some (s.addToBlockMeant env key value seq deleted)
        else none := by
  obtain ⟨hoptions, hroom⟩ := s.makeRoom_room env key value hempty
  -- the header fits behind the cut when it fits into an empty block
  have hheader : s.options.blockSize < (s.makeRoom env key value).currentBlock.length + 17 ↔
      s.options.blockSize < 17 := by
    rcases hroom with hnil | hroom
    · rw [hnil]
      exact Iff.rfl
    · omega
  unfold addToBlock addToBlockMeant
  simp only [hoptions, hheader]
  by_cases hsize : s.options.blockSize < 17
  · rw [if_pos hsize, if_neg (fun hwork => Nat.not_le_of_lt hsize hwork.1)]
  · rw [if_neg hsize]
    by_cases hinterval : s.options.blockRestartInterval = 0
    · rw [if_pos hinterval, if_neg (fun hwork => Nat.not_le_of_lt (by omega) hwork.2)]
    · rw [if_neg hinterval, if_pos ⟨by omega, by omega⟩]

/-- **One `Add`**: the one meant, except that an entry that is to be taken needs
options the builder can work with. -/
theorem Filling.add_eq (env : Env) {options : SSTableOptions} {before block : List Entry}
    {b : SSTableBuilder} (h : b.Filling options before block) (e : Entry) :
    b.add env e.key e.value e.seq e.deleted
      = if ¬ Above options (before ++ block) e ∨ options.Workable then
          some (b.addMeant env e.key e.value e.seq e.deleted) else none := by
  have hempty : b.impl.entriesInBlock = 0 → b.impl.currentBlock = [] := by
    intro hentries
    rw [h.entriesInBlock] at hentries
    rw [h.currentBlock, List.length_eq_zero_iff.mp hentries]
    rfl
  have hblock := Impl.addToBlock_eq env (s := { b.impl with
    minSeq := min b.impl.minSeq e.seq, maxSeq := max b.impl.maxSeq e.seq })
    e.key e.value e.seq e.deleted hempty
  unfold SSTableBuilder.add SSTableBuilder.addMeant
  rw [h.running, if_neg Bool.false_ne_true, if_neg Bool.false_ne_true]
  by_cases habove : Above options (before ++ block) e
  · have horder := fun hle => (h.order_iff e).mp hle habove
    rw [if_neg horder, if_neg horder]
    dsimp only
    rw [hblock]
    have hoptions : b.impl.options = options := h.options_eq.2
    by_cases hwork : options.Workable
    · rw [if_pos (show b.impl.options.Workable from hoptions ▸ hwork), if_pos (Or.inr hwork)]
      rfl
    · rw [if_neg (show ¬ b.impl.options.Workable from hoptions ▸ hwork),
        if_neg (fun hor => hor.elim (fun hnot => hnot habove) hwork)]
      rfl
  · have horder := (h.order_iff e).mpr habove
    rw [if_pos horder, if_pos horder, if_pos (Or.inl habove)]

/-! ## §2. Runs. -/

/-- A run of `Add` calls: the builder behind it, and the entries that were
answered with OK. -/
def adds (env : Env) (options : SSTableOptions) (es : List Entry) :
    Option (SSTableBuilder × List Entry) :=
  es.foldlM (fun r e => do
    let added ← r.1.add env e.key e.value e.seq e.deleted
    return (added.2, if added.1.ok then r.2 ++ [e] else r.2)) (new options, [])

theorem adds_snoc (env : Env) (options : SSTableOptions) (es : List Entry) (e : Entry) :
    adds env options (es ++ [e]) = (adds env options es).bind fun r =>
      (r.1.add env e.key e.value e.seq e.deleted).map fun added =>
        (added.2, if added.1.ok then r.2 ++ [e] else r.2) := by
  unfold adds
  rw [List.foldlM_append]
  refine bind_congr fun r => ?_
  rw [List.foldlM_cons]
  cases r.1.add env e.key e.value e.seq e.deleted <;> rfl

/-- The builder is filling a block with the last of the entries it has taken. -/
theorem addAll_accepted (env : Env) (options : SSTableOptions) (es : List Entry) :
    ∃ before block, before ++ block = accepted options es ∧
      Increasing options (accepted options es) ∧
      (addAll env options es).Filling options before block := by
  induction es using List.reverseRecOn with
  | nil => exact ⟨[], [], rfl, List.Pairwise.nil, new_filling options⟩
  | append_singleton es e ih =>
      obtain ⟨before, block, hsplit, hincreasing, hfilling⟩ := ih
      rw [accepted_snoc, addAll_snoc]
      by_cases habove : Above options (accepted options es) e
      · rw [if_pos habove]
        obtain ⟨before', block', hsplit', hfilling'⟩ := hfilling.add env (hsplit ▸ habove)
        exact ⟨before', block', hsplit'.trans (congrArg (· ++ [e]) hsplit),
          increasing_snoc hincreasing habove, hfilling'⟩
      · rw [if_neg habove, hfilling.add_refused env (hsplit ▸ habove)]
        exact ⟨before, block, hsplit, hincreasing, hfilling⟩

/-- **One `Add` after any others.** -/
theorem addAll_add (env : Env) (options : SSTableOptions) (es : List Entry) (e : Entry) :
    (addAll env options es).add env e.key e.value e.seq e.deleted
      = if Above options (accepted options es) e then
          if options.Workable then some (.okStatus, addAll env options (es ++ [e])) else none
        else some (.invalidArgument "Keys must be added in strictly increasing order",
          addAll env options es) := by
  obtain ⟨before, block, hsplit, -, hfilling⟩ := addAll_accepted env options es
  rw [hfilling.add_eq env e, hsplit]
  by_cases habove : Above options (accepted options es) e
  · rw [if_pos habove]
    by_cases hwork : options.Workable
    · rw [if_pos (Or.inr hwork), if_pos hwork, addAll_snoc,
        ← (hfilling.add_cases env (hsplit ▸ habove)).1]
    · rw [if_neg (fun hor => hor.elim (fun hnot => hnot habove) hwork), if_neg hwork]
  · rw [if_pos (Or.inl habove), if_neg habove, hfilling.add_refused env (hsplit ▸ habove)]

/-- **A run of `Add` calls** with options the builder can work with is the run
meant; without them it ends at the first call. -/
theorem adds_eq (env : Env) (options : SSTableOptions) (es : List Entry) :
    adds env options es = if es = [] ∨ options.Workable then
      some (addAll env options es, accepted options es) else none := by
  induction es using List.reverseRecOn with
  | nil => rfl
  | append_singleton es e ih =>
      rw [adds_snoc, ih]
      by_cases hwork : options.Workable
      · rw [if_pos (Or.inr hwork), if_pos (Or.inr hwork), Option.bind_some, addAll_add,
          accepted_snoc]
        dsimp only
        by_cases habove : Above options (accepted options es) e
        · rw [if_pos habove, if_pos hwork, if_pos habove, Option.map_some,
            if_pos Status.ok_okStatus]
        · obtain ⟨before, block, hsplit, -, hfilling⟩ := addAll_accepted env options es
          rw [if_neg habove, if_neg habove, addAll_snoc,
            hfilling.add_refused env (hsplit ▸ habove)]
          rfl
      · rw [if_neg (show ¬ (es ++ [e] = [] ∨ _) from fun h => h.elim (by simp) hwork)]
        by_cases hnil : es = []
        · subst hnil
          -- nothing is above the first entry, so it is to be taken
          rw [if_pos (Or.inl rfl), Option.bind_some, addAll_add,
            if_pos (show Above options (accepted options []) e from above_nil options e),
            if_neg hwork]
          rfl
        · rw [if_neg (fun h => h.elim hnil hwork)]
          rfl

/-- What is known of a run that has come to its end. -/
theorem adds_some {env : Env} {options : SSTableOptions} {es taken : List Entry}
    {b : SSTableBuilder} (h : adds env options es = some (b, taken)) :
    b = addAll env options es ∧ taken = accepted options es ∧ (es = [] ∨ options.Workable) := by
  rw [adds_eq] at h
  split at h
  next hwork =>
    obtain ⟨rfl, rfl⟩ := Prod.mk.inj (Option.some.inj h)
    exact ⟨rfl, rfl, hwork⟩
  next => cases h

/-- The first entry is always taken. -/
theorem accepted_ne_nil {options : SSTableOptions} {es : List Entry} (h : es ≠ []) :
    accepted options es ≠ [] := by
  induction es using List.reverseRecOn with
  | nil => exact absurd rfl h
  | append_singleton es e ih =>
      rw [accepted_snoc]
      by_cases hnil : es = []
      · subst hnil
        rw [if_pos (show Above options (accepted options []) e from above_nil options e)]
        simp
      · split
        · simp
        · exact ih hnil

/-! ## §3. Which entries are taken. -/

/-- The key is above the last one taken: the order check of `Add`. -/
theorem above_iff (options : SSTableOptions) (es : List Entry) (e : Entry) :
    Above options es e ↔ es = [] ∨
      ∃ last, es.getLast? = some last ∧ 0 < compareKeys options.comparator e.key last.key := by
  unfold Above
  cases hlast : es.getLast? with
  | none => simp [List.getLast?_eq_none_iff.mp hlast]
  | some last =>
      have hne : es ≠ [] := by
        rintro rfl
        cases hlast
      simp [hne, (keyOrder options.comparator).compare_pos_iff]

/-- Every call of the run returns: with OK for the first entry and for a key
above the last one taken, and otherwise with the builder as it was. -/
def TakesInOrder (env : Env) (options : SSTableOptions) (es : List Entry) : Prop :=
  ∀ before e after, es = before ++ e :: after →
    ∃ b taken r, adds env options before = some (b, taken) ∧
      b.add env e.key e.value e.seq e.deleted = some r ∧
      (r.1 = .okStatus ↔ taken = [] ∨ ∃ last, taken.getLast? = some last ∧
        0 < compareKeys options.comparator e.key last.key) ∧
      (r.1 ≠ .okStatus → r.2 = b)

/-- **Which runs take their entries in order**: all with a block size of at least
17 bytes and a restart interval of at least one, wherever the blocks are cut,
and no others but the one without entries. -/
theorem add_takes (env : Env) (options : SSTableOptions) (es : List Entry) :
    TakesInOrder env options es ↔
      es = [] ∨ 17 ≤ options.blockSize ∧ 1 ≤ options.blockRestartInterval := by
  show _ ↔ es = [] ∨ options.Workable
  constructor
  · intro h
    cases es with
    | nil => exact Or.inl rfl
    | cons e after =>
        obtain ⟨b, taken, r, hadds, hadd, -⟩ := h [] e after rfl
        obtain ⟨rfl, -, -⟩ := adds_some hadds
        rw [addAll_add,
          if_pos (show Above options (accepted options []) e from above_nil options e)] at hadd
        by_cases hwork : options.Workable
        · exact Or.inr hwork
        · rw [if_neg hwork] at hadd
          cases hadd
  · rintro (rfl | hwork) before e after hes
    · exact absurd hes (by simp)
    · have hadds := (adds_eq env options before).trans (if_pos (Or.inr hwork))
      have hadd := addAll_add env options before e
      by_cases habove : Above options (accepted options before) e
      · rw [if_pos habove, if_pos hwork] at hadd
        exact ⟨_, _, _, hadds, hadd, iff_of_true rfl ((above_iff _ _ e).mp habove),
          fun hne => absurd rfl hne⟩
      · rw [if_neg habove] at hadd
        exact ⟨_, _, _, hadds, hadd,
          iff_of_false (fun hok => by cases hok) (fun h => habove ((above_iff _ _ e).mpr h)),
          fun _ => rfl⟩

/-- A block size of zero, one below 17 and an interval of zero: the first call has
no result. -/
theorem add_takes_small :
    (new { blockSize := 0 }).add (fun _ => {}) [97] [120] 1 false = none ∧
      (new { blockSize := 16 }).add (fun _ => {}) [97] [120] 1 false = none ∧
      (new { blockRestartInterval := 0 }).add (fun _ => {}) [97] [120] 1 false = none ∧
      ¬ TakesInOrder (fun _ => {}) { blockSize := 0 } [⟨[97], [120], 1, false⟩] := by
  refine ⟨rfl, rfl, rfl, fun h => ?_⟩
  obtain ⟨b, taken, r, hadds, hadd, -⟩ := h [] ⟨[97], [120], 1, false⟩ [] rfl
  obtain ⟨rfl, -⟩ := Prod.mk.inj (Option.some.inj hadds)
  cases hadd

end SSTableBuilder

end KvEngine
