/-
  KvEngine.SSTable.Metadata
  ─────────────────────────
  What a table says about its own entries.

  `Add` keeps the least and the greatest sequence number and the number of
  entries, through all cuts of blocks.  It never sets the smallest and the
  largest key: the branch for the first entry is empty, and nothing else
  writes them.  The meta block is made of whatever they are, and
  `ParseMetaBlock` reads it back.

  Main results:
    * `parseMetaBlock_metaBytes` — the meta block read back;
    * `addAll_described` — the metadata after a run of `Add` calls;
    * `keyRange_exact` — when they are those of the entries.
-/
import KvEngine.Lib.Extremes
import KvEngine.SSTable.Accepting
import KvEngine.SSTable.Inside

namespace KvEngine

open Lib SSTable

/-! ## §1. The meta block. -/

namespace SSTableReader

/-- **The meta block survives the file**, as long as the key lengths fit into
their 32 bits. -/
theorem parseMetaBlock_metaBytes (s : Impl) (t : SSTableBuilder.Impl)
    (hsmallest : t.smallestKey.length < 2 ^ 32) (hlargest : t.largestKey.length < 2 ^ 32) :
    s.parseMetaBlock t.metaBytes = .ok { s with
      minSeq := t.minSeq
      maxSeq := t.maxSeq
      smallestKey := t.smallestKey
      largestKey := t.largestKey } := by
  have hlength : ∀ {n : Nat}, n < 2 ^ 32 → (UInt32.ofNat n).toNat = n := by
    intro n hn
    rw [UInt32.toNat_ofNat', Nat.mod_eq_of_lt hn]
  obtain ⟨a, ha⟩ : ∃ a, a = UInt32.ofNat t.smallestKey.length := ⟨_, rfl⟩
  obtain ⟨b, hb⟩ : ∃ b, b = UInt32.ofNat t.largestKey.length := ⟨_, rfl⟩
  have hbytes : t.metaBytes = store64 t.minSeq ++ (store64 t.maxSeq ++ (store32 a
      ++ (t.smallestKey ++ (store32 b ++ t.largestKey)))) := by
    unfold SSTableBuilder.Impl.metaBytes
    simp only [List.append_assoc, ha, hb]
  have hsize : t.metaBytes.length = 24 + t.smallestKey.length + t.largestKey.length := by
    rw [hbytes]
    simp only [List.length_append, length_store64, length_store32]
    omega
  have hmin : read64 t.metaBytes 0 = .ok t.minSeq := by
    unfold read64
    rw [hbytes, load64_store]
    rfl
  have hmax : read64 t.metaBytes 8 = .ok t.maxSeq := by
    unfold read64
    rw [hbytes, show 8 = 0 + 8 from rfl, load64_store64_add, load64_store]
    rfl
  have hfirst : read32 t.metaBytes 16 = .ok a := by
    refine read32_eq ?_
    rw [hbytes, show 16 = 0 + 8 + 8 from rfl, load32_store64_add, load32_store64_add, load32_store]
  -- from here on the parser reads behind the key it has just read
  have hkey : readBytes t.metaBytes 20 a.toNat = .ok t.smallestKey := by
    rw [readBytes_eq (by rw [hsize, ha, hlength hsmallest]; omega), ha, hlength hsmallest]
    rw [hbytes, ← List.append_assoc, ← List.append_assoc,
      List.drop_left' (by simp), List.take_left]
  have hsecond : read32 t.metaBytes (20 + a.toNat) = .ok b := by
    refine read32_eq ?_
    have hfront : (store64 t.minSeq ++ store64 t.maxSeq ++ store32 a ++ t.smallestKey).length
        = 20 + a.toNat := by
      rw [ha, hlength hsmallest]
      simp only [List.length_append, length_store64, length_store32]
    rw [hbytes, ← List.append_assoc, ← List.append_assoc, ← List.append_assoc, ← hfront,
      ← Nat.add_zero (List.length _), load32_append, load32_store]
  have hrest : readBytes t.metaBytes (20 + a.toNat + 4) b.toNat = .ok t.largestKey := by
    have hfront : (store64 t.minSeq ++ store64 t.maxSeq ++ store32 a ++ t.smallestKey
        ++ store32 b).length = 20 + a.toNat + 4 := by
      rw [ha, hlength hsmallest]
      simp only [List.length_append, length_store64, length_store32]
    rw [readBytes_eq (by rw [hsize, ha, hb, hlength hsmallest, hlength hlargest]; omega), hb,
      hlength hlargest, hbytes, ← List.append_assoc, ← List.append_assoc, ← List.append_assoc,
      ← List.append_assoc, List.drop_left' hfront, List.take_length]
  unfold Impl.parseMetaBlock
  rw [hmin, hmax, hfirst, hsize]
  rw [if_neg (by omega)]
  simp only [ok_bind]
  rw [if_pos (by rw [ha, hlength hsmallest]; omega), hkey, ok_bind]
  show (do let largestLen ← read32 t.metaBytes (20 + a.toNat); _) = _
  rw [hsecond, ok_bind, if_pos (by rw [ha, hb, hlength hsmallest, hlength hlargest]; omega), hrest]
  rfl

end SSTableReader

namespace SSTableBuilder

/-! ## §2. One `Add`. -/

/-- The metadata of a table. -/
def Impl.metadata (s : Impl) : UInt64 × UInt64 × Bytes × Bytes × Nat :=
  (s.minSeq, s.maxSeq, s.smallestKey, s.largestKey, s.numEntries)

theorem Impl.flushBlock_metadata (env : Env) (s : Impl) :
    (s.flushBlock env).metadata = s.metadata := by
  unfold flushBlock
  split <;> rfl

theorem Impl.addToBlockMeant_metadata (env : Env) (s : Impl) (key value : Bytes) (seq : UInt64)
    (deleted : Bool) : (s.addToBlockMeant env key value seq deleted).metadata = s.metadata := by
  unfold addToBlockMeant makeRoom
  dsimp only
  split
  · exact s.flushBlock_metadata env
  · rfl

/-- What the builder has recorded of the entries: the keys are not set. -/
structure Described (es : List Entry) (s : Impl) : Prop where
  smallestKey : s.smallestKey = []
  largestKey : s.largestKey = []
  numEntries : s.numEntries = es.length
  unset : es = [] → s.minSeq = 0xFFFFFFFFFFFFFFFF ∧ s.maxSeq = 0
  minSeq : es ≠ [] → IsLeast (values (fun e : Entry => e.seq.toNat) es) s.minSeq.toNat
  maxSeq : es ≠ [] → IsGreatest (values (fun e : Entry => e.seq.toNat) es) s.maxSeq.toNat

/-- An entry that is taken, whether or not a block is cut. -/
theorem addMeant_metadata {env : Env} {b : SSTableBuilder} {e : Entry}
    (h : (b.addMeant env e.key e.value e.seq e.deleted).1 = .okStatus) :
    (b.addMeant env e.key e.value e.seq e.deleted).2.impl.metadata
      = (min b.impl.minSeq e.seq, max b.impl.maxSeq e.seq, b.impl.smallestKey,
        b.impl.largestKey, b.impl.numEntries + 1) := by
  unfold SSTableBuilder.addMeant at h ⊢
  split at h
  next => cases h
  next hrunning =>
    split at h
    next => cases h
    next horder =>
      rw [if_neg hrunning, if_neg horder]
      have hblock := Impl.addToBlockMeant_metadata env { b.impl with
        minSeq := min b.impl.minSeq e.seq, maxSeq := max b.impl.maxSeq e.seq }
        e.key e.value e.seq e.deleted
      simp only [Impl.metadata, Prod.mk.injEq] at hblock ⊢
      obtain ⟨hmin, hmax, hsmallest, hlargest, hnum⟩ := hblock
      exact ⟨hmin, hmax, hsmallest, hlargest, congrArg (· + 1) hnum⟩

/-! ## §3. Runs of `Add`. -/

/-- **The metadata after a run of `Add` calls.** -/
theorem addAll_described (env : Env) (options : SSTableOptions) (es : List Entry) :
    Described (accepted options es) (addAll env options es).impl := by
  induction es using List.reverseRecOn with
  | nil => exact ⟨rfl, rfl, rfl, fun _ => ⟨rfl, rfl⟩, fun h => absurd rfl h, fun h => absurd rfl h⟩
  | append_singleton es e ih =>
      obtain ⟨before, block, hsplit, -, hfilling⟩ := addAll_accepted env options es
      rw [accepted_snoc, addAll_snoc]
      by_cases habove : Above options (accepted options es) e
      · have hmeta := addMeant_metadata (hfilling.add_cases env (hsplit ▸ habove)).1
        simp only [Impl.metadata, Prod.mk.injEq] at hmeta
        obtain ⟨hmin, hmax, hsmallest, hlargest, hnum⟩ := hmeta
        rw [if_pos habove]
        refine ⟨hsmallest.trans ih.smallestKey, hlargest.trans ih.largestKey, ?_,
          fun hnil => absurd hnil (by simp), fun _ => ?_, fun _ => ?_⟩
        · rw [hnum, ih.numEntries, List.length_append, List.length_singleton]
        · rw [hmin, toNat_min]
          refine isLeast_snoc (f := fun e : Entry => e.seq.toNat) e (fun hnil => ?_) ih.minSeq
          rw [(ih.unset hnil).1]
          exact Nat.le_of_lt_succ e.seq.toNat_lt
        · rw [hmax, toNat_max]
          refine isGreatest_snoc (f := fun e : Entry => e.seq.toNat) e (fun hnil => ?_) ih.maxSeq
          rw [(ih.unset hnil).2]
          exact Nat.zero_le _
      · rw [if_neg habove, hfilling.add_refused env (hsplit ▸ habove)]
        exact ih

/-! ## §4. Ranges. -/

/-- The first and the last key. -/
structure KeyRange (es : List Entry) (smallest largest : Bytes) : Prop where
  smallest : es.head?.map Entry.key = some smallest
  largest : es.getLast?.map Entry.key = some largest

/-- The least and the greatest sequence number, and how many entries there are. -/
structure SequenceRange (es : List Entry) (minSeq maxSeq : UInt64) (numEntries : Nat) : Prop where
  least : IsLeast (values (fun e : Entry => e.seq.toNat) es) minSeq.toNat
  greatest : IsGreatest (values (fun e : Entry => e.seq.toNat) es) maxSeq.toNat
  count : numEntries = es.length

/-- What `ParseMetaBlock` reads from a meta block of `WriteMetaBlock`, whatever
was in the reader: this range of keys and sequence numbers. -/
def Restores (s : Impl) (smallest largest : Bytes) (minSeq maxSeq : UInt64) : Prop :=
  ∀ r : SSTableReader.Impl, ∃ r', r.parseMetaBlock s.metaBytes = .ok r' ∧
    r'.smallestKey = smallest ∧ r'.largestKey = largest ∧ r'.minSeq = minSeq ∧ r'.maxSeq = maxSeq

variable {options : SSTableOptions} {es : List Entry} {s : Impl}

theorem Described.sequenceRange (h : Described es s) (hne : es ≠ []) :
    SequenceRange es s.minSeq s.maxSeq s.numEntries :=
  ⟨h.minSeq hne, h.maxSeq hne, h.numEntries⟩

theorem Described.restores (h : Described es s) :
    Restores s s.smallestKey s.largestKey s.minSeq s.maxSeq := by
  intro r
  refine ⟨_, SSTableReader.parseMetaBlock_metaBytes r s ?_ ?_, rfl, rfl, rfl, rfl⟩
  · rw [h.smallestKey]
    decide
  · rw [h.largestKey]
    decide

/-- **Empty keys are the range of one entry only**, since keys increase. -/
theorem keyRange_nil_iff (h : Increasing options es) :
    KeyRange es [] [] ↔ ∃ e, es = [e] ∧ e.key = [] := by
  constructor
  · rintro ⟨hsmallest, hlargest⟩
    cases es with
    | nil => cases hsmallest
    | cons e es =>
        have hkey : e.key = [] := Option.some.inj hsmallest
        cases es using List.reverseRecOn with
        | nil => exact ⟨e, rfl, hkey⟩
        | append_singleton es last =>
            rw [← List.cons_append, List.getLast?_concat] at hlargest
            have hlast : last.key = [] := Option.some.inj hlargest
            have hlt := (List.pairwise_cons.mp h).1 last
              (List.mem_append_right es (List.mem_singleton_self last))
            rw [hkey, hlast] at hlt
            exact absurd hlt ((keyOrder options.comparator).lt_irrefl [])
  · rintro ⟨e, rfl, hkey⟩
    exact ⟨congrArg some hkey, congrArg some hkey⟩

/-! ## §5. Which ranges are right. -/

/-- What the builder says of the entries it has taken is so, and a meta block
written now says the same. -/
structure TrueMetadata (es : List Entry) (s : Impl) : Prop where
  keys : KeyRange es s.smallestKey s.largestKey
  sequences : SequenceRange es s.minSeq s.maxSeq s.numEntries
  restored : Restores s s.smallestKey s.largestKey s.minSeq s.maxSeq

/-- **Which builders know the range of their entries**: those with one entry under
the empty key.  Sequence numbers, the count and the round trip of the meta block
are right in all of them. -/
theorem keyRange_exact {env : Env} {options : SSTableOptions} {es taken : List Entry}
    {b : SSTableBuilder} (h : adds env options es = some (b, taken)) (hne : taken ≠ []) :
    (TrueMetadata taken b.impl ↔ ∃ e, taken = [e] ∧ e.key = []) ∧
      SequenceRange taken b.impl.minSeq b.impl.maxSeq b.impl.numEntries ∧
      Restores b.impl b.impl.smallestKey b.impl.largestKey b.impl.minSeq b.impl.maxSeq := by
  obtain ⟨rfl, rfl, -⟩ := adds_some h
  obtain ⟨-, -, -, hincreasing, -⟩ := addAll_accepted env options es
  have hdescribed := addAll_described env options es
  have hsequences := hdescribed.sequenceRange hne
  refine ⟨?_, hsequences, hdescribed.restores⟩
  rw [← keyRange_nil_iff hincreasing]
  constructor
  · intro htrue
    have hkeys := htrue.keys
    rwa [hdescribed.smallestKey, hdescribed.largestKey] at hkeys
  · intro hkeys
    refine ⟨?_, hsequences, hdescribed.restores⟩
    rwa [hdescribed.smallestKey, hdescribed.largestKey]

/-- Two entries: the builder reports a range from the empty key to the empty key. -/
theorem keyRange_exact_two :
    let es : List Entry := [⟨[97], [120], 1, false⟩, ⟨[98], [121], 2, false⟩]
    ∃ b, adds (fun _ => {}) {} es = some (b, es) ∧ b.impl.smallestKey = [] ∧
      b.impl.largestKey = [] ∧ ¬ TrueMetadata es b.impl := by
  intro es
  have htaken : accepted {} es = es := by decide +kernel
  have hdescribed := addAll_described (fun _ => {}) {} es
  refine ⟨addAll (fun _ => {}) {} es, ?_, hdescribed.smallestKey, hdescribed.largestKey,
    fun htrue => ?_⟩
  · rw [adds_eq, htaken, if_pos (Or.inr (by decide))]
  · have hfirst := htrue.keys.smallest
    rw [hdescribed.smallestKey] at hfirst
    cases hfirst

/-- One entry under the empty key. -/
theorem keyRange_exact_one :
    let es : List Entry := [⟨[], [120], 7, false⟩]
    ∃ b, adds (fun _ => {}) {} es = some (b, es) ∧ TrueMetadata es b.impl := by
  intro es
  have htaken : accepted {} es = es := by decide +kernel
  have hadds : adds (fun _ => {}) {} es = some (addAll (fun _ => {}) {} es, es) := by
    rw [adds_eq, htaken, if_pos (Or.inr (by decide))]
  exact ⟨_, hadds, (keyRange_exact hadds (by simp [es])).1.mpr ⟨_, rfl, rfl⟩⟩

end SSTableBuilder

end KvEngine
