/-
  KvEngine.SSTable.Inside
  ───────────────────────
  Which blocks the parsers read without leaving them.

  Every parser checks some of its reads and not others: the restart count is
  compared with a quarter of the block although the count itself takes four
  bytes more, one parser does not compare it at all, entries of 17 bytes are
  let through with 12, and the second length of the meta block is read behind
  the first key without a look at what is left.

  Main results:
    * `parseIndexBlock_inside`, `parseMetaBlock_inside`,
      `readFromBlock_inside`, `parseFirstEntry_inside` — one parser each;
    * `searchBlock_eq_read` — `readFromBlock` and the reader's own search;
    * `parsers_inside` — all of them, for every content of the blocks.
-/
import KvEngine.SSTable.Block
import KvEngine.SSTable.Parsing

namespace KvEngine

open Lib

namespace SSTableReader

/-! ## §1. Reads. -/

/-- No fault. -/
def Inside {α : Type} (x : Except Fault α) : Prop := ∃ a, x = .ok a

theorem ok_bind {α β : Type} (a : α) (f : α → Except Fault β) : (Except.ok a >>= f) = f a := rfl

theorem inside_ok {α : Type} (a : α) : Inside (.ok a) := ⟨a, rfl⟩

theorem not_inside_error {α : Type} (e : Fault) : ¬ Inside (.error e : Except Fault α) :=
  fun ⟨_, h⟩ => nomatch h

/-- What comes first decides if it faults. -/
theorem inside_bind {α β : Type} {x : Except Fault α} {f : α → Except Fault β}
    (h : ∀ a, x = .ok a → Inside (f a)) : Inside (x >>= f) ↔ Inside x := by
  cases x with
  | error e => exact ⟨fun hin => absurd hin (not_inside_error e), fun hin => absurd hin
      (not_inside_error e)⟩
  | ok a => exact ⟨fun _ => inside_ok a, fun _ => h a rfl⟩

variable {data : Bytes} {pos n : Nat}

theorem load32_some (h : pos + 4 ≤ data.length) : ∃ v, load32 data pos = some v := by
  unfold load32
  rw [if_pos h]
  exact ⟨_, rfl⟩

theorem read32_eq {v : UInt32} (h : load32 data pos = some v) : read32 data pos = .ok v := by
  unfold read32
  rw [h]
  rfl

theorem read32_inside : Inside (read32 data pos) ↔ pos + 4 ≤ data.length := by
  unfold read32 load32
  split
  next h => exact ⟨fun _ => h, fun _ => inside_ok _⟩
  next h => exact ⟨fun hin => absurd hin (not_inside_error _), fun hle => absurd hle h⟩

theorem read64_inside : Inside (read64 data pos) ↔ pos + 8 ≤ data.length := by
  unfold read64 load64
  split
  next h => exact ⟨fun _ => h, fun _ => inside_ok _⟩
  next h => exact ⟨fun hin => absurd hin (not_inside_error _), fun hle => absurd hle h⟩

theorem readBytes_eq (h : pos + n ≤ data.length) :
    readBytes data pos n = .ok ((data.drop pos).take n) := if_pos h

theorem readByte_inside : Inside (inside data[pos]?) ↔ pos < data.length := by
  by_cases h : pos < data.length
  · rw [List.getElem?_eq_getElem h]
    exact ⟨fun _ => h, fun _ => inside_ok _⟩
  · rw [List.getElem?_eq_none (Nat.le_of_not_lt h)]
    exact ⟨fun hin => absurd hin (not_inside_error _), fun hlt => absurd hlt h⟩

theorem restartsAt_inside {size : Nat} {numRestarts : UInt32} :
    Inside (restartsAt size numRestarts) ↔ 4 + (numRestarts * 4).toNat ≤ size := by
  unfold restartsAt
  split
  next h => exact ⟨fun hin => absurd hin (not_inside_error _), fun hle => absurd h (by omega)⟩
  next h => exact ⟨fun _ => by omega, fun _ => inside_ok _⟩

/-- The restart points: as many as the count says. -/
theorem readRestarts_inside {numRestarts : UInt32} :
    Inside (readRestarts data numRestarts) ↔ 4 + (numRestarts * 4).toNat ≤ data.length := by
  refine Iff.trans (inside_bind fun start hstart => ?_) restartsAt_inside
  have hle := restartsAt_inside.mp ⟨start, hstart⟩
  unfold restartsAt at hstart
  rw [if_neg (by omega)] at hstart
  obtain rfl := Except.ok.inj hstart
  rw [readBytes_eq (by omega)]
  exact inside_ok _

theorem length_of_readRestarts {numRestarts : UInt32} {restarts : List UInt32}
    (h : readRestarts data numRestarts = .ok restarts) : restarts.length = numRestarts.toNat := by
  unfold readRestarts at h
  cases hstart : restartsAt data.length numRestarts with
  | error e => rw [hstart] at h; cases h
  | ok start =>
      cases hbytes : readBytes data start (numRestarts * 4).toNat with
      | error e => rw [hstart, ok_bind, hbytes] at h; cases h
      | ok bytes =>
          rw [hstart, ok_bind, hbytes] at h
          obtain rfl := Except.ok.inj h
          rw [List.length_map, List.length_range]

/-! ## §2. `ParseIndexBlock`. -/

/-- **One round over index entries**: it never faults, and it gets on. -/
theorem indexRound_cases (data : Bytes) (nextRestart : Nat) (s : IndexState) :
    (∃ out, indexRound data nextRestart s = .ok (.inr out)) ∨
      ∃ s', indexRound data nextRestart s = .ok (.inl s') ∧ s.1 < s'.1 ∧ s'.1 ≤ data.length := by
  obtain ⟨pos, lastKey, entries⟩ := s
  unfold indexRound
  by_cases hpos : pos < nextRestart ∧ pos + 12 ≤ data.length
  · obtain ⟨shared, hshared⟩ := load32_some (show pos + 4 ≤ data.length by omega)
    obtain ⟨unshared, hunshared⟩ := load32_some (show pos + 4 + 4 ≤ data.length by omega)
    obtain ⟨handleSize, hhandleSize⟩ := load32_some (show pos + 8 + 4 ≤ data.length by omega)
    simp only [if_pos hpos, read32_eq hshared, read32_eq hunshared, read32_eq hhandleSize, ok_bind]
    by_cases hfits : pos + 12 + shared.toNat + unshared.toNat + handleSize.toNat > data.length
    · rw [if_pos hfits]
      exact Or.inl ⟨_, rfl⟩
    · rw [if_neg hfits, readBytes_eq (by omega), ok_bind, readBytes_eq (by omega), ok_bind]
      cases BlockHandle.decode
          ((data.drop (pos + 12 + unshared.toNat)).take handleSize.toNat) with
      | error e => exact Or.inl ⟨_, rfl⟩
      | ok handle => exact Or.inr ⟨_, rfl, by dsimp only; omega, by dsimp only; omega⟩
  · simp only [if_neg hpos]
    exact Or.inl ⟨_, rfl⟩

/-- The bytes behind `pos` are fewer after every round. -/
theorem indexRound_lowers {nextRestart : Nat} {s s' : IndexState}
    (h : indexRound data nextRestart s = .ok (.inl s')) :
    data.length - s'.1 < data.length - s.1 := by
  rcases indexRound_cases data nextRestart s with ⟨out, hout⟩ | ⟨t, ht, hlt, hle⟩
  · exact nomatch hout.symm.trans h
  · cases ht.symm.trans h
    omega

theorem indexRun_inside (entries : List (Bytes × BlockHandle)) (run : UInt32 × Nat) :
    Inside (indexRun data entries run) := by
  refine (loop_ok_iff (fun s : IndexState => data.length - s.1)
    indexRound_lowers (Nat.lt_succ_of_le (Nat.sub_le _ _))).mpr fun t e _ herror => ?_
  rcases indexRound_cases data run.2 t with ⟨out, hout⟩ | ⟨t', ht', -⟩
  · exact nomatch hout.symm.trans herror
  · exact nomatch ht'.symm.trans herror

theorem foldlM_inside {α β : Type} {f : β → α → Except Fault β} (h : ∀ b a, Inside (f b a))
    (xs : List α) (b : β) : Inside (xs.foldlM f b) := by
  induction xs generalizing b with
  | nil => exact inside_ok b
  | cons x xs ih =>
      rw [List.foldlM_cons]
      exact (inside_bind fun b' _ => ih b').mpr (h b x)

/-- The restart count at the end of a block. -/
def restartCount (data : Bytes) : Option UInt32 :=
  if data.length < 4 then none else load32 data (data.length - 4)

/-- The restart points fit before their count, wherever the count passes the
check: it is not exactly a quarter of the block. -/
def RestartsInside (data : Bytes) : Prop :=
  ∀ n ∈ restartCount data, n ≠ 0 → n.toNat = data.length / 4 → 2 ^ 30 ≤ n.toNat

/-- The count that passes the check of `ParseIndexBlock` and `GetFromBlock`. -/
theorem restarts_fit_iff {numRestarts : UInt32}
    (hcheck : ¬ (numRestarts = 0 ∨ numRestarts.toNat > data.length / 4)) :
    4 + (numRestarts * 4).toNat ≤ data.length ↔
      (numRestarts.toNat = data.length / 4 → 2 ^ 30 ≤ numRestarts.toNat) := by
  have hne : numRestarts.toNat ≠ 0 := fun h =>
    hcheck (Or.inl (UInt32.toNat_inj.mp h))
  have hle : ¬ numRestarts.toNat > data.length / 4 := fun h => hcheck (Or.inr h)
  have hlt := numRestarts.toNat_lt
  rw [UInt32.toNat_mul, show (4 : UInt32).toNat = 4 from rfl]
  omega

theorem parseIndexBlock_inside (s : Impl) (data : Bytes) :
    Inside (s.parseIndexBlock data) ↔ RestartsInside data := by
  unfold Impl.parseIndexBlock RestartsInside restartCount
  by_cases hsize : data.length < 4
  · simp only [if_pos hsize]
    exact ⟨fun _ n hn => (nomatch hn), fun _ => inside_ok s⟩
  · obtain ⟨n, hn⟩ := load32_some (show data.length - 4 + 4 ≤ data.length by omega)
    simp only [if_neg hsize, read32_eq hn, hn, ok_bind, Option.mem_some_iff, forall_eq']
    by_cases hcheck : n = 0 ∨ n.toNat > data.length / 4
    · rw [if_pos hcheck]
      refine ⟨fun _ hne hquarter => ?_, fun _ => inside_ok s⟩
      rcases hcheck with hzero | hmany
      · exact absurd hzero hne
      · omega
    · have hne : n ≠ 0 := fun h => hcheck (Or.inl h)
      rw [if_neg hcheck, forall_prop_of_true hne, ← restarts_fit_iff hcheck,
        ← readRestarts_inside]
      refine inside_bind fun restarts hrestarts => ?_
      -- Behind the restart points nothing faults.
      obtain ⟨last, hlast⟩ := restartsAt_inside.mpr (readRestarts_inside.mp ⟨restarts, hrestarts⟩)
      obtain ⟨out, hout⟩ := foldlM_inside indexRun_inside (runsOf restarts last) s.indexEntries
      rw [hlast, ok_bind, hout, ok_bind]
      split
      · exact inside_ok _
      · exact inside_ok _

/-! ## §3. `ParseMetaBlock` and `ParseFirstEntry`. -/

/-- Behind the first key of the meta block there is room for the second length. -/
def MetaInside (data : Bytes) : Prop :=
  24 ≤ data.length → ∀ n ∈ load32 data 16,
    20 + n.toNat ≤ data.length → 24 + n.toNat ≤ data.length

theorem parseMetaBlock_inside (s : Impl) (data : Bytes) :
    Inside (s.parseMetaBlock data) ↔ MetaInside data := by
  unfold Impl.parseMetaBlock MetaInside
  by_cases hsize : data.length < 24
  · simp only [if_pos hsize]
    exact ⟨fun _ hle => by omega, fun _ => inside_ok s⟩
  · obtain ⟨minSeq, hmin⟩ := read64_inside.mpr (show 0 + 8 ≤ data.length by omega)
    obtain ⟨maxSeq, hmax⟩ := read64_inside.mpr (show 8 + 8 ≤ data.length by omega)
    obtain ⟨n, hn⟩ := load32_some (show 16 + 4 ≤ data.length by omega)
    have hlarge : 24 ≤ data.length := by omega
    simp only [if_neg hsize, hmin, hmax, read32_eq hn, ok_bind, forall_prop_of_true hlarge, hn,
      Option.mem_some_iff, forall_eq']
    -- What follows the second length is checked against the block.
    have hlast : ∀ (s : Impl) (pos : Nat), Inside (do
        let largestLen ← read32 data pos
        if pos + 4 + largestLen.toNat ≤ data.length then
          let largestKey ← readBytes data (pos + 4) largestLen.toNat
          return { s with largestKey }
        else return s) ↔ pos + 4 ≤ data.length := by
      intro s pos
      refine Iff.trans (inside_bind fun largestLen _ => ?_) read32_inside
      split
      next hle =>
        rw [readBytes_eq hle, ok_bind]
        exact inside_ok _
      next => exact inside_ok _
    by_cases hfirst : 20 + n.toNat ≤ data.length
    · rw [if_pos hfirst, readBytes_eq hfirst, ok_bind, forall_prop_of_true hfirst]
      refine (hlast _ _).trans ?_
      omega
    · rw [if_neg hfirst]
      exact ⟨fun _ hle => absurd hle hfirst, fun _ => (hlast _ _).mpr (by omega)⟩

/-- The filter block is checked in full. -/
theorem parseFilterBlock_inside (s : Impl) (data : Bytes) : Inside (s.parseFilterBlock data) := by
  unfold Impl.parseFilterBlock
  by_cases hsize : data.length < 4
  · simp only [if_pos hsize]
    exact inside_ok s
  · obtain ⟨k, hk⟩ := load32_some (show data.length - 4 + 4 ≤ data.length by omega)
    simp only [if_neg hsize, read32_eq hk, ok_bind]
    rw [readBytes_eq (by omega), ok_bind]
    exact inside_ok _

/-- The restart points fit before their count, which `ParseFirstEntry` does not
check; four times the count is cut to 32 bits. -/
def FirstInside (data : Bytes) : Prop :=
  ∀ n ∈ restartCount data, n ≠ 0 → 4 + 4 * n.toNat % 2 ^ 32 ≤ data.length

theorem toNat_mul_four (n : UInt32) : (n * 4).toNat = 4 * n.toNat % 2 ^ 32 := by
  rw [UInt32.toNat_mul, show (4 : UInt32).toNat = 4 from rfl, Nat.mul_comm]

theorem parseFirstEntry_inside (data : Bytes) :
    Inside (parseFirstEntry data) ↔ FirstInside data := by
  unfold parseFirstEntry FirstInside restartCount
  by_cases hsize : data.length < 4
  · simp only [if_pos hsize]
    exact ⟨fun _ n hn => (nomatch hn), fun _ => inside_ok none⟩
  · obtain ⟨n, hn⟩ := load32_some (show data.length - 4 + 4 ≤ data.length by omega)
    simp only [if_neg hsize, read32_eq hn, hn, ok_bind, Option.mem_some_iff, forall_eq']
    by_cases hzero : n = 0
    · rw [if_pos hzero]
      exact ⟨fun _ hne => absurd hzero hne, fun _ => inside_ok none⟩
    · rw [if_neg hzero, forall_prop_of_true hzero, ← toNat_mul_four, ← readRestarts_inside]
      refine inside_bind fun restarts hrestarts => ?_
      have hpos : 0 < restarts.length := by
        rw [length_of_readRestarts hrestarts]
        exact Nat.pos_of_ne_zero fun h => hzero (UInt32.toNat_inj.mp h)
      rw [List.getElem?_eq_getElem hpos, show inside (some restarts[0]) = .ok restarts[0] from rfl,
        ok_bind]
      -- The header of 17 bytes is checked as a whole, and so are the key and the value.
      generalize restarts[0].toNat = pos
      by_cases hheader : pos + 17 ≤ data.length
      · obtain ⟨shared, hshared⟩ := load32_some (show pos + 4 ≤ data.length by omega)
        obtain ⟨unshared, hunshared⟩ := load32_some (show pos + 4 + 4 ≤ data.length by omega)
        obtain ⟨valueLen, hvalueLen⟩ := load32_some (show pos + 8 + 4 ≤ data.length by omega)
        obtain ⟨seq, hseq⟩ := load32_some (show pos + 12 + 4 ≤ data.length by omega)
        obtain ⟨deleted, hdeleted⟩ := readByte_inside.mpr (show pos + 16 < data.length by omega)
        rw [if_pos hheader, read32_eq hshared, read32_eq hunshared, read32_eq hvalueLen,
          read32_eq hseq, hdeleted]
        simp only [ok_bind]
        split
        next hle =>
          rw [readBytes_eq (by omega), ok_bind, readBytes_eq (by omega), ok_bind]
          exact inside_ok _
        next => exact inside_ok _
      · rw [if_neg hheader]
        exact inside_ok none

/-! ## §4. `GetFromBlock`. -/

/-- **One round over data entries** faults on a header of which only 12 of the 17
bytes are there; otherwise it gets on or ends. -/
theorem entryRound_cases (options : SSTableReaderOptions) (data : Bytes) (searchEnd : Nat)
    (key : Bytes) (s : Nat × Bytes) :
    ((s.1 < searchEnd ∧ s.1 + 12 ≤ data.length ∧ data.length < s.1 + 17) ∧
        entryRound options data searchEnd key s = .error .outside) ∨
      (¬ (s.1 < searchEnd ∧ s.1 + 12 ≤ data.length ∧ data.length < s.1 + 17) ∧
        ((∃ out, entryRound options data searchEnd key s = .ok (.inr out)) ∨
          ∃ s', entryRound options data searchEnd key s = .ok (.inl s') ∧ s.1 < s'.1 ∧
            s'.1 ≤ data.length)) := by
  obtain ⟨pos, lastKey⟩ := s
  unfold entryRound
  by_cases hpos : pos < searchEnd ∧ pos + 12 ≤ data.length
  · obtain ⟨shared, hshared⟩ := load32_some (show pos + 4 ≤ data.length by omega)
    obtain ⟨unshared, hunshared⟩ := load32_some (show pos + 4 + 4 ≤ data.length by omega)
    obtain ⟨valueLen, hvalueLen⟩ := load32_some (show pos + 8 + 4 ≤ data.length by omega)
    simp only [if_pos hpos, read32_eq hshared, read32_eq hunshared, read32_eq hvalueLen, ok_bind]
    by_cases hheader : pos + 17 ≤ data.length
    · obtain ⟨seq, hseq⟩ := load32_some (show pos + 12 + 4 ≤ data.length by omega)
      obtain ⟨deleted, hdeleted⟩ := readByte_inside.mpr (show pos + 16 < data.length by omega)
      refine Or.inr ⟨by omega, ?_⟩
      rw [read32_eq hseq, ok_bind, hdeleted, ok_bind]
      by_cases hfits : pos + 17 + shared.toNat + unshared.toNat + valueLen.toNat > data.length
      · rw [if_pos hfits]
        exact Or.inl ⟨_, rfl⟩
      · rw [if_neg hfits, readBytes_eq (by omega), ok_bind]
        split
        · rw [readBytes_eq (by omega), ok_bind]
          exact Or.inl ⟨_, rfl⟩
        · split
          · exact Or.inl ⟨_, rfl⟩
          · exact Or.inr ⟨_, rfl, by dsimp only; omega, by dsimp only; omega⟩
    · refine Or.inl ⟨by omega, ?_⟩
      -- The sequence number or the flag behind it is not there.
      by_cases hseq : pos + 12 + 4 ≤ data.length
      · obtain ⟨seq, hseq⟩ := load32_some hseq
        rw [read32_eq hseq, ok_bind, List.getElem?_eq_none (by omega)]
        rfl
      · have hread : read32 data (pos + 12) = .error .outside := by
          unfold read32 load32
          rw [if_neg hseq]
          rfl
        rw [hread]
        rfl
  · simp only [if_neg hpos]
    exact Or.inr ⟨fun h => hpos ⟨h.1, h.2.1⟩, Or.inl ⟨_, rfl⟩⟩

/-- What a round that faults has found. -/
theorem entryRound_error {options : SSTableReaderOptions} {searchEnd : Nat} {key : Bytes}
    {s : Nat × Bytes} {e : Fault} (h : entryRound options data searchEnd key s = .error e) :
    e = .outside ∧ s.1 < searchEnd ∧ s.1 + 12 ≤ data.length ∧ data.length < s.1 + 17 := by
  rcases entryRound_cases options data searchEnd key s with
    ⟨hcut, herror⟩ | ⟨-, ⟨out, hout⟩ | ⟨s', hs', -⟩⟩
  · exact ⟨Except.error.inj (h.symm.trans herror), hcut⟩
  · exact nomatch hout.symm.trans h
  · exact nomatch hs'.symm.trans h

theorem entryRound_lowers {options : SSTableReaderOptions} {searchEnd : Nat} {key : Bytes}
    {s s' : Nat × Bytes} (h : entryRound options data searchEnd key s = .ok (.inl s')) :
    data.length - s'.1 < data.length - s.1 := by
  rcases entryRound_cases options data searchEnd key s with
    ⟨-, herror⟩ | ⟨-, ⟨out, hout⟩ | ⟨t, ht, hlt, hle⟩⟩
  · exact nomatch herror.symm.trans h
  · exact nomatch hout.symm.trans h
  · cases ht.symm.trans h
    omega

/-- The restart point number `i`; the product may count fewer than there are. -/
theorem readRestarts_get {numRestarts : UInt32} {restarts : List UInt32}
    (h : readRestarts data numRestarts = .ok restarts) {i : Nat} (hi : i < numRestarts.toNat) :
    restarts[i]? = if 4 * i + 4 ≤ (numRestarts * 4).toNat then
      load32 data (data.length - 4 - (numRestarts * 4).toNat + 4 * i) else some 0 := by
  have hfit := readRestarts_inside.mp ⟨restarts, h⟩
  unfold readRestarts restartsAt at h
  rw [if_neg (by omega), ok_bind, readBytes_eq (by omega), ok_bind] at h
  obtain rfl := Except.ok.inj h
  rw [List.getElem?_map, List.getElem?_range hi]
  generalize hn : (numRestarts * 4).toNat = n at *
  show some ((load32 _ (4 * i)).getD 0) = _
  unfold load32
  rw [List.length_take, List.length_drop, List.drop_take, List.drop_drop, List.take_take]
  by_cases hlt : 4 * i + 4 ≤ n
  · rw [if_pos (by omega), if_pos hlt, if_pos (by omega), Nat.min_eq_left (by omega)]
    rfl
  · rw [if_neg (by omega), if_neg hlt]
    rfl

/-- The last restart point. -/
def searchStart (data : Bytes) (n : UInt32) : Nat :=
  if n.toNat < 2 ^ 30 then ((load32 data (data.length - 8)).getD 0).toNat else 0

/-- Every entry the search comes to has its whole header in the block, or less
than 12 bytes of it. -/
def EntriesInside (options : SSTableReaderOptions) (data key : Bytes) : Prop :=
  ∀ n ∈ restartCount data, n ≠ 0 → n.toNat ≤ data.length / 4 →
    let searchEnd := data.length - 4 - 4 * n.toNat % 2 ^ 32
    ∀ pos lastKey, Visits (entryRound options data searchEnd key) (searchStart data n, [])
      (pos, lastKey) → pos < searchEnd → pos + 12 ≤ data.length → pos + 17 ≤ data.length

/-- The restart point that the search takes last is `searchStart`. -/
theorem last_restart {n : UInt32} (hpos : 0 < n.toNat) (hfit : 4 + (n * 4).toNat ≤ data.length) :
    ∃ r, r.toNat = searchStart data n ∧ (if 4 * (n.toNat - 1) + 4 ≤ (n * 4).toNat then
      load32 data (data.length - 4 - (n * 4).toNat + 4 * (n.toNat - 1)) else some 0) = some r := by
  have hlt := n.toNat_lt
  rw [toNat_mul_four] at hfit ⊢
  unfold searchStart
  by_cases hsmall : n.toNat < 2 ^ 30
  · obtain ⟨r, hr⟩ := load32_some (show data.length - 8 + 4 ≤ data.length by omega)
    rw [if_pos hsmall, if_pos (by omega), show data.length - 4 - 4 * n.toNat % 2 ^ 32
      + 4 * (n.toNat - 1) = data.length - 8 by omega, hr]
    exact ⟨r, rfl, rfl⟩
  · rw [if_neg hsmall, if_neg (by omega)]
    exact ⟨0, rfl, rfl⟩

/-- `GetFromBlock` starts at the last restart point and ends before the first. -/
theorem readFromBlock_eq (options : SSTableReaderOptions) (key : Bytes) {n : UInt32}
    (hsize : ¬ data.length < 4) (hn : load32 data (data.length - 4) = some n)
    (hcheck : ¬ (n = 0 ∨ n.toNat > data.length / 4))
    (hfit : 4 + (n * 4).toNat ≤ data.length) :
    readFromBlock options data key
      = loop (entryRound options data (data.length - 4 - 4 * n.toNat % 2 ^ 32) key) .endless
          (data.length + 1) (searchStart data n, []) := by
  obtain ⟨restarts, hrestarts⟩ := readRestarts_inside.mpr hfit
  have hpos : 0 < n.toNat := Nat.pos_of_ne_zero fun h => hcheck (Or.inl (UInt32.toNat_inj.mp h))
  have hget := readRestarts_get hrestarts (show n.toNat - 1 < n.toNat by omega)
  have hat : restartsAt data.length n = .ok (data.length - 4 - 4 * n.toNat % 2 ^ 32) := by
    unfold restartsAt
    rw [if_neg (by omega), toNat_mul_four]
  obtain ⟨r, hstart, hr⟩ := last_restart hpos hfit
  rw [hr] at hget
  have hright : restartSearch n.toNat 0 n.toNat = n.toNat :=
    restartSearch_eq (Nat.zero_le _) (Nat.sub_le _ _)
  unfold readFromBlock
  simp only [if_neg hsize, read32_eq hn, ok_bind, if_neg hcheck, hrestarts, hright, if_pos hpos,
    hget, if_neg (Nat.lt_irrefl _), hat, ← hstart]
  rfl

theorem readFromBlock_inside (options : SSTableReaderOptions) (data key : Bytes) :
    Inside (readFromBlock options data key) ↔
      RestartsInside data ∧ EntriesInside options data key := by
  unfold RestartsInside EntriesInside restartCount
  by_cases hsize : data.length < 4
  · unfold readFromBlock
    simp only [if_pos hsize]
    exact ⟨fun _ => ⟨fun n hn => (nomatch hn), fun n hn => (nomatch hn)⟩, fun _ => inside_ok _⟩
  · obtain ⟨n, hn⟩ := load32_some (show data.length - 4 + 4 ≤ data.length by omega)
    simp only [if_neg hsize, hn, Option.mem_some_iff, forall_eq']
    by_cases hcheck : n = 0 ∨ n.toNat > data.length / 4
    · unfold readFromBlock
      simp only [if_neg hsize, read32_eq hn, ok_bind, if_pos hcheck]
      refine ⟨fun _ => ⟨fun hne hquarter => ?_, fun hne hle => ?_⟩, fun _ => inside_ok _⟩
      · rcases hcheck with hzero | hmany
        · exact absurd hzero hne
        · omega
      · rcases hcheck with hzero | hmany
        · exact absurd hzero hne
        · omega
    · have hne : n ≠ 0 := fun h => hcheck (Or.inl h)
      have hle : n.toNat ≤ data.length / 4 := Nat.le_of_not_lt fun h => hcheck (Or.inr h)
      rw [forall_prop_of_true hne, ← restarts_fit_iff hcheck, forall_prop_of_true hne,
        forall_prop_of_true hle]
      by_cases hfit : 4 + (n * 4).toNat ≤ data.length
      · rw [readFromBlock_eq options key hsize hn hcheck hfit, and_iff_right hfit]
        refine (loop_ok_iff (fun s : Nat × Bytes => data.length - s.1)
          entryRound_lowers (Nat.lt_succ_of_le (Nat.sub_le _ _))).trans ?_
        constructor
        · intro hnone pos lastKey hvisits hlt hroom
          by_contra hheader
          rcases entryRound_cases options data _ key (pos, lastKey) with
            ⟨-, herror⟩ | ⟨hin, -⟩
          · exact hnone _ _ hvisits herror
          · exact hin ⟨hlt, hroom, Nat.lt_of_not_le hheader⟩
        · rintro hheaders ⟨pos, lastKey⟩ e hvisits herror
          obtain ⟨-, hlt, hroom, hcut⟩ := entryRound_error herror
          exact absurd (hheaders pos lastKey hvisits hlt hroom) (Nat.not_le_of_lt hcut)
      · refine ⟨fun hin => ?_, fun h => absurd h.1 hfit⟩
        unfold readFromBlock at hin
        simp only [if_neg hsize, read32_eq hn, ok_bind, if_neg hcheck] at hin
        -- The restart points are read before anything else.
        cases hrestarts : readRestarts data n with
        | ok restarts => exact absurd (readRestarts_inside.mp ⟨restarts, hrestarts⟩) hfit
        | error e =>
            rw [hrestarts] at hin
            exact absurd hin (not_inside_error e)

/-! ## §5. The search of the reader. -/

/-- One round of the two loops. -/
theorem entryLoop_round (options : SSTableReaderOptions) (data : Bytes) (searchEnd : Nat)
    (key : Bytes) (rounds pos : Nat) (lastKey : Bytes) :
    entryLoop options data searchEnd key (rounds + 1) pos lastKey
      = (entryRound options data searchEnd key (pos, lastKey)).toOption.bind fun next =>
          next.elim (fun s => entryLoop options data searchEnd key rounds s.1 s.2) some := by
  unfold entryRound
  conv_lhs => unfold entryLoop
  by_cases hpos : pos < searchEnd ∧ pos + 12 ≤ data.length
  · obtain ⟨shared, hshared⟩ := load32_some (show pos + 4 ≤ data.length by omega)
    obtain ⟨unshared, hunshared⟩ := load32_some (show pos + 4 + 4 ≤ data.length by omega)
    obtain ⟨valueLen, hvalueLen⟩ := load32_some (show pos + 8 + 4 ≤ data.length by omega)
    simp only [if_pos hpos, read32_eq hshared, read32_eq hunshared, read32_eq hvalueLen, ok_bind,
      hshared, hunshared, hvalueLen, Option.bind_eq_bind, Option.bind_some]
    unfold read32
    cases load32 data (pos + 12) with
    | none => rfl
    | some seq =>
        cases data[pos + 16]? with
        | none => rfl
        | some deleted =>
            simp only [inside, ok_bind, Option.bind_some]
            by_cases hfits : pos + 17 + shared.toNat + unshared.toNat + valueLen.toNat > data.length
            · rw [if_pos hfits, if_pos hfits]
              rfl
            · rw [if_neg hfits, if_neg hfits, readBytes_eq (by omega), ok_bind,
                readBytes_eq (by omega)]
              split
              · rfl
              · split <;> rfl
  · simp only [if_neg hpos]
    rfl

/-- Both loops end the same way, with rounds enough for the bytes left. -/
theorem entryLoop_eq_loop (options : SSTableReaderOptions) (data : Bytes) (searchEnd : Nat)
    (key : Bytes) {rounds : Nat} : ∀ {pos : Nat} {lastKey : Bytes},
      data.length - pos ≤ rounds →
      entryLoop options data searchEnd key rounds pos lastKey
        = (loop (entryRound options data searchEnd key) .endless (rounds + 1)
            (pos, lastKey)).toOption := by
  induction rounds with
  | zero =>
      intro pos lastKey hrounds
      have hdone : entryRound options data searchEnd key (pos, lastKey)
          = .ok (.inr (.notFound "Key not found in block", none)) := by
        unfold entryRound
        simp only [if_neg (show ¬ (pos < searchEnd ∧ pos + 12 ≤ data.length) by omega)]
        rfl
      rw [loop_done hdone]
      rfl
  | succ rounds ih =>
      intro pos lastKey hrounds
      rw [entryLoop_round]
      rcases entryRound_cases options data searchEnd key (pos, lastKey) with
        ⟨-, herror⟩ | ⟨-, ⟨out, hout⟩ | ⟨s', hs', hlt, -⟩⟩
      · rw [herror, loop_error herror]
        rfl
      · rw [hout, loop_done hout]
        rfl
      · rw [hs', loop_next hs']
        exact ih (by dsimp only at hlt; omega)

/-- **`searchBlock` is `readFromBlock`**, with all faults alike. -/
theorem searchBlock_eq_read (options : SSTableReaderOptions) (data key : Bytes) :
    searchBlock options data key = (readFromBlock options data key).toOption := by
  by_cases hsize : data.length < 4
  · unfold searchBlock readFromBlock
    simp only [if_pos hsize]
    rfl
  · obtain ⟨n, hn⟩ := load32_some (show data.length - 4 + 4 ≤ data.length by omega)
    by_cases hcheck : n = 0 ∨ n.toNat > data.length / 4
    · unfold searchBlock readFromBlock
      simp only [if_neg hsize, hn, read32_eq hn, ok_bind, if_pos hcheck, Option.bind_eq_bind,
        Option.bind_some]
      rfl
    · by_cases hfit : 4 + (n * 4).toNat ≤ data.length
      · have hpos : 0 < n.toNat :=
          Nat.pos_of_ne_zero fun h => hcheck (Or.inl (UInt32.toNat_inj.mp h))
        have hright : restartSearch n.toNat 0 n.toNat = n.toNat :=
          restartSearch_eq (Nat.zero_le _) (Nat.sub_le _ _)
        obtain ⟨r, hstart, hr⟩ := last_restart hpos hfit
        have hrestart : (if 4 * (n.toNat - 1) + 4 ≤ (n * 4).toNat then
            load32 data (data.length - 4 - (n * 4).toNat + 4 * (n.toNat - 1))
            else if n.toNat - 1 < n.toNat then some 0 else none) = some r := by
          rw [if_pos (show n.toNat - 1 < n.toNat by omega)]
          exact hr
        rw [readFromBlock_eq options key hsize hn hcheck hfit, ← hstart,
          ← entryLoop_eq_loop options data _ key (Nat.sub_le _ _)]
        rw [toNat_mul_four] at hrestart hfit
        unfold searchBlock
        simp only [if_neg hsize, hn, Option.bind_eq_bind, Option.bind_some, if_neg hcheck,
          toNat_mul_four, if_neg (Nat.not_lt_of_le hfit), hright, if_pos hpos, hrestart,
          if_neg (Nat.lt_irrefl _)]
      · unfold searchBlock readFromBlock readRestarts restartsAt
        simp only [if_neg hsize, hn, read32_eq hn, ok_bind, Option.bind_eq_bind, Option.bind_some,
          if_neg hcheck, if_pos (Nat.lt_of_not_le hfit)]
        rfl

/-! ## §6. All parsers. -/

/-- No loop runs out of rounds. -/
def Ends {α : Type} (x : Except Fault α) : Prop := x ≠ .error .endless

theorem ends_ok {α : Type} (a : α) : Ends (.ok a) := fun h => nomatch h

theorem ends_of_inside {α : Type} {x : Except Fault α} (h : Inside x) : Ends x := by
  obtain ⟨a, rfl⟩ := h
  exact ends_ok a

theorem ends_bind {α β : Type} {x : Except Fault α} {f : α → Except Fault β} (hx : Ends x)
    (hf : ∀ a, x = .ok a → Ends (f a)) : Ends (x >>= f) := by
  cases x with
  | error e => exact fun h => hx (congrArg Except.error (Except.error.inj h))
  | ok a => exact hf a rfl

theorem ends_inside {α : Type} (value : Option α) : Ends (inside value) := by
  cases value with
  | none => exact fun h => nomatch h
  | some a => exact ends_ok a

theorem ends_restartsAt (size : Nat) (numRestarts : UInt32) :
    Ends (restartsAt size numRestarts) := by
  unfold restartsAt
  split
  · exact fun h => nomatch h
  · exact ends_ok _

theorem ends_readRestarts (data : Bytes) (numRestarts : UInt32) :
    Ends (readRestarts data numRestarts) := by
  refine ends_bind (ends_restartsAt _ _) fun start _ => ends_bind ?_ fun bytes _ => ends_ok _
  unfold readBytes
  split
  · exact ends_ok _
  · exact fun h => nomatch h

theorem parseIndexBlock_ends (s : Impl) (data : Bytes) : Ends (s.parseIndexBlock data) := by
  unfold Impl.parseIndexBlock
  dsimp only
  split
  · exact ends_ok s
  · refine ends_bind (ends_inside _) fun n _ => ?_
    split
    · exact ends_ok s
    · refine ends_bind (ends_readRestarts data n) fun restarts _ =>
        ends_bind (ends_restartsAt _ _) fun last _ => ends_bind
          (ends_of_inside (foldlM_inside indexRun_inside _ _)) fun entries _ => ?_
      split
      · exact ends_ok _
      · exact ends_ok _

theorem readFromBlock_ends (options : SSTableReaderOptions) (data key : Bytes) :
    Ends (readFromBlock options data key) := by
  by_cases hsize : data.length < 4
  · unfold readFromBlock
    simp only [if_pos hsize]
    exact ends_ok _
  · obtain ⟨n, hn⟩ := load32_some (show data.length - 4 + 4 ≤ data.length by omega)
    by_cases hcheck : n = 0 ∨ n.toNat > data.length / 4
    · unfold readFromBlock
      simp only [if_neg hsize, read32_eq hn, ok_bind, if_pos hcheck]
      exact ends_ok _
    · by_cases hfit : 4 + (n * 4).toNat ≤ data.length
      · rw [readFromBlock_eq options key hsize hn hcheck hfit]
        intro hendless
        obtain ⟨t, -, herror⟩ := (loop_error_iff
          (fun s : Nat × Bytes => data.length - s.1) entryRound_lowers
          (Nat.lt_succ_of_le (Nat.sub_le _ _))).mp hendless
        exact nomatch (entryRound_error herror).1
      · unfold readFromBlock
        simp only [if_neg hsize, read32_eq hn, ok_bind, if_neg hcheck]
        exact ends_bind (ends_readRestarts data n) fun restarts hrestarts =>
          absurd (readRestarts_inside.mp ⟨restarts, hrestarts⟩) hfit

/-- **The parsers on any blocks**: where each of them stays inside, and that its
loop ends. -/
theorem parsers_inside (s : Impl) (options : SSTableReaderOptions)
    (index metaBlock block key : Bytes) :
    (Inside (s.parseIndexBlock index) ↔ RestartsInside index) ∧
      (Inside (s.parseMetaBlock metaBlock) ↔ MetaInside metaBlock) ∧
      (Inside (readFromBlock options block key) ↔
        RestartsInside block ∧ EntriesInside options block key) ∧
      (Inside (parseFirstEntry block) ↔ FirstInside block) ∧
      Ends (s.parseIndexBlock index) ∧ Ends (readFromBlock options block key) :=
  ⟨parseIndexBlock_inside s index, parseMetaBlock_inside s metaBlock,
    readFromBlock_inside options block key, parseFirstEntry_inside block,
    parseIndexBlock_ends s index, readFromBlock_ends options block key⟩

/-- A block that is nothing but a count of one, a count that would fill four such
blocks, a header without its last bytes, and a first key without a length behind it. -/
theorem parsers_inside_not :
    ({} : Impl).parseIndexBlock [1, 0, 0, 0] = .error .below ∧
      readFromBlock {} [1, 0, 0, 0] [97] = .error .below ∧
      parseFirstEntry [4, 0, 0, 0] = .error .below ∧
      readFromBlock {} [0, 0, 0, 0, 0, 0, 0, 0, 1, 0, 0, 0] [97] = .error .outside ∧
      ({} : Impl).parseMetaBlock (List.replicate 16 0 ++ [2, 0, 0, 0] ++ List.replicate 4 0)
        = .error .outside := by
  decide +kernel

end SSTableReader

end KvEngine
