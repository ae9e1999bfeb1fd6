/-
  KvEngine.SSTable.Index
  ──────────────────────
  The index block written and read back.

  `WriteIndexBlock` has no bytes for an index with entries: the handle of the
  first is inserted from a range that is none.  In the format it is after,
  every key is coded against the one before it, also at a restart point, and
  `ParseIndexBlock` forgets the key before at every restart point.  So a key
  that starts a run and shares a prefix comes back without it.  The reader
  also wants as many bytes behind an entry as its key shares, although these
  are not stored.

  Main results:
    * `foldl_addToIndex` — the bytes and the restart points in closed form;
    * `indexRun_eq` — what the reader makes of one run;
    * `index_format_reads_back` — which indexes come back in the format;
    * `index_round_trip` — which ones `WriteIndexBlock` builds and come back.
-/
import KvEngine.SSTable.Footer
import KvEngine.SSTable.Inside

namespace KvEngine

open Lib SSTable SSTableBuilder

namespace SSTableReader

/-! ## §1. The block as the builder writes it. -/

/-- An entry of the index behind the key `prev`. -/
def codeIndexEntry (prev : Bytes) (e : Bytes × BlockHandle) : Bytes :=
  let n := shared e.1 prev
  store32 (UInt32.ofNat n) ++ store32 (UInt32.ofNat (e.1.length - n))
    ++ store32 (UInt32.ofNat e.2.encode.length) ++ e.1.drop n ++ e.2.encode

def codeIndex : Bytes → List (Bytes × BlockHandle) → Bytes
  | _, [] => []
  | prev, e :: es => codeIndexEntry prev e ++ codeIndex e.1 es

/-- The key before what follows `es`. -/
def keyBehind : Bytes → List (Bytes × BlockHandle) → Bytes
  | prev, [] => prev
  | _, e :: es => keyBehind e.1 es

/-- The entries between the restart points, behind `count` others: every entry
whose number is a multiple of the interval starts a run. -/
def runs (interval : Nat) : Nat → List (Bytes × BlockHandle) → List (List (Bytes × BlockHandle))
  | _, [] => [[]]
  | count, e :: es =>
      let rest := runs interval (count + 1) es
      if (count + 1) % interval = 0 then [] :: (e :: rest.headD []) :: rest.tail
      else (e :: rest.headD []) :: rest.tail

/-- Where the runs start, the first at `base` behind the key `prev`. -/
def starts : Bytes → Nat → List (List (Bytes × BlockHandle)) → List Nat
  | _, _, [] => []
  | prev, base, run :: rest =>
      base :: starts (keyBehind prev run) (base + (codeIndex prev run).length) rest

theorem length_codeIndexEntry (prev : Bytes) (e : Bytes × BlockHandle) :
    (codeIndexEntry prev e).length = 28 + (e.1.length - shared e.1 prev) := by
  unfold codeIndexEntry
  simp only [List.length_append, length_store32, List.length_drop,
    SSTableFooter.length_encode_handle]
  omega

theorem codeIndex_append (prev : Bytes) (xs ys : List (Bytes × BlockHandle)) :
    codeIndex prev (xs ++ ys) = codeIndex prev xs ++ codeIndex (keyBehind prev xs) ys := by
  induction xs generalizing prev with
  | nil => rfl
  | cons x xs ih =>
      show codeIndexEntry prev x ++ codeIndex x.1 (xs ++ ys) = _
      rw [ih, ← List.append_assoc]
      rfl

theorem runs_cons (interval count : Nat) (es : List (Bytes × BlockHandle)) :
    ∃ run rest, runs interval count es = run :: rest := by
  cases es with
  | nil => exact ⟨[], [], rfl⟩
  | cons e es =>
      unfold runs
      dsimp only
      split
      · exact ⟨_, _, rfl⟩
      · exact ⟨_, _, rfl⟩

/-- The runs, put together, are the entries. -/
theorem flatten_runs (interval count : Nat) (es : List (Bytes × BlockHandle)) :
    (runs interval count es).flatten = es := by
  induction es generalizing count with
  | nil => rfl
  | cons e es ih =>
      obtain ⟨run, rest, hruns⟩ := runs_cons interval (count + 1) es
      have hflat := ih (count + 1)
      unfold runs
      rw [hruns] at hflat ⊢
      have hmine : ((e :: run) :: rest).flatten = e :: es := congrArg (e :: ·) hflat
      dsimp only [List.headD_cons, List.tail_cons]
      split
      · exact hmine
      · exact hmine

/-- **The index in closed form**: the bytes, the last key and the restart points. -/
theorem foldl_addToIndex (interval : Nat) (es : List (Bytes × BlockHandle)) (data prev : Bytes)
    (restarts : List UInt32) (count : Nat) :
    es.foldl (Impl.addToIndex interval) (data, prev, restarts, count)
      = (data ++ codeIndex prev es, keyBehind prev es,
          restarts ++ ((starts prev data.length (runs interval count es)).tail.map UInt32.ofNat),
          count + es.length) := by
  induction es generalizing data prev restarts count with
  | nil =>
      show (data, prev, restarts, count) = (data ++ [], prev, restarts ++ [], count + 0)
      rw [List.append_nil, List.append_nil, Nat.add_zero]
  | cons e es ih =>
      obtain ⟨run, rest, hruns⟩ := runs_cons interval (count + 1) es
      have hstep : Impl.addToIndex interval (data, prev, restarts, count) e
          = (data ++ codeIndexEntry prev e, e.1, if (count + 1) % interval = 0 then
              restarts ++ [UInt32.ofNat data.length] else restarts, count + 1) := by
        unfold Impl.addToIndex codeIndexEntry
        rfl
      -- What follows the entry starts where the run of the entry goes on.
      have hmine : (starts prev data.length ((e :: run) :: rest)).tail
          = (starts e.1 (data ++ codeIndexEntry prev e).length (run :: rest)).tail := by
        show starts _ (data.length + (codeIndexEntry prev e ++ codeIndex e.1 run).length) rest
          = starts _ _ rest
        rw [List.length_append, List.length_append, Nat.add_assoc]
        rfl
      rw [List.foldl_cons, hstep, ih, hruns, ← hmine]
      unfold runs
      rw [hruns]
      dsimp only [List.headD_cons, List.tail_cons]
      refine Prod.ext (List.append_assoc _ _ _) (Prod.ext rfl (Prod.ext ?_ ?_))
      · dsimp only
        by_cases hrestart : (count + 1) % interval = 0
        · rw [if_pos hrestart, if_pos hrestart, List.append_assoc]
          rfl
        · rw [if_neg hrestart, if_neg hrestart]
      · show count + 1 + es.length = count + (es.length + 1)
        omega

/-! ## §2. What the reader makes of a run. -/

/-- The entries the reader finds in a run: `prev` is the key the first of them
was coded against, `last` the key the reader decodes it from, and `tail` the
number of bytes behind the run. -/
def decodeRun (tail : Nat) : Bytes → Bytes → List (Bytes × BlockHandle) →
    List (Bytes × BlockHandle)
  | _, _, [] => []
  | prev, last, e :: es =>
      let n := shared e.1 prev
      if n > (codeIndex e.1 es).length + tail then []
      else
        let key := last.take n ++ e.1.drop n
        (key, e.2) :: decodeRun tail e.1 key es

/-- The entries found in all runs, the last of which has `tail` bytes behind it. -/
def decodeRuns (tail : Nat) : Bytes → List (List (Bytes × BlockHandle)) →
    List (Bytes × BlockHandle)
  | _, [] => []
  | prev, run :: rest =>
      decodeRun ((codeIndex (keyBehind prev run) rest.flatten).length + tail) prev [] run
        ++ decodeRuns tail (keyBehind prev run) rest

theorem decode_encode_handle (h : BlockHandle) : BlockHandle.decode h.encode = .ok h := by
  have hoffset : load64 h.encode 0 = some h.offset := load64_store h.offset (store64 h.size)
  have hsize : load64 h.encode (0 + 8) = some h.size := by
    unfold BlockHandle.encode
    rw [load64_store64_add]
    have := load64_store h.size []
    rwa [List.append_nil] at this
  unfold BlockHandle.decode
  rw [hoffset, hsize]

/-- **One round of the loop**, on an entry whose key takes less than 4 GiB. -/
theorem indexRound_step {data before rest : Bytes} {prev : Bytes} {e : Bytes × BlockHandle}
    (hdata : data = before ++ (codeIndexEntry prev e ++ rest)) (hkey : e.1.length < 2 ^ 32)
    {nextRestart : Nat} (hpos : before.length < nextRestart) (last : Bytes)
    (entries : List (Bytes × BlockHandle)) :
    indexRound data nextRestart (before.length, last, entries)
      = if shared e.1 prev > rest.length then .ok (.inr entries)
        else
          let key := last.take (shared e.1 prev) ++ e.1.drop (shared e.1 prev)
          .ok (.inl ((before ++ codeIndexEntry prev e).length, key, entries ++ [(key, e.2)])) := by
  have hle : shared e.1 prev ≤ e.1.length := commonPrefix_le e.1 prev
  generalize hn : shared e.1 prev = n at hle ⊢
  have hlen : data.length = before.length + (28 + (e.1.length - n) + rest.length) := by
    rw [hdata, List.length_append, List.length_append, length_codeIndexEntry, hn]
  have hhandle : e.2.encode.length = 16 := SSTableFooter.length_encode_handle e.2
  have hbytes : codeIndexEntry prev e ++ rest
      = store32 (UInt32.ofNat n) ++ (store32 (UInt32.ofNat (e.1.length - n))
        ++ (store32 (UInt32.ofNat 16) ++ (e.1.drop n ++ (e.2.encode ++ rest)))) := by
    unfold codeIndexEntry
    rw [hn, hhandle]
    simp only [List.append_assoc]
  -- the header
  have hshared : load32 data before.length = some (UInt32.ofNat n) := by
    have := load32_append before (codeIndexEntry prev e ++ rest) 0
    rw [hdata, ← Nat.add_zero before.length, this, hbytes, load32_store]
  have hunshared : load32 data (before.length + 4) = some (UInt32.ofNat (e.1.length - n)) := by
    rw [hdata, load32_append, hbytes]
    simp only [load32_store32_add, load32_store]
  have hsize : load32 data (before.length + 8) = some (UInt32.ofNat 16) := by
    rw [hdata, load32_append, hbytes]
    simp only [load32_store32_add, load32_store]
  -- the key and the handle, behind the 12 bytes of the numbers
  have hdrop : data.drop (before.length + 12) = e.1.drop n ++ (e.2.encode ++ rest) := by
    rw [hdata, List.drop_length_add_append, hbytes, ← List.append_assoc, ← List.append_assoc]
    exact List.drop_left' (by simp only [List.length_append, length_store32])
  have hdrop' : data.drop (before.length + 12 + (e.1.length - n)) = e.2.encode ++ rest := by
    rw [← List.drop_drop, hdrop]
    exact List.drop_left' List.length_drop
  have hfits : before.length + 12 + n + (e.1.length - n) + 16 > data.length ↔ n > rest.length := by
    omega
  have hnext : (before ++ codeIndexEntry prev e).length
      = before.length + 12 + (e.1.length - n) + 16 := by
    rw [List.length_append, length_codeIndexEntry, hn]
    omega
  unfold indexRound
  simp only [if_pos (show before.length < nextRestart ∧ before.length + 12 ≤ data.length by omega),
    read32_eq hshared, read32_eq hunshared, read32_eq hsize, ok_bind,
    toNat_ofNat (show n < 2 ^ 32 by omega), toNat_ofNat (show e.1.length - n < 2 ^ 32 by omega),
    toNat_ofNat (show 16 < 2 ^ 32 by decide)]
  by_cases hroom : n > rest.length
  · rw [if_pos (hfits.mpr hroom), if_pos hroom]
    rfl
  · rw [if_neg (mt hfits.mp hroom), if_neg hroom, readBytes_eq (by omega), ok_bind,
      readBytes_eq (by omega), ok_bind, hdrop, hdrop', List.take_left' List.length_drop,
      List.take_left' hhandle, decode_encode_handle, hnext]
    rfl

/-- **The loop over a run** finds what `decodeRun` says. -/
theorem indexLoop_eq {data rest : Bytes} {run : List (Bytes × BlockHandle)}
    (hkeys : ∀ e ∈ run, e.1.length < 2 ^ 32) :
    ∀ {before prev : Bytes} (last : Bytes) (entries : List (Bytes × BlockHandle)) {rounds : Nat},
      run.length < rounds → data = before ++ (codeIndex prev run ++ rest) →
      loop (indexRound data (before.length + (codeIndex prev run).length)) .endless rounds
          (before.length, last, entries)
        = .ok (entries ++ decodeRun rest.length prev last run) := by
  induction run with
  | nil =>
      intro before prev last entries rounds hrounds _
      obtain ⟨rounds, rfl⟩ := Nat.exists_eq_add_of_lt hrounds
      have hdone : indexRound data (before.length + (codeIndex prev []).length)
          (before.length, last, entries) = .ok (.inr entries) := by
        unfold indexRound
        exact if_neg (fun h => Nat.lt_irrefl _ h.1)
      rw [loop_done hdone]
      exact congrArg Except.ok (List.append_nil _).symm
  | cons e es ih =>
      intro before prev last entries rounds hrounds hdata
      obtain ⟨rounds, rfl⟩ : ∃ k, rounds = k + 1 := ⟨rounds - 1, by omega⟩
      have hdata' : data = before ++ (codeIndexEntry prev e ++ (codeIndex e.1 es ++ rest)) := by
        rw [hdata]
        exact congrArg (before ++ ·) (List.append_assoc _ _ _)
      have hlen : (codeIndex prev (e :: es)).length
          = (codeIndexEntry prev e).length + (codeIndex e.1 es).length := List.length_append
      have hpos : before.length < before.length + (codeIndex prev (e :: es)).length := by
        rw [hlen, length_codeIndexEntry]
        omega
      have hround := indexRound_step hdata' (hkeys e List.mem_cons_self) hpos last entries
      rw [List.length_append] at hround
      unfold decodeRun
      by_cases hroom : shared e.1 prev > (codeIndex e.1 es).length + rest.length
      · rw [if_pos hroom] at hround
        rw [loop_done hround]
        dsimp only
        rw [if_pos hroom, List.append_nil]
      · rw [if_neg hroom] at hround
        rw [loop_next hround]
        dsimp only
        have hih := @ih (fun x hx => hkeys x (List.mem_cons_of_mem _ hx))
          (before ++ codeIndexEntry prev e) e.1
          (last.take (shared e.1 prev) ++ e.1.drop (shared e.1 prev))
          (entries ++ [(last.take (shared e.1 prev) ++ e.1.drop (shared e.1 prev), e.2)])
          rounds (by rw [List.length_cons] at hrounds; omega) (by rw [hdata', List.append_assoc])
        rw [List.length_append, Nat.add_assoc, ← hlen] at hih
        rw [if_neg hroom, List.length_append, hih, List.append_assoc]
        rfl

theorem length_le_codeIndex (prev : Bytes) (es : List (Bytes × BlockHandle)) :
    es.length ≤ (codeIndex prev es).length := by
  induction es generalizing prev with
  | nil => exact Nat.le_refl 0
  | cons e es ih =>
      have := ih e.1
      have hlen : (codeIndex prev (e :: es)).length
          = (codeIndexEntry prev e).length + (codeIndex e.1 es).length := List.length_append
      rw [hlen, length_codeIndexEntry, List.length_cons]
      omega

theorem indexRun_eq {data before rest prev : Bytes} {run : List (Bytes × BlockHandle)}
    (hdata : data = before ++ (codeIndex prev run ++ rest))
    (hkeys : ∀ e ∈ run, e.1.length < 2 ^ 32) (hstart : before.length < 2 ^ 32)
    (entries : List (Bytes × BlockHandle)) :
    indexRun data entries
        (UInt32.ofNat before.length, before.length + (codeIndex prev run).length)
      = .ok (entries ++ decodeRun rest.length prev [] run) := by
  unfold indexRun
  dsimp only
  rw [toNat_ofNat hstart]
  refine indexLoop_eq hkeys [] entries ?_ hdata
  have hle := length_le_codeIndex prev run
  rw [hdata, List.length_append, List.length_append]
  omega

theorem runsOf_cons (r : UInt32) (restarts : List UInt32) (last : Nat) :
    runsOf (r :: restarts) last
      = (r, (restarts.head?.map UInt32.toNat).getD last) :: runsOf restarts last := by
  cases restarts <;> rfl

/-- **All runs**, one after the other. -/
theorem foldlM_indexRun {data tail : Bytes} {rs : List (List (Bytes × BlockHandle))}
    (hkeys : ∀ e ∈ rs.flatten, e.1.length < 2 ^ 32) (hsize : data.length < 2 ^ 32) :
    ∀ {before prev : Bytes} (entries : List (Bytes × BlockHandle)),
      data = before ++ (codeIndex prev rs.flatten ++ tail) →
      (runsOf ((starts prev before.length rs).map UInt32.ofNat)
          (before.length + (codeIndex prev rs.flatten).length)).foldlM (indexRun data) entries
        = .ok (entries ++ decodeRuns tail.length prev rs) := by
  induction rs with
  | nil => exact fun entries _ => congrArg Except.ok (List.append_nil entries).symm
  | cons run rest ih =>
      intro before prev entries hdata
      rw [List.flatten_cons] at hkeys
      have hsplit : codeIndex prev (run :: rest).flatten
          = codeIndex prev run ++ codeIndex (keyBehind prev run) rest.flatten := by
        rw [List.flatten_cons, codeIndex_append]
      rw [hsplit, List.append_assoc] at hdata
      have hlen := congrArg List.length hdata
      simp only [List.length_append] at hlen
      -- The run ends where the next one starts, or where all runs end.
      have hnext : ((((starts (keyBehind prev run) (before.length + (codeIndex prev run).length)
          rest).map UInt32.ofNat).head?).map UInt32.toNat).getD
            (before.length + (codeIndex prev (run :: rest).flatten).length)
          = before.length + (codeIndex prev run).length := by
        cases rest with
        | nil =>
            rw [hsplit]
            show before.length + (codeIndex prev run ++ []).length = _
            rw [List.append_nil]
        | cons next rest => exact toNat_ofNat (by omega)
      have hrun := indexRun_eq hdata (fun e he => hkeys e (List.mem_append_left _ he))
        (by omega) entries
      have hrest := @ih (fun e he => hkeys e (List.mem_append_right _ he))
        (before ++ codeIndex prev run) (keyBehind prev run)
        (entries ++ decodeRun ((codeIndex (keyBehind prev run) rest.flatten).length + tail.length)
          prev [] run) (by rw [hdata, List.append_assoc])
      rw [List.length_append] at hrun hrest
      unfold starts
      rw [List.map_cons, runsOf_cons, hnext, List.foldlM_cons, hrun, ok_bind, hsplit,
        List.length_append, ← Nat.add_assoc, hrest]
      exact congrArg Except.ok (List.append_assoc _ _ _)

/-! ## §3. The whole block. -/

theorem length_runs (interval count : Nat) (es : List (Bytes × BlockHandle)) :
    (runs interval count es).length + count / interval = (count + es.length) / interval + 1 := by
  induction es generalizing count with
  | nil => exact Nat.add_comm 1 _
  | cons e es ih =>
      obtain ⟨run, rest, hruns⟩ := runs_cons interval (count + 1) es
      have hlen := ih (count + 1)
      unfold runs
      rw [hruns] at hlen ⊢
      dsimp only [List.headD_cons, List.tail_cons]
      rw [List.length_cons] at hlen
      rw [show count + (e :: es).length = count + 1 + es.length by rw [List.length_cons]; omega,
        ← hlen, Nat.succ_div]
      by_cases hrestart : (count + 1) % interval = 0
      · rw [if_pos hrestart, if_pos (Nat.dvd_of_mod_eq_zero hrestart)]
        simp only [List.length_cons]
        omega
      · rw [if_neg hrestart, if_neg (fun h => hrestart (Nat.mod_eq_zero_of_dvd h))]
        simp only [List.length_cons]
        omega

theorem length_starts (prev : Bytes) (base : Nat) (rs : List (List (Bytes × BlockHandle))) :
    (starts prev base rs).length = rs.length := by
  induction rs generalizing prev base with
  | nil => rfl
  | cons run rest ih => exact congrArg (· + 1) (ih _ _)

/-- The bytes behind the entries: the restart points and their number. -/
def tailLength (interval count : Nat) : Nat := 4 * (count / interval + 1) + 4

theorem indexBytes_eq (s : SSTableBuilder.Impl) :
    s.indexBytes = codeIndex [] s.indexEntries ++ restartBytes ((starts [] 0
      (runs s.options.blockRestartInterval 0 s.indexEntries)).map UInt32.ofNat) := by
  obtain ⟨run, rest, hruns⟩ := runs_cons s.options.blockRestartInterval 0 s.indexEntries
  unfold SSTableBuilder.Impl.indexBytes
  rw [foldl_addToIndex, hruns]
  rfl

/-- The restart points come back. -/
theorem load32_restarts (restarts : List UInt32) (after : Bytes) {i : Nat}
    (h : i < restarts.length) :
    load32 (restarts.flatMap store32 ++ after) (4 * i) = restarts[i]? := by
  induction restarts generalizing i with
  | nil => exact absurd h (Nat.not_lt_zero i)
  | cons r rs ih =>
      rw [List.flatMap_cons, List.append_assoc]
      cases i with
      | zero => exact load32_store r _
      | succ i =>
          rw [Nat.mul_succ, load32_store32_add]
          exact ih (Nat.lt_of_succ_lt_succ h)

theorem readRestarts_eq (entries : Bytes) {restarts : List UInt32}
    (hsize : (entries ++ restartBytes restarts).length < 2 ^ 32) :
    (UInt32.ofNat restarts.length).toNat = restarts.length ∧
      load32 (entries ++ restartBytes restarts) ((entries ++ restartBytes restarts).length - 4)
        = some (UInt32.ofNat restarts.length) ∧
      restartsAt (entries ++ restartBytes restarts).length (UInt32.ofNat restarts.length)
        = .ok entries.length ∧
      readRestarts (entries ++ restartBytes restarts) (UInt32.ofNat restarts.length)
        = .ok restarts := by
  rw [List.length_append, length_restartBytes] at hsize
  have hcount : (UInt32.ofNat restarts.length).toNat = restarts.length := toNat_ofNat (by omega)
  have hfour : (UInt32.ofNat restarts.length * 4).toNat = 4 * restarts.length := by
    rw [toNat_mul_four, hcount]
    exact Nat.mod_eq_of_lt (by omega)
  have hlen : (entries ++ restartBytes restarts).length
      = entries.length + 4 * restarts.length + 4 := by
    rw [List.length_append, length_restartBytes]
    omega
  refine ⟨hcount, ?_, ?_, ?_⟩
  · rw [hlen, Nat.add_sub_cancel]
    unfold restartBytes
    rw [load32_append, ← length_flatMap_store32]
    have := load32_append (restarts.flatMap store32) (store32 (UInt32.ofNat restarts.length)) 0
    rw [Nat.add_zero] at this
    rw [this]
    have hstore := load32_store (UInt32.ofNat restarts.length) []
    rwa [List.append_nil] at hstore
  · unfold restartsAt
    rw [hlen, hfour, if_neg (by omega)]
    exact congrArg Except.ok (by omega)
  · obtain ⟨found, hfound⟩ : Inside (readRestarts (entries ++ restartBytes restarts)
        (UInt32.ofNat restarts.length)) :=
      readRestarts_inside.mpr (by rw [hfour, hlen]; omega)
    have hlength := length_of_readRestarts hfound
    rw [hcount] at hlength
    rw [hfound]
    refine congrArg Except.ok (List.ext_getElem? fun i => ?_)
    by_cases hi : i < restarts.length
    · rw [readRestarts_get hfound (by rw [hcount]; exact hi), hfour, if_pos (by omega), hlen,
        show entries.length + 4 * restarts.length + 4 - 4 - 4 * restarts.length + 4 * i
          = entries.length + 4 * i by omega, load32_append]
      exact load32_restarts restarts _ hi
    · rw [List.getElem?_eq_none (by omega), List.getElem?_eq_none (by omega)]

/-- No key is longer than all that is stored. -/
theorem length_key_le (prev : Bytes) (es : List (Bytes × BlockHandle)) :
    ∀ e ∈ es, e.1.length ≤ prev.length + (codeIndex prev es).length := by
  induction es generalizing prev with
  | nil => exact fun e he => absurd he List.not_mem_nil
  | cons e es ih =>
      have hshared : shared e.1 prev ≤ prev.length := commonPrefix_le_right e.1 prev
      have hlen : (codeIndex prev (e :: es)).length
          = (codeIndexEntry prev e).length + (codeIndex e.1 es).length := List.length_append
      rw [hlen, length_codeIndexEntry]
      intro x hx
      rcases List.mem_cons.mp hx with rfl | hx
      · omega
      · have := ih e.1 x hx
        omega

/-- **What the reader finds in the block.** -/
theorem parseIndexBlock_eq (s : SSTableBuilder.Impl) (hsize : s.indexBytes.length < 2 ^ 32) :
    ∃ r, ({} : Impl).parseIndexBlock s.indexBytes = .ok r ∧
      r.indexEntries = decodeRuns
        (tailLength s.options.blockRestartInterval s.indexEntries.length) []
        (runs s.options.blockRestartInterval 0 s.indexEntries) := by
  have hbytes := indexBytes_eq s
  have hflat := flatten_runs s.options.blockRestartInterval 0 s.indexEntries
  have hcount := length_runs s.options.blockRestartInterval 0 s.indexEntries
  rw [Nat.zero_div, Nat.add_zero, Nat.zero_add] at hcount
  generalize hrs : runs s.options.blockRestartInterval 0 s.indexEntries = rs at *
  generalize hrestarts : (starts [] 0 rs).map UInt32.ofNat = restarts at hbytes
  have hlength : restarts.length
      = s.indexEntries.length / s.options.blockRestartInterval + 1 := by
    rw [← hrestarts, List.length_map, length_starts, hcount]
  rw [hbytes] at hsize ⊢
  obtain ⟨htoNat, hnum, hat, hread⟩ := readRestarts_eq (codeIndex [] s.indexEntries) hsize
  rw [List.length_append, length_restartBytes] at hsize
  have hlen : (codeIndex [] s.indexEntries ++ restartBytes restarts).length
      = (codeIndex [] s.indexEntries).length + (4 * restarts.length + 4) := by
    rw [List.length_append, length_restartBytes]
  have hcheck : ¬ (UInt32.ofNat restarts.length = 0 ∨ (UInt32.ofNat restarts.length).toNat
      > (codeIndex [] s.indexEntries ++ restartBytes restarts).length / 4) := by
    rintro (hzero | hmany)
    · rw [hzero, hlength] at htoNat
      exact absurd htoNat (Nat.succ_ne_zero _).symm
    · rw [htoNat, hlen] at hmany
      omega
  have hfold := @foldlM_indexRun (codeIndex [] s.indexEntries ++ restartBytes restarts)
    (restartBytes restarts) rs
    (fun e he => by
      have := length_key_le [] s.indexEntries e (hflat ▸ he)
      rw [List.length_nil] at this
      omega)
    (by rw [hlen]; exact hsize) [] [] []
    (by rw [hflat]; rfl)
  rw [List.length_nil, hrestarts, hflat, Nat.zero_add, List.nil_append, length_restartBytes,
    hlength] at hfold
  unfold Impl.parseIndexBlock
  simp only [if_neg (show ¬ (codeIndex [] s.indexEntries ++ restartBytes restarts).length < 4 by
    rw [hlen]; omega), read32_eq hnum, ok_bind, if_neg hcheck, hread, hat]
  rw [hfold, ok_bind]
  unfold tailLength
  split
  · exact ⟨_, rfl, rfl⟩
  · exact ⟨_, rfl, rfl⟩

/-! ## §4. Which indexes come back. -/

/-- Behind `count` entries, the last of them with the key `prev`: an entry whose
number is a multiple of the interval shares nothing with the one before it, and no
entry shares more bytes than follow it, `tail` bytes behind the last included. -/
def ReadsBack (interval tail : Nat) : Nat → Bytes → List (Bytes × BlockHandle) → Prop
  | _, _, [] => True
  | count, prev, e :: es =>
      ((count + 1) % interval = 0 → shared e.1 prev = 0) ∧
        shared e.1 prev ≤ (codeIndex e.1 es).length + tail ∧
        ReadsBack interval tail (count + 1) e.1 es

theorem length_decodeRun_le (tail : Nat) (prev last : Bytes) (run : List (Bytes × BlockHandle)) :
    (decodeRun tail prev last run).length ≤ run.length := by
  induction run generalizing prev last with
  | nil => exact Nat.le_refl 0
  | cons e es ih =>
      unfold decodeRun
      dsimp only
      split
      · exact Nat.zero_le _
      · exact Nat.succ_le_succ (ih _ _)

theorem length_decodeRuns_le (tail : Nat) (prev : Bytes)
    (rs : List (List (Bytes × BlockHandle))) :
    (decodeRuns tail prev rs).length ≤ rs.flatten.length := by
  induction rs generalizing prev with
  | nil => exact Nat.le_refl 0
  | cons run rest ih =>
      unfold decodeRuns
      rw [List.flatten_cons, List.length_append, List.length_append]
      exact Nat.add_le_add (length_decodeRun_le _ _ _ _) (ih _)

/-- The entry at the front of a run comes back if it is decoded to its key and enough
bytes follow it. -/
theorem decodeRun_front {tail : Nat} (prev last : Bytes) {e : Bytes × BlockHandle}
    {run : List (Bytes × BlockHandle)} {rest : List (List (Bytes × BlockHandle))} {P : Prop}
    (hP : decodeRun ((codeIndex (keyBehind e.1 run) rest.flatten).length + tail) e.1 e.1 run
      ++ decodeRuns tail (keyBehind e.1 run) rest = run ++ rest.flatten ↔ P) :
    decodeRun ((codeIndex (keyBehind e.1 run) rest.flatten).length + tail) prev last (e :: run)
        ++ decodeRuns tail (keyBehind e.1 run) rest = e :: (run ++ rest.flatten) ↔
      last.take (shared e.1 prev) ++ e.1.drop (shared e.1 prev) = e.1 ∧
        shared e.1 prev ≤ (codeIndex e.1 (run ++ rest.flatten)).length + tail ∧ P := by
  rw [codeIndex_append, List.length_append, Nat.add_assoc]
  unfold decodeRun
  dsimp only
  by_cases hroom : shared e.1 prev > (codeIndex e.1 run).length
      + ((codeIndex (keyBehind e.1 run) rest.flatten).length + tail)
  · -- The run is given up, and what is left is too short.
    rw [if_pos hroom]
    refine ⟨fun h => ?_, fun h => absurd h.2.1 (Nat.not_le_of_lt hroom)⟩
    have hlen := congrArg List.length h
    have hle := length_decodeRuns_le tail (keyBehind e.1 run) rest
    rw [List.nil_append, List.length_cons, List.length_append] at hlen
    omega
  · rw [if_neg hroom, List.cons_append, List.cons_eq_cons, and_iff_right (Nat.le_of_not_lt hroom),
      Prod.ext_iff]
    simp only [and_true]
    refine and_congr_right fun hkey => ?_
    rw [hkey]
    exact hP

/-- **The runs come back**, the first of them decoded from the key before it. -/
theorem decodeRuns_eq_iff (interval tail : Nat) (es : List (Bytes × BlockHandle)) :
    ∀ {count : Nat} {prev : Bytes} {run : List (Bytes × BlockHandle)}
      {rest : List (List (Bytes × BlockHandle))}, runs interval count es = run :: rest →
      (decodeRun ((codeIndex (keyBehind prev run) rest.flatten).length + tail) prev prev run
        ++ decodeRuns tail (keyBehind prev run) rest = es ↔
        ReadsBack interval tail count prev es) := by
  induction es with
  | nil =>
      intro count prev run rest hruns
      cases hruns
      exact ⟨fun _ => trivial, fun _ => rfl⟩
  | cons e es ih =>
      intro count prev run rest hruns
      obtain ⟨run', rest', hruns'⟩ := runs_cons interval (count + 1) es
      have hflat : run' ++ rest'.flatten = es := by
        have := flatten_runs interval (count + 1) es
        rwa [hruns'] at this
      have hfront := fun last => decodeRun_front prev last
        (P := ReadsBack interval tail (count + 1) e.1 es)
        (by rw [hflat]; exact ih hruns')
      unfold runs at hruns
      rw [hruns'] at hruns
      dsimp only [List.headD_cons, List.tail_cons] at hruns
      unfold ReadsBack
      rw [hflat] at hfront
      by_cases hrestart : (count + 1) % interval = 0
      · -- A restart point: nothing of the key before is known.
        rw [if_pos hrestart] at hruns
        cases hruns
        rw [forall_prop_of_true hrestart]
        refine (hfront []).trans (and_congr ?_ Iff.rfl)
        have hle : shared e.1 prev ≤ e.1.length := commonPrefix_le e.1 prev
        rw [List.take_nil, List.nil_append]
        refine ⟨fun h => ?_, fun h => by rw [h]; rfl⟩
        have hlen := congrArg List.length h
        rw [List.length_drop] at hlen
        omega
      · rw [if_neg hrestart] at hruns
        cases hruns
        rw [forall_prop_of_false hrestart, true_and]
        refine (hfront prev).trans (and_iff_right ?_)
        exact decode_self e.1 prev

/-- **Which indexes come back in the format**, of those below 4 GiB: no key at a restart point
shares a prefix with the key before it, and every entry has as many bytes behind
it as its key shares. -/
theorem index_format_reads_back (s : SSTableBuilder.Impl) (hsize : s.indexBytes.length < 2 ^ 32) :
    (∃ r, ({} : Impl).parseIndexBlock s.indexBytes = .ok r ∧ r.indexEntries = s.indexEntries) ↔
      ReadsBack s.options.blockRestartInterval
        (tailLength s.options.blockRestartInterval s.indexEntries.length) 0 [] s.indexEntries := by
  obtain ⟨r, hparse, hentries⟩ := parseIndexBlock_eq s hsize
  obtain ⟨run, rest, hruns⟩ := runs_cons s.options.blockRestartInterval 0 s.indexEntries
  have hexists : (∃ r, ({} : Impl).parseIndexBlock s.indexBytes = .ok r ∧
      r.indexEntries = s.indexEntries) ↔ r.indexEntries = s.indexEntries := by
    refine ⟨?_, fun h => ⟨r, hparse, h⟩⟩
    rintro ⟨r', hparse', hback⟩
    cases hparse.symm.trans hparse'
    exact hback
  rw [hexists, hentries, hruns]
  exact decodeRuns_eq_iff _ _ _ hruns

/-- An index with a restart point at every second entry. -/
def everySecond (indexEntries : List (Bytes × BlockHandle)) : SSTableBuilder.Impl :=
  { options := { blockRestartInterval := 2 }, indexEntries }

/-- The second of two keys with one prefix starts a run, and comes back without it. -/
example : (({} : Impl).parseIndexBlock
      (everySecond [([97, 97], ⟨0, 20⟩), ([97, 98], ⟨20, 30⟩)]).indexBytes).toOption.map
    Impl.indexEntries = some [([97, 97], ⟨0, 20⟩), ([98], ⟨20, 30⟩)] := by decide +kernel

/-- Three entries, the last two with a prefix in common. -/
theorem index_format_reads_back_three : ∃ r, ({} : Impl).parseIndexBlock (everySecond
      [([97, 97], ⟨0, 20⟩), ([98, 97], ⟨20, 30⟩), ([98, 98], ⟨50, 40⟩)]).indexBytes = .ok r ∧
    r.indexEntries = [([97, 97], ⟨0, 20⟩), ([98, 97], ⟨20, 30⟩), ([98, 98], ⟨50, 40⟩)] :=
  (index_format_reads_back (everySecond _) (by decide +kernel)).mpr
    ⟨by decide, by decide, by decide, by decide, by decide, by decide, trivial⟩

/-- **Which indexes are built and come back**, every header taken as written at the
end of the buffer: the empty one. -/
theorem index_round_trip (s : SSTableBuilder.Impl) :
    (∃ bytes r, s.indexData = some bytes ∧ ({} : Impl).parseIndexBlock bytes = .ok r ∧
      r.indexEntries = s.indexEntries) ↔ s.indexEntries = [] := by
  unfold SSTableBuilder.Impl.indexData
  cases hentries : s.indexEntries with
  | nil =>
      -- the eight bytes of the empty index are those of the format
      obtain ⟨r, hparse, hback⟩ := parseIndexBlock_eq (SSTableBuilder.new {}).impl (by decide)
      exact iff_of_true ⟨_, r, rfl, hparse, hback⟩ rfl
  | cons e es =>
      refine iff_of_false ?_ (List.cons_ne_nil e es)
      rintro ⟨bytes, r, hnone, -⟩
      cases hnone

/-- One entry. -/
theorem index_round_trip_one :
    (everySecond [([97], ⟨0, 20⟩)]).indexData = none ∧
      ¬ ∃ bytes r, (everySecond [([97], ⟨0, 20⟩)]).indexData = some bytes ∧
        ({} : Impl).parseIndexBlock bytes = .ok r ∧ r.indexEntries = [([97], ⟨0, 20⟩)] := by
  refine ⟨rfl, ?_⟩
  rintro ⟨bytes, r, hnone, -⟩
  cases hnone

end SSTableReader

end KvEngine
