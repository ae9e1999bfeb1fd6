/-
  KvEngine.SSTable.Block
  ──────────────────────
  Data blocks written and read back.

  `GetFromBlock` always starts at the last restart point, with an empty
  previous key, and decodes from there on.  So it finds the entries of a
  block only where the last restart point is the first entry and that entry
  shares nothing with the block before.  Every entry also has to pass a size
  check that counts the shared bytes although they are not stored, and only
  32 bits of a sequence number are.

  Main results:
    * `entryLoop_eq` — the loop over the bytes is a lookup in the entries;
    * `searchBlock_eq` — where it starts;
    * `block_lookup` — which blocks answer for exactly their entries.
-/
import KvEngine.SSTable.Filling
import KvEngine.SSTable.Reader

namespace KvEngine

open Lib SSTable SSTableBuilder

namespace SSTableReader

/-! ## §1. One entry. -/

theorem toNat_ofNat {n : Nat} (h : n < 2 ^ 32) : (UInt32.ofNat n).toNat = n := by
  rw [UInt32.toNat_ofNat']
  exact Nat.mod_eq_of_lt h

def notInBlock : Option (Status × Option Found) :=
  some (.notFound "Key not found in block", none)

/-- **One round of the loop**, on an entry whose lengths fit into 32 bits; of
the shared count only 32 bits are stored. -/
theorem entryLoop_step {options : SSTableReaderOptions} {data before rest key value : Bytes}
    {seq : UInt64} {deleted : Bool} {n : Nat}
    (hdata : data = before ++ (Impl.entryBytes n key value seq deleted ++ rest))
    (hkey : key.length - n < 2 ^ 32) (hvalue : value.length < 2 ^ 32)
    {searchEnd : Nat} (hpos : before.length < searchEnd) (target last : Bytes) (rounds : Nat) :
    entryLoop options data searchEnd target (rounds + 1) before.length last
      = if n % 2 ^ 32 > rest.length then notInBlock
        else
          let cur := last.take (n % 2 ^ 32) ++ key.drop n
          if compareKeys options.comparator cur target = 0 then
            some (.okStatus, some ⟨value, seq.toUInt32.toUInt64, deleted⟩)
          else if compareKeys options.comparator cur target > 0 then notInBlock
          else entryLoop options data searchEnd target rounds
            (before ++ Impl.entryBytes n key value seq deleted).length cur := by
  have hlen : data.length
      = before.length + (17 + (key.length - n) + value.length + rest.length) := by
    rw [hdata, List.length_append, List.length_append, length_entryBytes]
  have hbytes : Impl.entryBytes n key value seq deleted ++ rest
      = store32 (UInt32.ofNat n) ++ (store32 (UInt32.ofNat (key.length - n))
        ++ (store32 (UInt32.ofNat value.length) ++ (store32 seq.toUInt32
        ++ ((if deleted then 1 else 0) :: (key.drop n ++ (value ++ rest)))))) := by
    unfold Impl.entryBytes
    simp only [List.append_assoc, List.cons_append, List.nil_append]
  -- the header
  have hshared : load32 data before.length = some (UInt32.ofNat n) := by
    have := load32_append before (Impl.entryBytes n key value seq deleted ++ rest) 0
    rw [hdata, ← Nat.add_zero before.length, this, hbytes, load32_store]
  have hunshared : load32 data (before.length + 4) = some (UInt32.ofNat (key.length - n)) := by
    rw [hdata, load32_append, hbytes]
    simp only [load32_store32_add, load32_store]
  have hlength : load32 data (before.length + 8) = some (UInt32.ofNat value.length) := by
    rw [hdata, load32_append, hbytes]
    simp only [load32_store32_add, load32_store]
  have hseq : load32 data (before.length + 12) = some seq.toUInt32 := by
    rw [hdata, load32_append, hbytes]
    simp only [load32_store32_add, load32_store]
  -- the flag, the key and the value, behind the 16 bytes of the numbers
  obtain ⟨numbers, hnumbers, hsixteen⟩ : ∃ numbers : Bytes, data = before ++ (numbers
      ++ ((if deleted then 1 else 0) :: (key.drop n ++ (value ++ rest)))) ∧
      numbers.length = 16 := by
    refine ⟨store32 (UInt32.ofNat n) ++ (store32 (UInt32.ofNat (key.length - n))
      ++ (store32 (UInt32.ofNat value.length) ++ store32 seq.toUInt32)), ?_, by simp⟩
    rw [hdata, hbytes]
    simp only [List.append_assoc]
  have hflag : data[before.length + 16]? = some (if deleted then 1 else 0) := by
    rw [hnumbers, List.getElem?_append_right (Nat.le_add_right _ _), Nat.add_sub_cancel_left,
      List.getElem?_append_right (Nat.le_of_eq hsixteen), hsixteen, Nat.sub_self]
    rfl
  have hdrop : data.drop (before.length + 17) = key.drop n ++ (value ++ rest) := by
    rw [hnumbers, List.drop_length_add_append]
    show List.drop (16 + 1) _ = _
    rw [← hsixteen, List.drop_length_add_append]
    rfl
  have hdrop' : data.drop (before.length + 17 + (key.length - n)) = value ++ rest := by
    rw [← List.drop_drop, hdrop]
    exact List.drop_left' List.length_drop
  have hsize : before.length + 17 + n % 2 ^ 32 + (key.length - n) + value.length > data.length
      ↔ n % 2 ^ 32 > rest.length := by omega
  have hcount : (UInt32.ofNat n).toNat = n % 2 ^ 32 := UInt32.toNat_ofNat'
  have hnext : (before ++ Impl.entryBytes n key value seq deleted).length
      = before.length + 17 + (key.length - n) + value.length := by
    rw [List.length_append, length_entryBytes]
    omega
  have hdeleted : ((if deleted then 1 else 0 : UInt8) != 0) = deleted := by
    cases deleted <;> rfl
  conv_lhs => unfold entryLoop
  rw [if_pos ⟨hpos, by omega⟩]
  simp only [hshared, hunshared, hlength, hseq, hflag, Option.bind_eq_bind, Option.bind_some,
    hcount, toNat_ofNat hkey, toNat_ofNat hvalue, hdrop, hdrop', hdeleted]
  rw [List.take_left' List.length_drop, List.take_left, if_congr hsize rfl rfl, hnext]
  rfl

/-! ## §2. The loop, on a block of entries. -/

/-- The lengths stored for the entries fit into 32 bits. -/
def Fields : Bytes → List Entry → Prop
  | _, [] => True
  | prev, e :: es =>
      e.key.length - shared e.key prev < 2 ^ 32 ∧ e.value.length < 2 ^ 32 ∧ Fields e.key es

/-- What the reader finds of an entry: 32 bits of its sequence number. -/
def foundOf (e : Entry) : Found := ⟨e.value, e.seq.toUInt32.toUInt64, e.deleted⟩

/-- The loop as a lookup in the entries: `prev` is the key the first of them
was coded against, `last` the key the reader decodes it from, and `tail` the
number of bytes behind the entries. -/
def lookup (c : Comparator) (target : Bytes) (tail : Nat) :
    Bytes → Bytes → List Entry → Option Found
  | _, _, [] => none
  | prev, last, e :: es =>
      let n := shared e.key prev
      let cur := last.take (n % 2 ^ 32) ++ e.key.drop n
      if n % 2 ^ 32 > (codeEntries e.key es).length + tail then none
      else if c.compare cur target = 0 then some (foundOf e)
      else if c.compare cur target > 0 then none
      else lookup c target tail e.key cur es

/-- The status that goes with what was found. -/
def answer : Option Found → Option (Status × Option Found)
  | none => notInBlock
  | some f => some (.okStatus, some f)

/-- **The loop over the bytes is the lookup in the entries.** -/
theorem entryLoop_eq {options : SSTableReaderOptions} {data tail : Bytes} (target : Bytes)
    (xs : List Entry) :
    ∀ {before prev last : Bytes} {rounds : Nat}, Fields prev xs → xs.length ≤ rounds →
      data = before ++ (codeEntries prev xs ++ tail) →
      entryLoop options data (before.length + (codeEntries prev xs).length) target rounds
          before.length last
        = answer (lookup (keyOrder options.comparator) target tail.length prev last xs) := by
  -- on the entries left: `before` grows by the entry just read
  induction xs with
  | nil =>
      intro before prev last rounds _ _ hdata
      cases rounds with
      | zero => rfl
      | succ rounds =>
          unfold entryLoop
          rw [if_neg (fun h => Nat.lt_irrefl _ h.1)]
          rfl
  | cons e xs ih =>
      intro before prev last rounds hfields hrounds hdata
      obtain ⟨hkey, hvalue, hfields⟩ := hfields
      obtain ⟨rounds, rfl⟩ : ∃ r, rounds = r + 1 :=
        ⟨rounds - 1, by rw [List.length_cons] at hrounds; omega⟩
      have hcode : codeEntries prev (e :: xs) = codeEntry prev e ++ codeEntries e.key xs := rfl
      rw [hcode, List.append_assoc] at hdata
      have hlen : (codeEntry prev e).length
          = 17 + (e.key.length - shared e.key prev) + e.value.length := length_entryBytes _ _ _ _ _
      rw [entryLoop_step hdata hkey hvalue
        (by rw [hcode, List.length_append, hlen]; omega)]
      let n := shared e.key prev
      -- what the reader takes for the key, right or wrong
      let cur := last.take (n % 2 ^ 32) ++ e.key.drop n
      have hrest : entryLoop options data
          ((before ++ codeEntry prev e).length + (codeEntries e.key xs).length) target rounds
          (before ++ codeEntry prev e).length cur
          = answer (lookup (keyOrder options.comparator) target tail.length e.key cur xs) :=
        ih hfields (by simpa using hrounds) (by rw [hdata, List.append_assoc])
      have hend : before.length + (codeEntries prev (e :: xs)).length
          = (before ++ codeEntry prev e).length + (codeEntries e.key xs).length := by
        rw [hcode, List.length_append, List.length_append]
        omega
      have htail : (codeEntries e.key xs ++ tail).length
          = (codeEntries e.key xs).length + tail.length := List.length_append
      rw [lookup, hend]
      dsimp only
      rw [compareKeys_eq, htail]
      -- the four exits of a round: it does not fit, found, passed, go on
      by_cases hfits : n % 2 ^ 32 > (codeEntries e.key xs).length + tail.length
      · rw [if_pos hfits, if_pos hfits]
        rfl
      · rw [if_neg hfits, if_neg hfits]
        by_cases heq : (keyOrder options.comparator).compare cur target = 0
        · rw [if_pos heq, if_pos heq]
          rfl
        · rw [if_neg heq, if_neg heq]
          by_cases hgt : (keyOrder options.comparator).compare cur target > 0
          · rw [if_pos hgt, if_pos hgt]
            rfl
          · rw [if_neg hgt, if_neg hgt]
            exact hrest

/-! ## §3. Which entries are found. -/

variable {c : Comparator} {tail : Nat}

/-- Whatever is found is one of the keys the reader decodes. -/
theorem lookup_mem {target : Bytes} {f : Found} {xs : List Entry} :
    ∀ {prev last : Bytes}, lookup c target tail prev last xs = some f →
      target ∈ frontDecode last (frontEncode (· % 2 ^ 32) prev (xs.map Entry.key)) := by
  induction xs with
  | nil =>
      intro prev last h
      cases h
  | cons e xs ih =>
      intro prev last h
      rw [lookup] at h
      split at h
      next => cases h
      next =>
        split at h
        next heq =>
          rw [List.map_cons, frontEncode, frontDecode]
          exact List.mem_cons.mpr (Or.inl (c.eq_of_compare_eq_zero _ _ heq).symm)
        next =>
          split at h
          next => cases h
          next => exact List.mem_cons_of_mem _ (ih h)

/-- No entry shares more bytes with the key before it than there are behind
it in the block. -/
def Fits (tail : Nat) : Bytes → List Entry → Prop
  | _, [] => True
  | prev, e :: es => shared e.key prev ≤ (codeEntries e.key es).length + tail ∧ Fits tail e.key es

/-- The reader decodes the first key right. -/
def Decodes (prev last : Bytes) (xs : List Entry) : Prop :=
  ∀ e ∈ xs.head?, last.take (shared e.key prev) ++ e.key.drop (shared e.key prev) = e.key

/-- It then decodes the others right, each from the one before. -/
theorem decodes_self (key : Bytes) (xs : List Entry) : Decodes key key xs :=
  fun e _ => decode_self e.key key

theorem lookup_cons {prev last : Bytes} {e : Entry} {xs : List Entry}
    (hkey : e.key.length < 2 ^ 32) (hdec : Decodes prev last (e :: xs)) (target : Bytes) :
    lookup c target tail prev last (e :: xs)
      = if shared e.key prev > (codeEntries e.key xs).length + tail then none
        else if c.compare e.key target = 0 then some (foundOf e)
        else if c.compare e.key target > 0 then none
        else lookup c target tail e.key e.key xs := by
  have hcount : shared e.key prev % 2 ^ 32 = shared e.key prev :=
    Nat.mod_eq_of_lt (Nat.lt_of_le_of_lt (commonPrefix_le e.key prev) hkey)
  rw [lookup, hcount, hdec e rfl]

/-- **Every entry is found as it was written** if and only if all fit and
their sequence numbers take 32 bits. -/
theorem lookup_exact {xs : List Entry} : ∀ {prev last : Bytes},
    (∀ e ∈ xs, e.key.length < 2 ^ 32) → xs.Pairwise (fun a b => c.lt a.key b.key) →
    Decodes prev last xs →
    ((∀ e ∈ xs, lookup c e.key tail prev last xs = some ⟨e.value, e.seq, e.deleted⟩) ↔
      Fits tail prev xs ∧ ∀ e ∈ xs, foundOf e = ⟨e.value, e.seq, e.deleted⟩) := by
  induction xs with
  | nil =>
      intro prev last _ _ _
      exact ⟨fun _ => ⟨trivial, fun e he => absurd he (by simp)⟩, fun _ e he => absurd he (by simp)⟩
  | cons d xs ih =>
      intro prev last hsmall hsorted hdec
      obtain ⟨hd, hxs⟩ := List.pairwise_cons.mp hsorted
      have hcons : ∀ target, lookup c target tail prev last (d :: xs) = _ :=
        lookup_cons (hsmall d List.mem_cons_self) hdec
      have hrest := ih (fun e he => hsmall e (List.mem_cons_of_mem d he)) hxs
        (decodes_self d.key xs)
      -- the head answers for its own key, and passes on the keys behind it
      have hhead : ∀ h : ¬ shared d.key prev > (codeEntries d.key xs).length + tail,
          lookup c d.key tail prev last (d :: xs) = some (foundOf d) := by
        intro h
        rw [hcons, if_neg h, if_pos (c.compare_self d.key)]
      have hbehind : ¬ shared d.key prev > (codeEntries d.key xs).length + tail →
          ∀ e ∈ xs, lookup c e.key tail prev last (d :: xs)
            = lookup c e.key tail d.key d.key xs := by
        intro h e he
        have hlt : c.compare d.key e.key < 0 := hd e he
        rw [hcons, if_neg h, if_neg (by omega), if_neg (by omega)]
      constructor
      · intro hall
        -- a head that does not fit answers nothing, for its own key too
        have hfits : ¬ shared d.key prev > (codeEntries d.key xs).length + tail := by
          intro hgt
          have := hall d List.mem_cons_self
          rw [hcons, if_pos hgt] at this
          cases this
        obtain ⟨hfits', hseq⟩ := hrest.mp fun e he =>
          (hbehind hfits e he).symm.trans (hall e (List.mem_cons_of_mem d he))
        refine ⟨⟨by omega, hfits'⟩, fun e he => ?_⟩
        rcases List.mem_cons.mp he with rfl | he
        · exact Option.some.inj ((hhead hfits).symm.trans (hall e List.mem_cons_self))
        · exact hseq e he
      · rintro ⟨⟨hfit, hfits'⟩, hseq⟩ e he
        have hfits : ¬ shared d.key prev > (codeEntries d.key xs).length + tail := by omega
        rcases List.mem_cons.mp he with rfl | hmem
        · rw [hhead hfits, hseq e he]
        · rw [hbehind hfits e hmem]
          exact hrest.mpr ⟨hfits', fun x hx => hseq x (List.mem_cons_of_mem d hx)⟩ e hmem

/-- A key that is not there is not found. -/
theorem lookup_absent {target : Bytes} {xs : List Entry} : ∀ {prev last : Bytes},
    (∀ e ∈ xs, e.key.length < 2 ^ 32) → Decodes prev last xs → (∀ e ∈ xs, e.key ≠ target) →
    lookup c target tail prev last xs = none := by
  induction xs with
  | nil => exact fun _ _ _ => rfl
  | cons d xs ih =>
      intro prev last hsmall hdec hne
      rw [lookup_cons (hsmall d List.mem_cons_self) hdec,
        if_neg (fun h => hne d List.mem_cons_self (c.eq_of_compare_eq_zero _ _ h)),
        ih (fun e he => hsmall e (List.mem_cons_of_mem d he)) (decodes_self d.key xs)
          (fun e he => hne e (List.mem_cons_of_mem d he))]
      split
      · rfl
      · split <;> rfl

theorem foundOf_eq_iff (e : Entry) :
    foundOf e = ⟨e.value, e.seq, e.deleted⟩ ↔ e.seq.toNat < 2 ^ 32 := by
  have hval : e.seq.toUInt32.toUInt64.toNat = e.seq.toNat % 2 ^ 32 := by
    rw [UInt32.toNat_toUInt64, UInt64.toNat_toUInt32]
  constructor
  · intro h
    have hseq : e.seq.toUInt32.toUInt64 = e.seq := congrArg Found.seq h
    rw [← hseq, hval]
    exact Nat.mod_lt _ (by decide)
  · intro h
    have hseq : e.seq.toUInt32.toUInt64 = e.seq := by
      rw [← UInt64.toNat_inj, hval]
      exact Nat.mod_eq_of_lt h
    unfold foundOf
    rw [hseq]

/-! ## §4. Where the search starts. -/

theorem restartSearch_eq {rounds left right : Nat} (hle : left ≤ right)
    (hrounds : right - left ≤ rounds) : restartSearch rounds left right = right := by
  induction rounds generalizing left with
  | zero =>
      show left = right
      omega
  | succ rounds ih =>
      unfold restartSearch
      split
      next hlt => exact ih (by omega) (by omega)
      next hge => omega

theorem length_flatMap_store32 (restarts : List UInt32) :
    (restarts.flatMap store32).length = 4 * restarts.length := by
  induction restarts with
  | nil => rfl
  | cons r rs ih =>
      rw [List.flatMap_cons, List.length_append, length_store32, ih, List.length_cons]
      omega

theorem length_restartBytes (restarts : List UInt32) :
    (restartBytes restarts).length = 4 * restarts.length + 4 := by
  unfold restartBytes
  rw [List.length_append, length_flatMap_store32, length_store32]

/-- **The search starts at the last restart point.** -/
theorem searchBlock_eq (options : SSTableReaderOptions) (entries target : Bytes)
    {restarts : List UInt32} {r : UInt32} (hlast : restarts.getLast? = some r)
    (hlen : restarts.length < 2 ^ 30) :
    searchBlock options (entries ++ restartBytes restarts) target
      = entryLoop options (entries ++ restartBytes restarts) entries.length target
          (entries ++ restartBytes restarts).length r.toNat [] := by
  obtain ⟨front, rfl⟩ := List.getLast?_eq_some_iff.mp hlast
  have hcount : (front ++ [r]).length = front.length + 1 := by
    rw [List.length_append, List.length_singleton]
  rw [hcount] at hlen
  have hsize : (entries ++ restartBytes (front ++ [r])).length
      = entries.length + (4 * (front.length + 1) + 4) := by
    rw [List.length_append, length_restartBytes, hcount]
  -- the count at the end, and the last restart point before it
  have hnum : load32 (entries ++ restartBytes (front ++ [r]))
      (entries.length + 4 * (front.length + 1)) = some (UInt32.ofNat (front.length + 1)) := by
    unfold restartBytes
    have hpos : 4 * (front.length + 1) = ((front ++ [r]).flatMap store32).length + 0 := by
      rw [length_flatMap_store32, hcount]
      rfl
    rw [load32_append, hpos, load32_append, hcount]
    have := load32_store (UInt32.ofNat (front.length + 1)) []
    rwa [List.append_nil] at this
  have hrestart : load32 (entries ++ restartBytes (front ++ [r]))
      (entries.length + 4 * front.length) = some r := by
    unfold restartBytes
    have hpos : 4 * front.length = (front.flatMap store32).length + 0 := by
      rw [length_flatMap_store32]
      rfl
    rw [load32_append, hpos, List.flatMap_append, List.append_assoc, load32_append]
    show load32 ((store32 r ++ []) ++ _) 0 = _
    rw [List.append_nil, load32_store]
  have htoNat : (UInt32.ofNat (front.length + 1)).toNat = front.length + 1 :=
    toNat_ofNat (by omega)
  have hbytes : (UInt32.ofNat (front.length + 1) * 4).toNat = 4 * (front.length + 1) := by
    rw [UInt32.toNat_mul, htoNat]
    show (front.length + 1) * 4 % 2 ^ 32 = _
    rw [Nat.mod_eq_of_lt (by omega)]
    omega
  -- neither check of the count fails
  have hnonzero : ¬ (UInt32.ofNat (front.length + 1) = 0
      ∨ (UInt32.ofNat (front.length + 1)).toNat
        > (entries.length + (4 * (front.length + 1) + 4)) / 4) := by
    rw [htoNat]
    rintro (h0 | hgt)
    · rw [h0] at htoNat
      cases htoNat
    · omega
  unfold searchBlock
  simp only [hsize]
  rw [if_neg (by omega), show entries.length + (4 * (front.length + 1) + 4) - 4
    = entries.length + 4 * (front.length + 1) by omega, hnum]
  simp only [Option.bind_eq_bind, Option.bind_some]
  -- the search over the restart points ends behind the last
  have hright : restartSearch (front.length + 1) 0 (front.length + 1) = front.length + 1 :=
    restartSearch_eq (Nat.zero_le _) (Nat.sub_le _ _)
  rw [if_neg hnonzero, hbytes, if_neg (by omega), htoNat, hright, if_pos (Nat.succ_pos _),
    Nat.add_sub_cancel, Nat.add_sub_cancel, if_pos (by omega), hrestart, Option.bind_some,
    if_neg (Nat.lt_irrefl _)]

/-- Without restart points there is no search. -/
theorem searchBlock_none (options : SSTableReaderOptions) (entries target : Bytes) :
    searchBlock options (entries ++ restartBytes []) target
      = some (.corruption "Invalid restart count", none) := by
  have hsize : (entries ++ restartBytes []).length = entries.length + 4 := by
    rw [List.length_append, length_restartBytes]
    rfl
  have hnum : load32 (entries ++ restartBytes []) entries.length = some 0 := by
    have := load32_append entries (restartBytes []) 0
    rw [← Nat.add_zero entries.length, this]
    rfl
  unfold searchBlock
  simp only [hsize]
  rw [if_neg (by omega), Nat.add_sub_cancel, hnum]
  rfl

/-! ## §5. Blocks the builder cuts. -/

theorem length_codeEntries_ge (prev : Bytes) (xs : List Entry) :
    17 * xs.length ≤ (codeEntries prev xs).length := by
  induction xs generalizing prev with
  | nil => exact Nat.le_refl 0
  | cons e xs ih =>
      have := ih e.key
      rw [codeEntries, List.length_append, length_codeEntry, List.length_cons]
      omega

theorem fields_of_length {prev : Bytes} {xs : List Entry}
    (h : (codeEntries prev xs).length < 2 ^ 32) : Fields prev xs := by
  induction xs generalizing prev with
  | nil => trivial
  | cons e xs ih =>
      rw [codeEntries, List.length_append, length_codeEntry] at h
      exact ⟨by omega, by omega, ih (by omega)⟩

theorem fields_of_small {prev : Bytes} {xs : List Entry}
    (h : ∀ e ∈ xs, e.key.length < 2 ^ 32 ∧ e.value.length < 2 ^ 32) : Fields prev xs := by
  induction xs generalizing prev with
  | nil => trivial
  | cons e xs ih =>
      obtain ⟨hkey, hvalue⟩ := h e List.mem_cons_self
      exact ⟨by omega, hvalue, ih fun d hd => h d (List.mem_cons_of_mem e hd)⟩

theorem fields_value {prev : Bytes} {xs : List Entry} (h : Fields prev xs) :
    ∀ e ∈ xs, e.value.length < 2 ^ 32 := by
  induction xs generalizing prev with
  | nil => exact fun e he => absurd he (by simp)
  | cons d xs ih =>
      obtain ⟨-, hvalue, hrest⟩ := h
      intro e he
      rcases List.mem_cons.mp he with rfl | he
      · exact hvalue
      · exact ih hrest e he

/-- All that is stored of the keys is in the block. -/
theorem sum_rests_le (prev : Bytes) (xs : List Entry) :
    ((frontEncode (· % 2 ^ 32) prev (xs.map Entry.key)).map (fun code => code.2.length)).sum
      ≤ (codeEntries prev xs).length := by
  induction xs generalizing prev with
  | nil => exact Nat.le_refl 0
  | cons e xs ih =>
      have := ih e.key
      rw [List.map_cons, frontEncode, List.map_cons, List.sum_cons, codeEntries,
        List.length_append, length_codeEntry]
      show (e.key.drop (shared e.key prev)).length + _ ≤ _
      rw [List.length_drop]
      omega

theorem Fits.mono {t t' : Nat} (hle : t ≤ t') {prev : Bytes} {xs : List Entry}
    (h : Fits t prev xs) : Fits t' prev xs := by
  induction xs generalizing prev with
  | nil => trivial
  | cons e xs ih => exact ⟨by have := h.1; omega, ih h.2⟩

/-- **A search that starts at the first of the entries `ys`.** -/
theorem search_from {options : SSTableReaderOptions} {prev : Bytes} {xs ys : List Entry}
    {restarts : List UInt32}
    (hlast : restarts.getLast? = some (UInt32.ofNat (codeEntries prev xs).length))
    (hstart : (codeEntries prev xs).length < 2 ^ 32) (hlen : restarts.length < 2 ^ 30)
    (hfields : Fields ((xs.getLast?.map Entry.key).getD prev) ys) (target : Bytes) :
    searchBlock options (codeEntries prev (xs ++ ys) ++ restartBytes restarts) target
      = answer (lookup (keyOrder options.comparator) target (4 * restarts.length + 4)
          ((xs.getLast?.map Entry.key).getD prev) [] ys) := by
  have hdata : codeEntries prev (xs ++ ys) ++ restartBytes restarts = codeEntries prev xs
      ++ (codeEntries ((xs.getLast?.map Entry.key).getD prev) ys ++ restartBytes restarts) := by
    rw [codeEntries_append, List.append_assoc]
  -- an entry takes 17 bytes or more, so there are rounds enough
  have hrounds : ys.length ≤ (codeEntries prev (xs ++ ys) ++ restartBytes restarts).length := by
    have := length_codeEntries_ge prev (xs ++ ys)
    rw [List.length_append] at this ⊢
    omega
  have hend : (codeEntries prev (xs ++ ys)).length = (codeEntries prev xs).length
      + (codeEntries ((xs.getLast?.map Entry.key).getD prev) ys).length := by
    rw [codeEntries_append, List.length_append]
  rw [searchBlock_eq options _ target hlast hlen, toNat_ofNat hstart, hend,
    ← length_restartBytes]
  exact entryLoop_eq target ys hfields hrounds hdata

/-- What `GetFromBlock` is to answer for a block: each entry as it was added,
and nothing for any other key. -/
structure Answers (options : SSTableReaderOptions) (data : Bytes) (block : List Entry) : Prop where
  present : ∀ e ∈ block, searchBlock options data e.key
    = some (.okStatus, some ⟨e.value, e.seq, e.deleted⟩)
  absent : ∀ key, (∀ e ∈ block, e.key ≠ key) →
    ∃ msg, searchBlock options data key = some (.notFound msg, none)

/-- The last restart point is the first entry: none was pushed in a block
behind a cut, or the only entry has pushed its own. -/
def StartsAtFirst (options : SSTableOptions) (before block : List Entry) : Prop :=
  (before ≠ [] ∧ block.length < options.blockRestartInterval) ∨
    (options.blockRestartInterval = 1 ∧ block.length = 1)

/-- The blocks for which it does. -/
structure Readable (options : SSTableOptions) (before block : List Entry) : Prop where
  start : StartsAtFirst options before block
  /-- The first key shares nothing with the last key before the block. -/
  fresh : ∀ e ∈ block.head?, shared e.key (lastKeyOf before) = 0
  /-- No key shares more bytes with the key before it than follow its entry,
  the last 8 bytes of the block included. -/
  fits : Fits 8 (lastKeyOf before) block
  /-- The fields take 32 bits. -/
  small : ∀ e ∈ block, e.key.length < 2 ^ 32 ∧ e.value.length < 2 ^ 32 ∧ e.seq.toNat < 2 ^ 32

section Cut

variable {options : SSTableOptions} {before block : List Entry} {b : SSTableBuilder}

theorem sealed_eq (h : b.Filling options before block) :
    b.impl.sealed = codeEntries (lastKeyOf before) block ++ restartBytes b.impl.restartPoints := by
  unfold Impl.sealed
  rw [h.currentBlock]

theorem restarts_of_start (h : b.Filling options before block)
    (hstart : StartsAtFirst options before block) :
    b.impl.restartPoints.getLast? = some 0 ∧ 1 ≤ b.impl.restartPoints.length ∧
      b.impl.restartPoints.length ≤ 2 ∧
      (b.impl.restartPoints.length = 1 ∨ block.length = 1) := by
  rw [h.restartPoints]
  rcases hstart with ⟨hbefore, hshort⟩ | ⟨hone, hlen⟩
  · rw [if_neg hbefore, pushedRestarts_of_short _ hshort]
    exact ⟨rfl, Nat.le_refl 1, Nat.le_succ 1, Or.inl rfl⟩
  · obtain ⟨e, rfl⟩ := List.length_eq_one_iff.mp hlen
    rw [hone]
    by_cases hbefore : before = []
    · rw [if_pos hbefore]
      exact ⟨rfl, Nat.le_refl 1, Nat.le_succ 1, Or.inr rfl⟩
    · rw [if_neg hbefore]
      exact ⟨rfl, Nat.le_succ 1, Nat.le_refl 2, Or.inr rfl⟩

/-- The search of a block that starts at its first entry. -/
theorem search_first (h : b.Filling options before block)
    (hstart : StartsAtFirst options before block)
    (hfields : Fields (lastKeyOf before) block) (target : Bytes) :
    searchBlock ⟨options.comparator⟩ b.impl.sealed target
      = answer (lookup (keyOrder options.comparator) target (4 * b.impl.restartPoints.length + 4)
          (lastKeyOf before) [] block) := by
  obtain ⟨hlast, -, htwo, -⟩ := restarts_of_start h hstart
  have hzero : b.impl.restartPoints.getLast?
      = some (UInt32.ofNat (codeEntries (lastKeyOf before) []).length) := hlast
  rw [sealed_eq h]
  exact search_from hzero (show 0 < 2 ^ 32 by decide) (by omega) hfields target

theorem decodes_of_fresh (h : ∀ e ∈ block.head?, shared e.key (lastKeyOf before) = 0) :
    Decodes (lastKeyOf before) [] block := by
  intro e he
  rw [h e he]
  rfl

/-- **A readable block answers for exactly its entries.** -/
theorem answers_of_readable (h : b.Filling options before block)
    (hkeys : Increasing options block) (hr : Readable options before block) :
    Answers ⟨options.comparator⟩ b.impl.sealed block := by
  obtain ⟨-, hpos, -, -⟩ := restarts_of_start h hr.start
  have hsearch := search_first h hr.start
    (fields_of_small fun e he => ⟨(hr.small e he).1, (hr.small e he).2.1⟩)
  have hsmall : ∀ e ∈ block, e.key.length < 2 ^ 32 := fun e he => (hr.small e he).1
  have hdec := decodes_of_fresh hr.fresh
  have hfound := (lookup_exact hsmall hkeys hdec).mpr
    ⟨hr.fits.mono (show 8 ≤ 4 * b.impl.restartPoints.length + 4 by omega),
      fun e he => (foundOf_eq_iff e).mpr (hr.small e he).2.2⟩
  refine ⟨fun e he => ?_, fun key hne => ⟨"Key not found in block", ?_⟩⟩
  · rw [hsearch, hfound e he]
    rfl
  · rw [hsearch, lookup_absent hsmall hdec hne]
    rfl

theorem lookup_of_answer {f : Option Found} {g : Found}
    (h : answer f = some (.okStatus, some g)) : f = some g := by
  cases f with
  | none => cases h
  | some f =>
      cases h
      rfl

theorem nodup_keys (hkeys : Increasing options block) : (block.map Entry.key).Nodup := by
  refine List.pairwise_map.mpr (hkeys.imp fun hlt => ?_)
  exact (keyOrder options.comparator).ne_of_lt hlt

/-- The sizes of a block below 4 GiB. -/
theorem sizes_of_lt (h : b.Filling options before block)
    (hsize : b.impl.sealed.length < 2 ^ 32) :
    (codeEntries (lastKeyOf before) block).length < 2 ^ 32 ∧
      b.impl.restartPoints.length < 2 ^ 30 := by
  rw [sealed_eq h, List.length_append, length_restartBytes] at hsize
  omega

/-- If all entries are found, the search has started at the first. -/
theorem start_of_answers (h : b.Filling options before block)
    (hinterval : 1 ≤ options.blockRestartInterval) (hkeys : Increasing options block)
    (hne : block ≠ []) (hsize : b.impl.sealed.length < 2 ^ 32)
    (ha : Answers ⟨options.comparator⟩ b.impl.sealed block) :
    StartsAtFirst options before block := by
  obtain ⟨hentries, hcount⟩ := sizes_of_lt h hsize
  by_cases hshort : block.length < options.blockRestartInterval
  -- no restart point was pushed: only a block behind a cut has one
  · refine Or.inl ⟨?_, hshort⟩
    rintro rfl
    obtain ⟨e, rest, rfl⟩ := List.exists_cons_of_ne_nil hne
    have hpresent := ha.present e List.mem_cons_self
    rw [sealed_eq h, h.restartPoints, if_pos rfl, pushedRestarts_of_short _ hshort,
      List.append_nil, searchBlock_none] at hpresent
    cases hpresent
  · obtain ⟨i, hi, hmul, hnear, hlast⟩ :=
      pushedRestarts_last hinterval (lastKeyOf before) (Nat.le_of_not_lt hshort)
    have hlast' : b.impl.restartPoints.getLast?
        = some (UInt32.ofNat (codeEntries (lastKeyOf before) (block.take i)).length) := by
      rw [h.restartPoints, List.getLast?_append, hlast]
      rfl
    have hsplit : codeEntries (lastKeyOf before) block
        = codeEntries (lastKeyOf before) (block.take i) ++ codeEntries
          (((block.take i).getLast?.map Entry.key).getD (lastKeyOf before)) (block.drop i) := by
      rw [← codeEntries_append, List.take_append_drop]
    rw [hsplit, List.length_append] at hentries
    -- every key is among those decoded from entry `i` on, so `i` is the first
    have hsub : block.map Entry.key ⊆ frontDecode [] (frontEncode (· % 2 ^ 32)
        (((block.take i).getLast?.map Entry.key).getD (lastKeyOf before))
        ((block.drop i).map Entry.key)) := by
      intro key hkey
      obtain ⟨e, he, rfl⟩ := List.mem_map.mp hkey
      have hpresent := ha.present e he
      rw [sealed_eq h, ← List.take_append_drop i block, search_from hlast' (by omega) hcount
        (fields_of_length (by omega))] at hpresent
      exact lookup_mem (lookup_of_answer hpresent)
    have hle := length_le_of_subset (nodup_keys hkeys) hsub
    rw [List.length_map, List.length_map, List.length_drop] at hle
    obtain rfl : i = 0 := by omega
    have hone : options.blockRestartInterval = 1 := Nat.dvd_one.mp (Nat.dvd_of_mod_eq_zero hmul)
    exact Or.inr ⟨hone, by omega⟩

/-- **A block below 4 GiB that answers for its entries is readable.** -/
theorem readable_of_answers (h : b.Filling options before block)
    (hinterval : 1 ≤ options.blockRestartInterval) (hkeys : Increasing options block)
    (hne : block ≠ []) (hsize : b.impl.sealed.length < 2 ^ 32)
    (ha : Answers ⟨options.comparator⟩ b.impl.sealed block) : Readable options before block := by
  have hstart := start_of_answers h hinterval hkeys hne hsize ha
  obtain ⟨hentries, hcount⟩ := sizes_of_lt h hsize
  have hfields := fields_of_length hentries
  have hsearch := search_first h hstart hfields
  have hfound : ∀ e ∈ block, lookup (keyOrder options.comparator) e.key
      (4 * b.impl.restartPoints.length + 4) (lastKeyOf before) [] block
      = some ⟨e.value, e.seq, e.deleted⟩ := by
    intro e he
    have hpresent := ha.present e he
    rw [hsearch] at hpresent
    exact lookup_of_answer hpresent
  have hsub : block.map Entry.key ⊆ frontDecode [] (frontEncode (· % 2 ^ 32)
      (lastKeyOf before) (block.map Entry.key)) := by
    intro key hkey
    obtain ⟨e, he, rfl⟩ := List.mem_map.mp hkey
    exact lookup_mem (hfound e he)
  -- the first key has lost nothing, and no key is longer than what is stored
  have hfresh : ∀ e ∈ block.head?, shared e.key (lastKeyOf before) = 0 := by
    intro e he
    obtain ⟨rest, rfl⟩ := List.head?_eq_some_iff.mp he
    exact fresh_of_subset (fun n => Nat.mod_le n _) (nodup_keys hkeys) hsub
  have hsmall : ∀ e ∈ block, e.key.length < 2 ^ 32 := by
    intro e he
    have hle := length_le_of_mem_frontDecode (hsub (List.mem_map_of_mem he))
    have hsum := sum_rests_le (lastKeyOf before) block
    rw [List.length_nil] at hle
    omega
  obtain ⟨hfits, hexact⟩ := (lookup_exact hsmall hkeys (decodes_of_fresh hfresh)).mp hfound
  refine ⟨hstart, hfresh, ?_, fun e he => ⟨hsmall e he, fields_value hfields e he,
    (foundOf_eq_iff e).mp (hexact e he)⟩⟩
  -- one restart point and the count are 8 bytes; with two there is one entry
  obtain ⟨-, -, -, hone | hone⟩ := restarts_of_start h hstart
  · rw [hone] at hfits
    exact hfits
  · obtain ⟨e, rfl⟩ := List.length_eq_one_iff.mp hone
    have := hfresh e rfl
    exact ⟨by omega, trivial⟩

end Cut

/-- **Which blocks can be read back.**  The block is the one being filled after
the entries `before ++ block`, every header at the end of the block; the next
cut, by a full block or by `Finish`, writes its bytes. -/
theorem block_lookup {env : Env} {options : SSTableOptions} {before block : List Entry}
    (hinterval : 1 ≤ options.blockRestartInterval) (hkeys : Increasing options (before ++ block))
    (hne : block ≠ [])
    (hcut : (addAll env options (before ++ block)).impl.entriesInBlock = block.length) :
    (Readable options before block → Answers ⟨options.comparator⟩
      (addAll env options (before ++ block)).impl.sealed block) ∧
    ((addAll env options (before ++ block)).impl.sealed.length < 2 ^ 32 →
      Answers ⟨options.comparator⟩ (addAll env options (before ++ block)).impl.sealed block →
      Readable options before block) := by
  obtain ⟨before', block', hsplit, hfilling⟩ := addAll_filling env options _ hkeys
  obtain ⟨rfl, rfl⟩ := List.append_inj' hsplit (hfilling.entriesInBlock.symm.trans hcut)
  have hblock : Increasing options block' := (List.pairwise_append.mp hkeys).2.1
  exact ⟨answers_of_readable hfilling hblock, readable_of_answers hfilling hinterval hblock hne⟩

/-- The first block of a table with two entries in it. -/
theorem block_lookup_first :
    (addAll (fun _ => {}) {} [⟨[97], [120], 1, false⟩, ⟨[98], [121], 2, false⟩]).impl.entriesInBlock
        = 2 ∧
      searchBlock {} (addAll (fun _ => {}) {}
          [⟨[97], [120], 1, false⟩, ⟨[98], [121], 2, false⟩]).impl.sealed [97]
        = some (.corruption "Invalid restart count", none) ∧
      ¬ Answers {} (addAll (fun _ => {}) {}
          [⟨[97], [120], 1, false⟩, ⟨[98], [121], 2, false⟩]).impl.sealed
        [⟨[97], [120], 1, false⟩, ⟨[98], [121], 2, false⟩] := by
  have hsearch : searchBlock {} (addAll (fun _ => {}) {}
      [⟨[97], [120], 1, false⟩, ⟨[98], [121], 2, false⟩]).impl.sealed [97]
      = some (.corruption "Invalid restart count", none) := by
    decide +kernel
  refine ⟨by decide +kernel, hsearch, fun h => ?_⟩
  cases hsearch.symm.trans (h.present ⟨[97], [120], 1, false⟩ (by simp))

/-- A block behind a cut, its two keys with a prefix in common. -/
theorem block_lookup_pair :
    let before : List Entry := [⟨[97], [1, 2, 3, 4], 1, false⟩]
    let block : List Entry := [⟨[98, 97], [], 2, true⟩, ⟨[98, 98], [], 3, false⟩]
    (addAll (fun _ => {}) { blockSize := 40 } (before ++ block)).impl.entriesInBlock = 2 ∧
      Answers {} (addAll (fun _ => {}) { blockSize := 40 } (before ++ block)).impl.sealed
        block := by
  intro before block
  have hcut : (addAll (fun _ => {}) { blockSize := 40 } (before ++ block)).impl.entriesInBlock
      = 2 := by decide +kernel
  have hkeys : Increasing { blockSize := 40 } (before ++ block) := by
    unfold Increasing
    decide +kernel
  refine ⟨hcut, (block_lookup (by decide) hkeys (by simp [block]) hcut).1 ?_⟩
  exact ⟨Or.inl ⟨by simp [before], by decide⟩, by decide, ⟨by decide, by decide, trivial⟩,
    by decide⟩

end SSTableReader

end KvEngine
