/-
  KvEngine.Wal.FileNames
  ──────────────────────
  **Which files of a directory are log files**, by their names.

  The constructor takes the names `wal_<number>.log` of which `std::stoull`
  reads the whole middle part, and continues the one with the highest number.
  `Recover` takes every name with this prefix and this suffix, and sorts them
  by what `std::stoull` makes of the middle part, 0 where it throws.
  `replays_recognised` says for which directories the two agree.

  `Directory` names files by their numbers; `order_walFile` shows that this
  loses nothing: where all names are those `OpenNewLogFile` gives, the order of
  `Recover` is that of the numbers.
-/
import KvEngine.Lib.Decimal
import KvEngine.Wal.Append

namespace KvEngine

open Lib

namespace WalFiles

/-! ## §1. Names. -/

/-- `"wal_"`. -/
def walPrefix : Bytes := [119, 97, 108, 95]

/-- `".log"`. -/
def logSuffix : Bytes := [46, 108, 111, 103]

/-- The name `OpenNewLogFile` gives the file with this number. -/
def walFile (n : Nat) : Bytes := walPrefix ++ decimal n ++ logSuffix

/-- `name.substr(4, name.size() - 8)`. -/
def middle (name : Bytes) : Bytes := (name.drop 4).take (name.length - 8)

/-! ## §2. The loop of the constructor. -/

/-- The number of a name the constructor recognises. -/
def recognised (name : Bytes) : Option Nat :=
  if name.take 4 ≠ walPrefix ∨ name.length ≤ 8 ∨ name.drop (name.length - 4) ≠ logSuffix then none
  else
    let number := middle name
    match stoull number with
    | some (n, used) => if used = number.length then some n else none
    | none => none

/-- One name of the directory: `highest` is unset until one is `found`. -/
def consider (highest : Option Nat) (name : Bytes) : Option Nat :=
  match recognised name with
  | some n => if highest.all (fun m => decide (n > m)) then some n else highest
  | none => highest

def highest (names : List Bytes) : Option Nat := names.foldl consider none

/-- `current_file_number`. -/
def currentNumber (names : List Bytes) : Nat := (highest names).getD 0

/-- The directory once the constructor has opened its file. -/
def reopened (names : List Bytes) : List Bytes :=
  if walFile (currentNumber names) ∈ names then names else walFile (currentNumber names) :: names

/-! ## §3. The files of `Recover`. -/

/-- A name `Recover` replays. -/
def Selected (name : Bytes) : Prop :=
  name.take 4 = walPrefix ∧ name.length > 4 ∧ name.drop (name.length - 4) = logSuffix

instance (name : Bytes) : Decidable (Selected name) := inferInstanceAs (Decidable (_ ∧ _))

/-- `file_number`. -/
def fileNumber (name : Bytes) : Nat := ((stoull (middle name)).map Prod.fst).getD 0

/-- An order the files may be replayed in: `std::sort` leaves open how files
with the same number follow each other. -/
structure ReplayOrder (names order : List Bytes) : Prop where
  perm : order.Perm (names.filter (fun name => decide (Selected name)))
  sorted : order.Pairwise (fun a b => fileNumber a ≤ fileNumber b)

/-- There is such an order for every directory. -/
theorem exists_replayOrder (names : List Bytes) : ∃ order, ReplayOrder names order := by
  refine ⟨_, List.mergeSort_perm _ (fun a b => decide (fileNumber a ≤ fileNumber b)), ?_⟩
  refine (List.pairwise_mergeSort (fun a b c hab hbc => ?_) (fun a b => ?_) _).imp
    (fun h => of_decide_eq_true h)
  · exact decide_eq_true (Nat.le_trans (of_decide_eq_true hab) (of_decide_eq_true hbc))
  · rcases Nat.le_total (fileNumber a) (fileNumber b) with h | h <;> simp [h]

/-! ## §4. What the names say. -/

variable {names : List Bytes} {name : Bytes}

theorem length_of_selected (h : Selected name) : 8 ≤ name.length := by
  obtain ⟨hpre, hlen, hsuf⟩ := h
  have hsplit : name = walPrefix ++ name.drop 4 := by
    rw [← hpre, List.take_append_drop]
  generalize name.drop 4 = rest at hsplit
  subst hsplit
  -- A shorter name would have the suffix begin within the prefix.
  by_contra hshort
  have hrest : rest.length < 4 := by
    rw [List.length_append, show walPrefix.length = 4 from rfl] at hshort
    omega
  match rest, hrest with
  | [], _ => exact absurd hlen (by decide)
  | [x], _ => exact absurd (List.cons.inj hsuf).1 (by decide)
  | [x, y], _ => exact absurd (List.cons.inj hsuf).1 (by decide)
  | [x, y, z], _ => exact absurd (List.cons.inj hsuf).1 (by decide)

/-- **The names `Recover` replays**: prefix, anything, suffix. -/
theorem selected_eq (h : Selected name) : name = walPrefix ++ middle name ++ logSuffix := by
  have hlen := length_of_selected h
  obtain ⟨hpre, -, hsuf⟩ := h
  have hrest : (name.drop 4).drop (name.length - 8) = logSuffix := by
    rw [List.drop_drop, ← hsuf]
    congr 1
    omega
  rw [middle, ← hpre, ← hrest, List.append_assoc, List.take_append_drop, List.take_append_drop]

theorem length_walPrefix : walPrefix.length = 4 := rfl

theorem length_logSuffix : logSuffix.length = 4 := rfl

theorem middle_eq (m : Bytes) : middle (walPrefix ++ m ++ logSuffix) = m := by
  rw [middle, List.length_append, List.length_append, length_walPrefix, length_logSuffix,
    List.append_assoc, List.drop_left' length_walPrefix,
    show 4 + m.length + 4 - 8 = m.length by omega, List.take_left]

theorem selected_walName (m : Bytes) : Selected (walPrefix ++ m ++ logSuffix) := by
  refine ⟨?_, ?_, ?_⟩
  · rw [List.append_assoc, List.take_left' length_walPrefix]
  · rw [List.length_append, List.length_append, length_walPrefix, length_logSuffix]
    omega
  · rw [List.length_append, length_logSuffix, Nat.add_sub_cancel, List.drop_left]

theorem selected_walFile (n : Nat) : Selected (walFile n) := selected_walName _

theorem middle_walFile (n : Nat) : middle (walFile n) = decimal n := middle_eq _

/-- **The names the constructor recognises**: those `Recover` selects, with a
middle part that `std::stoull` reads to its end. -/
theorem recognised_eq_some {n : Nat} :
    recognised name = some n ↔
      Selected name ∧ stoull (middle name) = some (n, (middle name).length) := by
  unfold recognised
  constructor
  · intro h
    split at h
    · exact absurd h (by simp)
    next hname =>
      rw [not_or, not_or, not_not, not_not] at hname
      obtain ⟨hpre, hlen, hsuf⟩ := hname
      simp only at h
      split at h
      next m used hread =>
        split at h
        next hused =>
          obtain rfl := Option.some.inj h
          exact ⟨⟨hpre, by omega, hsuf⟩, by rw [hread, hused]⟩
        next => exact absurd h (by simp)
      next => exact absurd h (by simp)
  · rintro ⟨hsel, hread⟩
    have hlen := length_of_selected hsel
    -- `stoull` throws on an empty middle part.
    have hne : name.length ≠ 8 := by
      intro h8
      have hnil : middle name = [] := by
        rw [middle, h8]
        rfl
      have hthrows : stoull [] = none := rfl
      rw [hnil, hthrows] at hread
      exact absurd hread (by simp)
    rw [if_neg (by rw [not_or, not_or, not_not, not_not]; exact ⟨hsel.1, by omega, hsel.2.2⟩)]
    simp only [hread, if_true]

theorem fileNumber_of_recognised {n : Nat} (h : recognised name = some n) :
    fileNumber name = n := by
  rw [fileNumber, (recognised_eq_some.mp h).2]
  rfl

theorem recognised_of_numeral (h : Selected name) (hm : Numeral (middle name)) :
    recognised name = some (decimalValue (middle name)) :=
  recognised_eq_some.mpr ⟨h, stoull_numeral hm⟩

theorem fileNumber_of_numeral (h : Selected name) (hm : Numeral (middle name)) :
    fileNumber name = decimalValue (middle name) :=
  fileNumber_of_recognised (recognised_of_numeral h hm)

/-! ## §5. The highest number. -/

/-- `h` is the highest number of the names, if there is one. -/
structure IsHighest (names : List Bytes) (h : Option Nat) : Prop where
  upper : ∀ name ∈ names, ∀ n, recognised name = some n → ∃ m, h = some m ∧ n ≤ m
  attained : ∀ m, h = some m → ∃ name ∈ names, recognised name = some m

/-- A name that does not raise the highest number. -/
theorem IsHighest.keep {h : Option Nat} (hh : IsHighest names h)
    (hname : ∀ n, recognised name = some n → ∃ m, h = some m ∧ n ≤ m) :
    IsHighest (names ++ [name]) h := by
  refine ⟨fun other hother n hn => ?_, fun m hm => ?_⟩
  · rcases List.mem_append.mp hother with hother | hother
    · exact hh.upper other hother n hn
    · rw [List.mem_singleton.mp hother] at hn
      exact hname n hn
  · obtain ⟨other, hother, hnum⟩ := hh.attained m hm
    exact ⟨other, List.mem_append_left _ hother, hnum⟩

theorem IsHighest.consider {h : Option Nat} (hh : IsHighest names h) (name : Bytes) :
    IsHighest (names ++ [name]) (consider h name) := by
  unfold WalFiles.consider
  cases hname : recognised name with
  | none => exact hh.keep (fun n hn => absurd (hname.symm.trans hn) (by simp))
  | some n =>
      simp only
      split
      next hall =>
        refine ⟨fun other hother k hk => ⟨n, rfl, ?_⟩, fun m hm => ⟨name, by simp, ?_⟩⟩
        · rcases List.mem_append.mp hother with hother | hother
          · obtain ⟨m, rfl, hkm⟩ := hh.upper other hother k hk
            have hlt : n > m := by simpa using hall
            omega
          · rw [List.mem_singleton.mp hother, hname] at hk
            exact Nat.le_of_eq (Option.some.inj hk).symm
        · rw [hname, hm]
      next hno =>
        refine hh.keep (fun k hk => ?_)
        obtain rfl := Option.some.inj (hname.symm.trans hk)
        cases h with
        | none => exact absurd rfl hno
        | some m => exact ⟨m, rfl, by simpa using hno⟩

/-- **The loop finds the highest number.** -/
theorem isHighest_highest (names : List Bytes) : IsHighest names (highest names) := by
  have hloop : ∀ (rest : List Bytes) {done : List Bytes} {h : Option Nat}, IsHighest done h →
      IsHighest (done ++ rest) (rest.foldl consider h) := by
    intro rest
    induction rest with
    | nil => intro done h hh; rwa [List.append_nil]
    | cons name rest ih =>
        intro done h hh
        have := ih (hh.consider name)
        rwa [List.append_assoc, List.singleton_append] at this
  exact @hloop names [] none ⟨by simp, by simp⟩

theorem le_currentNumber {n : Nat} (hname : name ∈ names) (h : recognised name = some n) :
    n ≤ currentNumber names := by
  obtain ⟨m, hm, hle⟩ := (isHighest_highest names).upper name hname n h
  rw [currentNumber, hm]
  exact hle

/-! ## §6. When the two loops agree. -/

/-- `Recover` replays the log files of the constructor, in ascending order and
the one it continues last. -/
structure ReplaysRecognised (names : List Bytes) : Prop where
  same : ∀ name ∈ names, Selected name ↔ (recognised name).isSome = true
  numeric : ∀ name ∈ names, (recognised name).isSome = true → Numeral (middle name)
  ascending : ∀ order, ReplayOrder (reopened names) order →
    order.Pairwise (fun a b => decimalValue (middle a) ≤ decimalValue (middle b))
  last : ∀ order, ReplayOrder (reopened names) order →
    order.getLast? = some (walFile (currentNumber names))

/-- No name denotes a higher number. -/
def Highest (names : List Bytes) (name : Bytes) : Prop :=
  ∀ other ∈ names, Selected other → decimalValue (middle other) ≤ decimalValue (middle name)

theorem currentNumber_mem (h : highest names ≠ none) :
    ∃ name ∈ names, recognised name = some (currentNumber names) := by
  obtain ⟨m, hm⟩ := Option.ne_none_iff_exists'.mp h
  obtain ⟨name, hname, hnum⟩ := (isHighest_highest names).attained m hm
  refine ⟨name, hname, ?_⟩
  rw [currentNumber, hm, hnum]
  rfl

theorem mem_reopened {names : List Bytes} {name : Bytes} :
    name ∈ reopened names ↔ name ∈ names ∨ name = walFile (currentNumber names) := by
  unfold reopened
  split
  next h => exact ⟨Or.inl, fun hor => hor.elim id (fun heq => heq ▸ h)⟩
  next => rw [List.mem_cons, or_comm]

/-- A log file with the number of the file that is continued may be replayed
behind it. -/
theorem exists_order_last {n : Nat} (hsel : Selected name) (hmem : name ∈ names)
    (hhigh : ∀ other ∈ names, Selected other → fileNumber other ≤ n) (hn : fileNumber name = n) :
    ∃ order, ReplayOrder names order ∧ order.getLast? = some name := by
  have hin : name ∈ names.filter (fun name => decide (Selected name)) :=
    List.mem_filter.mpr ⟨hmem, decide_eq_true hsel⟩
  have hall : ∀ other ∈ names.filter (fun name => decide (Selected name)), fileNumber other ≤ n :=
    fun other hother => hhigh other (List.mem_of_mem_filter hother)
      (of_decide_eq_true (List.mem_filter.mp hother).2)
  obtain ⟨order, hperm, hsorted⟩ := exists_replayOrder
    ((names.filter (fun name => decide (Selected name))).erase name)
  have hfilter : ((names.filter (fun name => decide (Selected name))).erase name).filter
      (fun name => decide (Selected name))
      = (names.filter (fun name => decide (Selected name))).erase name :=
    List.filter_eq_self.mpr (fun other hother =>
      (List.mem_filter.mp (List.mem_of_mem_erase hother)).2)
  rw [hfilter] at hperm
  refine ⟨order ++ [name], ⟨?_, ?_⟩, List.getLast?_concat⟩
  · exact (List.perm_append_singleton name order).trans
      ((hperm.cons name).trans (List.perm_cons_erase hin).symm)
  · rw [List.pairwise_append]
    refine ⟨hsorted, List.pairwise_singleton _ _, fun other hother last hlast => ?_⟩
    rw [List.mem_singleton.mp hlast, hn]
    exact hall other (List.mem_of_mem_erase (hperm.subset hother))

section Numeric

variable (hnum : ∀ name ∈ names, Selected name → Numeral (middle name))

include hnum

theorem currentNumber_lt : currentNumber names < 2 ^ 64 := by
  by_cases hnone : highest names = none
  · rw [currentNumber, hnone]
    decide
  · obtain ⟨name, hname, hrec⟩ := currentNumber_mem hnone
    have hsel := (recognised_eq_some.mp hrec).1
    have hm := hnum name hname hsel
    rw [recognised_of_numeral hsel hm] at hrec
    exact Option.some.inj hrec ▸ hm.fits

theorem numeral_of_reopened (hname : name ∈ reopened names) (hsel : Selected name) :
    Numeral (middle name) := by
  rcases mem_reopened.mp hname with hname | rfl
  · exact hnum name hname hsel
  · rw [middle_walFile]
    exact numeral_decimal (currentNumber_lt hnum)

/-- The highest number is that of the file continued. -/
theorem highest_eq (hname : name ∈ names) (hsel : Selected name) (hhigh : Highest names name) :
    decimalValue (middle name) = currentNumber names := by
  have hrec := recognised_of_numeral hsel (hnum name hname hsel)
  have hne : highest names ≠ none := by
    intro hnone
    obtain ⟨m, hm, -⟩ := (isHighest_highest names).upper name hname _ hrec
    exact absurd (hnone.symm.trans hm) (by simp)
  obtain ⟨other, hother, hrec'⟩ := currentNumber_mem hne
  have hsel' := (recognised_eq_some.mp hrec').1
  rw [recognised_of_numeral hsel' (hnum other hother hsel')] at hrec'
  exact Nat.le_antisymm (le_currentNumber hname hrec)
    (Option.some.inj hrec' ▸ hhigh other hother hsel')

theorem fileNumber_le (hname : name ∈ reopened names) (hsel : Selected name) :
    fileNumber name ≤ currentNumber names := by
  rw [fileNumber_of_numeral hsel (numeral_of_reopened hnum hname hsel)]
  rcases mem_reopened.mp hname with hname | rfl
  · exact le_currentNumber hname (recognised_of_numeral hsel (hnum name hname hsel))
  · rw [middle_walFile, decimalValue_decimal]

/-- The file continued comes last, if no other file has its number. -/
theorem getLast_order {order : List Bytes} (h : ReplayOrder (reopened names) order)
    (hcanon : ∀ name ∈ names, Selected name → Highest names name →
      middle name = decimal (decimalValue (middle name))) :
    order.getLast? = some (walFile (currentNumber names)) := by
  have hmem : ∀ name ∈ order, name ∈ reopened names ∧ Selected name := by
    intro name hname
    have := List.mem_filter.mp (h.perm.subset hname)
    exact ⟨this.1, of_decide_eq_true this.2⟩
  have hin : walFile (currentNumber names) ∈ order :=
    h.perm.symm.subset (List.mem_filter.mpr ⟨mem_reopened.mpr (Or.inr rfl),
      decide_eq_true (selected_walFile _)⟩)
  rcases List.eq_nil_or_concat' order with hnil | ⟨init, last, rfl⟩
  · rw [hnil] at hin
    exact absurd hin (by simp)
  obtain ⟨hlast, hsel⟩ := hmem last (by simp)
  rw [List.getLast?_concat]
  rcases mem_reopened.mp hlast with hlast' | heq
  · -- Nothing is behind the last file, so it has the highest number.
    rcases List.mem_append.mp hin with hinit | hinit
    · have hle := (List.pairwise_append.mp h.sorted).2.2 _ hinit last (by simp)
      have hm := hnum last hlast' hsel
      rw [fileNumber_of_numeral hsel hm, fileNumber_of_numeral (selected_walFile _)
        (numeral_of_reopened hnum (mem_reopened.mpr (Or.inr rfl)) (selected_walFile _)),
        middle_walFile, decimalValue_decimal] at hle
      have hhigh : Highest names last := by
        intro other hother hsel'
        exact Nat.le_trans (le_currentNumber hother
          (recognised_of_numeral hsel' (hnum other hother hsel'))) hle
      have hmid := hcanon last hlast' hsel hhigh
      rw [highest_eq hnum hlast' hsel hhigh] at hmid
      rw [selected_eq hsel, hmid]
      rfl
    · rw [List.mem_singleton.mp hinit]
  · rw [heq]

end Numeric

/-- **`Recover` replays what the constructor recognises**, the file it
continues last, if and only if every name with the prefix and the suffix has a
numeral between them, and the highest number is written as `OpenNewLogFile`
writes it. -/
theorem replays_recognised (names : List Bytes) :
    ReplaysRecognised names ↔
      (∀ name ∈ names, Selected name → Numeral (middle name)) ∧
      ∀ name ∈ names, Selected name → Highest names name →
        middle name = decimal (decimalValue (middle name)) := by
  constructor
  · intro h
    have hnum : ∀ name ∈ names, Selected name → Numeral (middle name) :=
      fun name hname hsel => h.numeric name hname ((h.same name hname).mp hsel)
    refine ⟨hnum, fun name hname hsel hhigh => ?_⟩
    have hn := highest_eq hnum hname hsel hhigh
    obtain ⟨order, horder, hlast⟩ := exists_order_last hsel
      (mem_reopened.mpr (Or.inl hname)) (fun other hother hsel' => fileNumber_le hnum hother hsel')
      (hn ▸ fileNumber_of_numeral hsel (hnum name hname hsel))
    have heq := Option.some.inj ((h.last order horder).symm.trans hlast)
    rw [hn, ← heq, middle_walFile]
  · rintro ⟨hnum, hcanon⟩
    refine ⟨fun name hname => ⟨fun hsel => ?_, fun hrec => ?_⟩, fun name hname hrec => ?_,
      fun order horder => ?_, fun order horder => getLast_order hnum horder hcanon⟩
    · rw [recognised_of_numeral hsel (hnum name hname hsel)]
      rfl
    · obtain ⟨n, hn⟩ := Option.isSome_iff_exists.mp hrec
      exact (recognised_eq_some.mp hn).1
    · obtain ⟨n, hn⟩ := Option.isSome_iff_exists.mp hrec
      exact hnum name hname (recognised_eq_some.mp hn).1
    · refine horder.sorted.imp_of_mem (fun {a b} ha hb hle => ?_)
      have hvalue : ∀ name ∈ order, fileNumber name = decimalValue (middle name) := by
        intro name hname
        obtain ⟨hin, hsel⟩ := List.mem_filter.mp (horder.perm.subset hname)
        have hsel := of_decide_eq_true hsel
        exact fileNumber_of_numeral hsel (numeral_of_reopened hnum hin hsel)
      rwa [hvalue a ha, hvalue b hb] at hle

/-- `wal_0.log` and `wal_old.log`. -/
theorem replays_recognised_old : ¬ ∀ names : List Bytes, ReplaysRecognised names := by
  intro hall
  have h := ((hall [walFile 0, walPrefix ++ [111, 108, 100] ++ logSuffix]).same
    (walPrefix ++ [111, 108, 100] ++ logSuffix) (by simp)).mp (by decide)
  exact absurd h (by decide)

/-! ## §7. Directories by number. -/

/-- The names of the files of a directory. -/
def namesOf (d : Disk) : List Bytes := d.files.entries.map (fun e => walFile e.1)

variable {d : Disk}

theorem recognised_walFile {n : Nat} (h : n < 2 ^ 64) : recognised (walFile n) = some n := by
  have hm : Numeral (middle (walFile n)) := by
    rw [middle_walFile]
    exact numeral_decimal h
  rw [recognised_of_numeral (selected_walFile n) hm, middle_walFile, decimalValue_decimal]

/-- **The constructor continues the highest-numbered file**, as `new` does. -/
theorem currentNumber_namesOf (h : ∀ e ∈ d.files.entries, e.1 < 2 ^ 64) :
    currentNumber (namesOf d) = (WriteAheadLog.highestNumber d).getD 0 := by
  have hhigh := isHighest_highest (namesOf d)
  rcases List.eq_nil_or_concat' d.files.entries with hd | ⟨closed, ⟨n, f⟩, hd⟩
  · rw [currentNumber, namesOf, WriteAheadLog.highestNumber, hd]
    rfl
  · rw [WriteAheadLog.highestNumber_last hd, Option.getD_some]
    have hlast : (n, f) ∈ d.files.entries := by rw [hd]; simp
    obtain ⟨m, hm, hle⟩ := hhigh.upper (walFile n) (List.mem_map.mpr ⟨(n, f), hlast, rfl⟩) n
      (recognised_walFile (h _ hlast))
    obtain ⟨name, hname, hrec⟩ := hhigh.attained m hm
    obtain ⟨e, he, rfl⟩ := List.mem_map.mp hname
    rw [recognised_walFile (h e he)] at hrec
    obtain rfl := Option.some.inj hrec
    have hle' : e.1 ≤ n := by
      rw [hd] at he
      rcases List.mem_append.mp he with he | he
      · exact Nat.le_of_lt (Disk.closed_lt hd e he)
      · rw [List.mem_singleton.mp he]
    rw [currentNumber, hm, Option.getD_some]
    exact Nat.le_antisymm hle' hle

/-- **`Recover` replays the files in the order of their numbers**, as
`recoverFiles` does. -/
theorem order_walFile (h : ∀ e ∈ d.files.entries, e.1 < 2 ^ 64) {order : List Bytes}
    (horder : ReplayOrder (namesOf d) order) : order = namesOf d := by
  have hnumber : ∀ name ∈ namesOf d, ∃ n, name = walFile n ∧ fileNumber name = n := by
    intro name hname
    obtain ⟨e, he, rfl⟩ := List.mem_map.mp hname
    exact ⟨e.1, rfl, fileNumber_of_recognised (recognised_walFile (h e he))⟩
  have hperm := horder.perm
  rw [List.filter_eq_self.mpr (fun name hname => by
    obtain ⟨n, rfl, -⟩ := hnumber name hname
    exact decide_eq_true (selected_walFile n))] at hperm
  refine List.Perm.eq_of_pairwise (fun a b ha hb hab hba => ?_) horder.sorted ?_ hperm
  · obtain ⟨i, rfl, hi⟩ := hnumber a (hperm.subset ha)
    obtain ⟨j, rfl, hj⟩ := hnumber b hb
    rw [show i = j by omega]
  · refine List.pairwise_map.mpr ((List.Pairwise.imp_of_mem (fun {a b} ha hb hlt => ?_)
      d.files.sorted))
    rw [fileNumber_of_recognised (recognised_walFile (h a ha)),
      fileNumber_of_recognised (recognised_walFile (h b hb))]
    exact Nat.le_of_lt (TotalCompare.nat_lt_iff.mp hlt)

end WalFiles

end KvEngine
