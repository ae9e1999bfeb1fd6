/-
  KvEngine.Lib.Framing
  ────────────────────
  **Streams of self-delimiting frames.**

  A reader looks at the start of its input and finds a frame and the rest of
  the input, or an input that ends in the middle of a frame, or something
  that is no frame.  `readAll` repeats this.  A `Framing` is a reader together
  with an encoder whose output it undoes, also when the output is cut short.

  `readAll_encodeAll`: encoded frames, followed by whatever stops the reader,
  are read back in order.  `take_encodeAll`: cutting encoded frames anywhere
  leaves the frames that fit and something that stops the reader.
-/
import Mathlib.Data.List.Basic
import Mathlib.Tactic.Common

namespace KvEngine.Lib

/-! ## §1. Readers. -/

/-- What a reader finds at the start of its input. -/
inductive Found (R E β : Type) where
  /-- The input ends, or ends within a frame. -/
  | stop
  | bad (error : E)
  | frame (r : R) (rest : List β)

variable {R E β : Type}

/-- No frame: the end, or an error. -/
def Found.ended : Option E → Found R E β
  | none => .stop
  | some error => .bad error

/-- All frames from the start on, and the error that ended them, if any. -/
def readAll (next : List β → Found R E β) : Nat → List β → List R × Option E
  | 0, _ => ([], none)
  | fuel + 1, bs =>
      match next bs with
      | .stop => ([], none)
      | .bad error => ([], some error)
      | .frame r rest => (r :: (readAll next fuel rest).1, (readAll next fuel rest).2)

/-- The reader meets an error somewhere. -/
inductive Fails (next : List β → Found R E β) : List β → Prop
  | bad {bs : List β} {error : E} (h : next bs = .bad error) : Fails next bs
  | later {bs rest : List β} {r : R} (h : next bs = .frame r rest) (hrest : Fails next rest) :
      Fails next bs

/-- **`readAll` reports an error exactly if the reader meets one**, for a
reader that gets on with every frame. -/
theorem readAll_fails {next : List β → Found R E β}
    (hnext : ∀ {bs rest : List β} {r : R}, next bs = .frame r rest → rest.length < bs.length) :
    ∀ (fuel : Nat) (bs : List β), bs.length < fuel →
      ((readAll next fuel bs).2.isSome = true ↔ Fails next bs) := by
  intro fuel
  induction fuel with
  | zero => intro bs h; exact absurd h (Nat.not_lt_zero _)
  | succ fuel ih =>
      intro bs hfuel
      cases hfound : next bs with
      | stop =>
          rw [readAll, hfound]
          refine ⟨fun h => absurd h (by simp), fun h => ?_⟩
          cases h with
          | bad h => exact nomatch hfound.symm.trans h
          | later h _ => exact nomatch hfound.symm.trans h
      | bad error =>
          rw [readAll, hfound]
          exact ⟨fun _ => .bad hfound, fun _ => rfl⟩
      | frame r rest =>
          have hlt := hnext hfound
          rw [readAll, hfound]
          -- The frame is shorter than what is left, so the fuel lasts for the rest.
          refine (ih rest (by omega)).trans ⟨.later hfound, fun h => ?_⟩
          cases h with
          | bad h => exact nomatch hfound.symm.trans h
          | later h hrest =>
              injection hfound.symm.trans h with _ heq
              exact heq ▸ hrest

/-! ## §2. Framings. -/

/-- The frames `rs` one after the other. -/
def encodeAll (encode : R → List β) (rs : List R) : List β := rs.flatMap encode

/-- The frames that end within the first `n` symbols. -/
def fitting (encode : R → List β) : Nat → List R → List R
  | _, [] => []
  | n, r :: rs =>
      if (encode r).length ≤ n then r :: fitting encode (n - (encode r).length) rs else []

section Encode

variable (encode : R → List β)

@[simp] theorem encodeAll_nil : encodeAll encode [] = [] := rfl

@[simp] theorem encodeAll_cons (r : R) (rs : List R) :
    encodeAll encode (r :: rs) = encode r ++ encodeAll encode rs := List.flatMap_cons

@[simp] theorem encodeAll_append (rs ss : List R) :
    encodeAll encode (rs ++ ss) = encodeAll encode rs ++ encodeAll encode ss :=
  List.flatMap_append

theorem fitting_initial (n : Nat) (rs : List R) : fitting encode n rs <+: rs := by
  induction rs generalizing n with
  | nil => exact List.prefix_refl _
  | cons r rs ih =>
      rw [fitting]
      split
      next => exact List.cons_prefix_cons.mpr ⟨rfl, ih _⟩
      next => exact List.nil_prefix

/-- What fits into a stream that starts with `rs`. -/
theorem fitting_append {n : Nat} {rs : List R} (h : (encodeAll encode rs).length ≤ n)
    (ss : List R) : fitting encode n (rs ++ ss)
      = rs ++ fitting encode (n - (encodeAll encode rs).length) ss := by
  induction rs generalizing n with
  | nil => rfl
  | cons r rs ih =>
      rw [encodeAll_cons, List.length_append] at h ⊢
      rw [List.cons_append, fitting, if_pos (by omega), ih (by omega), Nat.sub_sub]
      rfl

/-- Room beyond the whole stream makes no difference. -/
theorem fitting_min (n : Nat) (rs : List R) :
    fitting encode (min n (encodeAll encode rs).length) rs = fitting encode n rs := by
  rcases Nat.le_total n (encodeAll encode rs).length with h | h
  · rw [Nat.min_eq_left h]
  · have hall : ∀ m, (encodeAll encode rs).length ≤ m → fitting encode m rs = rs := by
      intro m hm
      have := fitting_append encode hm []
      rwa [List.append_nil, fitting, List.append_nil] at this
    rw [Nat.min_eq_right h, hall _ (Nat.le_refl _), hall n h]

end Encode

/-- An encoder of the `valid` frames, and a reader that undoes it. -/
structure Framing (R E β : Type) where
  valid : R → Prop
  encode : R → List β
  next : List β → Found R E β
  /-- A frame is read back whatever follows it. -/
  next_encode : ∀ r, valid r → ∀ rest, next (encode r ++ rest) = .frame r rest
  /-- A frame that is cut short stops the reader. -/
  next_cut : ∀ r, valid r → ∀ n, n < (encode r).length → next ((encode r).take n) = .stop
  next_nil : next [] = .stop
  encode_ne_nil : ∀ r, encode r ≠ []

namespace Framing

variable (F : Framing R E β)

theorem encode_length_pos (r : R) : 0 < (F.encode r).length :=
  List.length_pos_iff.mpr (F.encode_ne_nil r)

/-- Reading on after encoded frames. -/
theorem readAll_append {rs : List R} (hv : ∀ r ∈ rs, F.valid r) (tail : List β) :
    ∀ fuel, rs.length ≤ fuel → readAll F.next fuel (encodeAll F.encode rs ++ tail)
      = (rs ++ (readAll F.next (fuel - rs.length) tail).1,
          (readAll F.next (fuel - rs.length) tail).2) := by
  induction rs with
  | nil => intro fuel _; rfl
  | cons r rs ih =>
      intro fuel hfuel
      obtain ⟨fuel, rfl⟩ : ∃ f, fuel = f + 1 := ⟨fuel - 1, by rw [List.length_cons] at hfuel; omega⟩
      have hr := F.next_encode r (hv r List.mem_cons_self) (encodeAll F.encode rs ++ tail)
      have hrest := ih (fun q hq => hv q (List.mem_cons_of_mem _ hq)) fuel
        (Nat.le_of_succ_le_succ hfuel)
      rw [encodeAll_cons, List.append_assoc, readAll, hr]
      simp only [hrest, List.length_cons, Nat.add_sub_add_right, List.cons_append]

/-- An error behind encoded frames. -/
theorem fails_encodeAll {rs : List R} (hv : ∀ r ∈ rs, F.valid r) (tail : List β) :
    Fails F.next (encodeAll F.encode rs ++ tail) ↔ Fails F.next tail := by
  induction rs with
  | nil => exact Iff.rfl
  | cons r rs ih =>
      have hr := F.next_encode r (hv r List.mem_cons_self) (encodeAll F.encode rs ++ tail)
      rw [encodeAll_cons, List.append_assoc,
        ← ih (fun q hq => hv q (List.mem_cons_of_mem _ hq))]
      refine ⟨fun h => ?_, .later hr⟩
      cases h with
      | bad h => exact nomatch hr.symm.trans h
      | later h hrest =>
          injection hr.symm.trans h with _ heq
          exact heq ▸ hrest

theorem length_le_length_encodeAll (rs : List R) : rs.length ≤ (encodeAll F.encode rs).length := by
  induction rs with
  | nil => exact Nat.le_refl 0
  | cons r rs ih =>
      have hr := F.encode_length_pos r
      rw [encodeAll_cons, List.length_append, List.length_cons]
      omega

/-- **Encoded frames are read back** up to where the reader stops, and the
error that stops it is reported. -/
theorem readAll_encodeAll {rs : List R} (hv : ∀ r ∈ rs, F.valid r) {tail : List β}
    {error : Option E} (ht : F.next tail = .ended error) {fuel : Nat}
    (hfuel : (encodeAll F.encode rs ++ tail).length < fuel) :
    readAll F.next fuel (encodeAll F.encode rs ++ tail) = (rs, error) := by
  have hlen := F.length_le_length_encodeAll rs
  rw [List.length_append] at hfuel
  rw [F.readAll_append hv tail fuel (by omega)]
  obtain ⟨k, hk⟩ : ∃ k, fuel - rs.length = k + 1 := ⟨fuel - rs.length - 1, by omega⟩
  rw [hk, readAll, ht]
  cases error with
  | none => rw [Found.ended, List.append_nil]
  | some error => rw [Found.ended, List.append_nil]

/-! ## §3. Cutting a stream. -/

/-- **A cut leaves the frames that fit**, and something that stops the
reader. -/
theorem take_encodeAll {rs : List R} (hv : ∀ r ∈ rs, F.valid r) (n : Nat) :
    ∃ tail, (encodeAll F.encode rs).take n = encodeAll F.encode (fitting F.encode n rs) ++ tail ∧
      F.next tail = .stop := by
  induction rs generalizing n with
  | nil => exact ⟨[], by simp [fitting], F.next_nil⟩
  | cons r rs ih =>
      have hr := hv r List.mem_cons_self
      by_cases hn : (F.encode r).length ≤ n
      · obtain ⟨tail, htake, htail⟩ := ih (fun q hq => hv q (List.mem_cons_of_mem _ hq))
          (n - (F.encode r).length)
        refine ⟨tail, ?_, htail⟩
        rw [fitting, if_pos hn, encodeAll_cons, encodeAll_cons, List.take_append,
          List.take_of_length_le hn, htake, List.append_assoc]
      · have hlt : n < (F.encode r).length := Nat.lt_of_not_le hn
        refine ⟨(F.encode r).take n, ?_, F.next_cut r hr n hlt⟩
        rw [fitting, if_neg hn, encodeAll_cons, List.take_append_of_le_length (Nat.le_of_lt hlt)]
        rfl

/-- The beginning of encoded frames is no error. -/
theorem not_fails_of_cut {rs : List R} (hv : ∀ r ∈ rs, F.valid r) {bs : List β}
    (h : bs <+: encodeAll F.encode rs) : ¬ Fails F.next bs := by
  obtain ⟨tail, htake, hstop⟩ := F.take_encodeAll hv bs.length
  rw [← List.prefix_iff_eq_take.mp h] at htake
  rw [htake, F.fails_encodeAll (fun r hr => hv r ((fitting_initial F.encode _ rs).subset hr))]
  intro hfails
  cases hfails with
  | bad hbad => exact nomatch hstop.symm.trans hbad
  | later hframe _ => exact nomatch hstop.symm.trans hframe

end Framing

end KvEngine.Lib
