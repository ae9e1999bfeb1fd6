/-
  KvEngine.Lib.Rounds
  ───────────────────
  **Loops that may fail, run for a number of rounds.**

  One round gives an error, the result, or the state of the next round.  A
  loop that has used up its rounds fails with an error of its own.

  If every round lowers a measure, the measure is rounds enough
  (`loop_error_iff`): the loop fails exactly where a state it comes to does,
  and never for want of rounds (`loop_ok_iff`).
-/
import Mathlib.Tactic.Common

namespace KvEngine.Lib

variable {ε σ τ : Type}

/-- At most `rounds` rounds; `spent` if they are not enough. -/
def loop (round : σ → Except ε (σ ⊕ τ)) (spent : ε) : Nat → σ → Except ε τ
  | 0, _ => .error spent
  | rounds + 1, s =>
      match round s with
      | .error e => .error e
      | .ok (.inr t) => .ok t
      | .ok (.inl s') => loop round spent rounds s'

/-- The states the loop comes to. -/
inductive Visits (round : σ → Except ε (σ ⊕ τ)) : σ → σ → Prop
  | here (s : σ) : Visits round s s
  | later {s s' t : σ} (h : round s = .ok (.inl s')) (ht : Visits round s' t) : Visits round s t

variable {round : σ → Except ε (σ ⊕ τ)} {spent : ε} {s : σ} {rounds : Nat}

theorem loop_error {e : ε} (h : round s = .error e) :
    loop round spent (rounds + 1) s = .error e := by
  unfold loop
  rw [h]

theorem loop_done {t : τ} (h : round s = .ok (.inr t)) :
    loop round spent (rounds + 1) s = .ok t := by
  unfold loop
  rw [h]

theorem loop_next {s' : σ} (h : round s = .ok (.inl s')) :
    loop round spent (rounds + 1) s = loop round spent rounds s' := by
  conv_lhs => unfold loop
  rw [h]

/-- Nothing is visited after the last round. -/
theorem visits_of_not_next (h : ∀ s', round s ≠ .ok (.inl s')) {t : σ} (ht : Visits round s t) :
    t = s := by
  cases ht with
  | here => rfl
  | later hnext _ => exact absurd hnext (h _)

/-- **A loop whose rounds lower a measure fails where a state it comes to does.** -/
theorem loop_error_iff (measure : σ → Nat)
    (hlower : ∀ {s s' : σ}, round s = .ok (.inl s') → measure s' < measure s)
    (h : measure s < rounds) {e : ε} :
    loop round spent rounds s = .error e ↔ ∃ t, Visits round s t ∧ round t = .error e := by
  induction rounds generalizing s with
  | zero => exact absurd h (Nat.not_lt_zero _)
  | succ rounds ih =>
      cases hround : round s with
      | error e' =>
          rw [loop_error hround]
          constructor
          · intro heq
            cases heq
            exact ⟨s, .here s, hround⟩
          · rintro ⟨t, ht, herror⟩
            obtain rfl := visits_of_not_next (fun s' hs' => nomatch hround.symm.trans hs') ht
            cases hround.symm.trans herror
            rfl
      | ok next =>
          cases next with
          | inr t =>
              rw [loop_done hround]
              constructor
              · intro heq
                cases heq
              · rintro ⟨u, hu, herror⟩
                obtain rfl := visits_of_not_next (fun s' hs' => nomatch hround.symm.trans hs') hu
                exact nomatch hround.symm.trans herror
          | inl s' =>
              rw [loop_next hround, ih (Nat.lt_of_lt_of_le (hlower hround) (Nat.le_of_lt_succ h))]
              constructor
              · rintro ⟨t, ht, herror⟩
                exact ⟨t, .later hround ht, herror⟩
              · rintro ⟨t, ht, herror⟩
                cases ht with
                | here => exact nomatch hround.symm.trans herror
                | later hnext ht =>
                    cases hround.symm.trans hnext
                    exact ⟨t, ht, herror⟩

/-- The loop gives a result if no state it comes to fails. -/
theorem loop_ok_iff (measure : σ → Nat)
    (hlower : ∀ {s s' : σ}, round s = .ok (.inl s') → measure s' < measure s)
    (h : measure s < rounds) :
    (∃ r, loop round spent rounds s = .ok r) ↔ ∀ t e, Visits round s t → round t ≠ .error e := by
  constructor
  · rintro ⟨r, hr⟩ t e ht herror
    exact nomatch hr.symm.trans ((loop_error_iff measure hlower h).mpr ⟨t, ht, herror⟩)
  · intro hnone
    cases hloop : loop round spent rounds s with
    | ok r => exact ⟨r, rfl⟩
    | error e =>
        obtain ⟨t, ht, herror⟩ := (loop_error_iff measure hlower h).mp hloop
        exact absurd herror (hnone t e ht)

end KvEngine.Lib
