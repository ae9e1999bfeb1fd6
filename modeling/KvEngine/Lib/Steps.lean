/-
  KvEngine.Lib.Steps
  ──────────────────
  **Runs of a machine whose steps give no answer and may be undefined.**

  `steps step s ops` is the state after `ops`.  `steps_invariant` is the
  induction over a run, `steps_total` the one that also shows the run to be
  defined, and `steps_append` cuts a run in two.
-/
import Mathlib.Data.List.Induction

namespace KvEngine.Lib

variable {S Op : Type} {step : S → Op → Option S}

variable (step) in
/-- The final state; `none` once a step is undefined. -/
def steps (s : S) (ops : List Op) : Option S := ops.foldlM step s

theorem steps_append (s : S) (ops more : List Op) :
    steps step s (ops ++ more) = (steps step s ops).bind (fun t => steps step t more) := by
  unfold steps
  rw [List.foldlM_append]
  rfl

theorem steps_cons (s : S) (op : Op) (ops : List Op) :
    steps step s (op :: ops) = (step s op).bind (fun t => steps step t ops) := rfl

theorem steps_snoc (s : S) (ops : List Op) (op : Op) :
    steps step s (ops ++ [op]) = (steps step s ops).bind (fun t => step t op) := by
  rw [steps_append]
  congr 1
  funext t
  rw [steps_cons]
  cases step t op <;> rfl

/-- **What every step keeps, a run keeps.** -/
theorem steps_invariant {P : S → Prop}
    (hstep : ∀ s op t, P s → step s op = some t → P t) {s t : S} {ops : List Op} (hs : P s)
    (hrun : steps step s ops = some t) : P t := by
  induction ops generalizing s with
  | nil =>
      obtain rfl := Option.some.inj hrun
      exact hs
  | cons op ops ih =>
      rw [steps_cons] at hrun
      obtain ⟨u, hu, hrest⟩ := Option.bind_eq_some_iff.mp hrun
      exact ih (hstep s op u hs hu) hrest

/-- **Where every step is defined and keeps `P`, so is and does every run.** -/
theorem steps_total {P : S → Prop} :
    ∀ {ops : List Op} {s : S}, P s → (∀ s, P s → ∀ op ∈ ops, ∃ t, step s op = some t ∧ P t) →
      ∃ t, steps step s ops = some t ∧ P t := by
  intro ops
  induction ops with
  | nil => intro s hs _; exact ⟨s, rfl, hs⟩
  | cons op ops ih =>
      intro s hs hstep
      obtain ⟨u, hu, hPu⟩ := hstep s hs op List.mem_cons_self
      obtain ⟨t, ht, hPt⟩ := ih hPu (fun s hs op hop => hstep s hs op (List.mem_cons_of_mem _ hop))
      refine ⟨t, ?_, hPt⟩
      rw [steps_cons, hu]
      exact ht

end KvEngine.Lib
