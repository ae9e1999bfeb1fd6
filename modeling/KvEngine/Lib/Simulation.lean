/-
  KvEngine.Lib.Simulation
  ───────────────────────
  **Runs of a machine, and refinement step by step.**

  A machine takes one operation at a time and answers it.  `run?` is a run of
  a machine whose steps may be undefined, `runAll` one of a machine whose
  steps always are.  `run?_invariant` is the induction over a run, and
  `run?_isSome_iff` says when a run is defined.  `Refines R P step spec` says
  that from related states every operation in `P` is answered alike and leads
  to related states; `Refines.run` extends this to every list of operations.
  `RefinesWhere` has the specification say when a step is defined at all.
  `Chain R` is a run of a specification that leaves a choice, and `run?_chain`
  the same extension for it.
-/
import Mathlib.Data.List.Basic

namespace KvEngine.Lib

variable {S A Op Out : Type}

/-- All answers and the final state; `none` once a step is undefined. -/
def run? (step : S → Op → Option (Out × S)) : S → List Op → Option (List Out × S)
  | s, [] => some ([], s)
  | s, op :: ops => do
      let (out, s) ← step s op
      let (outs, s) ← run? step s ops
      some (out :: outs, s)

theorem run?_cons {step : S → Op → Option (Out × S)} {s : S} {op : Op} {ops : List Op}
    {outs : List Out} {s' : S} :
    run? step s (op :: ops) = some (outs, s') ↔
      ∃ out s₁ outs', step s op = some (out, s₁) ∧ run? step s₁ ops = some (outs', s') ∧
        outs = out :: outs' := by
  simp only [run?, Option.bind_eq_bind, Option.bind_eq_some_iff, Prod.exists]
  constructor
  · rintro ⟨out, s₁, hstep, outs', s₂, hrest, heq⟩
    obtain ⟨rfl, rfl⟩ := Prod.mk.inj (Option.some.inj heq)
    exact ⟨out, s₁, outs', hstep, hrest, rfl⟩
  · rintro ⟨out, s₁, outs', hstep, hrest, rfl⟩
    exact ⟨out, s₁, hstep, outs', s', hrest, rfl⟩

/-- A run goes on with one operation more. -/
theorem run?_snoc {step : S → Op → Option (Out × S)} :
    ∀ {ops : List Op} {s t t' : S} {outs : List Out} {op : Op} {out : Out},
      run? step s ops = some (outs, t) → step t op = some (out, t') →
      run? step s (ops ++ [op]) = some (outs ++ [out], t') := by
  intro ops
  induction ops with
  | nil =>
      intro s t t' outs op out hrun hstep
      obtain ⟨rfl, rfl⟩ := Prod.mk.inj (Option.some.inj hrun)
      exact run?_cons.mpr ⟨out, t', [], hstep, rfl, rfl⟩
  | cons first ops ih =>
      intro s t t' outs op out hrun hstep
      obtain ⟨out₁, s₁, outs', hfirst, hrest, rfl⟩ := run?_cons.mp hrun
      exact run?_cons.mpr ⟨out₁, s₁, outs' ++ [out], hfirst, ih hrest hstep, rfl⟩

/-- **What every step of a run keeps, the run keeps.** -/
theorem run?_invariant {step : S → Op → Option (Out × S)} {P : S → Prop} :
    ∀ {ops : List Op} {s s' : S} {outs : List Out},
      (∀ s op out s', op ∈ ops → P s → step s op = some (out, s') → P s') → P s →
      run? step s ops = some (outs, s') → P s' := by
  intro ops
  induction ops with
  | nil =>
      intro s s' outs _ hs hrun
      obtain ⟨-, rfl⟩ := Prod.mk.inj (Option.some.inj hrun)
      exact hs
  | cons op ops ih =>
      intro s s' outs hkeep hs hrun
      obtain ⟨out, s₁, outs', hstep, hrest, -⟩ := run?_cons.mp hrun
      exact ih (fun s op out s' hop => hkeep s op out s' (List.mem_cons_of_mem _ hop))
        (hkeep s op out s₁ List.mem_cons_self hs hstep) hrest

/-- **When a run is defined**: every step is, from the state before it.  `P` is
an invariant under which `C` says when a step is defined. -/
theorem run?_isSome_iff {step : S → Op → Option (Out × S)} {P : S → Prop} {C : S → Op → Prop}
    (hstep : ∀ s op, P s → ((step s op).isSome ↔ C s op))
    (hkeep : ∀ s op out s', P s → step s op = some (out, s') → P s') :
    ∀ {ops : List Op} {s : S}, P s → ((run? step s ops).isSome ↔
      ∀ before op after outs s', ops = before ++ op :: after →
        run? step s before = some (outs, s') → C s' op) := by
  intro ops
  induction ops with
  | nil => intro s _; exact iff_of_true rfl (fun _ _ _ _ _ h => absurd h (by simp))
  | cons op ops ih =>
      intro s hs
      constructor
      · intro h before op' after outs s' hops hrun
        obtain ⟨⟨outs₁, t⟩, hall⟩ := Option.isSome_iff_exists.mp h
        obtain ⟨out, s₁, outs', hfirst, hrest, -⟩ := run?_cons.mp hall
        cases before with
        | nil =>
            obtain ⟨rfl, -⟩ := List.cons.inj hops
            obtain ⟨-, rfl⟩ := Prod.mk.inj (Option.some.inj hrun)
            exact (hstep s op hs).mp (Option.isSome_of_mem hfirst)
        | cons first before =>
            obtain ⟨rfl, htail⟩ := List.cons.inj hops
            obtain ⟨out', s₁', outs'', hfirst', hbefore, -⟩ := run?_cons.mp hrun
            obtain ⟨rfl, rfl⟩ := Prod.mk.inj (Option.some.inj (hfirst.symm.trans hfirst'))
            exact (ih (hkeep _ _ _ _ hs hfirst)).mp (Option.isSome_of_mem hrest) before op' after
              outs'' s' htail hbefore
      · intro h
        -- The first operation is the case of nothing before it.
        obtain ⟨⟨out, s₁⟩, hfirst⟩ := Option.isSome_iff_exists.mp
          ((hstep s op hs).mpr (h [] op ops [] s rfl rfl))
        have hrest := (ih (hkeep _ _ _ _ hs hfirst)).mpr
          (fun before op' after outs s' hops hrun =>
            h (op :: before) op' after (out :: outs) s' (congrArg (List.cons op) hops)
              (run?_cons.mpr ⟨out, s₁, outs, hfirst, hrun, rfl⟩))
        obtain ⟨⟨outs, t⟩, hrun⟩ := Option.isSome_iff_exists.mp hrest
        exact Option.isSome_of_mem (run?_cons.mpr ⟨out, s₁, outs, hfirst, hrun, rfl⟩)

/-- All answers and the final state. -/
def runAll (step : S → Op → Out × S) : S → List Op → List Out × S
  | s, [] => ([], s)
  | s, op :: ops =>
      let r := runAll step (step s op).2 ops
      ((step s op).1 :: r.1, r.2)

/-- From related states, on operations in `P`, `step` is defined, answers like
`spec`, and leads to related states. -/
def Refines (R : S → A → Prop) (P : Op → Prop) (step : S → Op → Option (Out × S))
    (spec : A → Op → Out × A) : Prop :=
  ∀ s a op, R s a → P op → ∃ s', step s op = some ((spec a op).1, s') ∧ R s' (spec a op).2

/-- **Step-wise refinement is refinement of runs.** -/
theorem Refines.run {R : S → A → Prop} {P : Op → Prop} {step : S → Op → Option (Out × S)}
    {spec : A → Op → Out × A} (h : Refines R P step spec) :
    ∀ (ops : List Op) {s : S} {a : A}, R s a → (∀ op ∈ ops, P op) →
      ∃ s', run? step s ops = some ((runAll spec a ops).1, s') ∧ R s' (runAll spec a ops).2 := by
  intro ops
  induction ops with
  | nil => intro s a hR _; exact ⟨s, rfl, hR⟩
  | cons op ops ih =>
      intro s a hR hP
      obtain ⟨s₁, hstep, hR₁⟩ := h s a op hR (hP op List.mem_cons_self)
      obtain ⟨s₂, hrun, hR₂⟩ := ih hR₁ (fun op hop => hP op (List.mem_cons_of_mem _ hop))
      refine ⟨s₂, ?_, hR₂⟩
      simp only [run?, hstep, hrun, Option.bind_eq_bind, Option.bind_some]
      rfl

/-- From related states `step` is defined just where `Fits` says so; there it
answers like `spec`, and leads to related states. -/
def RefinesWhere (R : S → A → Prop) (Fits : A → Op → Prop) (step : S → Op → Option (Out × S))
    (spec : A → Op → Out × A) : Prop :=
  ∀ s a op, R s a →
    (Fits a op ∧ ∃ s', step s op = some ((spec a op).1, s') ∧ R s' (spec a op).2) ∨
      (¬ Fits a op ∧ step s op = none)

/-- Every operation fits where the specification is then. -/
def AllFit (Fits : A → Op → Prop) (spec : A → Op → Out × A) (a : A) (ops : List Op) : Prop :=
  ∀ before op after, ops = before ++ op :: after → Fits (runAll spec a before).2 op

theorem allFit_cons {Fits : A → Op → Prop} {spec : A → Op → Out × A} {a : A} {op : Op}
    {ops : List Op} :
    AllFit Fits spec a (op :: ops) ↔ Fits a op ∧ AllFit Fits spec (spec a op).2 ops := by
  constructor
  · exact fun h => ⟨h [] op ops rfl, fun before op' after hops =>
      h (op :: before) op' after (congrArg (List.cons op) hops)⟩
  · rintro ⟨hfirst, hrest⟩ before op' after hops
    cases before with
    | nil =>
        obtain ⟨rfl, -⟩ := List.cons.inj hops
        exact hfirst
    | cons first before =>
        obtain ⟨rfl, htail⟩ := List.cons.inj hops
        exact hrest before op' after htail

/-- **Runs are defined just where all operations fit**, and refine there. -/
theorem RefinesWhere.run {R : S → A → Prop} {Fits : A → Op → Prop}
    {step : S → Op → Option (Out × S)} {spec : A → Op → Out × A}
    (h : RefinesWhere R Fits step spec) :
    ∀ (ops : List Op) {s : S} {a : A}, R s a →
      (AllFit Fits spec a ops ∧
        ∃ s', run? step s ops = some ((runAll spec a ops).1, s') ∧ R s' (runAll spec a ops).2) ∨
      (¬ AllFit Fits spec a ops ∧ run? step s ops = none) := by
  intro ops
  induction ops with
  | nil => exact fun hR => Or.inl ⟨fun _ _ _ hops => absurd hops (by simp), _, rfl, hR⟩
  | cons op ops ih =>
      intro s a hR
      rw [allFit_cons]
      rcases h s a op hR with ⟨hfits, s₁, hstep, hR₁⟩ | ⟨hnot, hstep⟩
      · rcases ih hR₁ with ⟨hall, s₂, hrun, hR₂⟩ | ⟨hnot, hrun⟩
        · refine Or.inl ⟨⟨hfits, hall⟩, s₂, ?_, hR₂⟩
          simp only [run?, hstep, hrun, Option.bind_eq_bind, Option.bind_some]
          rfl
        · refine Or.inr ⟨fun hall => hnot hall.2, ?_⟩
          simp only [run?, hstep, hrun, Option.bind_eq_bind, Option.bind_some, Option.bind_none]
      · refine Or.inr ⟨fun hall => hnot hall.1, ?_⟩
        simp only [run?, hstep, Option.bind_eq_bind, Option.bind_none]

/-- Operations one after another, each with an answer and a state behind it that
the specification `R` allows. -/
inductive Chain (R : A → Op → Out → A → Prop) : A → List Op → List Out → A → Prop
  | nil (a : A) : Chain R a [] [] a
  | cons {a a' a'' : A} {op : Op} {out : Out} {ops : List Op} {outs : List Out}
      (h : R a op out a') (rest : Chain R a' ops outs a'') :
      Chain R a (op :: ops) (out :: outs) a''

/-- **Where every step is one that the specification allows, so is every run**;
`view` is what the specification sees of a state. -/
theorem run?_chain {step : S → Op → Option (Out × S)} {P : S → Prop} {view : S → A}
    {R : A → Op → Out → A → Prop}
    (hstep : ∀ s op out s', P s → step s op = some (out, s') →
      P s' ∧ R (view s) op out (view s')) :
    ∀ {ops : List Op} {s s' : S} {outs : List Out}, P s → run? step s ops = some (outs, s') →
      P s' ∧ Chain R (view s) ops outs (view s') := by
  intro ops
  induction ops with
  | nil =>
      intro s s' outs hs hrun
      obtain ⟨rfl, rfl⟩ := Prod.mk.inj (Option.some.inj hrun)
      exact ⟨hs, .nil _⟩
  | cons op ops ih =>
      intro s s' outs hs hrun
      obtain ⟨out, s₁, outs', hfirst, hrest, rfl⟩ := run?_cons.mp hrun
      obtain ⟨hs₁, hR⟩ := hstep s op out s₁ hs hfirst
      obtain ⟨hs', hchain⟩ := ih hs₁ hrest
      exact ⟨hs', .cons hR hchain⟩

/-- **Where every step is defined as well, so is every run.** -/
theorem run?_total_chain {step : S → Op → Option (Out × S)} {P : S → Prop} {Q : Op → Prop}
    {view : S → A} {R : A → Op → Out → A → Prop}
    (hstep : ∀ s op, P s → Q op →
      ∃ out s', step s op = some (out, s') ∧ P s' ∧ R (view s) op out (view s')) :
    ∀ {ops : List Op} {s : S}, P s → (∀ op ∈ ops, Q op) →
      ∃ outs s', run? step s ops = some (outs, s') ∧ P s' ∧
        Chain R (view s) ops outs (view s') := by
  intro ops
  induction ops with
  | nil => intro s hs _; exact ⟨[], s, rfl, hs, .nil _⟩
  | cons op ops ih =>
      intro s hs hQ
      rw [List.forall_mem_cons] at hQ
      obtain ⟨out, s₁, hfirst, hs₁, hR⟩ := hstep s op hs hQ.1
      obtain ⟨outs, s', hrest, hs', hchain⟩ := ih hs₁ hQ.2
      exact ⟨out :: outs, s', run?_cons.mpr ⟨out, s₁, outs, hfirst, hrest, rfl⟩, hs',
        .cons hR hchain⟩

end KvEngine.Lib
