/-
  KvEngine.Lib.Linear
  ───────────────────
  **Operations that take time, and the points at which they take effect.**

  Parties share an object whose sequential behaviour is `step`.  A party
  calls an operation and later gets its answer; in between other parties run.
  A trace holds the calls, the answers, and between the two of each operation
  the one point at which it takes effect.  `Linearized` says that the
  operations, done one by one at these points, give the answers returned.
  `Linearizable` forgets the points: a history has only calls and answers.
-/
import Mathlib.Logic.Function.Basic
import KvEngine.Lib.Simulation

namespace KvEngine.Lib

/-- What happens to an operation of party `i`. -/
inductive Event (I Op Out : Type) where
  | call (i : I) (op : Op)
  | commit (i : I) (op : Op) (out : Out)
  | ret (i : I) (out : Out)
  deriving DecidableEq, Repr

/-- A caller sees calls and answers. -/
def Event.seen {I Op Out : Type} : Event I Op Out → Bool
  | .commit _ _ _ => false
  | _ => true

/-- How far the operation of a party is. -/
inductive Stage (Op Out : Type) where
  | quiet
  | called (op : Op)
  | committed (op : Op) (out : Out)

variable {S I Op Out : Type}

/-- Party `i` goes from one stage to another, the object from one state to
another, and this is what the caller of `i` sees of it. -/
inductive Advance (step : S → Op → Option (Out × S)) (i : I) :
    Stage Op Out → S → Stage Op Out → S → List (Event I Op Out) → Prop
  | stay (st : Stage Op Out) (s : S) : Advance step i st s st s []
  | call (op : Op) (s : S) : Advance step i .quiet s (.called op) s [.call i op]
  | commit {op : Op} {out : Out} {s s' : S} (hstep : step s op = some (out, s')) :
      Advance step i (.called op) s (.committed op out) s' []
  | ret (op : Op) (out : Out) (s : S) : Advance step i (.committed op out) s .quiet s [.ret i out]

/-- What every operation keeps, the step of a party keeps. -/
theorem Advance.keeps {P : S → Prop} {i : I} {st st' : Stage Op Out} {s s' : S}
    {seen : List (Event I Op Out)} (h : Advance step i st s st' s' seen) (hs : P s)
    (hkeep : ∀ s op out s', P s → step s op = some (out, s') → P s') : P s' := by
  cases h with
  | commit hstep => exact hkeep _ _ _ _ hs hstep
  | stay | call _ | ret _ _ => exact hs

variable [DecidableEq I]

/-- A trace from `s₀`, how far each party is after it, and the state its
commits lead to: an operation is called by a quiet party, commits once, with
the answer of `step`, and returns that answer. -/
inductive Linearized (step : S → Op → Option (Out × S)) (s₀ : S) :
    List (Event I Op Out) → (I → Stage Op Out) → S → Prop
  | nil : Linearized step s₀ [] (fun _ => .quiet) s₀
  | call {trace stage s} (h : Linearized step s₀ trace stage s) (i : I) (op : Op)
      (hi : stage i = .quiet) :
      Linearized step s₀ (trace ++ [.call i op]) (Function.update stage i (.called op)) s
  | commit {trace stage s out s'} (h : Linearized step s₀ trace stage s) (i : I) (op : Op)
      (hi : stage i = .called op) (hstep : step s op = some (out, s')) :
      Linearized step s₀ (trace ++ [.commit i op out])
        (Function.update stage i (.committed op out)) s'
  | ret {trace stage s} (h : Linearized step s₀ trace stage s) (i : I) (op : Op) (out : Out)
      (hi : stage i = .committed op out) :
      Linearized step s₀ (trace ++ [.ret i out]) (Function.update stage i .quiet) s

/-- **The history of calls and answers is that of operations done one by one**,
each at a point between its call and its answer; they lead to `s`. -/
def Linearizable (step : S → Op → Option (Out × S)) (s₀ : S) (history : List (Event I Op Out))
    (s : S) : Prop :=
  ∃ trace stage, Linearized step s₀ trace stage s ∧ trace.filter Event.seen = history

variable {step : S → Op → Option (Out × S)} {s₀ s : S} {trace : List (Event I Op Out)}
  {stage : I → Stage Op Out}

/-- **A trace goes on with what one party does.** -/
theorem Linearized.advance (h : Linearized step s₀ trace stage s) {i : I} {st' : Stage Op Out}
    {s' : S} {seen : List (Event I Op Out)} (hi : Advance step i (stage i) s st' s' seen) :
    ∃ more, Linearized step s₀ (trace ++ more) (Function.update stage i st') s' ∧
      more.filter Event.seen = seen := by
  generalize hst : stage i = st at hi
  cases hi with
  | stay =>
      subst hst
      refine ⟨[], ?_, rfl⟩
      rw [List.append_nil, Function.update_eq_self]
      exact h
  | call op => exact ⟨[.call i op], h.call i op hst, rfl⟩
  | commit hstep => exact ⟨[.commit i _ _], h.commit i _ hst hstep, rfl⟩
  | ret op out => exact ⟨[.ret i out], h.ret i op out hst, rfl⟩

end KvEngine.Lib
