/-
  KvEngine.Lib.OneShot
  ────────────────────
  **Parties that call one operation each.**

  Where every party calls at most once and every call has returned, a
  linearizable history is a list of the parties: their operations, done in
  this order, give the answers returned, and who called after another had its
  answer comes after it (`Linearizable.in_order`).
-/
import Mathlib.Data.List.Nodup
import KvEngine.Lib.Linear

namespace KvEngine.Lib

variable {S I Op Out : Type}

/-! ## §1. Who calls, and what is committed. -/

def Event.caller? : Event I Op Out → Option I
  | .call i _ => some i
  | _ => none

def Event.commit? : Event I Op Out → Option (I × Op × Out)
  | .commit i op out => some (i, op, out)
  | _ => none

def callers (trace : List (Event I Op Out)) : List I := trace.filterMap Event.caller?

/-- The operations with their parties and answers, as they take effect. -/
def commits (trace : List (Event I Op Out)) : List (I × Op × Out) :=
  trace.filterMap Event.commit?

theorem mem_callers {trace : List (Event I Op Out)} {i : I} :
    i ∈ callers trace ↔ ∃ op, .call i op ∈ trace := by
  unfold callers
  rw [List.mem_filterMap]
  constructor
  · rintro ⟨ev, hev, hi⟩
    cases ev with
    | call j op =>
        obtain rfl := Option.some.inj hi
        exact ⟨op, hev⟩
    | commit _ _ _ | ret _ _ => cases hi
  · rintro ⟨op, hop⟩
    exact ⟨_, hop, rfl⟩

theorem callers_append (trace more : List (Event I Op Out)) :
    callers (trace ++ more) = callers trace ++ callers more := List.filterMap_append

theorem commits_append (trace more : List (Event I Op Out)) :
    commits (trace ++ more) = commits trace ++ commits more := List.filterMap_append

theorem commits_snoc (trace : List (Event I Op Out)) {ev : Event I Op Out}
    (h : ev.commit? = none) : commits (trace ++ [ev]) = commits trace := by
  rw [commits_append, commits, commits, List.filterMap_cons_none h]
  exact List.append_nil _

/-- A caller sees who calls. -/
theorem callers_seen (trace : List (Event I Op Out)) :
    callers (trace.filter Event.seen) = callers trace := by
  induction trace with
  | nil => rfl
  | cons ev trace ih =>
      cases ev with
      | call i op => exact congrArg (i :: ·) ih
      | commit _ _ _ | ret _ _ => exact ih

/-- One call more than once in a trace is the same call. -/
theorem call_unique {trace : List (Event I Op Out)} (h : (callers trace).Nodup) {i : I}
    {op op' : Op} (hop : .call i op ∈ trace) (hop' : .call i op' ∈ trace) : op = op' := by
  induction trace with
  | nil => cases hop
  | cons ev trace ih =>
      have hrest : (callers trace).Nodup :=
        h.sublist ((List.sublist_cons_self ev trace).filterMap _)
      have hnew : ∀ {op₁}, ev = .call i op₁ → ∀ {op₂}, .call i op₂ ∉ trace := by
        rintro op₁ rfl op₂ hmem
        exact (List.nodup_cons.mp h).1 (mem_callers.mpr ⟨op₂, hmem⟩)
      rcases List.mem_cons.mp hop with heq | hmem
      · rcases List.mem_cons.mp hop' with heq' | hmem'
        · exact (Event.call.inj (heq.trans heq'.symm)).2
        · exact absurd hmem' (hnew heq.symm)
      · rcases List.mem_cons.mp hop' with heq' | hmem'
        · exact absurd hmem (hnew heq'.symm)
        · exact ih hrest hmem hmem'

/-! ## §2. The trace. -/

variable [DecidableEq I] {step : S → Op → Option (Out × S)} {s₀ s : S}
  {trace : List (Event I Op Out)} {stage : I → Stage Op Out}

/-- What the commits do one after another. -/
theorem Linearized.run (h : Linearized step s₀ trace stage s) :
    run? step s₀ ((commits trace).map (fun c => c.2.1))
      = some ((commits trace).map (fun c => c.2.2), s) := by
  induction h with
  | nil => rfl
  | call _ i op _ ih | ret _ i op out _ ih =>
      rw [commits_snoc _ rfl]
      exact ih
  | commit _ i op _ hstep ih =>
      rw [commits_append, List.map_append, List.map_append]
      exact run?_snoc ih hstep

theorem append_eq_snoc {α : Type} {t₁ t₂ old : List α} {last : α}
    (h : t₁ ++ t₂ = old ++ [last]) : t₁ = old ++ [last] ∨ ∃ rest, t₁ ++ rest = old := by
  rcases List.eq_nil_or_concat t₂ with rfl | ⟨rest, last', rfl⟩
  · exact Or.inl (by rwa [List.append_nil] at h)
  · rw [List.concat_eq_append, ← List.append_assoc] at h
    exact Or.inr ⟨rest, (List.append_inj' h rfl).1⟩

/-- A trace begins with traces. -/
theorem Linearized.before (h : Linearized step s₀ trace stage s) :
    ∀ {t₁ t₂ : List (Event I Op Out)}, t₁ ++ t₂ = trace →
      ∃ stage₁ s₁, Linearized step s₀ t₁ stage₁ s₁ := by
  induction h with
  | nil =>
      intro t₁ t₂ htrace
      obtain ⟨rfl, -⟩ := List.append_eq_nil_iff.mp htrace
      exact ⟨_, _, .nil⟩
  | call h i op hi ih =>
      intro t₁ t₂ htrace
      rcases append_eq_snoc htrace with rfl | ⟨rest, hrest⟩
      · exact ⟨_, _, h.call i op hi⟩
      · exact ih hrest
  | commit h i op hi hstep ih =>
      intro t₁ t₂ htrace
      rcases append_eq_snoc htrace with rfl | ⟨rest, hrest⟩
      · exact ⟨_, _, h.commit i op hi hstep⟩
      · exact ih hrest
  | ret h i op out hi ih =>
      intro t₁ t₂ htrace
      rcases append_eq_snoc htrace with rfl | ⟨rest, hrest⟩
      · exact ⟨_, _, h.ret i op out hi⟩
      · exact ih hrest

/-- What a trace tells where nobody calls twice. -/
structure Told (trace : List (Event I Op Out)) (stage : I → Stage Op Out) : Prop where
  called : ∀ i op, stage i = .called op →
    .call i op ∈ trace ∧ i ∉ (commits trace).map Prod.fst
  committed : ∀ i op out, stage i = .committed op out → (i, op, out) ∈ commits trace
  commit_call : ∀ i op out, (i, op, out) ∈ commits trace → .call i op ∈ trace
  ret_commit : ∀ i out, .ret i out ∈ trace → ∃ op, (i, op, out) ∈ commits trace
  once : ((commits trace).map Prod.fst).Nodup

/-- One event more, of party `i`. -/
theorem Told.snoc (ht : Told trace stage) {ev : Event I Op Out} {i : I} {st : Stage Op Out}
    (hcalled : ∀ op, st = .called op →
      .call i op ∈ trace ++ [ev] ∧ i ∉ (commits (trace ++ [ev])).map Prod.fst)
    (hcommitted : ∀ op out, st = .committed op out → (i, op, out) ∈ commits (trace ++ [ev]))
    (hnew : ∀ c ∈ commits (trace ++ [ev]), c ∈ commits trace ∨
      c.1 = i ∧ .call i c.2.1 ∈ trace)
    (hret : ∀ j out, ev = .ret j out → ∃ op, (j, op, out) ∈ commits trace)
    (honce : ((commits (trace ++ [ev])).map Prod.fst).Nodup) :
    Told (trace ++ [ev]) (Function.update stage i st) := by
  have hold : ∀ c ∈ commits trace, c ∈ commits (trace ++ [ev]) := fun c hc => by
    rw [commits_append]
    exact List.mem_append_left _ hc
  refine ⟨fun j op hj => ?_, fun j op out hj => ?_, fun j op out hj => ?_, fun j out hj => ?_,
    honce⟩
  · by_cases hij : j = i
    · subst hij
      rw [Function.update_self] at hj
      exact hcalled op hj
    · rw [Function.update_of_ne hij] at hj
      obtain ⟨hcall, hfresh⟩ := ht.called j op hj
      refine ⟨List.mem_append_left _ hcall, fun hmem => ?_⟩
      obtain ⟨c, hc, rfl⟩ := List.mem_map.mp hmem
      rcases hnew c hc with hc | ⟨hi, -⟩
      · exact hfresh (List.mem_map_of_mem hc)
      · exact hij hi
  · by_cases hij : j = i
    · subst hij
      rw [Function.update_self] at hj
      exact hcommitted op out hj
    · rw [Function.update_of_ne hij] at hj
      exact hold _ (ht.committed j op out hj)
  · rcases hnew _ hj with hj | ⟨rfl, hcall⟩
    · exact List.mem_append_left _ (ht.commit_call j op out hj)
    · exact List.mem_append_left _ hcall
  · have hcommit : ∃ op, (j, op, out) ∈ commits trace := by
      rcases List.mem_append.mp hj with hj | hj
      · exact ht.ret_commit j out hj
      · exact hret j out (List.mem_singleton.mp hj).symm
    obtain ⟨op, hc⟩ := hcommit
    exact ⟨op, hold _ hc⟩

/-- **What a trace tells**, by its last event. -/
theorem Linearized.told (h : Linearized step s₀ trace stage s) (hone : (callers trace).Nodup) :
    Told trace stage := by
  induction h with
  | nil => exact ⟨nofun, nofun, nofun, nofun, List.nodup_nil⟩
  | @call trace stage s h i op hi ih =>
      rw [callers_append] at hone
      have ht := ih (List.nodup_append.mp hone).1
      -- who has committed has called before
      have hfresh : i ∉ (commits trace).map Prod.fst := by
        intro hmem
        obtain ⟨⟨j, op', out⟩, hc, rfl⟩ := List.mem_map.mp hmem
        have hcaller := mem_callers.mpr ⟨op', ht.commit_call _ _ _ hc⟩
        exact (List.nodup_append.mp hone).2.2 _ hcaller _ List.mem_cons_self rfl
      refine ht.snoc (fun op' heq => ?_) nofun ?_ nofun ?_
      · obtain rfl := Stage.called.inj heq
        rw [commits_snoc _ rfl]
        exact ⟨List.mem_append_right _ List.mem_cons_self, hfresh⟩
      · rw [commits_snoc _ rfl]
        exact fun c hc => Or.inl hc
      · rw [commits_snoc _ rfl]
        exact ht.once
  | @commit trace stage s out s' h i op hi hstep ih =>
      rw [callers_append] at hone
      have ht := ih (List.nodup_append.mp hone).1
      have hcommits : commits (trace ++ [.commit i op out])
          = commits trace ++ [(i, op, out)] := commits_append _ _
      obtain ⟨hcall, hfresh⟩ := ht.called i op hi
      refine ht.snoc nofun (fun op' out' heq => ?_) ?_ nofun ?_
      · obtain ⟨rfl, rfl⟩ := Stage.committed.inj heq
        rw [hcommits]
        exact List.mem_append_right _ List.mem_cons_self
      · intro c hc
        rw [hcommits] at hc
        rcases List.mem_append.mp hc with hc | hc
        · exact Or.inl hc
        · obtain rfl := List.mem_singleton.mp hc
          exact Or.inr ⟨rfl, hcall⟩
      · rw [hcommits, List.map_append]
        refine List.nodup_append.mpr
          ⟨ht.once, List.pairwise_singleton _ _, fun j hj j' hj' heq => ?_⟩
        obtain rfl := List.mem_singleton.mp hj'
        exact hfresh (heq ▸ hj)
  | @ret trace stage s h i op out hi ih =>
      rw [callers_append] at hone
      have ht := ih (List.nodup_append.mp hone).1
      refine ht.snoc nofun nofun ?_ (fun j out' heq => ?_) ?_
      · rw [commits_snoc _ rfl]
        exact fun c hc => Or.inl hc
      · obtain ⟨rfl, rfl⟩ := Event.ret.inj heq
        exact ⟨op, ht.committed _ _ _ hi⟩
      · rw [commits_snoc _ rfl]
        exact ht.once

/-! ## §3. The history. -/

/-- **Where everybody has called at most once and has the answer, a linearizable
history is a list of the parties**, and who called behind an answer comes behind
who had it. -/
theorem Linearizable.in_order {history : List (Event I Op Out)}
    (h : Linearizable step s₀ history s) (hone : (callers history).Nodup)
    (hdone : ∀ i op, .call i op ∈ history → ∃ out, .ret i out ∈ history) :
    ∃ order : List (I × Op × Out),
      run? step s₀ (order.map (fun c => c.2.1)) = some (order.map (fun c => c.2.2), s) ∧
      (order.map Prod.fst).Nodup ∧
      (∀ i op out, (i, op, out) ∈ order ↔ .call i op ∈ history ∧ .ret i out ∈ history) ∧
      ∀ h₁ h₂ i out j op, history = h₁ ++ h₂ → .ret i out ∈ h₁ → .call j op ∈ h₂ →
        [i, j].Sublist (order.map Prod.fst) := by
  obtain ⟨trace, stage, htrace, rfl⟩ := h
  rw [callers_seen] at hone
  have hcall : ∀ {i op}, .call i op ∈ trace.filter Event.seen ↔ .call i op ∈ trace :=
    List.mem_filter.trans (and_iff_left rfl)
  have hret : ∀ {i out}, .ret i out ∈ trace.filter Event.seen ↔ .ret i out ∈ trace :=
    List.mem_filter.trans (and_iff_left rfl)
  have ht := htrace.told hone
  have horder : ∀ i op out, (i, op, out) ∈ commits trace ↔
      .call i op ∈ trace ∧ .ret i out ∈ trace := by
    intro i op out
    constructor
    · intro hc
      have hi := ht.commit_call i op out hc
      refine ⟨hi, ?_⟩
      obtain ⟨out', hout'⟩ := hdone i op (hcall.mpr hi)
      obtain ⟨op', hc'⟩ := ht.ret_commit i out' (hret.mp hout')
      obtain ⟨-, heq⟩ := Prod.mk.inj (List.inj_on_of_nodup_map ht.once hc hc' rfl)
      obtain ⟨-, rfl⟩ := Prod.mk.inj heq
      exact hret.mp hout'
    · rintro ⟨hop, hout⟩
      obtain ⟨op', hc⟩ := ht.ret_commit i out hout
      obtain rfl := call_unique hone hop (ht.commit_call i op' out hc)
      exact hc
  refine ⟨commits trace, htrace.run, ht.once, fun i op out => ?_, ?_⟩
  · rw [horder, hcall, hret]
  · intro h₁ h₂ i out j op heq hi hj
    obtain ⟨t₁, t₂, rfl, rfl, rfl⟩ := List.filter_eq_append_iff.mp heq
    obtain ⟨stage₁, s₁, hbefore⟩ := htrace.before rfl
    rw [callers_append] at hone
    have ht₁ := hbefore.told (List.nodup_append.mp hone).1
    obtain ⟨op', hci⟩ := ht₁.ret_commit i out (List.mem_of_mem_filter hi)
    have hj₂ : .call j op ∈ t₂ := List.mem_of_mem_filter hj
    -- the second party commits behind the cut, as it calls there
    obtain ⟨out', hout'⟩ := hdone j op (by
      rw [List.filter_append]
      exact List.mem_append_right _ hj)
    have hcj := (horder j op out').mpr ⟨List.mem_append_right _ hj₂, hret.mp hout'⟩
    rw [commits_append, List.map_append]
    have hfirst : [i].Sublist ((commits t₁).map Prod.fst) :=
      List.singleton_sublist.mpr (List.mem_map.mpr ⟨_, hci, rfl⟩)
    refine hfirst.append (List.singleton_sublist.mpr ?_)
    rw [commits_append] at hcj
    rcases List.mem_append.mp hcj with hcj | hcj
    · have hcaller := mem_callers.mpr ⟨op, ht₁.commit_call j op out' hcj⟩
      exact absurd rfl ((List.nodup_append.mp hone).2.2 j hcaller j (mem_callers.mpr ⟨op, hj₂⟩))
    · exact List.mem_map.mpr ⟨_, hcj, rfl⟩

end KvEngine.Lib
