/-
  KvEngine.Engine.Reached
  ───────────────────────
  The engines that calls lead to, with or without a log, whatever the
  directory holds at the start and whatever the operating system answers.

  `Reached.models` says what all of them have in common: the tree represents
  some map.
-/
import KvEngine.Engine.Agreement

namespace KvEngine

open Lib

namespace KVEngine

/-- An engine after some calls. -/
inductive Reached (env : Env) (options : KVEngineOptions) : KVEngine → Prop
  | new {d : Disk} {e : KVEngine} (hnew : KVEngine.new env options d = some e) :
      Reached env options e
  | call {e e' : KVEngine} {op : EngineOp} {reply : TreeReply} (h : Reached env options e)
      (hrun : e.apply env op = some (reply, e')) : Reached env options e'
  | recover {e e' : KVEngine} {s : Status} (h : Reached env options e)
      (hrun : e.recover env = some (s, e')) : Reached env options e'

variable {env : Env} {options : KVEngineOptions} {o : BTreeOptions} {e e' : KVEngine} {m : RefMap}
  {s : Status}

/-- `Put` and `Delete` change the tree by the tree's own call, or not at all. -/
theorem logged_tree {log : WriteAheadLog → UInt64 → Option (Status × WriteAheadLog)}
    {change : BPlusTree → Option (Status × BPlusTree)}
    (hrun : e.logged env log change = some (s, e')) :
    e'.options = e.options ∧ (e'.tree = e.tree ∨ change e.tree = some (s, e'.tree)) := by
  cases hwal : e.wal with
  | none =>
      unfold logged at hrun
      simp only [hwal, Option.bind_eq_bind, Option.bind_eq_some_iff, Prod.exists] at hrun
      obtain ⟨s₁, t, hchange, hrun⟩ := hrun
      obtain ⟨rfl, rfl⟩ := Prod.mk.inj (Option.some.inj hrun)
      exact ⟨rfl, Or.inr hchange⟩
  | some w =>
      obtain ⟨_, _, _, hoptions, _, hcase⟩ := logged_cases hwal hrun
      rcases hcase with ⟨-, -, -, htree⟩ | ⟨-, -, ⟨-, -, htree⟩ | ⟨-, hchange⟩⟩
      · exact ⟨hoptions, Or.inl htree⟩
      · exact ⟨hoptions, Or.inl htree⟩
      · exact ⟨hoptions, Or.inr hchange⟩

/-- The tree represents a map, and the options are those given. -/
def HoldsMap (options : KVEngineOptions) (e : KVEngine) : Prop :=
  e.options = options ∧
    ∃ m, BPlusTree.Models (BPlusTree.new options.btreeOptions).options e.tree m

/-- A call on the tree leads to a tree that represents a map. -/
theorem models_change (h : BPlusTree.Models o e.tree m) (op : TreeOp)
    {change : BPlusTree → Option (Status × BPlusTree)} {t : BPlusTree}
    (hop : ∀ t, BPlusTree.apply t op = (change t).map (fun r => ((r.1, none), r.2)))
    (hchange : change e.tree = some (s, t)) : ∃ m', BPlusTree.Models o t m' := by
  obtain ⟨t', hrun, h'⟩ := BPlusTree.apply_refines o e.tree m op h trivial
  rw [hop, hchange] at hrun
  obtain ⟨-, rfl⟩ := Prod.mk.inj (Option.some.inj hrun)
  exact ⟨_, h'⟩

theorem holdsMap_new {d : Disk} (hnew : KVEngine.new env options d = some e) :
    HoldsMap options e := by
  cases hwal : options.enableWal with
  | true =>
      obtain ⟨d', -, -, hoptions⟩ := new_wal hwal hnew
      exact ⟨hoptions, _, (new_agrees hwal hnew).1⟩
  | false =>
      unfold KVEngine.new at hnew
      rw [hwal] at hnew
      obtain rfl := Option.some.inj hnew
      exact ⟨rfl, _, BPlusTree.models_new options.btreeOptions⟩

theorem HoldsMap.logged (h : HoldsMap options e) (op : TreeOp)
    {log : WriteAheadLog → UInt64 → Option (Status × WriteAheadLog)}
    {change : BPlusTree → Option (Status × BPlusTree)}
    (hop : ∀ t, BPlusTree.apply t op = (change t).map (fun r => ((r.1, none), r.2)))
    (hrun : e.logged env log change = some (s, e')) : HoldsMap options e' := by
  obtain ⟨hoptions, m, hmodels⟩ := h
  obtain ⟨hoptions', htree | hchange⟩ := logged_tree hrun
  · exact ⟨hoptions'.trans hoptions, m, htree ▸ hmodels⟩
  · exact ⟨hoptions'.trans hoptions, models_change hmodels op hop hchange⟩

theorem HoldsMap.apply (h : HoldsMap options e) {op : EngineOp} {reply : TreeReply}
    (hrun : e.apply env op = some (reply, e')) : HoldsMap options e' := by
  cases op with
  | put key value =>
      obtain ⟨⟨s, e₁⟩, hput, heq⟩ := Option.map_eq_some_iff.mp hrun
      obtain ⟨-, rfl⟩ := Prod.mk.inj heq
      exact h.logged (.put key value) (fun _ => rfl) hput
  | delete key =>
      obtain ⟨⟨s, e₁⟩, hdelete, heq⟩ := Option.map_eq_some_iff.mp hrun
      obtain ⟨-, rfl⟩ := Prod.mk.inj heq
      exact h.logged (.delete key) (fun _ => rfl) hdelete
  | get key =>
      obtain ⟨r, -, heq⟩ := Option.map_eq_some_iff.mp hrun
      obtain ⟨-, rfl⟩ := Prod.mk.inj heq
      exact h
  | flush =>
      obtain ⟨-, rfl⟩ := Prod.mk.inj (Option.some.inj hrun)
      unfold KVEngine.flush
      split <;> exact h
  | sync =>
      obtain ⟨-, rfl⟩ := Prod.mk.inj (Option.some.inj hrun)
      unfold KVEngine.sync
      split <;> exact h
  | reopen =>
      obtain ⟨e₁, hreopen, heq⟩ := Option.map_eq_some_iff.mp hrun
      obtain ⟨-, rfl⟩ := Prod.mk.inj heq
      obtain ⟨d, -, hnew⟩ := Option.bind_eq_some_iff.mp hreopen
      rw [h.1] at hnew
      exact holdsMap_new hnew

theorem HoldsMap.recover (h : HoldsMap options e) (hrun : e.recover env = some (s, e')) :
    HoldsMap options e' := by
  obtain ⟨hoptions, m, hmodels⟩ := h
  cases hwal : e.wal with
  | none =>
      simp only [KVEngine.recover, hwal] at hrun
      obtain ⟨-, rfl⟩ := Prod.mk.inj (Option.some.inj hrun)
      exact ⟨hoptions, m, hmodels⟩
  | some w =>
      obtain ⟨t, requests, hrun', ht⟩ := recover_spec env hmodels hwal
      obtain ⟨-, rfl⟩ := Prod.mk.inj (Option.some.inj (hrun'.symm.trans hrun))
      exact ⟨hoptions, _, ht⟩

/-- **The tree of every engine represents a map.** -/
theorem Reached.holdsMap (h : Reached env options e) : HoldsMap options e := by
  induction h with
  | new hnew => exact holdsMap_new hnew
  | call _ hrun ih => exact ih.apply hrun
  | recover _ hrun ih => exact ih.recover hrun

end KVEngine

end KvEngine
