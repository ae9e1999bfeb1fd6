/-
  KvEngine.Cli.Quoting
  ────────────────────
  Which arguments can be given to `CLI` between quotes.

  Quotes protect white space, but whether there is an argument at all is only
  seen from its bytes: `ParseCommand` returns no empty argument from any line
  (`parseCommand_nonempty`), and a pair of quotes with nothing between them is
  lost (`parseCommand_quotedLine`).
-/
import KvEngine.Cli.CLI

namespace KvEngine

open Lib
open Api (text)

namespace CLI

/-! ## §1. No argument is empty. -/

/-- What is in `args` has bytes. -/
def Scanner.Nonempty (s : Scanner) : Prop := ∀ a ∈ s.args, a ≠ []

namespace Scanner

variable {s : Scanner} {prev : Option UInt8}

theorem Nonempty.push (h : s.Nonempty) : s.push.Nonempty := by
  unfold Scanner.push
  split
  · exact h
  next hcurrent =>
    intro a ha
    rcases List.mem_append.mp ha with ha | ha
    · exact h a ha
    · rw [List.mem_singleton.mp ha]
      exact fun hnil => hcurrent (List.isEmpty_iff.mpr hnil)

theorem Nonempty.step (h : s.Nonempty) (c : UInt8) : (s.step prev c).Nonempty := by
  unfold Scanner.step
  split
  · split
    · exact h
    · split
      · exact h
      · exact h
  · split
    · exact h.push
    · exact h

theorem Nonempty.scan (h : s.Nonempty) (line : Bytes) : (s.scan prev line).Nonempty := by
  induction line generalizing s prev with
  | nil => exact h
  | cons c rest ih => exact ih (h.step c)

end Scanner

/-- **No line has an empty argument.** -/
theorem parseCommand_nonempty (line : Bytes) : ∀ a ∈ parseCommand line, a ≠ [] :=
  (Scanner.Nonempty.scan (s := {}) (fun _ ha => by cases ha) line).push

/-! ## §2. Arguments between quotes. -/

/-- Neither quotes nor backslashes. -/
def Plain (a : Bytes) : Prop := ∀ c ∈ a, c ≠ 34 ∧ c ≠ 39 ∧ c ≠ 92

instance (a : Bytes) : Decidable (Plain a) := List.decidableBAll _ a

/-- Each argument between double quotes, with single spaces between them. -/
def quotedLine (args : List Bytes) : Bytes :=
  List.intercalate [32] (args.map (fun a => 34 :: (a ++ [34])))

variable {prev : Option UInt8} (seen : List Bytes)

/-- **Between quotes a plain argument is copied**, white space included. -/
theorem scan_plain {a : Bytes} (ha : Plain a) (hprev : prev ≠ some 92) (current rest : Bytes)
    (q : UInt8) :
    ∃ prev', prev' ≠ some 92 ∧ Scanner.scan prev ⟨seen, current, true, q⟩ (a ++ rest)
      = Scanner.scan prev' ⟨seen, current ++ a, true, q⟩ rest := by
  induction a generalizing prev current with
  | nil => exact ⟨prev, hprev, by rw [List.append_nil]; rfl⟩
  | cons c a ih =>
      obtain ⟨h34, h39, h92⟩ := ha c List.mem_cons_self
      have hc : some c ≠ some 92 := by simpa using h92
      obtain ⟨prev', hprev', hscan⟩ :=
        ih (fun c hc => ha c (List.mem_cons_of_mem _ hc)) hc (current ++ [c])
      have hstep : Scanner.step prev ⟨seen, current, true, q⟩ c
          = ⟨seen, current ++ [c], true, q⟩ := by
        unfold Scanner.step
        rw [if_neg (fun h => h.1.elim h34 h39), if_neg (fun h => by simp at h)]
        rfl
      refine ⟨prev', hprev', ?_⟩
      rw [List.cons_append, Scanner.scan, hstep, hscan, List.append_assoc]
      rfl

/-- **One argument**: behind the closing quote its bytes are what is held. -/
theorem scan_quoted {a : Bytes} (ha : Plain a) (hprev : prev ≠ some 92) (rest : Bytes) :
    Scanner.scan prev { args := seen } (34 :: (a ++ [34]) ++ rest)
      = Scanner.scan (some 34) { args := seen, current := a } rest := by
  have hopen : Scanner.step prev { args := seen } 34 = ⟨seen, [], true, 34⟩ := by
    unfold Scanner.step
    rw [if_pos ⟨Or.inl rfl, hprev⟩]
    rfl
  have hquote : some (34 : UInt8) ≠ some 92 := by decide
  obtain ⟨prev', hprev', hscan⟩ := scan_plain seen ha hquote [] (34 :: rest) 34
  have hclose : Scanner.step prev' ⟨seen, a, true, 34⟩ 34 = { args := seen, current := a } := by
    unfold Scanner.step
    rw [if_pos ⟨Or.inl rfl, hprev'⟩]
    rfl
  rw [List.cons_append, List.append_assoc, List.singleton_append, Scanner.scan, hopen, hscan,
    List.nil_append, Scanner.scan, hclose]

/-- The argument held is taken over, if it has bytes. -/
theorem push_args (a : Bytes) :
    Scanner.push { args := seen, current := a }
      = { args := seen ++ [a].filter (fun a => !a.isEmpty) } := by
  cases a with
  | nil => rw [List.filter_cons_of_neg (by decide), List.filter_nil, List.append_nil]; rfl
  | cons c a => rfl

/-- **All arguments**: from the line back to those that are not empty. -/
theorem scan_quotedLine {args : List Bytes} (hplain : ∀ a ∈ args, Plain a)
    (hprev : prev ≠ some 92) :
    (Scanner.scan prev { args := seen } (quotedLine args)).push.args
      = seen ++ args.filter (fun a => !a.isEmpty) := by
  induction args generalizing prev seen with
  | nil => exact (List.append_nil seen).symm
  | cons a args ih =>
      have ha : Plain a := hplain a List.mem_cons_self
      cases args with
      | nil =>
          have hline : quotedLine [a] = 34 :: (a ++ [34]) ++ [] := by
            rw [List.append_nil]
            exact List.intercalate_singleton
          rw [hline, scan_quoted seen ha hprev, Scanner.scan, push_args]
      | cons b args =>
          have hline : quotedLine (a :: b :: args)
              = 34 :: (a ++ [34]) ++ 32 :: quotedLine (b :: args) := by
            unfold quotedLine
            rw [List.map_cons, List.map_cons, List.intercalate_cons_cons, List.append_assoc]
            rfl
          have hspace : Scanner.step (some 34) { args := seen, current := a } 32
              = Scanner.push { args := seen, current := a } := rfl
          rw [hline, scan_quoted seen ha hprev, Scanner.scan, hspace, push_args,
            ih _ (fun b hb => hplain b (List.mem_cons_of_mem _ hb)) (by decide), List.append_assoc,
            ← List.filter_append]
          rfl

theorem parseCommand_quotedLine {args : List Bytes} (hplain : ∀ a ∈ args, Plain a) :
    parseCommand (quotedLine args) = args.filter (fun a => !a.isEmpty) :=
  scan_quotedLine [] hplain (by decide)

/-! ## §3. Which arguments come through. -/

/-- **`PUT` between quotes**: a key and a value with bytes reach the engine,
without them the command is refused. -/
theorem executeCommand_put (env : Env) (reports : Reports) (engine : KVEngine) {key value : Bytes}
    (hplain : ∀ a ∈ [text "PUT", key, value], Plain a) :
    executeCommand env reports engine (quotedLine [text "PUT", key, value])
      = if key ≠ [] ∧ value ≠ [] then
          (engine.put env key value).map
            (fun (s, engine) => (.ofStatus s (successText (text "OK")), engine))
        else some (.invalidArgument (text "Usage: PUT <key> <value>"), engine) := by
  have hput : (text "PUT").isEmpty = false := by decide
  have hupper : (text "PUT").map toUpper = text "PUT" := by decide
  have hparse : parseCommand (quotedLine [text "PUT", key, value])
      = text "PUT" :: [key, value].filter (fun a => !a.isEmpty) := by
    rw [parseCommand_quotedLine hplain, List.filter_cons_of_pos (by rw [hput]; rfl)]
  unfold executeCommand
  rw [hparse]
  show dispatch env reports engine ((text "PUT").map toUpper) _ = _
  rw [hupper]
  unfold dispatch
  rw [if_pos rfl]
  -- what is left of key and value decides between the handler's two branches
  cases key with
  | nil => cases value <;> rfl
  | cons c key =>
      cases value with
      | nil => rfl
      | cons d value => rfl

/-- **Exactly the lists without an empty argument come back**, and `PUT` takes
a key and a value unless one of them is empty. -/
theorem quotedLine_exact {args : List Bytes} (hplain : ∀ a ∈ args, Plain a) :
    (parseCommand (quotedLine args) = args ↔ ∀ a ∈ args, a ≠ []) ∧
    ∀ (env : Env) (reports : Reports) (engine : KVEngine) (key value : Bytes),
      args = [text "PUT", key, value] →
      executeCommand env reports engine (quotedLine args)
        = if key ≠ [] ∧ value ≠ [] then
            (engine.put env key value).map
              (fun (s, engine) => (.ofStatus s (successText (text "OK")), engine))
          else some (.invalidArgument (text "Usage: PUT <key> <value>"), engine) := by
  refine ⟨⟨fun h => ?_, fun h => ?_⟩, ?_⟩
  · rw [← h]
    exact parseCommand_nonempty _
  · rw [parseCommand_quotedLine hplain]
    exact List.filter_eq_self.mpr (fun a ha => by simpa using h a ha)
  · rintro env reports engine key value rfl
    exact executeCommand_put env reports engine hplain

/-- White space alone is a value. -/
theorem quotedLine_exact_blank :
    parseCommand (quotedLine [text "PUT", text "a b", text " "])
      = [text "PUT", text "a b", text " "] :=
  (quotedLine_exact (by decide)).1.mpr (by decide)

/-- `PUT "k" ""` has one argument. -/
theorem quotedLine_exact_empty :
    (∀ a ∈ [text "PUT", text "k", []], Plain a) ∧
      parseCommand (quotedLine [text "PUT", text "k", []]) = [text "PUT", text "k"] ∧
      ¬ ∀ args : List Bytes, (∀ a ∈ args, Plain a) → parseCommand (quotedLine args) = args := by
  have hplain : ∀ a ∈ [text "PUT", text "k", []], Plain a := by decide
  have hparse : parseCommand (quotedLine [text "PUT", text "k", []])
      = [text "PUT", text "k"] := by decide
  refine ⟨hplain, hparse, fun h => ?_⟩
  have hlength := congrArg List.length (hparse.symm.trans (h _ hplain))
  exact absurd hlength (by decide)

end CLI

end KvEngine
