/-
  KvEngine.Cli.Typing
  ───────────────────
  What can be typed at the prompt of `CLI`.

  `typeLine` is a line for any arguments that have bytes: quotes, backslashes and
  white space included (`parseCommand_typeLine`).  Since `ParseCommand` makes no
  other ones, a session can have any commands without line ends in them, and only
  these (`commands_typed`).
-/
import KvEngine.Cli.Session

namespace KvEngine

open Lib
open Api (text getlines)

namespace CLI

/-! ## §1. How to type an argument. -/

/-- A double quote without a backslash before it is put between single quotes. -/
def typeBody (prev : Option UInt8) : Bytes → Bytes
  | [] => []
  | c :: rest =>
      (if c = 34 ∧ prev ≠ some 92 then [34, 39, 34, 39, 34] else [c]) ++ typeBody (some c) rest

/-- The argument between double quotes.  A closing quote must not follow a
backslash, so the backslashes at the end are typed behind it. -/
def typeArg (a : Bytes) : Bytes :=
  34 :: (typeBody (some 34) (a.rdropWhile (fun c => c = 92)) ++ [34]) ++
    a.rtakeWhile (fun c => c = 92)

/-- The arguments with single spaces between them. -/
def typeLine (args : List Bytes) : Bytes := List.intercalate [32] (args.map typeArg)

theorem typeLine_singleton (a : Bytes) : typeLine [a] = typeArg a :=
  List.intercalate_singleton

theorem typeLine_cons_cons (a b : Bytes) (args : List Bytes) :
    typeLine (a :: b :: args) = typeArg a ++ 32 :: typeLine (b :: args) := by
  unfold typeLine
  rw [List.map_cons, List.map_cons, List.intercalate_cons_cons, List.append_assoc]
  rfl

variable {prev : Option UInt8} (seen : List Bytes)

/-- Between double quotes every other byte is copied. -/
theorem step_inside {c : UInt8} (h : ¬ (c = 34 ∧ prev ≠ some 92)) (current : Bytes) :
    Scanner.step prev ⟨seen, current, true, 34⟩ c = ⟨seen, current ++ [c], true, 34⟩ := by
  unfold Scanner.step
  split
  next hquote =>
    rw [if_neg (by simp), if_neg (fun hc : c = 34 => h ⟨hc, hquote.2⟩)]
    rfl
  next =>
    rw [if_neg (fun h => by simp at h)]
    rfl

/-- A double quote between single quotes, between double quotes. -/
theorem scan_quote (hprev : prev ≠ some 92) (current rest : Bytes) :
    Scanner.scan prev ⟨seen, current, true, 34⟩ ([34, 39, 34, 39, 34] ++ rest)
      = Scanner.scan (some 34) ⟨seen, current ++ [34], true, 34⟩ rest := by
  simp [Scanner.scan, Scanner.step, Scanner.append, hprev]

/-- **Between the quotes the bytes of the argument are held.** -/
theorem scan_typeBody (a current rest : Bytes) :
    Scanner.scan prev ⟨seen, current, true, 34⟩ (typeBody prev a ++ rest)
      = Scanner.scan (a.getLast?.or prev) ⟨seen, current ++ a, true, 34⟩ rest := by
  induction a generalizing prev current with
  | nil =>
      rw [List.append_nil]
      rfl
  | cons c a ih =>
      have hlast : (c :: a).getLast?.or prev = a.getLast?.or (some c) := by
        rw [List.getLast?_cons]
        cases a.getLast? <;> rfl
      have hcurrent : current ++ c :: a = current ++ [c] ++ a := by
        rw [List.append_assoc]
        rfl
      rw [hlast, hcurrent, ← ih, typeBody, List.append_assoc]
      by_cases h : c = 34 ∧ prev ≠ some 92
      · obtain ⟨rfl, hprev⟩ := id h
        rw [if_pos h, scan_quote seen hprev]
      · rw [if_neg h, List.singleton_append, Scanner.scan, step_inside seen h]

/-- Backslashes outside of quotes. -/
theorem scan_backslashes {run : Bytes} (hrun : ∀ c ∈ run, c = 92) (current rest : Bytes) :
    ∃ prev', Scanner.scan prev { args := seen, current } (run ++ rest)
      = Scanner.scan prev' { args := seen, current := current ++ run } rest := by
  induction run generalizing prev current with
  | nil => exact ⟨prev, by rw [List.append_nil]; rfl⟩
  | cons c run ih =>
      obtain ⟨rfl, hrest⟩ := List.forall_mem_cons.mp hrun
      obtain ⟨prev', hscan⟩ := @ih (some 92) hrest (current ++ [92])
      refine ⟨prev', ?_⟩
      have hstep : Scanner.step prev { args := seen, current } 92
          = { args := seen, current := current ++ [92] } := by
        unfold Scanner.step
        rw [if_neg (fun h => by simp at h), if_neg (fun h => absurd h.1 (by decide))]
        rfl
      rw [List.cons_append, Scanner.scan, hstep, hscan, List.append_assoc]
      rfl

/-- **One argument**: behind what is typed for it, it is what is held. -/
theorem scan_typeArg (hprev : prev ≠ some 92) (a rest : Bytes) :
    ∃ prev', Scanner.scan prev { args := seen } (typeArg a ++ rest)
      = Scanner.scan prev' { args := seen, current := a } rest := by
  let body := a.rdropWhile (fun c => c = 92)
  let run := a.rtakeWhile (fun c => c = 92)
  have hrun : ∀ c ∈ run, c = 92 := fun c hc => by simpa using List.mem_rtakeWhile_imp hc
  have hbody : body.getLast?.or (some 34) ≠ some (92 : UInt8) := by
    cases hlast : body.getLast? with
    | none => decide
    | some c =>
        have hne : body ≠ [] := fun hnil => by rw [hnil] at hlast; cases hlast
        have hnot := List.rdropWhile_last_not (fun c : UInt8 => c = 92) a hne
        rw [List.getLast?_eq_some_getLast hne] at hlast
        intro h
        obtain rfl := Option.some.inj h
        exact hnot (by simpa using Option.some.inj hlast)
  have hopen : Scanner.step prev { args := seen } 34 = ⟨seen, [], true, 34⟩ := by
    unfold Scanner.step
    rw [if_pos ⟨Or.inl rfl, hprev⟩]
    rfl
  have hclose : Scanner.step (body.getLast?.or (some 34)) ⟨seen, body, true, 34⟩ 34
      = { args := seen, current := body } := by
    unfold Scanner.step
    rw [if_pos ⟨Or.inl rfl, hbody⟩]
    rfl
  obtain ⟨prev', hscan⟩ := @scan_backslashes (some 34) seen run hrun body rest
  refine ⟨prev', ?_⟩
  rw [show typeArg a ++ rest = 34 :: (typeBody (some 34) body ++ 34 :: (run ++ rest)) by
      simp [typeArg, body, run],
    Scanner.scan, hopen, scan_typeBody, List.nil_append, Scanner.scan, hclose, hscan,
    List.rdropWhile_append_rtakeWhile]

/-- **All arguments.** -/
theorem scan_typeLine {args : List Bytes} (hargs : ∀ a ∈ args, a ≠ []) (hprev : prev ≠ some 92) :
    (Scanner.scan prev { args := seen } (typeLine args)).push.args = seen ++ args := by
  induction args generalizing prev seen with
  | nil => exact (List.append_nil seen).symm
  | cons a args ih =>
      obtain ⟨ha, hrest⟩ := List.forall_mem_cons.mp hargs
      have hpush : Scanner.push { args := seen, current := a } = { args := seen ++ [a] } := by
        rw [push_args, List.filter_cons_of_pos (by simpa using ha), List.filter_nil]
      cases args with
      | nil =>
          obtain ⟨prev', hscan⟩ := scan_typeArg seen hprev a []
          rw [typeLine_singleton, ← List.append_nil (typeArg a), hscan, Scanner.scan, hpush]
      | cons b args =>
          obtain ⟨prev', hscan⟩ := scan_typeArg seen hprev a (32 :: typeLine (b :: args))
          have hspace : Scanner.step prev' { args := seen, current := a } 32
              = Scanner.push { args := seen, current := a } := by
            unfold Scanner.step
            rw [if_neg (fun h => absurd h.1 (by decide)), if_pos ⟨by decide, rfl⟩]
          rw [typeLine_cons_cons, hscan, Scanner.scan, hspace, hpush, ih _ hrest (by decide),
            List.append_assoc]
          rfl

/-- **Any arguments that have bytes can be typed.** -/
theorem parseCommand_typeLine {args : List Bytes} (hargs : ∀ a ∈ args, a ≠ []) :
    parseCommand (typeLine args) = args :=
  scan_typeLine [] hargs (by decide)

/-! ## §2. Lines. -/

/-- Arguments that fit on a line: bytes, and none of them ends it. -/
def Typable (args : List Bytes) : Prop := ∀ a ∈ args, a ≠ [] ∧ 10 ∉ a

instance (args : List Bytes) : Decidable (Typable args) := List.decidableBAll _ args

/-- No line end among the bytes a scanner holds. -/
def Scanner.OnLine (s : Scanner) : Prop := (∀ a ∈ s.args, 10 ∉ a) ∧ 10 ∉ s.current

namespace Scanner

variable {s : Scanner}

theorem OnLine.append (h : s.OnLine) {c : UInt8} (hc : c ≠ 10) : (s.append c).OnLine := by
  refine ⟨h.1, fun hmem => ?_⟩
  rcases List.mem_append.mp hmem with hmem | hmem
  · exact h.2 hmem
  · exact hc (List.mem_singleton.mp hmem).symm

theorem OnLine.push (h : s.OnLine) : s.push.OnLine := by
  unfold Scanner.push
  split
  · exact h
  · refine ⟨fun a ha => ?_, List.not_mem_nil⟩
    rcases List.mem_append.mp ha with ha | ha
    · exact h.1 a ha
    · rw [List.mem_singleton.mp ha]
      exact h.2

theorem OnLine.step (h : s.OnLine) {c : UInt8} (hc : c ≠ 10) : (s.step prev c).OnLine := by
  unfold Scanner.step
  split
  · split
    · exact h
    · split
      · exact h
      · exact h.append hc
  · split
    · exact h.push
    · exact h.append hc

theorem OnLine.scan (h : s.OnLine) {line : Bytes} (hline : 10 ∉ line) :
    (s.scan prev line).OnLine := by
  induction line generalizing s prev with
  | nil => exact h
  | cons c rest ih =>
      obtain ⟨hc, hrest⟩ := List.ne_and_not_mem_of_not_mem_cons hline
      exact ih (h.step hc.symm) hrest

end Scanner

/-- **No line gives other arguments.** -/
theorem typable_parseCommand {line : Bytes} (hline : 10 ∉ line) : Typable (parseCommand line) := by
  have hstart : Scanner.OnLine {} := ⟨fun _ ha => absurd ha List.not_mem_nil, List.not_mem_nil⟩
  exact fun a ha => ⟨parseCommand_nonempty line a ha, (hstart.scan hline).push.1 a ha⟩

theorem mem_trim {line : Bytes} {c : UInt8} (h : c ∈ trim line) : c ∈ line :=
  (List.dropWhile_suffix _).subset ((List.rdropWhile_prefix _ _).subset h)

/-- Typing adds quotes and spaces only. -/
theorem mem_typeBody {a : Bytes} {c : UInt8} (h : c ∈ typeBody prev a) : c ∈ a ∨ c ≠ 10 := by
  induction a generalizing prev with
  | nil => exact Or.inl h
  | cons d a ih =>
      rcases List.mem_append.mp h with h | h
      · split at h
        · refine Or.inr ?_
          rintro rfl
          exact absurd h (by decide)
        · rw [List.mem_singleton.mp h]
          exact Or.inl List.mem_cons_self
      · exact (ih h).imp_left (List.mem_cons_of_mem _)

theorem mem_typeArg {a : Bytes} {c : UInt8} (h : c ∈ typeArg a) : c ∈ a ∨ c ≠ 10 := by
  rcases List.mem_append.mp h with h | h
  · rcases List.mem_cons.mp h with rfl | h
    · exact Or.inr (by decide)
    rcases List.mem_append.mp h with h | h
    · exact (mem_typeBody h).imp_left (fun h => (List.rdropWhile_prefix _ _).subset h)
    · rw [List.mem_singleton.mp h]
      exact Or.inr (by decide)
  · exact Or.inl ((List.rtakeWhile_suffix _ _).subset h)

theorem typeLine_one_line {args : List Bytes} (h : Typable args) : 10 ∉ typeLine args := by
  have harg : ∀ a ∈ args, 10 ∉ typeArg a :=
    fun a ha hmem => (mem_typeArg hmem).elim (h a ha).2 (fun hne => hne rfl)
  induction args with
  | nil => exact List.not_mem_nil
  | cons a args ih =>
      obtain ⟨hfirst, hrest⟩ := List.forall_mem_cons.mp harg
      cases args with
      | nil =>
          rw [typeLine_singleton]
          exact hfirst
      | cons b args =>
          rw [typeLine_cons_cons]
          intro hmem
          rcases List.mem_append.mp hmem with hmem | hmem
          · exact hfirst hmem
          rcases List.mem_cons.mp hmem with heq | hmem
          · exact absurd heq (by decide)
          · exact ih (fun b hb => h b (List.mem_cons_of_mem _ hb)) hrest hmem

/-- What is typed begins with a quote, and does not end with white space. -/
theorem typeArg_ends (a : Bytes) :
    ∃ inner c, typeArg a = 34 :: (inner ++ [c]) ∧ isBlank c = false := by
  rcases List.eq_nil_or_concat (a.rtakeWhile (fun c => c = 92)) with hnil | ⟨run, c, hrun⟩
  · exact ⟨_, 34, by rw [typeArg, hnil, List.append_nil], by decide⟩
  · have hc : c = 92 := by
      simpa using List.mem_rtakeWhile_imp
        (show c ∈ a.rtakeWhile (fun c => decide (c = 92)) by rw [hrun]; simp)
    refine ⟨typeBody (some 34) (a.rdropWhile (fun c => c = 92)) ++ [34] ++ run, c, ?_, ?_⟩
    · rw [typeArg, hrun]
      simp
    · rw [hc]
      decide

theorem typeLine_ends {args : List Bytes} (h : args ≠ []) :
    ∃ inner c, typeLine args = 34 :: (inner ++ [c]) ∧ isBlank c = false := by
  induction args with
  | nil => exact absurd rfl h
  | cons a args ih =>
      obtain ⟨first, c, hfirst, hc⟩ := typeArg_ends a
      cases args with
      | nil =>
          rw [typeLine_singleton]
          exact ⟨first, c, hfirst, hc⟩
      | cons b args =>
          obtain ⟨inner, d, hinner, hd⟩ := ih (List.cons_ne_nil b args)
          refine ⟨first ++ [c] ++ [32] ++ 34 :: inner, d, ?_, hd⟩
          rw [typeLine_cons_cons, hfirst, hinner]
          simp

/-- **Nothing is trimmed**, and the line is not empty. -/
theorem trim_typeLine {args : List Bytes} (h : args ≠ []) :
    trim (typeLine args) = typeLine args ∧ (typeLine args).head? = some 34 := by
  obtain ⟨inner, c, hline, hc⟩ := typeLine_ends h
  rw [hline]
  refine ⟨?_, rfl⟩
  unfold trim
  rw [List.dropWhile_cons_of_neg (by decide), ← List.cons_append, List.rdropWhile_concat_neg]
  rw [hc]
  decide

/-! ## §3. Sessions. -/

/-- A line for each command. -/
def script (commands : List (List Bytes)) : Bytes :=
  (commands.map (fun args => typeLine args ++ [10])).flatten

/-- `ExecuteCommand` behind `ParseCommand`. -/
def executeArgs (env : Env) (reports : Reports) (engine : KVEngine) :
    List Bytes → Option (Reply × KVEngine)
  | [] => some ({}, engine)
  | cmd :: args => dispatch env reports engine (cmd.map toUpper) args

variable {env : Env} {reports : Reports} {e : KVEngine}

theorem getlines_line {line : Bytes} (h : 10 ∉ line) (rest : Bytes) :
    getlines 10 (line ++ 10 :: rest) = line :: getlines 10 rest := by
  induction line with
  | nil =>
      rw [List.nil_append, getlines, if_pos rfl]
  | cons c line ih =>
      obtain ⟨hc, hline⟩ := List.ne_and_not_mem_of_not_mem_cons h
      rw [List.cons_append, getlines, if_neg hc.symm, ih hline]

theorem getlines_script {commands : List (List Bytes)} (h : ∀ args ∈ commands, Typable args) :
    getlines 10 (script commands) = commands.map typeLine := by
  induction commands with
  | nil => rfl
  | cons args commands ih =>
      obtain ⟨hargs, hrest⟩ := List.forall_mem_cons.mp h
      have hscript : script (args :: commands) = typeLine args ++ 10 :: script commands := by
        unfold script
        rw [List.map_cons, List.flatten_cons, List.append_assoc]
        rfl
      rw [hscript, getlines_line (typeLine_one_line hargs), ih hrest, List.map_cons]

theorem executeCommand_typeLine {args : List Bytes} (h : Typable args) :
    executeCommand env reports e (typeLine args) = executeArgs env reports e args := by
  unfold executeCommand
  rw [parseCommand_typeLine (fun a ha => (h a ha).1)]
  cases args <;> rfl

/-- **A typed line is its command**: neither skipped nor taken for `exit`. -/
theorem runLines_typeLine {args : List Bytes} (hne : args ≠ []) (h : Typable args)
    (lines : List Bytes) :
    runLines env reports e (typeLine args :: lines)
      = (executeArgs env reports e args).bind (fun (reply, e) =>
          (runLines env reports e lines).map
            (fun (out, e) => (prompt ++ shown reply ++ out, e))) := by
  obtain ⟨htrim, hhead⟩ := trim_typeLine hne
  have hempty : ¬ (typeLine args).isEmpty = true := by
    intro hempty
    rw [List.isEmpty_iff.mp hempty] at hhead
    cases hhead
  have hstays : ¬ (typeLine args = text "exit" ∨ typeLine args = text "quit") := by
    rintro (heq | heq) <;> exact absurd (heq ▸ hhead) (by decide)
  rw [runLines]
  dsimp only
  rw [htrim, if_neg hempty, if_neg hstays, executeCommand_typeLine h]
  cases executeArgs env reports e args with
  | none => rfl
  | some r =>
      show Option.bind (runLines env reports r.2 lines) _ = Option.map _ _
      rw [Option.map_eq_bind]
      rfl

/-- What a session prints for the replies. -/
def printed (replies : List Reply) : Bytes :=
  (replies.map (fun reply => prompt ++ shown reply)).flatten ++ prompt

theorem runLines_typed {commands : List (List Bytes)}
    (h : ∀ args ∈ commands, args ≠ [] ∧ Typable args) :
    runLines env reports e (commands.map typeLine)
      = (run? (executeArgs env reports) e commands).map (fun r => (printed r.1, r.2)) := by
  induction commands generalizing e with
  | nil => rfl
  | cons args commands ih =>
      obtain ⟨⟨hne, hargs⟩, hrest⟩ := List.forall_mem_cons.mp h
      rw [List.map_cons, runLines_typeLine hne hargs, run?]
      cases executeArgs env reports e args with
      | none => rfl
      | some r =>
          obtain ⟨reply, e₁⟩ := r
          show Option.map _ (runLines env reports e₁ (commands.map typeLine))
            = Option.map _ (Option.bind (run? (executeArgs env reports) e₁ commands) _)
          rw [ih hrest]
          cases run? (executeArgs env reports) e₁ commands with
          | none => rfl
          | some s =>
              simp [printed]

/-- **The prompt takes every command**: the lines of any input give exactly the
arguments that have bytes and no line end, and for any list of commands with
such arguments there is an input whose session is these commands one after
another, on any engine, with their replies printed. -/
theorem commands_typed :
    (fun line => parseCommand (trim line)) '' {line | 10 ∉ line} = {args | Typable args} ∧
    ∀ (env : Env) (reports : Reports) (e : KVEngine) (commands : List (List Bytes)),
      (∀ args ∈ commands, args ≠ [] ∧ Typable args) →
      run env reports e (script commands)
        = (run? (executeArgs env reports) e commands).map
            (fun r => (banner ++ printed r.1, r.2)) := by
  refine ⟨Set.Subset.antisymm ?_ ?_, ?_⟩
  · rintro _ ⟨line, hline, rfl⟩
    exact typable_parseCommand (fun hmem => hline (mem_trim hmem))
  · intro args h
    refine ⟨typeLine args, typeLine_one_line h, ?_⟩
    show parseCommand (trim (typeLine args)) = args
    cases args with
    | nil => decide
    | cons a args =>
        rw [(trim_typeLine (List.cons_ne_nil a args)).1]
        exact parseCommand_typeLine (fun b hb => (h b hb).1)
  · intro env reports e commands h
    unfold run
    rw [getlines_script (fun args hargs => (h args hargs).2), runLines_typed h, Option.map_map]
    rfl

/-- A key of quotes and backslashes is put and found. -/
theorem commands_typed_quotes :
    (run .undisturbed ⟨fun _ => 0, fun _ => []⟩
        { options := {}, tree := BPlusTree.new {} }
        (script [[text "put", [34, 92, 34, 39, 92], text "a  b"],
          [text "get", [34, 92, 34, 39, 92]]])).map Prod.fst
      = some (banner ++ text "kv> OK\nkv> a  b\nkv> ") := by
  rw [commands_typed.2 _ _ _ _ (by decide)]
  decide +kernel

end CLI

end KvEngine
