/-
  KvEngine.Cli.Session
  ────────────────────
  `CLI::Run`: the loop over the lines of the input.

  The shell is a map with commands.  `Executes` says what each list of arguments
  is answered and what it does to the map: a `PUT` or `DELETE` changes it, but
  where the log refuses the change or there is nothing to delete.
  `session_executes` extends this to all that is typed, up to `exit` or the end
  of the input, with every byte that is printed.
-/
import KvEngine.BTree.VerifyRun
import KvEngine.Cli.Quoting
import KvEngine.Engine.Reached
import KvEngine.Engine.Refusal

namespace KvEngine

open Lib
open Api (text)

namespace CLI

/-! ## §1. The code. -/

/-- What `Run` trims. -/
def isBlank (c : UInt8) : Bool := c == 32 || c == 9 || c == 13 || c == 10

/-- `erase` up to the first and behind the last byte that is not blank. -/
def trim (line : Bytes) : Bytes := (line.dropWhile isBlank).rdropWhile isBlank

def banner : Bytes :=
  text "KV Engine Interactive CLI v1.0.0\n" ++
    text "Type 'help' for available commands, 'exit' to quit\n\n"

/-- `PrintPrompt`. -/
def prompt : Bytes := text "kv> "

/-- `PrintError`, with the text of `Status::ToString`. -/
def errorText (reply : Reply) : Bytes :=
  text "Error: " ++ text (Status.toString ⟨reply.code, ""⟩) ++
    (if reply.msg.isEmpty then [] else text ": " ++ reply.msg) ++ text "\n"

/-- What is printed for a command. -/
def shown (reply : Reply) : Bytes :=
  reply.printed ++ if reply.code = .ok then [] else errorText reply

/-- The loop, from the prompt on. -/
def runLines (env : Env) (reports : Reports) (engine : KVEngine) :
    List Bytes → Option (Bytes × KVEngine)
  | [] => some (prompt, engine)
  | line :: lines =>
      let line := trim line
      if line.isEmpty then
        (runLines env reports engine lines).map (fun (out, engine) => (prompt ++ out, engine))
      else if line = text "exit" ∨ line = text "quit" then
        some (prompt ++ text "Goodbye!\n", engine)
      else do
        let (reply, engine) ← executeCommand env reports engine line
        let (out, engine) ← runLines env reports engine lines
        some (prompt ++ shown reply ++ out, engine)

/-- `Run`: what it prints for all of the input, and the engine behind it. -/
def run (env : Env) (reports : Reports) (engine : KVEngine) (input : Bytes) :
    Option (Bytes × KVEngine) :=
  (runLines env reports engine (Api.getlines 10 input)).map
    (fun (out, engine) => (banner ++ out, engine))

/-! ## §2. What the shell is for. -/

/-- The lines of a listing. -/
def listing (es : List (Bytes × Bytes)) : Bytes :=
  (es.map (fun e => e.1 ++ text " = " ++ e.2 ++ text "\n")).flatten ++
    if es.length = 0 then text "(empty)\n"
    else text "--- " ++ decimal es.length ++ text " key(s) ---\n"

/-- Arguments joined by spaces. -/
def joined (value : Bytes) (rest : List Bytes) : Bytes :=
  rest.foldl (fun value arg => value ++ (text " " ++ arg)) value

/-- The reply of the engine `e` to some arguments, and the map behind it; keys are
listed in the order `c`.  Of the engine it takes the map, the refusals of its log and
what `PRINT` and the statistics show. -/
inductive Executes (env : Env) (reports : Reports) (c : Comparator) (e : KVEngine) :
    List Bytes → Reply → RefMap → Prop
  | nothing : Executes env reports c e [] {} e.mapOf
  | put {cmd key value : Bytes} {rest : List Bytes} (hcmd : cmd.map toUpper = text "PUT")
      (hlog : e.putRefusal env key (joined value rest) = none) :
      Executes env reports c e (cmd :: key :: value :: rest) { printed := text "OK\n" }
        (Function.update e.mapOf key (some (joined value rest)))
  | delete {cmd key : Bytes} (hcmd : cmd.map toUpper = text "DELETE" ∨ cmd.map toUpper = text "DEL")
      (hlog : e.deleteRefusal env key = none) (hm : e.mapOf key ≠ none) :
      Executes env reports c e [cmd, key] { printed := text "OK\n" }
        (Function.update e.mapOf key none)
  | absent {cmd key : Bytes} (hcmd : cmd.map toUpper = text "DELETE" ∨ cmd.map toUpper = text "DEL")
      (hlog : e.deleteRefusal env key = none) (hm : e.mapOf key = none) :
      Executes env reports c e [cmd, key] ⟨.notFound, text "Key not found", []⟩ e.mapOf
  /-- The log refuses the pair, with this status. -/
  | putRefused {cmd key value : Bytes} {rest : List Bytes} {s : Status}
      (hcmd : cmd.map toUpper = text "PUT")
      (hlog : e.putRefusal env key (joined value rest) = some s) (hs : s.ok = false) :
      Executes env reports c e (cmd :: key :: value :: rest) ⟨s.code, text s.msg, []⟩ e.mapOf
  | deleteRefused {cmd key : Bytes} {s : Status}
      (hcmd : cmd.map toUpper = text "DELETE" ∨ cmd.map toUpper = text "DEL")
      (hlog : e.deleteRefusal env key = some s) (hs : s.ok = false) :
      Executes env reports c e [cmd, key] ⟨s.code, text s.msg, []⟩ e.mapOf
  | found {cmd key value : Bytes} (hcmd : cmd.map toUpper = text "GET")
      (hm : e.mapOf key = some value) :
      Executes env reports c e [cmd, key] { printed := value ++ text "\n" } e.mapOf
  | notFound {cmd key : Bytes} (hcmd : cmd.map toUpper = text "GET") (hm : e.mapOf key = none) :
      Executes env reports c e [cmd, key] ⟨.notFound, text "Key not found", []⟩ e.mapOf
  | listed {cmd : Bytes} {args : List Bytes} {es : List (Bytes × Bytes)}
      (hcmd : cmd.map toUpper = text "SCAN") (hsorted : es.Pairwise (fun a b => c.lt a.1 b.1))
      (hmem : ∀ key value, (key, value) ∈ es ↔ e.mapOf key = some value ∧
        (∀ start, args[0]? = some start → ¬ c.lt key start) ∧
          ∀ limit, args[1]? = some limit → c.lt key limit) :
      Executes env reports c e (cmd :: args) { printed := listing es } e.mapOf
  | counted {cmd : Bytes} {args : List Bytes} {n : Nat} (hcmd : cmd.map toUpper = text "SIZE")
      (hn : {key | e.mapOf key ≠ none}.encard = n) :
      Executes env reports c e (cmd :: args)
        { printed := text "Keys: " ++ decimal n ++ text "\n" } e.mapOf
  | verified {cmd : Bytes} {args : List Bytes} (hcmd : cmd.map toUpper = text "VERIFY") :
      Executes env reports c e (cmd :: args)
        { printed := text "Tree verification passed\n" } e.mapOf
  | reported {cmd : Bytes} {args : List Bytes} {reply : Reply}
      (h : cmd.map toUpper = text "PRINT" ∧ reply = handlePrint reports e ∨
        (cmd.map toUpper = text "STATS" ∨ cmd.map toUpper = text "WALSTATS") ∧
          reply = handleStats reports e ∨
        cmd.map toUpper = text "HELP" ∧ reply = handleHelp) :
      Executes env reports c e (cmd :: args) reply e.mapOf
  | synced {cmd : Bytes} {args : List Bytes} {s : Status}
      (h : cmd.map toUpper = text "FLUSH" ∧ s = (e.flush env).1 ∨
        cmd.map toUpper = text "SYNC" ∧ s = (e.sync env).1) :
      Executes env reports c e (cmd :: args) (.ofStatus s (text "OK\n")) e.mapOf
  | usage {cmd : Bytes} {args : List Bytes} {usage : Bytes}
      (h : cmd.map toUpper = text "PUT" ∧ args.length < 2 ∧
          usage = text "Usage: PUT <key> <value>" ∨
        cmd.map toUpper = text "GET" ∧ args.length ≠ 1 ∧ usage = text "Usage: GET <key>" ∨
        (cmd.map toUpper = text "DELETE" ∨ cmd.map toUpper = text "DEL") ∧ args.length ≠ 1 ∧
          usage = text "Usage: DELETE <key>") :
      Executes env reports c e (cmd :: args) (.invalidArgument usage) e.mapOf
  | unknown {cmd : Bytes} {args : List Bytes}
      (hcmd : ∀ known ∈ ["PUT", "GET", "DELETE", "DEL", "SCAN", "SIZE", "PRINT", "STATS", "HELP",
        "VERIFY", "WALSTATS", "FLUSH", "SYNC"], cmd.map toUpper ≠ text known) :
      Executes env reports c e (cmd :: args) (.invalidArgument (text "Unknown command: " ++
        cmd.map toUpper ++ text ". Type 'help' for available commands.")) e.mapOf

/-- What is said at the end of a session: something, if it was left. -/
def farewell (lines : List Bytes) : Bytes :=
  if lines.any (fun line => trim line = text "exit" ∨ trim line = text "quit")
  then text "Goodbye!\n" else []

/-- The lines before the one that leaves the session. -/
def entered (lines : List Bytes) : List Bytes :=
  (lines.map trim).takeWhile (fun line => ¬ (line = text "exit" ∨ line = text "quit"))

/-- The log has no room for the record of the command. -/
def Overruns (env : Env) (e : KVEngine) (line : Bytes) : Prop :=
  ∃ cmd key rest w, parseCommand line = cmd :: key :: rest ∧ e.wal = some w ∧
    ((cmd.map toUpper = text "PUT" ∧ ∃ value more, rest = value :: more ∧
        w.put env key (joined value more) e.sequenceNumber = none) ∨
      (cmd.map toUpper = text "DELETE" ∨ cmd.map toUpper = text "DEL") ∧ rest = [] ∧
        w.delete env key e.sequenceNumber = none)

/-! ## §3. One command. -/

variable {env : Env} {options : KVEngineOptions} {reports : Reports} {e e' : KVEngine}
  {m : RefMap} {line cmd : Bytes} {args : List Bytes}

/-- The command is executed as it should be, and an engine is behind it. -/
def Executed (env : Env) (reports : Reports) (options : KVEngineOptions) (e : KVEngine)
    (args : List Bytes) (result : Option (Reply × KVEngine)) : Prop :=
  ∃ reply e', result = some (reply, e') ∧ KVEngine.Reached env options e' ∧
    Executes env reports (keyOrder options.btreeOptions.comparator) e args reply e'.mapOf

theorem ofStatus_error {s : Status} (h : s.ok = false) (printed : Bytes) :
    Reply.ofStatus s printed = ⟨s.code, text s.msg, []⟩ := by
  rw [Reply.ofStatus, h]
  rfl

/-- **`PUT`** with a key that has bytes. -/
theorem handlePut_executes (h : KVEngine.Reached env options e)
    (hcmd : cmd.map toUpper = text "PUT") (hkeys : ∀ a ∈ args, a ≠ []) :
    Executed env reports options e (cmd :: args) (handlePut env e args) ∨
      (∃ key value more w, args = key :: value :: more ∧ e.wal = some w ∧
        w.put env key (joined value more) e.sequenceNumber = none) ∧
          handlePut env e args = none := by
  obtain ⟨-, m, hmodels⟩ := h.holdsMap
  have hm := KVEngine.mapOf_eq hmodels
  match args, hkeys with
  | [], _ => exact Or.inl ⟨_, e, rfl, h, .usage (Or.inl ⟨hcmd, by simp, rfl⟩)⟩
  | [key], _ => exact Or.inl ⟨_, e, rfl, h, .usage (Or.inl ⟨hcmd, by simp, rfl⟩)⟩
  | key :: value :: more, hkeys =>
      obtain ⟨⟨w, hw, hlog⟩, hnone⟩ | ⟨s, e', hrun, hcase⟩ :=
        KVEngine.put_total env hmodels (hkeys key List.mem_cons_self) (joined value more)
      · exact Or.inr ⟨⟨key, value, more, w, rfl, hw, hlog⟩, congrArg (Option.map _) hnone⟩
      have hcall : e.apply env (.put key (joined value more)) = some ((s, none), e') :=
        congrArg (Option.map _) hrun
      refine Or.inl ⟨_, e', congrArg (Option.map _) hrun, h.call hcall, ?_⟩
      rcases hcase with ⟨hrefusal, hs, hmap⟩ | ⟨hlog, rfl, hmap⟩
      · rw [ofStatus_error hs, hmap, ← hm]
        exact .putRefused hcmd hrefusal hs
      · rw [hmap, ← hm]
        exact .put hcmd hlog

theorem handleGet_executes (h : KVEngine.Reached env options e)
    (hcmd : cmd.map toUpper = text "GET") :
    Executed env reports options e (cmd :: args) (handleGet e args) := by
  obtain ⟨-, m, hmodels⟩ := h.holdsMap
  have hm := KVEngine.mapOf_eq hmodels
  match args with
  | [] => exact ⟨_, e, rfl, h, .usage (Or.inr (Or.inl ⟨hcmd, by simp, rfl⟩))⟩
  | _ :: _ :: _ => exact ⟨_, e, rfl, h, .usage (Or.inr (Or.inl ⟨hcmd, by simp, rfl⟩))⟩
  | [key] =>
      have hget : handleGet e [key] = (e.tree.get key).map
          (fun r => (.ofStatus r.1 (r.2.getD [] ++ text "\n"), e)) := rfl
      rw [hget, hmodels.get key]
      cases hvalue : m key with
      | some value => exact ⟨_, e, rfl, h, .found hcmd (hm ▸ hvalue)⟩
      | none => exact ⟨_, e, rfl, h, .notFound hcmd (hm ▸ hvalue)⟩

/-- **`DELETE`**. -/
theorem handleDelete_executes (h : KVEngine.Reached env options e)
    (hcmd : cmd.map toUpper = text "DELETE" ∨ cmd.map toUpper = text "DEL") :
    Executed env reports options e (cmd :: args) (handleDelete env e args) ∨
      (∃ key w, args = [key] ∧ e.wal = some w ∧ w.delete env key e.sequenceNumber = none) ∧
        handleDelete env e args = none := by
  obtain ⟨-, m, hmodels⟩ := h.holdsMap
  have hm := KVEngine.mapOf_eq hmodels
  match args with
  | [] => exact Or.inl ⟨_, e, rfl, h, .usage (Or.inr (Or.inr ⟨hcmd, by simp, rfl⟩))⟩
  | _ :: _ :: _ => exact Or.inl ⟨_, e, rfl, h, .usage (Or.inr (Or.inr ⟨hcmd, by simp, rfl⟩))⟩
  | [key] =>
      obtain ⟨⟨w, hw, hlog⟩, hnone⟩ | ⟨s, e', hrun, hcase⟩ :=
        KVEngine.delete_total env hmodels key
      · exact Or.inr ⟨⟨key, w, rfl, hw, hlog⟩, congrArg (Option.map _) hnone⟩
      have hcall : e.apply env (.delete key) = some ((s, none), e') :=
        congrArg (Option.map _) hrun
      refine Or.inl ⟨_, e', congrArg (Option.map _) hrun, h.call hcall, ?_⟩
      rcases hcase with
        ⟨hrefusal, hs, hmap⟩ | ⟨hlog, habsent, rfl, hmap⟩ | ⟨hlog, hbound, rfl, hmap⟩
      · rw [ofStatus_error hs, hmap, ← hm]
        exact .deleteRefused hcmd hrefusal hs
      · rw [hmap, ← hm]
        exact .absent hcmd hlog (hm ▸ habsent)
      · rw [hmap, ← hm]
        exact .delete hcmd hlog (hm ▸ hbound)

theorem inRange_iff {t : BPlusTree} {start limit : Option Bytes} {key : Bytes} :
    Iterator.inRange t start limit key = true ↔
      (∀ s, start = some s → ¬ t.order.lt key s) ∧ ∀ l, limit = some l → t.order.lt key l := by
  unfold Iterator.inRange
  cases start <;> cases limit <;> simp

/-- **`SCAN`** prints the pairs in range, in the order of the tree. -/
theorem handleScan_executes (h : KVEngine.Reached env options e)
    (hcmd : cmd.map toUpper = text "SCAN") :
    Executed env reports options e (cmd :: args) (handleScan e args) := by
  obtain ⟨-, m, hmodels⟩ := h.holdsMap
  have hm := KVEngine.mapOf_eq hmodels
  obtain ⟨n, s, hrep, hopt, hfind⟩ := id hmodels
  have horder : e.tree.order = keyOrder options.btreeOptions.comparator := by
    rw [BPlusTree.order, hopt, BPlusTree.new_comparator]
  -- the constructor stands at the first pair, and `SeekToFirst` goes there again
  obtain ⟨it, ls, hnew, hcursor, -, hstart, hlimit, -⟩ :=
    Iterator.findFirst_spec hrep
      (show (⟨0, 0, args[0]?, args[1]?, .okStatus⟩ : Iterator).status = .okStatus from rfl)
  obtain ⟨it', hfirst, hscan⟩ := Iterator.scan_findFirst hrep it hcursor.status
  rw [hstart, hlimit] at hscan
  have hrun : handleScan e args = some ({ printed := listing ((itemEntries (n + 1) s).filter
      (fun e' => Iterator.inRange e.tree args[0]? args[1]? e'.1)) }, e) := by
    unfold handleScan Iterator.new Iterator.seekToFirst
    simp only [hnew, hfirst, hscan, Option.bind_eq_bind, Option.bind_some]
    simp only [listing, List.map_map, List.length_map, Function.comp_def]
  refine ⟨_, e, hrun, h, .listed hcmd ?_ ?_⟩
  · rw [← horder]
    exact hrep.sorted.sublist List.filter_sublist
  · intro key value
    rw [List.mem_filter, ← find_eq_some_iff hrep.sorted, hfind, hm, ← horder, inRange_iff]

/-- **Every line is executed as it should be.** -/
theorem executeCommand_executes (h : KVEngine.Reached env options e) (line : Bytes) :
    Executed env reports options e (parseCommand line) (executeCommand env reports e line) ∨
      Overruns env e line ∧ executeCommand env reports e line = none := by
  obtain ⟨-, m, hmodels⟩ := h.holdsMap
  have hm := KVEngine.mapOf_eq hmodels
  have hkeys := parseCommand_nonempty line
  unfold executeCommand
  cases hparse : parseCommand line with
  | nil => exact Or.inl ⟨_, e, rfl, h, .nothing⟩
  | cons cmd args =>
      rw [hparse, List.forall_mem_cons] at hkeys
      dsimp only
      unfold dispatch
      by_cases hput : cmd.map toUpper = text "PUT"
      · rw [if_pos hput]
        rcases handlePut_executes h hput hkeys.2 with
          hdone | ⟨⟨key, value, more, w, rfl, hw, hlog⟩, hnone⟩
        · exact Or.inl hdone
        · exact Or.inr ⟨⟨cmd, key, value :: more, w, hparse, hw,
            Or.inl ⟨hput, value, more, rfl, hlog⟩⟩, hnone⟩
      rw [if_neg hput]
      by_cases hget : cmd.map toUpper = text "GET"
      · rw [if_pos hget]
        exact Or.inl (handleGet_executes h hget)
      rw [if_neg hget]
      by_cases hdelete : cmd.map toUpper = text "DELETE" ∨ cmd.map toUpper = text "DEL"
      · rw [if_pos hdelete]
        rcases @handleDelete_executes env options reports e cmd args h hdelete with
          hdone | ⟨⟨key, w, rfl, hw, hlog⟩, hnone⟩
        · exact Or.inl hdone
        · exact Or.inr ⟨⟨cmd, key, [], w, hparse, hw, Or.inr ⟨hdelete, rfl, hlog⟩⟩, hnone⟩
      rw [if_neg hdelete]
      refine Or.inl ?_
      by_cases hscan : cmd.map toUpper = text "SCAN"
      · rw [if_pos hscan]
        exact handleScan_executes h hscan
      rw [if_neg hscan]
      by_cases hsize : cmd.map toUpper = text "SIZE"
      · rw [if_pos hsize]
        exact ⟨_, e, rfl, h, .counted hsize (hm ▸ hmodels.size)⟩
      rw [if_neg hsize]
      by_cases hprint : cmd.map toUpper = text "PRINT"
      · rw [if_pos hprint]
        exact ⟨_, e, rfl, h, .reported (Or.inl ⟨hprint, rfl⟩)⟩
      rw [if_neg hprint]
      by_cases hstats : cmd.map toUpper = text "STATS"
      · rw [if_pos hstats]
        exact ⟨_, e, rfl, h, .reported (Or.inr (Or.inl ⟨Or.inl hstats, rfl⟩))⟩
      rw [if_neg hstats]
      by_cases hhelp : cmd.map toUpper = text "HELP"
      · rw [if_pos hhelp]
        exact ⟨_, e, rfl, h, .reported (Or.inr (Or.inr ⟨hhelp, rfl⟩))⟩
      rw [if_neg hhelp]
      by_cases hverify : cmd.map toUpper = text "VERIFY"
      · rw [if_pos hverify]
        obtain ⟨_, _, hrep, -, -⟩ := hmodels
        refine ⟨_, e, ?_, h, .verified hverify⟩
        rw [handleVerify, BPlusTree.verify_of_represents hrep]
        rfl
      rw [if_neg hverify]
      by_cases hwalstats : cmd.map toUpper = text "WALSTATS"
      · rw [if_pos hwalstats]
        exact ⟨_, e, rfl, h, .reported (Or.inr (Or.inl ⟨Or.inr hwalstats, rfl⟩))⟩
      rw [if_neg hwalstats]
      by_cases hflush : cmd.map toUpper = text "FLUSH"
      · rw [if_pos hflush]
        refine ⟨_, (e.flush env).2, rfl, h.call (show e.apply env .flush = _ from rfl), ?_⟩
        rw [KVEngine.mapOf_congr (Thread.flush_tree env e)]
        exact .synced (Or.inl ⟨hflush, rfl⟩)
      rw [if_neg hflush]
      by_cases hsync : cmd.map toUpper = text "SYNC"
      · rw [if_pos hsync]
        refine ⟨_, (e.sync env).2, rfl, h.call (show e.apply env .sync = _ from rfl), ?_⟩
        rw [KVEngine.mapOf_congr (Thread.sync_tree env e)]
        exact .synced (Or.inr ⟨hsync, rfl⟩)
      · rw [if_neg hsync]
        refine ⟨_, e, rfl, h, .unknown ?_⟩
        simp only [List.forall_mem_cons]
        exact ⟨hput, hget, fun hd => hdelete (Or.inl hd), fun hd => hdelete (Or.inr hd), hscan,
          hsize, hprint, hstats, hhelp, hverify, hwalstats, hflush, hsync,
          fun _ hmem => absurd hmem List.not_mem_nil⟩

/-! ## §4. A session. -/

/-- `ExecuteCommand` on a line: what is printed is the reply of the map. -/
def Prints (env : Env) (reports : Reports) (c : Comparator) (e : KVEngine) (line out : Bytes)
    (e' : KVEngine) : Prop :=
  ∃ reply, executeCommand env reports e line = some (reply, e') ∧
    Executes env reports c e (parseCommand line) reply e'.mapOf ∧ out = shown reply

/-- A session prints this for the lines, from the prompt on, and leads to `e'`. -/
def Holds (env : Env) (reports : Reports) (c : Comparator) (e : KVEngine) (lines : List Bytes)
    (out : Bytes) (e' : KVEngine) : Prop :=
  ∃ outs, Chain (Prints env reports c) e (entered lines) outs e' ∧
    out = (outs.map (prompt ++ ·)).flatten ++ prompt ++ farewell lines

/-- A line that does not leave: the session goes on with what follows. -/
theorem Holds.cons {c : Comparator} {e₁ : KVEngine} {lines : List Bytes} {out : Bytes}
    {reply : Reply} (hstays : ¬ (trim line = text "exit" ∨ trim line = text "quit"))
    (hrun : executeCommand env reports e (trim line) = some (reply, e₁))
    (hexec : Executes env reports c e (parseCommand (trim line)) reply e₁.mapOf)
    (h : Holds env reports c e₁ lines out e') :
    Holds env reports c e (line :: lines) (prompt ++ shown reply ++ out) e' := by
  obtain ⟨outs, hchain, rfl⟩ := h
  refine ⟨shown reply :: outs, ?_, ?_⟩
  · unfold entered
    rw [List.map_cons, List.takeWhile_cons_of_pos (by simpa using hstays)]
    exact .cons ⟨reply, hrun, hexec, rfl⟩ hchain
  · have hfarewell : farewell (line :: lines) = farewell lines := by
      unfold farewell
      rw [List.any_cons, decide_eq_false hstays, Bool.false_or]
    rw [hfarewell, List.map_cons, List.flatten_cons]
    simp only [List.append_assoc]

/-- A line that leaves. -/
theorem Holds.leave (c : Comparator) (e : KVEngine) {lines : List Bytes}
    (hleaves : trim line = text "exit" ∨ trim line = text "quit") :
    Holds env reports c e (line :: lines) (prompt ++ text "Goodbye!\n") e := by
  refine ⟨[], ?_, ?_⟩
  · unfold entered
    rw [List.map_cons, List.takeWhile_cons_of_neg (by simpa [or_iff_not_imp_left] using hleaves)]
    exact .nil _
  · unfold farewell
    rw [List.any_cons, decide_eq_true hleaves, Bool.true_or, if_pos rfl]
    rfl

/-- **The loop**, from the prompt on. -/
theorem runLines_holds : ∀ {lines : List Bytes} {e e' : KVEngine} {out : Bytes},
    KVEngine.Reached env options e → runLines env reports e lines = some (out, e') →
    Holds env reports (keyOrder options.btreeOptions.comparator) e lines out e' := by
  intro lines
  induction lines with
  | nil =>
      intro e e' out _ hrun
      obtain ⟨rfl, rfl⟩ := Prod.mk.inj (Option.some.inj hrun)
      exact ⟨[], .nil _, rfl⟩
  | cons line lines ih =>
      intro e e' out h hrun
      unfold runLines at hrun
      dsimp only at hrun
      by_cases hempty : (trim line).isEmpty = true
      · rw [if_pos hempty] at hrun
        obtain ⟨⟨rest, e₁⟩, hrest, heq⟩ := Option.map_eq_some_iff.mp hrun
        obtain ⟨rfl, rfl⟩ := Prod.mk.inj heq
        have hnil := List.isEmpty_iff.mp hempty
        have hstays : ¬ (trim line = text "exit" ∨ trim line = text "quit") := by
          rw [hnil]
          decide
        have hnothing : executeCommand env reports e (trim line) = some ({}, e) := by
          rw [hnil]
          rfl
        have hexec : Executes env reports (keyOrder options.btreeOptions.comparator) e
            (parseCommand (trim line)) {} e.mapOf := by
          rw [hnil]
          exact .nothing
        exact Holds.cons hstays hnothing hexec (ih h hrest)
      · rw [if_neg hempty] at hrun
        by_cases hleaves : trim line = text "exit" ∨ trim line = text "quit"
        · rw [if_pos hleaves] at hrun
          obtain ⟨rfl, rfl⟩ := Prod.mk.inj (Option.some.inj hrun)
          exact .leave _ _ hleaves
        · rw [if_neg hleaves] at hrun
          obtain ⟨⟨reply, e₁⟩, hreply, hrun⟩ := Option.bind_eq_some_iff.mp hrun
          obtain ⟨⟨rest, e₂⟩, hrest, hrun⟩ := Option.bind_eq_some_iff.mp hrun
          obtain ⟨rfl, rfl⟩ := Prod.mk.inj (Option.some.inj hrun)
          rcases @executeCommand_executes env options reports e h (trim line) with
            ⟨reply', e₁', hsome, h₁, hexec⟩ | ⟨-, hnone⟩
          · obtain ⟨rfl, rfl⟩ := Prod.mk.inj (Option.some.inj (hreply.symm.trans hsome))
            exact .cons hleaves hreply hexec (ih h₁ hrest)
          · rw [hnone] at hreply
            cases hreply

/-- **A session is a session with a map**: what it prints, byte by byte, is the
banner and for each line up to `exit` a prompt and the reply of the map behind the
log; and a command has no reply only where the log has no room for its record. -/
theorem session_executes (env : Env) (options : KVEngineOptions) (reports : Reports)
    {e e' : KVEngine} (h : KVEngine.Reached env options e) {input printed : Bytes}
    (hrun : run env reports e input = some (printed, e')) :
    (∃ outs, Chain (Prints env reports (keyOrder options.btreeOptions.comparator)) e
        (entered (Api.getlines 10 input)) outs e' ∧
      printed = banner ++ ((outs.map (prompt ++ ·)).flatten ++ prompt ++
        farewell (Api.getlines 10 input))) ∧
      ∀ line, executeCommand env reports e line = none → Overruns env e line := by
  obtain ⟨⟨out, e₁⟩, hlines, heq⟩ := Option.map_eq_some_iff.mp hrun
  obtain ⟨rfl, rfl⟩ := Prod.mk.inj heq
  obtain ⟨outs, hchain, rfl⟩ := runLines_holds h hlines
  refine ⟨⟨outs, hchain, rfl⟩, fun line hnone => ?_⟩
  rcases @executeCommand_executes env options reports e h line with
    ⟨reply, e', hsome, -, -⟩ | ⟨hfull, -⟩
  · rw [hnone] at hsome
    cases hsome
  · exact hfull

/-- A key is put, listed and looked for under a second name; the session is left. -/
def putScanGet : Bytes := text "put a \"1 2\"\n\nscan\nGET b\nexit\n"

theorem session_executes_put : ∃ (e : KVEngine) (printed : Bytes) (e' : KVEngine),
    KVEngine.new .undisturbed {} {} = some e ∧
    printed = banner ++ text "kv> OK\nkv> kv> a = 1 2\n--- 1 key(s) ---\n" ++
      text "kv> Error: NotFound: Key not found\nkv> Goodbye!\n" ∧
    ∃ outs, Chain (Prints .undisturbed ⟨fun _ => 0, fun _ => []⟩ (keyOrder none)) e
      (entered (Api.getlines 10 putScanGet)) outs e' := by
  have hrun : ((KVEngine.new .undisturbed {} {}).bind (fun e =>
      run .undisturbed ⟨fun _ => 0, fun _ => []⟩ e putScanGet)).map Prod.fst
      = some (banner ++ text "kv> OK\nkv> kv> a = 1 2\n--- 1 key(s) ---\n" ++
        text "kv> Error: NotFound: Key not found\nkv> Goodbye!\n") := by
    decide +kernel
  obtain ⟨⟨printed, e'⟩, hbind, hprinted⟩ := Option.map_eq_some_iff.mp hrun
  obtain ⟨e, hnew, hsession⟩ := Option.bind_eq_some_iff.mp hbind
  obtain ⟨⟨outs, hchain, -⟩, -⟩ :=
    session_executes .undisturbed {} ⟨fun _ => 0, fun _ => []⟩ (.new hnew) hsession
  exact ⟨e, printed, e', hnew, hprinted, outs, hchain⟩

end CLI

end KvEngine
