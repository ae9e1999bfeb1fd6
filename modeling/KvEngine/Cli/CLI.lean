/-
  KvEngine.Cli.CLI
  ────────────────
  `CLI`: a line is cut into arguments and handed to the handler of its first
  argument.

  What a handler writes to `std::cout` is part of its reply.  The message of a
  reply is a byte string, since the one for an unknown command repeats bytes
  of the line.  `Reports` stands for `BPlusTree::MemoryUsage` and
  `KVEngine::Print`, of which only printed text depends.
-/
import KvEngine.Api.HandleRequest
import KvEngine.BTree.Verify

namespace KvEngine

open Lib
open Api (text)

namespace CLI

/-! ## §1. `ParseCommand`. -/

/-- The variables of the loop. -/
structure Scanner where
  args : List Bytes := []
  current : Bytes := []
  inQuotes : Bool := false
  quoteChar : UInt8 := 0

namespace Scanner

def append (s : Scanner) (c : UInt8) : Scanner := { s with current := s.current ++ [c] }

/-- `if (!current.empty())` and what is under it. -/
def push (s : Scanner) : Scanner :=
  if s.current.isEmpty then s else { s with args := s.args ++ [s.current], current := [] }

/-- One round; `prev` is the byte at `i - 1`. -/
def step (prev : Option UInt8) (s : Scanner) (c : UInt8) : Scanner :=
  if (c = 34 ∨ c = 39) ∧ prev ≠ some 92 then
    if !s.inQuotes then { s with inQuotes := true, quoteChar := c }
    else if c = s.quoteChar then { s with inQuotes := false, quoteChar := 0 }
    else s.append c
  else if isSpace c ∧ !s.inQuotes then s.push
  else s.append c

def scan (prev : Option UInt8) (s : Scanner) : Bytes → Scanner
  | [] => s
  | c :: rest => scan (some c) (s.step prev c) rest

end Scanner

def parseCommand (commandLine : Bytes) : List Bytes := (Scanner.scan none {} commandLine).push.args

/-! ## §2. The handlers. -/

/-- The status of a command and what it printed. -/
structure Reply where
  code : ErrorCode := .ok
  msg : Bytes := []
  printed : Bytes := []
  deriving DecidableEq, Repr

/-- A status of the engine; the text is printed if it is OK. -/
def Reply.ofStatus (s : Status) (printed : Bytes) : Reply :=
  ⟨s.code, text s.msg, if s.ok then printed else []⟩

/-- `Status::InvalidArgument`. -/
def Reply.invalidArgument (msg : Bytes) : Reply := ⟨.invalidArgument, msg, []⟩

/-- `PrintSuccess`. -/
def successText (message : Bytes) : Bytes := message ++ text "\n"

structure Reports where
  memoryUsage : BPlusTree → Nat
  print : KVEngine → Bytes

variable (env : Env) (reports : Reports) (engine : KVEngine)

/-- The arguments from the third on are joined to the value. -/
def handlePut (args : List Bytes) : Option (Reply × KVEngine) :=
  match args with
  | key :: value :: rest =>
      let value := rest.foldl (fun value arg => value ++ (text " " ++ arg)) value
      (engine.put env key value).map
        (fun (s, engine) => (.ofStatus s (successText (text "OK")), engine))
  | _ => some (.invalidArgument (text "Usage: PUT <key> <value>"), engine)

def handleGet (args : List Bytes) : Option (Reply × KVEngine) :=
  match args with
  | [key] => (engine.get key).map
      (fun (s, value) => (.ofStatus s (value.getD [] ++ text "\n"), engine))
  | _ => some (.invalidArgument (text "Usage: GET <key>"), engine)

def handleDelete (args : List Bytes) : Option (Reply × KVEngine) :=
  match args with
  | [key] => (engine.delete env key).map
      (fun (s, engine) => (.ofStatus s (successText (text "OK")), engine))
  | _ => some (.invalidArgument (text "Usage: DELETE <key>"), engine)

/-- The loop of `HandleScan` has a round for each key. -/
def handleScan (args : List Bytes) : Option (Reply × KVEngine) := do
  let iter ← Iterator.new engine.tree args[0]? args[1]?
  let iter ← iter.seekToFirst engine.tree
  let (seen, _) ← iter.scan engine.tree (engine.tree.size + 1)
  let lines := seen.map (fun (_, key, value) => key ++ text " = " ++ value ++ text "\n")
  let last :=
    if seen.length = 0 then text "(empty)\n"
    else text "--- " ++ decimal seen.length ++ text " key(s) ---\n"
  some ({ printed := lines.flatten ++ last }, engine)

def handleSize : Reply := { printed := text "Keys: " ++ decimal engine.tree.size ++ text "\n" }

def handlePrint : Reply := { printed := reports.print engine }

def handleStats : Reply :=
  let walStats := engine.getWalStats
  { printed := text "=== Engine Stats ===\n" ++
      text "Keys: " ++ decimal engine.tree.size ++ text "\n" ++
      text "Nodes: " ++ decimal engine.tree.nodeCount ++ text "\n" ++
      text "Height: " ++ decimal engine.tree.height ++ text "\n" ++
      text "Memory: " ++ decimal (reports.memoryUsage engine.tree) ++ text " bytes\n" ++
      text "=== WAL Stats ===\n" ++
      text "Files: " ++ decimal walStats.currentFileNumber ++ text "\n" ++
      text "Current file size: " ++ decimal walStats.currentFileSize ++ text " bytes\n" ++
      text "Total writes: " ++ decimal walStats.totalWrites ++ text "\n" ++
      text "Total bytes: " ++ decimal walStats.totalBytesWritten ++ text "\n" ++
      text "Total syncs: " ++ decimal walStats.totalSyncs ++ text "\n" }

def handleVerify : Option Reply :=
  engine.tree.verify.map (fun ok =>
    { printed :=
        if ok then successText (text "Tree verification passed")
        else text "Tree verification FAILED\n" })

/-- `PrintHelp`. -/
def helpText : Bytes :=
  text "Available commands:\n" ++
  text "  PUT <key> <value>           - Insert or update a key-value pair\n" ++
  text "  GET <key>                   - Retrieve value for key\n" ++
  text "  DELETE <key>                - Delete a key\n" ++
  text "  SCAN [start] [limit]        - Range scan (optional start/limit keys)\n" ++
  text "  SIZE                        - Show number of keys\n" ++
  text "  PRINT                       - Print tree structure\n" ++
  text "  STATS                       - Show engine and WAL statistics\n" ++
  text "  VERIFY                      - Verify tree integrity\n" ++
  text "  WALSTATS                    - Show WAL statistics\n" ++
  text "  FLUSH                       - Flush buffered WAL data\n" ++
  text "  SYNC                        - Flush and synchronize WAL\n" ++
  text "  HELP                        - Show this help\n" ++
  text "  EXIT / QUIT                 - Exit the CLI\n" ++
  text "\n" ++
  text "Examples:\n" ++
  text "  PUT name \"John Doe\"\n" ++
  text "  GET name\n" ++
  text "  SCAN a z\n" ++
  text "  DELETE name\n"

def handleHelp : Reply := { printed := helpText }

/-! ## §3. `ExecuteCommand`. -/

/-- `::toupper`. -/
def toUpper (c : UInt8) : UInt8 := if 97 ≤ c ∧ c ≤ 122 then c - 32 else c

/-- The comparisons of `cmd`, from the first to the last. -/
def dispatch (cmd : Bytes) (args : List Bytes) : Option (Reply × KVEngine) :=
  if cmd = text "PUT" then handlePut env engine args
  else if cmd = text "GET" then handleGet engine args
  else if cmd = text "DELETE" ∨ cmd = text "DEL" then handleDelete env engine args
  else if cmd = text "SCAN" then handleScan engine args
  else if cmd = text "SIZE" then some (handleSize engine, engine)
  else if cmd = text "PRINT" then some (handlePrint reports engine, engine)
  else if cmd = text "STATS" then some (handleStats reports engine, engine)
  else if cmd = text "HELP" then some (handleHelp, engine)
  else if cmd = text "VERIFY" then (handleVerify engine).map (fun reply => (reply, engine))
  else if cmd = text "WALSTATS" then some (handleStats reports engine, engine)
  else if cmd = text "FLUSH" then
    let (s, engine) := engine.flush env
    some (.ofStatus s (successText (text "OK")), engine)
  else if cmd = text "SYNC" then
    let (s, engine) := engine.sync env
    some (.ofStatus s (successText (text "OK")), engine)
  else some (.invalidArgument
    (text "Unknown command: " ++ cmd ++ text ". Type 'help' for available commands."), engine)

def executeCommand (commandLine : Bytes) : Option (Reply × KVEngine) :=
  match parseCommand commandLine with
  | [] => some ({}, engine)
  | cmd :: args => dispatch env reports engine (cmd.map toUpper) args

end CLI

end KvEngine
