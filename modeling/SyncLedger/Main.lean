/-
  SyncLedger/Main.lean
  ====================
  **The administration program.**  Reads the command line, the environment, the configuration
  and the database, has the command run over them, and prints and keeps what comes of it.
-/
import SyncLedger.Cli.Run
import SyncLedger.Config.File
import SyncLedger.Snapshot

namespace SyncLedger.Cli

/-- The bytes of a file, if it can be read. -/
def contentOf (path : String) : IO (Option Bytes) := do
  try
    let content ← IO.FS.readBinFile path
    return some content.data.toList
  catch _ => return none

/-- Writes a file and says whether that worked. -/
def store (path : String) (content : Bytes) : IO Bool := do
  try
    IO.FS.writeBinFile path ⟨content.toArray⟩
    return true
  catch _ => return false

/-- The variables that settings depend on, and those that a text refers to. -/
def environmentFor (text : String) : IO Environment := do
  let fixed := ["HOME", "XDG_DATA_HOME", "QUICS_DATA_DIR", "QUICS_ADDR", "QUICS_PORT",
    "QUICS_PORT3", "QUICS_LOG"]
  let names := fixed ++ (Environment.references text.toList).map String.ofList
  names.filterMapM fun name => return (← IO.getEnv name).map fun value => (name, value)

def snapshotPath (c : Config) : String := Path.join c.databasePath "snapshot"

def openDatabase (c : Config) : IO (Except Error Database) := do
  if c.storage.temporary then return .ok {}
  match ← contentOf (snapshotPath c) with
  | none => return .ok {}
  | some b => match Codec.database.read? b with
    | some db => return .ok db
    | none => return .error (.corrupted (.stated "database"))

/-- Writes the database to its directory and says whether that worked. -/
def keepDatabase (c : Config) (db : Database) : IO Bool := do
  if c.storage.temporary then return true
  try
    IO.FS.createDirAll c.databasePath
    store (snapshotPath c) (Codec.database.encode db)
  catch _ => return false

def randomBytes (n : Nat) : IO Bytes := do
  let b ← IO.getRandomBytes (USize.ofNat n)
  return b.data.toList

def prompt (question : String) : IO String := do
  let out ← IO.getStdout
  out.putStr question
  out.flush
  let answer ← (← IO.getStdin).getLine
  return String.ofList (answer.toList.filter (· ≠ '\n'))

/-- The command, after asking for the password that it lacks. -/
def complete (c : Command) : IO (Except Error Command) := do
  if c.lacksPassword then
    let first ← prompt "New password: "
    let second ← prompt "Confirm password: "
    return c.withPassword first second
  else return .ok c

/-- Appends to a log file, which is made with its directory if it is not there, and says whether
    that worked. -/
def appendTo (path text : String) : IO Bool := do
  try
    let directory := "/".intercalate (path.splitOn "/").dropLast
    if !directory.isEmpty then IO.FS.createDirAll directory
    let file ← IO.FS.Handle.mk path .append
    file.putStr text
    return true
  catch _ => return false

/-- Logs a text to a file, or to the standard output where there is none. -/
def log (file : Option String) (text : String) : IO Unit := do
  match file with
  | some path => if !(← appendTo path text) then IO.print text
  | none => IO.print text

/-- Runs an invocation to its report. -/
def perform (i : Invocation) (c : Config) (env : Environment) : IO Report := do
  match ← complete i.command with
  | .error e => return .fail e
  | .ok command =>
    let random ← randomBytes (2 * c.security.generatedPasswordLength.toNat + 64)
    let salt ← randomBytes 16
    match ← openDatabase c with
    | .error e => return .fail e
    | .ok db =>
      let (report, db) := { i with command }.run c env random salt db
      return if ← keepDatabase c db then report else .fail (.io none)

/-- Runs an invocation; answers with the exit code. -/
def execute (i : Invocation) : IO UInt32 := do
  let home ← environmentFor ""
  let path := i.configPath home
  let content ← contentOf path
  let env ← environmentFor ((content.bind Bytes.text?).getD "")
  let config := Config.loadOrDefault path content env
  let file := Invocation.logFile? config env
  log file ""
  let failed (e : Error) : IO UInt32 := do
    if i.reportsErrors config then log file s!"ERROR Error: {e.message}\n"
    return 1
  match config with
  | .error e => failed e
  | .ok c => match ← perform i c env with
    | .print text =>
      IO.print text
      return 0
    | .write target content text =>
      if ← store target content then
        IO.print text
        return 0
      else failed (.io none)
    | .fail e => failed e

end SyncLedger.Cli

def main (args : List String) : IO UInt32 := do
  match SyncLedger.Cli.Invocation.parse args with
  | .ok i => SyncLedger.Cli.execute i
  | .error .version =>
    IO.println SyncLedger.Cli.versionText
    return 0
  | .error .help =>
    IO.print SyncLedger.Cli.usage
    return 0
  | .error .misuse =>
    IO.eprint SyncLedger.Cli.usage
    return 2
