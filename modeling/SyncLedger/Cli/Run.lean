/-
  SyncLedger/Cli/Run.lean
  =======================
  **What the commands do and print.**  A command runs over a database that has just been
  opened, and what it changed stays changed even when it fails.  Nothing here touches a
  terminal or a disk: a report says what is to be printed, and a download also what is to be
  written where.
-/
import SyncLedger.Cli.Command
import SyncLedger.Cli.LogFilter
import SyncLedger.Cli.Quoted
import SyncLedger.Config.Path
import SyncLedger.Config.Environment
import SyncLedger.Engine
import SyncLedger.Record.View

namespace SyncLedger.Cli

def versionText : String := "quics 0.3.0"

/-- What comes of a command. -/
inductive Report where
  | print (text : String)
  /-- Bytes to be written to a file, and what is printed once they are. -/
  | write (target : String) (content : Bytes) (text : String)
  | fail (error : Error)

/-- What a command needs besides the database. -/
structure Setting where
  engine : Engine
  home : Option String
  /-- Bytes that nobody can guess. -/
  random : Bytes
  salt : Bytes

/-- The scope that `--root`, `--id` and `--all` select. -/
def scopeOf (what : String) (root id : Option String) (all : Bool) : Except Error Scope :=
  match root, id, all with
  | some root, some path, _ => .ok (.path root path)
  | none, some _, _ => .error (.invalidArgument (.idWithoutRoot what))
  | some root, none, true => .ok (.root root)
  | none, none, true => .ok .all
  | _, none, false => .error (.invalidArgument (.noSelector what))

def line (text : String) : Report := .print (text ++ "\n")

/-- A JSON value on lines of its own. -/
def document (v : Json) : Report := line v.render

def statusText (c : Config) (s : Database.Stats) : String :=
  let lines :=
    ["quics Status", "============", "",
      s!"Database: {Quoted.text c.databasePath}",
      s!"Listen: {c.server.address}:{c.server.port} (HTTP/3 {c.server.port3})",
      s!"Clients: {s.clients}", s!"Roots: {s.roots}", s!"Files: {s.files}",
      s!"History records: {s.versions}", s!"Blobs: {s.contents}"]
    ++ if 0 < s.markers then [s!"Pending removals: {s.markers}"] else []
  String.join (lines.map (· ++ "\n"))

namespace Command

/-- The operation that a command is, over the given contents. -/
def operation (s : Setting) (db : Database) : Command → Op Report
  | .setPassword root password => do
    -- A password that is still lacking is refused like an empty one.
    let _ ← s.engine.setPassword root (password.getD "") s.salt
    return .print ""
  | .resetPassword root => do
    let secret ← s.engine.resetPassword root s.random s.salt
    return line s!"New password for {root}: {secret}"
  | .showClients (some id) _ => do return document (← Clients.get id).toJson
  | .showClients none true => do return document (.array ((← Clients.list).map (·.toJson)))
  | .showClients none false => Op.fail (.invalidArgument (.noSelector "client"))
  | .showRoots (some id) _ => do return document (.array [(← Roots.get id).toJson])
  | .showRoots none true => do return document (.array ((← Roots.list).map (·.toJson)))
  | .showRoots none false => Op.fail (.invalidArgument (.noSelector "dir"))
  | .showFiles root id all => match scopeOf "file" root id all with
    | .ok scope => do return document (.array ((← Files.list scope).map (·.toJson)))
    | .error e => Op.fail e
  | .showHistory root id all => match scopeOf "history" root id all with
    | .ok scope => do return document (.array ((← History.list scope).map (·.toJson)))
    | .error e => Op.fail e
  | .removeClients (some id) _ => do
    let _ ← Clients.remove id
    return line s!"Removed client {id.text}"
  | .removeClients none true => do
    let n ← Clients.removeAll
    return line s!"Removed {n} clients"
  | .removeClients none false => Op.fail (.invalidArgument (.noSelector "client"))
  | .removeRoots (some id) _ => do
    let purged ← s.engine.removeRoot id
    return line s!"Removed {id} ({purged.files} files, {purged.versions} history records)"
  | .removeRoots none true => do
    let n ← s.engine.removeAllRoots
    return line s!"Removed {n} roots"
  | .removeRoots none false => Op.fail (.invalidArgument (.noSelector "dir"))
  | .removeFiles root id all => match scopeOf "file" root id all with
    | .ok (.path root path) => do
      let n ← s.engine.removeFile root path
      return line s!"Removed {place root path} ({n} history records)"
    | .ok scope => do
      let n ← s.engine.removeAllFiles scope
      return line s!"Removed {n} files"
    | .error e => Op.fail e
  | .download root path version target => do
    let content ← s.engine.download db.contents root path version
    let target := Path.expandHome s.home target
    return .write target content s!"Wrote {content.length} bytes to {Quoted.text target}\n"
  | .verify root => do
    let n ← Engine.verifyRoot root
    return line s!"{root}: {n} files consistent"
  | .sweep => do
    let r ← s.engine.sweepOrphans
    return line
      s!"Swept {r.files} files and {r.versions} history records ({r.cascades} cascades)"
  | .status => return .print (statusText s.engine.config db.stats)

/-- Runs a command over an open database. -/
def run (c : Command) (s : Setting) (db : Database) : Report × Database :=
  match db.perform (c.operation s db) with
  | (.ok report, db) => (report, db)
  | (.error e, db) => (.fail e, db)

end Command

/-! ### Whole invocations -/

namespace Invocation

/-- The configuration file's path. -/
def configPath (i : Invocation) (env : Environment) : String := Path.expandHome env.home? i.config

/-- Which messages are logged, given the settings if they could be read. -/
def logFilter (i : Invocation) (config : Except Error Config) : String :=
  if i.verbose then "debug"
  else match config with
    | .ok c => c.logging.level
    | .error _ => "info"

/-- Whether a failure of this invocation is reported. -/
def reportsErrors (i : Invocation) (config : Except Error Config) : Bool :=
  showsErrors (i.logFilter config)

/-- The file that messages are appended to instead of the standard output, if the settings name
    one.  It is there from the start, whether or not there is anything to log. -/
def logFile? (config : Except Error Config) (env : Environment) : Option String :=
  match config with
  | .ok c => c.logging.file.map (Path.expandHome env.home?)
  | .error _ => none

def run (i : Invocation) (c : Config) (env : Environment) (random salt : Bytes) (db : Database) :
    Report × Database :=
  match Engine.openOver c db with
  | .error e => (.fail e, db)
  | .ok (engine, db) => i.command.run { engine, home := env.home?, random, salt } db

end Invocation

end SyncLedger.Cli
