/-
  SyncLedger/Cli/Command.lean
  ===========================
  **The commands of the administration program**, as they are written and what each says.
-/
import SyncLedger.Cli.Grammar
import SyncLedger.Error
import SyncLedger.Text

namespace SyncLedger.Cli

/-- What the program is asked to do. -/
inductive Command where
  /-- Without a password the program asks for one. -/
  | setPassword (root : String) (password : Option String)
  | resetPassword (root : String)
  | showClients (id : Option Uuid) (all : Bool)
  | showRoots (id : Option String) (all : Bool)
  | showFiles (root id : Option String) (all : Bool)
  | showHistory (root id : Option String) (all : Bool)
  | removeClients (id : Option Uuid) (all : Bool)
  | removeRoots (id : Option String) (all : Bool)
  | removeFiles (root id : Option String) (all : Bool)
  | download (root path : String) (version : UInt64) (target : String)
  | verify (root : String)
  | sweep
  | status
  deriving DecidableEq

structure Invocation where
  /-- The configuration file. -/
  config : String
  verbose : Bool
  command : Command
  deriving DecidableEq

/-! ### The grammar -/

def isText (_ : String) : Bool := true

def isPath (s : String) : Bool := !s.isEmpty

def isUuid (s : String) : Bool := (Uuid.parse? s).isSome

def isTimestamp (s : String) : Bool := (Text.natural? UInt64.size s).isSome

def optional (name : String) (value : String → Bool) : OptionRule := { name, value := some value }

def mandatory (name : String) (value : String → Bool) : OptionRule :=
  { name, value := some value, required := true }

def flag (name : String) : OptionRule := { name, value := none }

def leaf (options : List OptionRule) : Grammar := .node options []

/-- A command with clients, roots and files below it. -/
def selections (more : List (String × Grammar)) : Grammar :=
  .node [] <|
    [("client", leaf [optional "id" isUuid, flag "all"]),
      ("dir", leaf [optional "id" isText, flag "all"]),
      ("file", leaf [optional "root" isText, optional "id" isText, flag "all"])] ++ more

def grammar : Grammar :=
  .node
    [{ name := "config", short := some 'c', value := some isPath },
      { name := "verbose", short := some 'v', value := none }]
    [("password", .node []
      [("set", leaf [mandatory "root" isText, optional "pw" isText]),
        ("reset", leaf [mandatory "root" isText])]),
    ("show", selections
      [("history", leaf [optional "root" isText, optional "id" isText, flag "all"])]),
    ("remove", selections []),
    ("download", .node []
      [("file", leaf [mandatory "root" isText, mandatory "path" isText,
        mandatory "version" isTimestamp, mandatory "target" isPath])]),
    ("verify", leaf [mandatory "root" isText]),
    ("sweep", leaf []),
    ("status", leaf [])]

/-- Help can be had anywhere. -/
def helpOption : Closing := { name := "help", short := 'h', stop := .help }

def versionOption : Closing := { name := "version", short := 'V', stop := .version }

/-- Where settings are read from unless an option says otherwise. -/
def defaultConfig : String := "~/.config/quics/config.yaml"

/-- The text that answers a request for help. -/
def usage : String :=
  "Metadata administration for the sync server\n\n"
    ++ "Usage: quics [-c FILE] [-v] COMMAND\n\n"
    ++ "  password set --root ROOT [--pw PASSWORD]\n"
    ++ "  password reset --root ROOT\n"
    ++ "  show client|dir [--id ID] [--all]\n"
    ++ "  show file|history [--root ROOT] [--id PATH] [--all]\n"
    ++ "  remove client|dir [--id ID] [--all]\n"
    ++ "  remove file [--root ROOT] [--id PATH] [--all]\n"
    ++ "  download file --root ROOT --path PATH --version N --target FILE\n"
    ++ "  verify --root ROOT\n"
    ++ "  sweep\n"
    ++ "  status\n"

/-! ### What a line says -/

/-- The command that a line of commands with their options names. -/
def Command.ofLine? (line : Line) : Option Command :=
  let names := line.map (·.1)
  let values : Values := line.flatMap (·.2)
  let text (name : String) : Option String := values.lookup name
  let uuid (name : String) : Option Uuid := (text name).bind Uuid.parse?
  let all := (text "all").isSome
  match names with
  | ["password", "set"] => (text "root").map fun root => .setPassword root (text "pw")
  | ["password", "reset"] => (text "root").map .resetPassword
  | ["show", "client"] => some (.showClients (uuid "id") all)
  | ["show", "dir"] => some (.showRoots (text "id") all)
  | ["show", "file"] => some (.showFiles (text "root") (text "id") all)
  | ["show", "history"] => some (.showHistory (text "root") (text "id") all)
  | ["remove", "client"] => some (.removeClients (uuid "id") all)
  | ["remove", "dir"] => some (.removeRoots (text "id") all)
  | ["remove", "file"] => some (.removeFiles (text "root") (text "id") all)
  | ["download", "file"] => do
    let version ← Text.natural? UInt64.size (← text "version")
    return .download (← text "root") (← text "path") (UInt64.ofNat version) (← text "target")
  | ["verify"] => (text "root").map .verify
  | ["sweep"] => some .sweep
  | ["status"] => some .status
  | _ => none

/-- Whether the program has to ask for a password first. -/
def Command.lacksPassword : Command → Bool
  | .setPassword _ none => true
  | _ => false

/-- The command with a password that was asked for twice. -/
def Command.withPassword (c : Command) (first second : String) : Except Error Command :=
  match c with
  | .setPassword root none =>
    if first = second then .ok (.setPassword root (some first))
    else .error (.invalidArgument .passwordsDiffer)
  | c => .ok c

/-- Reads the arguments of the program. -/
def Invocation.parse (args : List String) : Except Stop Invocation := do
  match ← grammar.read [helpOption, versionOption] [helpOption] "quics" args with
  | (_, values) :: line => match Command.ofLine? line with
    | some command =>
      return {
        config := (values.lookup "config").getD defaultConfig
        verbose := (values.lookup "verbose").isSome
        command }
    | none => throw .misuse
  | [] => throw .misuse

end SyncLedger.Cli
