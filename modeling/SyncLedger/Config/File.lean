/-
  SyncLedger/Config/File.lean
  ===========================
  **Configuration files.**  The ending of a file's name decides its format: `.yaml` and `.yml`
  are YAML and everything else is JSON.  Reading goes through five steps, each of which leaves
  alone what a well-formed file without references already says: replace references to
  variables, parse, fill in an empty data directory, apply the overriding variables, validate.
-/
import SyncLedger.Bytes
import SyncLedger.Config.Document
import SyncLedger.Yaml.Print

namespace SyncLedger

namespace Config

/-- How a configuration file is written. -/
inductive Format where
  | yaml
  | json
  deriving DecidableEq

/-- The format that a file's name asks for. -/
def Format.ofName (name : String) : Format :=
  match Path.extension? name with
  | some ending => if ending = "yaml" ∨ ending = "yml" then .yaml else .json
  | none => .json

/-- The settings that a text says, before anything is filled in. -/
def parse (format : Format) (text : String) : Except Error Config :=
  match format with
  | .yaml => match (Yaml.Node.parse? text).bind Document.config? with
    | some c => .ok c
    | none => .error (.config .yaml)
  | .json => match (Json.parse? text).bind Document.config? with
    | some c => .ok c
    | none => .error (.config .json)

/-- The settings with a data directory, the default one if none is given. -/
def withDataDir (c : Config) (env : Environment) : Config :=
  if c.dataDir.isEmpty then { c with dataDir := env.dataDir } else c

/-- What the settings are once the environment has had its say, if they are acceptable. -/
def settle (c : Config) (env : Environment) : Except Error Config :=
  let c := c.override env
  c.validate.map fun _ => c

/-- Reads the text of a configuration file with the given name. -/
def ofText (name text : String) (env : Environment) : Except Error Config := do
  let c ← parse (.ofName name) (env.substitute text)
  (c.withDataDir env).settle env

/-- Reads a configuration file; `content` is nothing where there is no such file. -/
def load (name : String) (content : Option Bytes) (env : Environment) : Except Error Config :=
  match content.bind Bytes.text? with
  | some text => ofText name text env
  | none => .error (.config .unreadable)

/-- Reads a configuration file, or starts from the defaults where there is none. -/
def loadOrDefault (name : String) (content : Option Bytes) (env : Environment) :
    Except Error Config :=
  match content with
  | some _ => load name content env
  | none => (defaults env).settle env

/-- The text of the settings as a file with the given name. -/
def written (c : Config) (name : String) : String :=
  match Format.ofName name with
  | .yaml => c.toYaml
  | .json => c.toJson.render

end Config

end SyncLedger
