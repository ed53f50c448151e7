/-
  SyncLedger/Config/Environment.lean
  ==================================
  **What environment variables do to settings.**

  Before a configuration file is read, references to variables in its text are replaced.  The
  references are those of the text as it came, and they are taken from left to right; but each
  is replaced everywhere in the text as it stands by then, so a value that itself contains a
  reference to a later variable is replaced too.

  After it is read, a few variables override single settings.
-/
import SyncLedger.Config.Path
import SyncLedger.Text

namespace SyncLedger

/-- The environment: names with their values. -/
abbrev Environment := List (String × String)

namespace Environment

def get? (env : Environment) (name : String) : Option String := env.lookup name

def home? (env : Environment) : Option String := (env.get? "HOME").filter (· ≠ "")

/-- Where data is kept unless a setting says otherwise. -/
def dataDir (env : Environment) : String :=
  let base := match (env.get? "XDG_DATA_HOME").filter Path.isAbsolute with
    | some dir => some dir
    | none => env.home?.map (Path.join · ".local/share")
  Path.join (base.getD ".") "quics"

/-! ### References in a text -/

def isNameStart (c : Char) : Bool := ('A' ≤ c && c ≤ 'Z') || c == '_'

def isNamePart (c : Char) : Bool := isNameStart c || c.isDigit

/-- The name of the reference that a text begins with, in the form `${NAME}`. -/
def referenceAt? : List Char → Option (List Char)
  | '$' :: '{' :: c :: rest =>
    let tail := rest.takeWhile isNamePart
    if isNameStart c && rest[tail.length]? == some '}' then some (c :: tail) else none
  | _ => none

/-- The names of all references in a text, from left to right. -/
def references : List Char → List (List Char)
  | [] => []
  | c :: rest => match referenceAt? (c :: rest) with
    | some name => name :: references rest
    | none => references rest

/-- Replaces every occurrence of a pattern, from left to right. -/
def replaceAll (pattern value : List Char) (text : List Char) : List Char :=
  match text with
  | [] => []
  | c :: rest =>
    if pattern ≠ [] ∧ pattern.isPrefixOf (c :: rest) then
      value ++ replaceAll pattern value (rest.drop (pattern.length - 1))
    else c :: replaceAll pattern value rest
termination_by text.length
decreasing_by all_goals simp only [List.length_drop, List.length_cons]; omega

/-- The reference to a variable, as it is written. -/
def reference (name : List Char) : List Char := '$' :: '{' :: name ++ ['}']

/-- Replaces the references in a text by the values of those variables that are set. -/
def substitute (env : Environment) (text : String) : String :=
  let given := text.toList
  String.ofList <| (references given).foldl
    (fun current name => match env.get? (String.ofList name) with
      | some value => replaceAll (reference name) value.toList current
      | none => current)
    given

/-! ### Overrides -/

/-- The trimmed value of a variable, if anything is left of it. -/
def trimmed? (env : Environment) (name : String) : Option String :=
  ((env.get? name).map Text.trim).filter (· ≠ "")

/-- The port that a variable names, if it names one. -/
def port? (env : Environment) (name : String) : Option UInt16 :=
  ((env.get? name).bind fun v => Text.natural? 65536 (Text.trim v)).map UInt16.ofNat

end Environment

namespace Config

/-- The settings with what the environment overrides. -/
def override (c : Config) (env : Environment) : Config :=
  { c with
    dataDir := (env.trimmed? "QUICS_DATA_DIR").getD c.dataDir
    server :=
      { address := (env.trimmed? "QUICS_ADDR").getD c.server.address
        port := (env.port? "QUICS_PORT").getD c.server.port
        port3 := (env.port? "QUICS_PORT3").getD c.server.port3 }
    logging := { c.logging with level := (env.trimmed? "QUICS_LOG").getD c.logging.level } }

def defaults (env : Environment) : Config := { dataDir := env.dataDir }

end Config

end SyncLedger
