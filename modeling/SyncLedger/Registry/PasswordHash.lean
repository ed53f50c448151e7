/-
  SyncLedger/Registry/PasswordHash.lean
  =====================================
  **Written password hashes**, in the PHC string format: fields after dollar signs, namely the
  algorithm, its version, its parameters, the salt and the hash itself, of which all but the
  algorithm may be missing.

  The text says everything that is needed to check a password, so one that was made under
  other settings can still be checked.  Reading knows the format only; whether the algorithm,
  the version and the parameters mean anything is not its business.
-/
import SyncLedger.Digest.Base64
import SyncLedger.Text

namespace SyncLedger

structure PasswordHash where
  algorithm : String
  version : Option Nat
  parameters : List (String × String)
  salt : Option String
  output : Option Bytes
  deriving DecidableEq

namespace PasswordHash

/-! ### What fields may contain -/

def isLower (c : Char) : Bool := 'a' ≤ c && c ≤ 'z'

/-- The characters of a name. -/
def isNameChar (c : Char) : Bool := isLower c || c.isDigit || c == '-'

/-- The characters of a parameter's value and of a salt. -/
def isValueChar (c : Char) : Bool :=
  isLower c || ('A' ≤ c && c ≤ 'Z') || c.isDigit || c == '/' || c == '+' || c == '.' || c == '-'

def isName (cs : List Char) : Bool := cs ≠ [] && cs.length ≤ 32 && cs.all isNameChar

def isValue (cs : List Char) : Bool := cs.length ≤ 64 && cs.all isValueChar

/-- A number below 2 ^ 32 in decimal digits, without leading zeros. -/
def decimal? (cs : List Char) : Option Nat :=
  if cs = [] ∨ !cs.all Char.isDigit then none
  else if cs.head? = some '0' ∧ 1 < cs.length then none
  else
    let n := Text.ofDigits cs
    if n < UInt32.size then some n else none

/-! ### Writing -/

def parameterText (p : String × String) : String := p.1 ++ "=" ++ p.2

/-- The fields that are there, each after a dollar sign. -/
def text (h : PasswordHash) : String :=
  "$" ++ h.algorithm
    ++ (match h.version with
      | some v => "$v=" ++ toString v
      | none => "")
    ++ (if h.parameters.isEmpty then ""
      else "$" ++ ",".intercalate (h.parameters.map parameterText))
    ++ (match h.salt with
      | some s => "$" ++ s
      | none => "")
    ++ (match h.output with
      | some b => "$" ++ Base64.encode b
      | none => "")

/-! ### Reading -/

/-- A name and a value around one equals sign. -/
def parameter? (cs : List Char) : Option (String × String) :=
  match Text.splitAt '=' cs with
  | [name, value] =>
    if isName name && isValue value then some (String.ofList name, String.ofList value) else none
  | _ => none

/-- Parameters between commas, in at most 127 bytes. -/
def parameters? (cs : List Char) : Option (List (String × String)) :=
  if 127 < (String.ofList cs).utf8ByteSize then none
  else (Text.splitAt ',' cs).mapM parameter?

/-- A salt of four to 64 characters. -/
def salt? (cs : List Char) : Option String :=
  if 4 ≤ cs.length && isValue cs then some (String.ofList cs) else none

/-- A hash of ten to 64 bytes. -/
def output? (cs : List Char) : Option Bytes :=
  (Base64.decodeChars? cs).filter fun b => 10 ≤ b.length && b.length ≤ 64

/-- The number of a version field. -/
def versionOf? (cs : List Char) : Option (List Char) :=
  match cs with
  | 'v' :: '=' :: rest => if rest.contains ',' then none else some rest
  | _ => none

/-- Reads the version, if that is the next field. -/
def takeVersion? : List (List Char) → Option (Option Nat × List (List Char))
  | [] => some (none, [])
  | field :: rest => match versionOf? field with
    | some digits => (decimal? digits).map fun v => (some v, rest)
    | none => some (none, field :: rest)

/-- Reads the parameters, if they are the next field. -/
def takeParameters? : List (List Char) → Option (List (String × String) × List (List Char))
  | [] => some ([], [])
  | field :: rest =>
    if field.contains '=' then (parameters? field).map fun ps => (ps, rest)
    else some ([], field :: rest)

/-- Reads a written hash; nothing may follow the last field. -/
def parse? (s : String) : Option PasswordHash :=
  match Text.splitAt '$' s.toList with
  | [] :: algorithm :: fields => do
    guard (isName algorithm)
    let (version, fields) ← takeVersion? fields
    let (parameters, fields) ← takeParameters? fields
    let h : PasswordHash :=
      { algorithm := String.ofList algorithm, version, parameters, salt := none, output := none }
    match fields with
    | [] => return h
    | [salt] => return { h with salt := ← salt? salt }
    | [salt, output] => return { h with salt := ← salt? salt, output := ← output? output }
    | _ => none
  | _ => none

end PasswordHash

end SyncLedger
