/-
  SyncLedger/Json.lean
  ====================
  **JSON text.**  Reading follows the grammar to the letter: no comments, no trailing commas,
  no blanks but the four of the grammar, nothing after the value.

  Two things of a text are kept only as far as a reader of settings or records needs them.  Of
  the numbers, those written as plain natural numbers keep their value, and any other is merely
  a number.  A string whose escapes spell no text (half of a surrogate pair) is kept as being
  there: it may be skipped, but not read.

  Writing indents by two blanks and escapes nothing but quotes, backslashes and the control
  characters below U+0020.
-/
import SyncLedger.Text
import SyncLedger.Bytes

namespace SyncLedger

inductive Json where
  | null
  | bool (value : Bool)
  | natural (value : Nat)
  /-- A number with a sign, a fraction or an exponent. -/
  | number
  /-- A string; nothing where the escapes spell no text. -/
  | string (value : Option String)
  | array (items : List Json)
  /-- The fields in the order they were written, repeats included. -/
  | object (fields : List (Option String × Json))

namespace Json

def text (s : String) : Json := .string (some s)

/-- A value that may be missing. -/
def orNull {α : Type} (f : α → Json) : Option α → Json
  | some v => f v
  | none => .null

/-- An object with fields of given names. -/
def record (fields : List (String × Json)) : Json :=
  .object (fields.map fun (name, v) => (some name, v))

/-! ### Reading -/

def isSpace (c : Char) : Bool := c == ' ' || c == '\n' || c == '\t' || c == '\r'

def skipSpace (cs : List Char) : List Char := cs.dropWhile isSpace

/-- The number that four hexadecimal digits denote. -/
def hex4? : List Char → Option (Nat × List Char)
  | a :: b :: c :: d :: rest => do
    let a ← Bytes.hexValue? a
    let b ← Bytes.hexValue? b
    let c ← Bytes.hexValue? c
    let d ← Bytes.hexValue? d
    return (((a * 16 + b) * 16 + c) * 16 + d, rest)
  | _ => none

/-- What a string is made of: characters, and sixteen-bit units that are written by number. -/
inductive Piece where
  | char (c : Char)
  | unit (n : Nat)

/-- The pieces of a string up to its closing quote, and what follows. -/
def pieces? : List Char → Option (List Piece × List Char)
  | [] => none
  | '"' :: rest => some ([], rest)
  | '\\' :: 'u' :: a :: b :: c :: d :: rest => do
    let (n, _) ← hex4? [a, b, c, d]
    let (ps, rest) ← pieces? rest
    return (.unit n :: ps, rest)
  | '\\' :: e :: rest => do
    let c ← match e with
      | '"' => some '"'
      | '\\' => some '\\'
      | '/' => some '/'
      | 'b' => some '\x08'
      | 'f' => some '\x0c'
      | 'n' => some '\n'
      | 'r' => some '\r'
      | 't' => some '\t'
      | _ => none
    let (ps, rest) ← pieces? rest
    return (.char c :: ps, rest)
  | c :: rest =>
    if c.toNat < 0x20 then none
    else (pieces? rest).map fun (ps, rest) => (.char c :: ps, rest)

def isHighSurrogate (n : Nat) : Bool := 0xD800 ≤ n && n < 0xDC00

def isLowSurrogate (n : Nat) : Bool := 0xDC00 ≤ n && n < 0xE000

/-- The characters that pieces spell; a pair of surrogates is one character, and neither of
    them stands alone. -/
def spell? : List Piece → Option (List Char)
  | [] => some []
  | .char c :: rest => (spell? rest).map (c :: ·)
  | .unit hi :: .unit lo :: rest =>
    if isHighSurrogate hi then
      if isLowSurrogate lo then
        (spell? rest).map (Char.ofNat (0x10000 + (hi - 0xD800) * 0x400 + (lo - 0xDC00)) :: ·)
      else none
    else if isLowSurrogate hi then none
    else (spell? (.unit lo :: rest)).map (Char.ofNat hi :: ·)
  | .unit n :: rest =>
    if isHighSurrogate n || isLowSurrogate n then none
    else (spell? rest).map (Char.ofNat n :: ·)

def string? (cs : List Char) : Option (Option String × List Char) :=
  (pieces? cs).map fun (ps, rest) => ((spell? ps).map String.ofList, rest)

def digits? (cs : List Char) : Option (List Char × List Char) :=
  let ds := cs.takeWhile (·.isDigit)
  if ds = [] then none else some (ds, cs.drop ds.length)

/-- A fraction, if one follows; whether it did, and what comes after. -/
def fraction? : List Char → Option (Bool × List Char)
  | '.' :: rest => (digits? rest).map fun (_, rest) => (true, rest)
  | cs => some (false, cs)

/-- An exponent, if one follows; whether it did, and what comes after. -/
def exponent? : List Char → Option (Bool × List Char)
  | c :: rest =>
    if c = 'e' ∨ c = 'E' then
      let unsigned := match rest with
        | '+' :: r => r
        | '-' :: r => r
        | r => r
      (digits? unsigned).map fun (_, rest) => (true, rest)
    else some (false, c :: rest)
  | [] => some (false, [])

/-- A number; the integer part has no needless zero in front. -/
def number? (cs : List Char) : Option (Json × List Char) := do
  let (negative, cs) := match cs with
    | '-' :: rest => (true, rest)
    | cs => (false, cs)
  let (ds, cs) ← digits? cs
  guard (ds.head? ≠ some '0' ∨ ds.length = 1)
  let (hasFraction, cs) ← fraction? cs
  let (hasExponent, cs) ← exponent? cs
  if negative || hasFraction || hasExponent then return (.number, cs)
  else return (.natural (Text.ofDigits ds), cs)

/-- What follows a word, if the text begins with it. -/
def word? (w : String) (v : Json) (cs : List Char) : Option (Json × List Char) :=
  if w.toList.isPrefixOf cs then some (v, cs.drop w.length) else none

mutual

/-- A value with nesting below `depth`, after any blanks. -/
def value? : (depth : Nat) → List Char → Option (Json × List Char)
  | 0, _ => none
  | depth + 1, cs =>
    match skipSpace cs with
    | '{' :: rest => match skipSpace rest with
      | '}' :: rest => some (.object [], rest)
      | _ => (fields? depth rest).map fun (fs, rest) => (.object fs, rest)
    | '[' :: rest => match skipSpace rest with
      | ']' :: rest => some (.array [], rest)
      | _ => (items? depth rest).map fun (vs, rest) => (.array vs, rest)
    | '"' :: rest => (string? rest).map fun (s, rest) => (.string s, rest)
    | 'n' :: rest => word? "null" .null ('n' :: rest)
    | 't' :: rest => word? "true" (.bool true) ('t' :: rest)
    | 'f' :: rest => word? "false" (.bool false) ('f' :: rest)
    | cs => number? cs

/-- Values between commas up to a closing bracket. -/
def items? : (depth : Nat) → List Char → Option (List Json × List Char)
  | 0, _ => none
  | depth + 1, cs => do
    let (v, rest) ← value? depth cs
    match skipSpace rest with
    | ',' :: rest => (items? depth rest).map fun (vs, rest) => (v :: vs, rest)
    | ']' :: rest => return ([v], rest)
    | _ => none

/-- Fields between commas up to a closing brace. -/
def fields? : (depth : Nat) → List Char → Option (List (Option String × Json) × List Char)
  | 0, _ => none
  | depth + 1, cs =>
    match skipSpace cs with
    | '"' :: rest => do
      let (name, rest) ← string? rest
      match skipSpace rest with
      | ':' :: rest => do
        let (v, rest) ← value? depth rest
        match skipSpace rest with
        | ',' :: rest => (fields? depth rest).map fun (fs, rest) => ((name, v) :: fs, rest)
        | '}' :: rest => return ([(name, v)], rest)
        | _ => none
      | _ => none
    | _ => none

end

/-- Reads a text that is one value.  No value nests deeper than its text is long. -/
def parse? (s : String) : Option Json :=
  let cs := s.toList
  match value? (2 * cs.length + 2) cs with
  | some (v, rest) => if skipSpace rest = [] then some v else none
  | none => none

/-! ### Writing -/

/-- How a character is written within quotes. -/
def escape (c : Char) : List Char :=
  if c = '"' then ['\\', '"']
  else if c = '\\' then ['\\', '\\']
  else if c = '\n' then ['\\', 'n']
  else if c = '\r' then ['\\', 'r']
  else if c = '\t' then ['\\', 't']
  else if c = '\x08' then ['\\', 'b']
  else if c = '\x0c' then ['\\', 'f']
  else if c.toNat < 0x20 then
    ['\\', 'u', '0', '0', Bytes.hexDigit (c.toNat / 16), Bytes.hexDigit (c.toNat % 16)]
  else [c]

def quote (s : String) : String := String.ofList ('"' :: s.toList.flatMap escape ++ ['"'])

def indent (level : Nat) : String := String.ofList (List.replicate (2 * level) ' ')

mutual

/-- The text of a value whose first line is indented already. -/
def renderAt (level : Nat) : Json → String
  | .null => "null"
  | .bool b => if b then "true" else "false"
  | .natural n => toString n
  | .number => "null"
  | .string s => quote (s.getD "")
  | .array [] => "[]"
  | .array (v :: vs) =>
    "[\n" ++ ",\n".intercalate (renderItems (level + 1) (v :: vs)) ++ "\n" ++ indent level ++ "]"
  | .object [] => "\x7b\x7d"
  | .object (f :: fs) =>
    "\x7b\n" ++ ",\n".intercalate (renderFields (level + 1) (f :: fs)) ++ "\n" ++ indent level
      ++ "\x7d"

/-- Items, each on lines of its own. -/
def renderItems (level : Nat) : List Json → List String
  | [] => []
  | v :: vs => (indent level ++ renderAt level v) :: renderItems level vs

/-- Names with their values, each on lines of its own. -/
def renderFields (level : Nat) : List (Option String × Json) → List String
  | [] => []
  | (name, v) :: fs =>
    (indent level ++ quote (name.getD "") ++ ": " ++ renderAt level v) :: renderFields level fs

end

def render (v : Json) : String := renderAt 0 v

end Json

end SyncLedger
