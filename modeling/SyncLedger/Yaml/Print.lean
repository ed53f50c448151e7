/-
  SyncLedger/Yaml/Print.lean
  ==========================
  **Texts as YAML scalars.**  A text is written plain where that reads back as the same text and
  as nothing else.  One that would read as a number, a flag or null is quoted, and so is one
  that the grammar would take apart; one with line feeds becomes a literal block.  Double quotes
  with escapes are the last resort, for characters that cannot be written otherwise.
-/
import SyncLedger.Yaml.Node

namespace SyncLedger

namespace Yaml

/-! ### Texts that read as something else -/

/-- Whether digits, an optional fraction and an optional exponent denote a number whose
    nearest double is finite.  The greatest finite double is 2^1024 − 2^971; from half a step
    above it everything rounds to infinity. -/
def isFiniteDecimal (mantissa : List Char) (fractionDigits : Nat) (exponent : Int) : Bool :=
  let n := Text.ofDigits mantissa
  let digits := (toString n).length
  let e : Int := exponent - fractionDigits
  if n = 0 then true
  else if digits + e > 310 then false
  else if digits + e < 300 then true
  else
    let bound := Nat.pow 2 1024 - Nat.pow 2 970
    if 0 ≤ e then n * Nat.pow 10 e.toNat < bound else n < bound * Nat.pow 10 (-e).toNat

/-- Whether a text is a decimal number with an optional sign, fraction and exponent, and
    finite. -/
def isDecimal (cs : List Char) : Bool :=
  let unsigned := match cs with
    | '-' :: rest => rest
    | '+' :: rest => rest
    | cs => cs
  let whole := unsigned.takeWhile (·.isDigit)
  let rest := unsigned.drop whole.length
  let (fraction, rest) : List Char × List Char := match rest with
    | '.' :: r => (r.takeWhile Char.isDigit, r.dropWhile Char.isDigit)
    | r => ([], r)
  if whole.isEmpty && fraction.isEmpty then false
  else
    let mantissa := whole ++ fraction
    match rest with
    | [] => isFiniteDecimal mantissa fraction.length 0
    | c :: r =>
      if c == 'e' || c == 'E' then
        let (negative, ds) : Bool × List Char := match r with
          | '-' :: r => (true, r)
          | '+' :: r => (false, r)
          | r => (false, r)
        if ds.isEmpty || !ds.all (·.isDigit) then false
        else
          let n : Int := min (Text.ofDigits ds) 1000000000
          isFiniteDecimal mantissa fraction.length (if negative then -n else n)
      else false

/-- Whether a plain scalar reads as a number that is no integer. -/
def isFloatWord (s : String) : Bool :=
  let unsigned := if s.startsWith "+" then String.ofList (s.toList.drop 1) else s
  if s.startsWith "+" && beginsWithSign unsigned.toList then false
  else
    [".inf", ".Inf", ".INF"].contains unsigned || ["-.inf", "-.Inf", "-.INF"].contains s
      || [".nan", ".NaN", ".NAN"].contains s || isDecimal unsigned.toList

/-- Whether a plain scalar reads as a negative integer of at most 128 bits. -/
def isNegativeWord (cs : List Char) : Bool :=
  let fits (n : Option Nat) : Bool := n.any (· ≤ Nat.pow 2 127)
  let digits (base : Nat) (ds : List Char) : Option Nat :=
    if beginsWithSign ds then none else ofBase? base ds
  match cs with
  | '-' :: '0' :: 'x' :: rest => fits (digits 16 rest)
  | '-' :: '0' :: 'o' :: rest => fits (digits 8 rest)
  | '-' :: '0' :: 'b' :: rest => fits (digits 2 rest)
  | '-' :: rest => !isPaddedNumber cs && fits (digits 10 rest)
  | _ => false

/-- Whether a text that is written plain is no longer just a text. -/
def isAmbiguous (s : String) : Bool :=
  s.isEmpty || isNullWord s || (flagWord? s).isSome
    || (naturalBelow? (Nat.pow 2 128) s.toList).isSome || isNegativeWord s.toList
    || isPaddedNumber s.toList || isFloatWord s

/-! ### What the characters of a text allow -/

/-- The characters that are written as they are. -/
def isPrintable (c : Char) : Bool :=
  let n := c.toNat
  n == 0x0A || (0x20 ≤ n && n ≤ 0x7E) || (0xA0 ≤ n && n ≤ 0xD7FF)
    || (0xE000 ≤ n && n ≤ 0xFFFD && n != 0xFEFF) || 0x10000 ≤ n

/-- Whether a text begins or ends with, or is, the sign of some structure. -/
def hasIndicator (cs : List Char) : Bool :=
  let inside : List Char → Bool := fun cs =>
    let pairs := (' ' :: cs).zip cs
    let after := cs.drop 1 ++ ['\n']
    (pairs.zip after).drop 1 |>.any fun ((before, c), next) =>
      (c == ':' && atBlank [next]) || (c == '#' && atBlank [before])
  match cs with
  | [] => false
  | c :: rest =>
    "---".toList.isPrefixOf cs || "...".toList.isPrefixOf cs
      || "#,[]\x7b\x7d&*!|>'\"%@`".toList.contains c
      || ((c == '?' || c == ':' || c == '-') && atBlank rest)
      || inside cs

/-- Whether a pair of neighbours satisfies a test. -/
def hasNeighbours (p : Char → Char → Bool) (cs : List Char) : Bool :=
  (cs.zip (cs.drop 1)).any fun (a, b) => p a b

/-- How a text can be written, by its characters alone. -/
structure Allowed where
  plain : Bool
  single : Bool
  block : Bool

def allowed (cs : List Char) : Allowed :=
  let special := cs.any fun c => !isPrintable c
  let spaceBreak := hasNeighbours (fun a b => a == ' ' && isBreak b) cs
  let breakSpace := hasNeighbours (fun a b => isBreak a && b == ' ') cs
  let ends (p : Char → Bool) := cs.head?.any p || cs.getLast?.any p
  let isEdge (c : Char) := c == ' ' || isBreak c
  let awkward := special || spaceBreak
  { plain := !awkward && !breakSpace && !ends isEdge && !cs.any isBreak && !hasIndicator cs
    single := !awkward && !breakSpace
    block := !awkward && !(cs.getLast? == some ' ') }

/-! ### Writing -/

/-- Upper-case hexadecimal digits, `width` of them. -/
def hexDigits (width n : Nat) : List Char :=
  ((List.range width).reverse.map fun i => (Bytes.hexDigit ((n >>> (4 * i)) % 16)).toUpper)

/-- How a character is written between double quotes. -/
def escape (c : Char) : List Char :=
  if c == '"' then ['\\', '"']
  else if c == '\\' then ['\\', '\\']
  else if isPrintable c && !isBreak c then [c]
  else match c with
    | '\x00' => ['\\', '0']
    | '\x07' => ['\\', 'a']
    | '\x08' => ['\\', 'b']
    | '\t' => ['\\', 't']
    | '\n' => ['\\', 'n']
    | '\x0b' => ['\\', 'v']
    | '\x0c' => ['\\', 'f']
    | '\r' => ['\\', 'r']
    | '\x1b' => ['\\', 'e']
    | '\u0085' => ['\\', 'N']
    | '\u00a0' => ['\\', '_']
    | '\u2028' => ['\\', 'L']
    | '\u2029' => ['\\', 'P']
    | c =>
      if c.toNat ≤ 0xFF then '\\' :: 'x' :: hexDigits 2 c.toNat
      else if c.toNat ≤ 0xFFFF then '\\' :: 'u' :: hexDigits 4 c.toNat
      else '\\' :: 'U' :: hexDigits 8 c.toNat

def blanks (n : Nat) : List Char := List.replicate n ' '

/-- Between single quotes a quote is doubled, and a line that follows a break is indented. -/
def singleBody (indent : Nat) : (afterBreak : Bool) → List Char → List Char
  | _, [] => []
  | afterBreak, c :: rest =>
    if isBreak c then c :: singleBody indent true rest
    else
      let pad := if afterBreak && c != ' ' then blanks indent else []
      let afterBreak := afterBreak && c == ' '
      pad ++ (if c == '\'' then ['\'', '\''] else [c]) ++ singleBody indent afterBreak rest

/-- The lines of a literal block; lines that are not empty are indented. -/
def literalBody (indent : Nat) : (afterBreak : Bool) → List Char → List Char
  | _, [] => []
  | afterBreak, c :: rest =>
    if isBreak c then c :: literalBody indent true rest
    else (if afterBreak then blanks indent else []) ++ c :: literalBody indent false rest

/-- The signs after the mark of a literal block: the indentation where the first line would
    hide it, and what to do with the breaks at the end. -/
def literalHeader (cs : List Char) : List Char :=
  let hint := if cs.head?.any fun c => c == ' ' || isBreak c then ['2'] else []
  let chomp := match cs.reverse with
    | [] => ['-']
    | last :: before =>
      if !isBreak last then ['-']
      else match before with
        | [] => ['+']
        | c :: _ => if isBreak c then ['+'] else []
  '|' :: hint ++ chomp

/-- A text as a value; `indent` is the indentation of lines of its own.  Does not end in a line
    feed unless the text does. -/
def scalarText (indent : Nat) (s : String) : String :=
  let cs := s.toList
  let can := allowed cs
  let double := '"' :: cs.flatMap escape ++ ['"']
  let single := '\'' :: singleBody indent false cs ++ ['\'']
  String.ofList <|
    if cs.isEmpty then single
    else if cs.contains '\n' then
      if can.block then literalHeader cs ++ '\n' :: literalBody indent true cs else double
    else if !isAmbiguous s && can.plain then cs
    else if can.single then single
    else double

/-- A text as a value on the line of its key, with the line feed after it. -/
def field (indent : Nat) (s : String) : String :=
  let written := scalarText (indent + 2) s
  if s.toList.contains '\n' && written.startsWith "|" && s.endsWith "\n" then " " ++ written
  else " " ++ written ++ "\n"

/-- Whether a block ends in breaks that are kept, so that the end of the text must be marked. -/
def isOpenEnded (s : String) : Bool :=
  (allowed s.toList).block && (literalHeader s.toList).getLast? == some '+'
    && s.toList.contains '\n'

end Yaml

def Config.toYaml (c : Config) : String :=
  let text (indent : Nat) (name value : String) : String :=
    String.ofList (Yaml.blanks indent) ++ name ++ ":" ++ Yaml.field indent value
  let word (name value : String) : String := "  " ++ name ++ ": " ++ value ++ "\n"
  let n64 (name : String) (n : UInt64) := word name (toString n)
  let n32 (name : String) (n : UInt32) := word name (toString n)
  let n16 (name : String) (n : UInt16) := word name (toString n)
  let textOrNull (name : String) : Option String → String
    | some v => text 2 name v
    | none => word name "null"
  "storage:\n"
    ++ text 2 "path" c.storage.path
    ++ n64 "cache_capacity" c.storage.cacheCapacity
    ++ word "flush_every_ms" ((c.storage.flushEveryMs.map toString).getD "null")
    ++ word "temporary" (if c.storage.temporary then "true" else "false")
    ++ n64 "cascade_batch" c.storage.cascadeBatch
    ++ "server:\n"
    ++ text 2 "address" c.server.address
    ++ n16 "port" c.server.port
    ++ n16 "port3" c.server.port3
    ++ "security:\n"
    ++ n32 "argon2_memory_kib" c.security.argon2MemoryKib
    ++ n32 "argon2_iterations" c.security.argon2Iterations
    ++ n32 "argon2_parallelism" c.security.argon2Parallelism
    ++ textOrNull "default_password" c.security.defaultPassword
    ++ n64 "generated_password_len" c.security.generatedPasswordLength
    ++ "retry:\n"
    ++ n32 "max_attempts" c.retry.maxAttempts
    ++ n64 "base_delay_ms" c.retry.baseDelayMs
    ++ "logging:\n"
    ++ text 2 "level" c.logging.level
    ++ textOrNull "file" c.logging.file
    ++ text 0 "data_dir" c.dataDir
    ++ (if Yaml.isOpenEnded c.dataDir then "...\n" else "")

end SyncLedger
