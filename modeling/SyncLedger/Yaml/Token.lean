/-
  SyncLedger/Yaml/Token.lean
  ==========================
  **YAML text as tokens.**  Structure that a writer shows by indentation becomes tokens of its
  own here: a block begins where something stands further right than the block around it, and
  ends where something stands further left.

  A mapping key is seen to be one only when the `:` after it is met.  Until then the place
  where it may have begun is remembered (`SimpleKey`), one for each level of brackets, and the
  token that marks a key is inserted there afterwards.  Such a key keeps to one line.
-/
import SyncLedger.Yaml.Scalar

namespace SyncLedger

namespace Yaml

inductive Token where
  | documentStart
  | documentEnd
  | blockSequenceStart
  | blockMappingStart
  | blockEnd
  | flowSequenceStart
  | flowSequenceEnd
  | flowMappingStart
  | flowMappingEnd
  | blockEntry
  | flowEntry
  | key
  | value
  | alias (name : String)
  | anchor (name : String)
  /-- A tag as it is written, or in full for the standard ones. -/
  | tag (name : String)
  | scalar (text : String) (style : Style)
  /-- A directive of the document that follows. -/
  | directive
  deriving DecidableEq

/-! ### The scanner -/

/-- A place where a key may have begun. -/
structure SimpleKey where
  /-- It must turn out to be a key, because it stands at the indentation of a block. -/
  required : Bool
  /-- How many tokens come before it. -/
  token : Nat
  line : Nat
  column : Nat
  index : Nat

/-- The state of scanning. -/
structure Scan where
  cursor : Cursor
  tokens : List Token := []
  /-- The indentation of the block, −1 outside all blocks. -/
  indent : Int := -1
  /-- The indentations of the blocks around it. -/
  indents : List Int := []
  /-- Whether a key may begin here. -/
  keyAllowed : Bool := true
  /-- Where a key may have begun, innermost brackets first; the last one is outside all. -/
  keys : List (Option SimpleKey) := [none]

namespace Scan

def inFlow (s : Scan) : Bool := s.keys.length > 1

def push (s : Scan) (t : Token) : Scan := { s with tokens := s.tokens ++ [t] }

/-- Inserts a token that belongs before others. -/
def insertAt (s : Scan) (n : Nat) (t : Token) : Scan :=
  { s with tokens := s.tokens.take n ++ t :: s.tokens.drop n }

/-- Opens a block at a column right of the current one. -/
def roll (s : Scan) (column : Nat) (token : Option Nat) (t : Token) : Scan :=
  if s.inFlow || (column : Int) ≤ s.indent then s
  else
    let s := { s with indent := column, indents := s.indent :: s.indents }
    match token with
    | some n => s.insertAt n t
    | none => s.push t

/-- Closes the blocks right of a column. -/
def unrollBlocks (column : Int) : List Int → Scan → Scan
  | [], s => s
  | outer :: rest, s =>
    if s.indent > column then
      unrollBlocks column rest { (s.push .blockEnd) with indent := outer, indents := rest }
    else s

def unroll (s : Scan) (column : Int) : Scan :=
  if s.inFlow then s else unrollBlocks column s.indents s

/-- Gives up the place where a key may have begun; fails if it must be one. -/
def removeKey (s : Scan) : Option Scan :=
  match s.keys with
  | some k :: rest => if k.required then none else some { s with keys := none :: rest }
  | _ => some s

/-- Remembers that a key may begin here. -/
def saveKey (s : Scan) : Option Scan :=
  if s.keyAllowed then do
    let s ← s.removeKey
    let key : SimpleKey :=
      { required := !s.inFlow && s.indent == s.cursor.column, token := s.tokens.length,
        line := s.cursor.line, column := s.cursor.column, index := s.cursor.index }
    return { s with keys := some key :: s.keys.drop 1 }
  else some s

/-- Gives up the places that are on an earlier line or too far back. -/
def staleKeys (s : Scan) : Option Scan := do
  let keys ← s.keys.mapM fun k => match k with
    | some k =>
      if k.line < s.cursor.line || k.index + 1024 < s.cursor.index then
        (if k.required then none else some none)
      else some (some k)
    | none => some none
  return { s with keys }

/-- Goes past blanks, comments and breaks to where the next token begins. -/
def toNextToken : (fuel : Nat) → Scan → Scan
  | 0, s => s
  | fuel + 1, s =>
    let c := s.cursor.skipWhile fun d =>
      d == ' ' || (d == '\t' && (s.inFlow || !s.keyAllowed))
    let c := if c.rest.head? == some '#' then c.skipWhile fun d => !isBreak d else c
    if c.rest.head?.any isBreak then
      toNextToken fuel { s with cursor := c.nextLine.2, keyAllowed := s.keyAllowed || !s.inFlow }
    else { s with cursor := c }

def single (s : Scan) (t : Token) : Scan := { (s.push t) with cursor := s.cursor.next }

def isWordChar (c : Char) : Bool := c.isAlphanum || c == '_' || c == '-'

/-- An anchor or alias: its mark and a word. -/
def named (s : Scan) (make : String → Token) : Option Scan := do
  let s ← s.saveKey
  let c := s.cursor.next
  let word := c.rest.takeWhile isWordChar
  let c := c.skip word.length
  guard (!word.isEmpty)
  guard (atBlank c.rest || c.rest.head?.any fun d => "?:,]\x7d%@`".toList.contains d)
  return { (s.push (make (String.ofList word))) with cursor := c, keyAllowed := false }

/-- The characters that a tag may hold; in angle brackets also a comma and square brackets. -/
def isTagChar (c : Char) : Bool := isWordChar c || ";/?:@&=+$.%!~*'()".toList.contains c

/-- A tag in angle brackets, a standard one behind two marks, or one of the document's own.
    Answers with its name and how many characters it takes. -/
def tagAt? : List Char → Option (String × Nat)
  | '!' :: '<' :: rest =>
    let uri := rest.takeWhile fun d => isTagChar d || ",[]".toList.contains d
    if !uri.isEmpty && (rest.drop uri.length).head? == some '>' then
      some (String.ofList uri, uri.length + 3)
    else none
  | '!' :: '!' :: rest =>
    let word := rest.takeWhile isTagChar
    if word.isEmpty then none
    else some ("tag:yaml.org,2002:" ++ String.ofList word, word.length + 2)
  | '!' :: rest =>
    let handle := rest.takeWhile isWordChar
    if (rest.drop handle.length).head? == some '!' then none
    else
      let word := rest.takeWhile isTagChar
      some (String.ofList ('!' :: word), word.length + 1)
  | _ => none

/-- A tag, up to the next blank or a comma within brackets. -/
def tagged (s : Scan) : Option Scan := do
  let s ← s.saveKey
  let (name, length) ← tagAt? s.cursor.rest
  let c := s.cursor.skip length
  guard (atBlank c.rest || (s.inFlow && c.rest.head? == some ','))
  return { (s.push (.tag name)) with cursor := c, keyAllowed := false }

/-- A directive line: the version of the language, or a tag handle. -/
def directed (s : Scan) : Option Scan := do
  let s ← (s.unroll (-1)).removeKey
  let line := s.cursor.rest.takeWhile fun d => !isBreak d
  let words := ((String.ofList line).splitOn " ").filter (· ≠ "")
  let upToComment := words.takeWhile fun w => !w.startsWith "#"
  let isKnown : Bool := match upToComment with
    | ["%YAML", version] => version == "1.1" || version == "1.2"
    | ["%TAG", handle, _] => handle.startsWith "!" && handle.endsWith "!"
    | _ => false
  guard isKnown
  return { (s.push .directive) with cursor := s.cursor.skip line.length, keyAllowed := false }

def documentMark (s : Scan) (t : Token) : Option Scan := do
  let s ← (s.unroll (-1)).removeKey
  return { (s.push t) with cursor := s.cursor.skip 3, keyAllowed := false }

def opening (s : Scan) (t : Token) : Option Scan := do
  let s ← s.saveKey
  return { (s.single t) with keys := none :: s.keys, keyAllowed := true }

def closing (s : Scan) (t : Token) : Option Scan := do
  let s ← s.removeKey
  let keys := match s.keys with
    | _ :: k :: rest => k :: rest
    | keys => keys
  return { (s.single t) with keys, keyAllowed := false }

def entry (s : Scan) : Option Scan := do
  guard (s.inFlow || s.keyAllowed)
  let s ← (s.roll s.cursor.column none .blockSequenceStart).removeKey
  return { (s.single .blockEntry) with keyAllowed := true }

def complexKey (s : Scan) : Option Scan := do
  guard (s.inFlow || s.keyAllowed)
  let s ← (s.roll s.cursor.column none .blockMappingStart).removeKey
  return { (s.single .key) with keyAllowed := !s.inFlow }

def valueMark (s : Scan) : Option Scan :=
  match s.keys with
  | some k :: rest =>
    let s := s.insertAt k.token .key
    let s := s.roll k.column (some k.token) .blockMappingStart
    some { (s.single .value) with keys := none :: rest, keyAllowed := false }
  | _ => do
    guard (s.inFlow || s.keyAllowed)
    let s := s.roll s.cursor.column none .blockMappingStart
    return { (s.single .value) with keyAllowed := !s.inFlow }

def block (s : Scan) (isLiteral : Bool) : Option Scan := do
  let s ← s.removeKey
  let (text, c) ← blockScalar? isLiteral s.indent s.cursor.next
  let t := Token.scalar (String.ofList text) (if isLiteral then .literal else .folded)
  return { (s.push t) with cursor := c, keyAllowed := true }

def quoted (s : Scan) (isSingle : Bool) : Option Scan := do
  let s ← s.saveKey
  let c := s.cursor.next
  let (text, c) ← quotedFrom isSingle (c.rest.length + 2) [] c
  let t := Token.scalar (String.ofList text) (if isSingle then .singleQuoted else .doubleQuoted)
  return { (s.push t) with cursor := c, keyAllowed := false }

def plain (s : Scan) : Option Scan := do
  let s ← s.saveKey
  let indent := (s.indent + 1).toNat
  let (text, broken, c) ← plainFrom s.inFlow indent (s.cursor.rest.length + 1) [] {} s.cursor
  return { (s.push (.scalar (String.ofList text) .plain)) with cursor := c, keyAllowed := broken }

/-- Whether a plain scalar may begin with a character that is followed by `rest`. -/
def beginsPlain (inFlow : Bool) (d : Char) (rest : List Char) : Bool :=
  !(isBlank d || isBreak d || "-?:,[]\x7b\x7d#&*!|>'\"%@`".toList.contains d)
    || (d == '-' && !(rest.head?.any isBlank))
    || (!inFlow && (d == '?' || d == ':') && !atBlank rest)

def token (s : Scan) : Option Scan :=
  let c := s.cursor
  match c.rest with
  | [] => some s
  | d :: rest =>
    if c.column == 0 && d == '%' then s.directed
    else if c.column == 0 && atMark '-' c.rest then s.documentMark .documentStart
    else if c.column == 0 && atMark '.' c.rest then s.documentMark .documentEnd
    else if d == '[' then s.opening .flowSequenceStart
    else if d == '{' then s.opening .flowMappingStart
    else if d == ']' then s.closing .flowSequenceEnd
    else if d == '}' then s.closing .flowMappingEnd
    else if d == ',' then s.removeKey.map fun s => { (s.single .flowEntry) with keyAllowed := true }
    else if d == '-' && atBlank rest then s.entry
    else if d == '?' && (s.inFlow || atBlank rest) then s.complexKey
    else if d == ':' && (s.inFlow || atBlank rest) then s.valueMark
    else if d == '*' then s.named .alias
    else if d == '&' then s.named .anchor
    else if d == '!' then s.tagged
    else if d == '|' && !s.inFlow then s.block true
    else if d == '>' && !s.inFlow then s.block false
    else if d == '\'' then s.quoted true
    else if d == '"' then s.quoted false
    else if beginsPlain s.inFlow d rest then s.plain
    else none

def run : (fuel : Nat) → Scan → Option (List Token)
  | 0, _ => none
  | fuel + 1, s => do
    let s ← (toNextToken (s.cursor.rest.length + 1) s).staleKeys
    let s := s.unroll s.cursor.column
    if s.cursor.rest.isEmpty then
      let s ← (s.unroll (-1)).removeKey
      return s.tokens
    run fuel (← s.token)

end Scan

/-- The tokens of a text.  Every token takes at least one character. -/
def tokens? (text : String) : Option (List Token) :=
  let cs := text.toList
  if cs.all isAllowed then Scan.run (cs.length + 1) { cursor := .start cs } else none

end Yaml

end SyncLedger
