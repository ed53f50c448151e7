/-
  SyncLedger/Yaml/Scalar.lean
  ===========================
  **Scalars in a YAML text**: plain, in single or double quotes, or as a block.  Each may go over
  several lines.  A single break within the first three is a space and further ones stand for
  themselves; in a block it depends on the kind, and a header says what becomes of the breaks
  at its end.
-/
import SyncLedger.Bytes
import SyncLedger.Yaml.Cursor

namespace SyncLedger

namespace Yaml

/-- How a scalar is written. -/
inductive Style where
  | plain
  | singleQuoted
  | doubleQuoted
  | literal
  | folded
  deriving DecidableEq

/-! ### Scalars over several lines -/

/-- Blanks and breaks between two runs of characters. -/
structure Gap where
  /-- Blanks before the first break. -/
  blanks : List Char := []
  /-- The first break. -/
  lead : List Char := []
  /-- The other breaks. -/
  trail : List Char := []
  /-- Whether there is a break. -/
  broken : Bool := false

/-- What a gap counts as: a single break is a blank, further ones stand for themselves. -/
def Gap.fold (g : Gap) : List Char :=
  if g.broken then
    if g.lead == ['\n'] then (if g.trail.isEmpty then [' '] else g.trail) else g.lead ++ g.trail
  else g.blanks

/-- Goes past blanks and breaks.  In a plain scalar a tab must not stand where indentation is
    expected, left of `indent`. -/
def gapFrom (indent : Option Nat) : (fuel : Nat) → Gap → Cursor → Option (Gap × Cursor)
  | 0, _, _ => none
  | fuel + 1, g, c =>
    match c.rest with
    | [] => some (g, c)
    | d :: _ =>
      if isBlank d then
        if g.broken && d == '\t' && indent.any (c.column < ·) then none
        else if g.broken then gapFrom indent fuel g c.next
        else gapFrom indent fuel { g with blanks := g.blanks ++ [d] } c.next
      else if isBreak d then
        let (b, c) := c.nextLine
        if g.broken then gapFrom indent fuel { g with trail := g.trail ++ b } c
        else gapFrom indent fuel { g with blanks := [], lead := b, broken := true } c
      else some (g, c)

/-- The characters of a plain scalar up to the next blank or to what ends the scalar. -/
def plainRun (inFlow : Bool) : List Char → Option (List Char)
  | [] => some []
  | d :: rest =>
    if isBlank d || isBreak d then some []
    else if inFlow && d == ':' && (rest.head?.any fun e => ",?[]\x7b\x7d".toList.contains e) then
      none
    else if d == ':' && atBlank rest then some []
    else if inFlow && ",[]\x7b\x7d".toList.contains d then some []
    else (plainRun inFlow rest).map (d :: ·)

/-- A plain scalar from here on; the text so far and the gap after it are given.  Also says
    whether a break comes before what follows the scalar. -/
def plainFrom (inFlow : Bool) (indent : Nat) :
    (fuel : Nat) → List Char → Gap → Cursor → Option (List Char × Bool × Cursor)
  | 0, _, _, _ => none
  | fuel + 1, text, g, c =>
    if c.atDocumentMark || c.rest.head? == some '#' then some (text, g.broken, c)
    else do
      let run ← plainRun inFlow c.rest
      let (text, broken) := if run.isEmpty then (text, g.broken) else (text ++ g.fold ++ run, false)
      let c := c.skip run.length
      if !atBlank c.rest || c.rest.isEmpty then return (text, broken, c)
      let start : Gap := if run.isEmpty then g else {}
      let (g, c) ← gapFrom (some indent) (c.rest.length + 1) start c
      if !inFlow && c.column < indent then return (text, g.broken, c)
      plainFrom inFlow indent fuel text g c

/-- The character that an escape of one letter stands for. -/
def escaped? : Char → Option Char
  | '0' => some '\x00'
  | 'a' => some '\x07'
  | 'b' => some '\x08'
  | 't' => some '\t'
  | '\t' => some '\t'
  | 'n' => some '\n'
  | 'v' => some '\x0b'
  | 'f' => some '\x0c'
  | 'r' => some '\r'
  | 'e' => some '\x1b'
  | ' ' => some ' '
  | '"' => some '"'
  | '/' => some '/'
  | '\\' => some '\\'
  | 'N' => some '\u0085'
  | '_' => some '\u00a0'
  | 'L' => some '\u2028'
  | 'P' => some '\u2029'
  | _ => none

/-- The character with the number that `n` hexadecimal digits denote. -/
def numbered? (n : Nat) (cs : List Char) : Option Char := do
  let ds := cs.take n
  guard (ds.length = n)
  let value ← ds.foldlM (fun v d => (Bytes.hexValue? d).map (v * 16 + ·)) 0
  if value < 0xD800 ∨ (0xE000 ≤ value ∧ value ≤ 0x10FFFF) then return Char.ofNat value else none

/-- The characters of a quoted scalar up to the next blank, break or closing quote.  Also says
    whether an escaped break ended the run. -/
def quotedRun (single : Bool) : (fuel : Nat) → Cursor → Option (List Char × Bool × Cursor)
  | 0, _ => none
  | fuel + 1, c =>
    let more (d : Char) (c : Cursor) :=
      (quotedRun single fuel c).map fun (run, escapedBreak, c) => (d :: run, escapedBreak, c)
    match c.rest with
    | [] => some ([], false, c)
    | d :: rest =>
      if isBlank d || isBreak d then some ([], false, c)
      else if single then
        if d == '\'' then
          if rest.head? == some '\'' then more '\'' (c.skip 2) else some ([], false, c)
        else more d c.next
      else if d == '"' then some ([], false, c)
      else if d == '\\' then
        match rest with
        | [] => none
        | e :: digits =>
          if isBreak e then some ([], true, c.next.nextLine.2)
          else if e == 'x' then (numbered? 2 digits).bind fun v => more v (c.skip 4)
          else if e == 'u' then (numbered? 4 digits).bind fun v => more v (c.skip 6)
          else if e == 'U' then (numbered? 8 digits).bind fun v => more v (c.skip 10)
          else (escaped? e).bind fun v => more v (c.skip 2)
      else more d c.next

/-- A quoted scalar from after its opening quote to after its closing one. -/
def quotedFrom (single : Bool) : (fuel : Nat) → List Char → Cursor → Option (List Char × Cursor)
  | 0, _, _ => none
  | fuel + 1, text, c =>
    if c.atDocumentMark || c.rest.isEmpty then none
    else do
      let (run, escapedBreak, c) ← quotedRun single (c.rest.length + 1) c
      let text := text ++ run
      if c.rest.head? == some (if single then '\'' else '"') then
        return (text, c.next)
      let (g, c) ← gapFrom none (c.rest.length + 1) { broken := escapedBreak } c
      quotedFrom single fuel (text ++ g.fold) c

/-- Empty lines in front of a line of a block scalar: their breaks, the indentation of the
    scalar if it was not known, and where the line begins. -/
def blockBreaks (parent : Int) :
    (fuel : Nat) → (indent widest : Nat) → List Char → Cursor → Option (List Char × Nat × Cursor)
  | 0, _, _, _, _ => none
  | fuel + 1, indent, widest, breaks, c =>
    let room := if indent = 0 then c.rest.length else indent - c.column
    let c := c.skip ((c.rest.take room).takeWhile (· == ' ')).length
    let widest := max widest c.column
    if (indent = 0 || c.column < indent) && c.rest.head? == some '\t' then none
    else if c.rest.head?.any isBreak then
      let (b, c) := c.nextLine
      blockBreaks parent fuel indent widest (breaks ++ b) c
    else
      let found := max (max widest (parent + 1).toNat) 1
      some (breaks, if indent = 0 then found else indent, c)

/-- The lines of a block scalar.  `lead` is the break after the line before, and `led` says
    whether that line began with a blank. -/
def blockLines (parent : Int) (isLiteral : Bool) (indent : Nat) :
    (fuel : Nat) → (text lead trail : List Char) → (led : Bool) → Cursor →
      Option (List Char × List Char × List Char × Cursor)
  | 0, _, _, _, _, _ => none
  | fuel + 1, text, lead, trail, led, c =>
    if c.column = indent && !c.rest.isEmpty then do
      let blank := c.rest.head?.any isBlank
      let joined :=
        if !isLiteral && lead == ['\n'] && !led && !blank then
          (if trail.isEmpty then [' '] else [])
        else lead
      let run := c.rest.takeWhile fun d => !isBreak d
      let c := c.skip run.length
      let (b, c) := c.nextLine
      let (breaks, _, c) ← blockBreaks parent (c.rest.length + 1) indent 0 [] c
      blockLines parent isLiteral indent fuel (text ++ joined ++ trail ++ run) b breaks blank c
    else some (text, lead, trail, c)

/-- What to do with the breaks at the end of a block scalar. -/
inductive Chomping where
  | strip
  | clip
  | keep

/-- The signs after the mark of a block scalar: chomping and indentation in either order. -/
def blockHeader? (c : Cursor) : Option (Chomping × Nat × Cursor) :=
  let sign? : List Char → Option Chomping
    | '+' :: _ => some .keep
    | '-' :: _ => some .strip
    | _ => none
  let digit? : List Char → Option (Option Nat)
    | d :: _ =>
      if d == '0' then none
      else if d.isDigit then some (some (d.toNat - 48))
      else some none
    | [] => some none
  match sign? c.rest with
  | some chomping => do
    let c := c.next
    match ← digit? c.rest with
    | some n => return (chomping, n, c.next)
    | none => return (chomping, 0, c)
  | none => do
    match ← digit? c.rest with
    | some n =>
      let c := c.next
      match sign? c.rest with
      | some chomping => return (chomping, n, c.next)
      | none => return (.clip, n, c)
    | none => return (.clip, 0, c)

/-- A block scalar from after its mark; `parent` is the indentation of the block around it. -/
def blockScalar? (isLiteral : Bool) (parent : Int) (c : Cursor) : Option (List Char × Cursor) := do
  let (chomping, increment, c) ← blockHeader? c
  let c := c.skipWhile isBlank
  let c := if c.rest.head? == some '#' then c.skipWhile fun d => !isBreak d else c
  guard (atBreak c.rest)
  let c := if c.rest.isEmpty then c else c.nextLine.2
  let known := if increment = 0 then 0 else (max parent 0).toNat + increment
  let (breaks, indent, c) ← blockBreaks parent (c.rest.length + 1) known 0 [] c
  let (text, lead, trail, c) ←
    blockLines parent isLiteral indent (c.rest.length + 1) [] [] breaks false c
  match chomping with
  | .strip => return (text, c)
  | .clip => return (text ++ lead, c)
  | .keep => return (text ++ lead ++ trail, c)

end Yaml

end SyncLedger
