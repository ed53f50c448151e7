/-
  SyncLedger/Cli/LogFilter.lean
  =============================
  **Which messages are logged.**  A filter is written as directives between commas.  A directive
  is a level, or a target with a level (or without: then everything of that target).  Of the
  directives that apply to a message the one with the longest target decides, and where none
  applies the message is not logged.

  A target may go with a span in brackets.  Such directives are for messages from inside that
  span only; the final message of the program comes from none.
-/
import SyncLedger.Text

namespace SyncLedger.Cli

/-- How much is logged: 0 is nothing, 1 errors only, 5 everything. -/
abbrev Level := Nat

/-- A level by its name, in either case, or by its number. -/
def level? (s : List Char) : Option Level :=
  match String.ofList (s.map (·.toLower)) with
  | "off" | "0" => some 0
  | "error" | "1" => some 1
  | "warn" | "2" => some 2
  | "info" | "3" => some 3
  | "debug" | "4" => some 4
  | "trace" | "5" => some 5
  | _ => none

/-- A rule for the messages of a target; an empty target is every target. -/
structure Directive where
  target : String
  inSpan : Bool
  level : Level
  deriving DecidableEq

namespace Directive

/-- Letters, digits, the three marks of paths, and what is beyond ASCII. -/
def isTargetChar (c : Char) : Bool :=
  c.isAlphanum || c == '_' || c == ':' || c == '-' || 0x80 ≤ c.toNat

/-- A target, or a span in brackets, which is none; answers with what follows. -/
def part? : List Char → Option (Option String × List Char)
  | '[' :: inside =>
    match inside.dropWhile (· ≠ ']') with
    | _ :: rest => some (none, rest)
    | [] => none
  | cs =>
    let name := cs.takeWhile isTargetChar
    if name.isEmpty then none else some (some (String.ofList name), cs.drop name.length)

/-- One or two parts, of which at most one is a target; answers with it, with whether there is a
    span, and with what follows. -/
def scope? (cs : List Char) : Option (String × Bool × List Char) := do
  let (first, rest) ← part? cs
  match part? rest with
  | some (second, rest) =>
    return ((first.or second).getD "", first.isNone || second.isNone, rest)
  | none => return (first.getD "", first.isNone, rest)

def parse? (cs : List Char) : Option Directive :=
  match level? cs with
  | some level => some ⟨"", false, level⟩
  | none => match scope? cs with
    | some (target, inSpan, []) => some ⟨target, inSpan, 5⟩
    | some (target, inSpan, ['=']) => some ⟨target, inSpan, 5⟩
    | some (target, inSpan, '=' :: level) => (level? level).map fun level => ⟨target, inSpan, level⟩
    | _ => none

end Directive

/-- The directives of a filter, of which none may be malformed.  Between two commas there may be
    nothing. -/
def directives? (s : String) : Option (List Directive) :=
  ((Text.splitAt ',' s.toList).filter (· ≠ [])).mapM Directive.parse?

/-- Whether errors of the program itself are logged.  A filter that is malformed counts as
    `info`. -/
def showsErrors (filter : String) : Bool :=
  match directives? filter with
  | none => true
  | some ds =>
    let applying := ds.filter fun d => !d.inSpan && "quics".startsWith d.target
    let longest := applying.foldl (fun n d => max n d.target.length) 0
    match (applying.filter (·.target.length == longest)).getLast? with
    | some d => 1 ≤ d.level
    | none => false

end SyncLedger.Cli
