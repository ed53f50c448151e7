/-
  SyncLedger/Yaml/Cursor.lean
  ===========================
  **Places in a YAML text**, and the kinds of characters that count there.  A cursor knows its
  line and column, because indentation is what shows structure.
-/
namespace SyncLedger

namespace Yaml

/-! ### Characters -/

def isBreak (c : Char) : Bool :=
  c == '\n' || c == '\r' || c == '\u0085' || c == '\u2028' || c == '\u2029'

def isBlank (c : Char) : Bool := c == ' ' || c == '\t'

/-- The characters that may occur in a document at all. -/
def isAllowed (c : Char) : Bool :=
  let n := c.toNat
  n == 9 || n == 10 || n == 13 || (0x20 ≤ n && n ≤ 0x7E) || n == 0x85 || (0xA0 ≤ n && n ≤ 0xD7FF)
    || (0xE000 ≤ n && n ≤ 0xFFFD) || 0x10000 ≤ n

/-- Whether a text begins with a blank or a break, or is at its end. -/
def atBlank : List Char → Bool
  | [] => true
  | c :: _ => isBlank c || isBreak c

/-- Whether a text begins with a break, or is at its end. -/
def atBreak : List Char → Bool
  | [] => true
  | c :: _ => isBreak c

/-- Whether a text begins with a mark of three equal characters that stands alone. -/
def atMark (c : Char) : List Char → Bool
  | a :: b :: d :: rest => a == c && b == c && d == c && atBlank rest
  | _ => false

/-! ### Places in the text -/

/-- What is left of the text, and where that is. -/
structure Cursor where
  rest : List Char
  line : Nat := 0
  column : Nat := 0
  index : Nat := 0

namespace Cursor

/-- Past one character of a line. -/
def next (c : Cursor) : Cursor :=
  { c with rest := c.rest.drop 1, column := c.column + 1, index := c.index + 1 }

/-- Past so many characters of a line. -/
def skip (c : Cursor) (n : Nat) : Cursor :=
  { c with rest := c.rest.drop n, column := c.column + n, index := c.index + n }

/-- Past the longest run of characters of a line that satisfy a test. -/
def skipWhile (c : Cursor) (p : Char → Bool) : Cursor := c.skip (c.rest.takeWhile p).length

/-- Past a break, and what the break counts as. -/
def nextLine (c : Cursor) : List Char × Cursor :=
  let at0 (rest : List Char) (n : Nat) : Cursor :=
    { rest, line := c.line + 1, column := 0, index := c.index + n }
  match c.rest with
  | '\r' :: '\n' :: rest => (['\n'], at0 rest 2)
  | d :: rest =>
    if d == '\u2028' || d == '\u2029' then ([d], at0 rest 1) else (['\n'], at0 rest 1)
  | [] => ([], c)

/-- Whether a document mark stands here. -/
def atDocumentMark (c : Cursor) : Bool :=
  c.column == 0 && (atMark '-' c.rest || atMark '.' c.rest)

end Cursor

/-- The start of a text.  A byte order mark says nothing but takes a column. -/
def Cursor.start (cs : List Char) : Cursor :=
  match cs with
  | '\ufeff' :: rest => { rest, column := 1, index := 1 }
  | cs => { rest := cs }

end Yaml

end SyncLedger
