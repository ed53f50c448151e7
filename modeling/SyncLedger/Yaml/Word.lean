/-
  SyncLedger/Yaml/Word.lean
  =========================
  **Plain words that are more than texts**: null, flags and natural numbers.  A reader that wants
  one of these asks here; one that wants a text takes the word as it is.
-/
import SyncLedger.Bytes

namespace SyncLedger

namespace Yaml

def isNullWord (s : String) : Bool := s == "null" || s == "Null" || s == "NULL" || s == "~"

def flagWord? (s : String) : Option Bool :=
  if s == "true" || s == "True" || s == "TRUE" then some true
  else if s == "false" || s == "False" || s == "FALSE" then some false
  else none

/-- Digits with a needless zero in front, which are a text. -/
def isPaddedNumber (cs : List Char) : Bool :=
  let ds := match cs with
    | '+' :: rest => rest
    | '-' :: rest => rest
    | cs => cs
  ds.length > 1 && ds.head? == some '0' && ds.all (·.isDigit)

/-- The number that digits of a base denote; a plus sign may stand in front. -/
def ofBase? (base : Nat) (cs : List Char) : Option Nat :=
  let ds := match cs with
    | '+' :: rest => rest
    | cs => cs
  if ds.isEmpty then none
  else ds.foldlM (fun n d => (Bytes.hexValue? d).bind fun v =>
    if v < base then some (n * base + v) else none) 0

def beginsWithSign (cs : List Char) : Bool := cs.head? == some '+' || cs.head? == some '-'

/-- The natural number that a scalar is written as, below a bound: decimal, or in one of the
    bases 16, 8 and 2 after `0x`, `0o` and `0b`. -/
def naturalBelow? (bound : Nat) (cs : List Char) : Option Nat :=
  let unsigned := match cs with
    | '+' :: rest => rest
    | cs => cs
  let based (base : Nat) (rest : List Char) : Option (Option Nat) :=
    if beginsWithSign rest then none else some ((ofBase? base rest).filter (· < bound))
  let decimal : Option Nat :=
    if beginsWithSign unsigned || isPaddedNumber cs then none
    else (ofBase? 10 unsigned).filter (· < bound)
  let inBase : Option (Option Nat) := match unsigned with
    | '0' :: 'x' :: rest => based 16 rest
    | '0' :: 'o' :: rest => based 8 rest
    | '0' :: 'b' :: rest => based 2 rest
    | _ => some none
  match inBase with
  | none => none
  | some (some n) => some n
  | some none => decimal

end Yaml

end SyncLedger
