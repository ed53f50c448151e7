/-
  SyncLedger/Cli/Quoted.lean
  ==========================
  **Paths in quotes**, as the program shows them: what cannot be seen, or would be mistaken for
  a quote, is escaped.
-/
import SyncLedger.Text.Invisible

namespace SyncLedger.Cli.Quoted

/-- Lower-case hexadecimal digits, as many as are needed. -/
def hexDigits (n : Nat) : List Char := Nat.toDigits 16 n

def escape (c : Char) : List Char :=
  if c = '\x00' then ['\\', '0']
  else if c = '\t' then ['\\', 't']
  else if c = '\n' then ['\\', 'n']
  else if c = '\r' then ['\\', 'r']
  else if c = '"' ∨ c = '\'' ∨ c = '\\' then ['\\', c]
  else if Text.isInvisible c then ['\\', 'u', '\x7b'] ++ hexDigits c.toNat ++ ['\x7d']
  else [c]

/-- A text in double quotes. -/
def text (s : String) : String := String.ofList ('"' :: s.toList.flatMap escape ++ ['"'])

end SyncLedger.Cli.Quoted
