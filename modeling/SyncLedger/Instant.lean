/-
  SyncLedger/Instant.lean
  =======================
  **Points in time and their RFC 3339 text.**  An instant counts seconds from the start of
  1970 in UTC, with nanoseconds beside them.  Its text is in UTC with as few fraction digits
  out of none, three, six and nine as lose nothing.

  Reading is laxer than writing.  The offset may be any below a day, blanks may stand between
  the parts, numbers may have fewer digits than usual, and a blank may stand for the `T`.

  A leap second is the last second of its minute with 10 ^ 9 or more nanoseconds.
-/
import SyncLedger.Text

namespace SyncLedger

structure Instant where
  /-- Seconds since the start of 1970, UTC. -/
  second : Int
  /-- Nanoseconds within the second; 10 ^ 9 or more inside a leap second. -/
  nano : Nat
  deriving DecidableEq, Inhabited

namespace Instant

/-! ### The calendar -/

/-- Days from the start of 1970 to a date of the proleptic Gregorian calendar.  Years are
    counted from March here, so the leap day is the last day of its year. -/
def dayNumber (year : Int) (month day : Nat) : Int :=
  let y := if month ≤ 2 then year - 1 else year
  let era := y.fdiv 400
  let yearOfEra := y - era * 400
  let dayOfYear : Int := ((153 * ((month + 9) % 12) + 2) / 5 + day : Nat) - 1
  let dayOfEra := yearOfEra * 365 + yearOfEra / 4 - yearOfEra / 100 + dayOfYear
  era * 146097 + dayOfEra - 719468

/-- The date that is a number of days after the start of 1970. -/
def dateOfDay (day : Int) : Int × Nat × Nat :=
  let z := day + 719468
  let era := z.fdiv 146097
  let dayOfEra := (z - era * 146097).toNat
  let yearOfEra := (dayOfEra - dayOfEra / 1460 + dayOfEra / 36524 - dayOfEra / 146096) / 365
  let dayOfYear := dayOfEra - (365 * yearOfEra + yearOfEra / 4 - yearOfEra / 100)
  let shifted := (5 * dayOfYear + 2) / 153
  let d := dayOfYear - (153 * shifted + 2) / 5 + 1
  let m := if shifted < 10 then shifted + 3 else shifted - 9
  let y := (yearOfEra : Int) + era * 400
  (if m ≤ 2 then y + 1 else y, m, d)

def isLeapYear (year : Int) : Bool := year % 4 == 0 && (year % 100 != 0 || year % 400 == 0)

def daysInMonth (year : Int) (month : Nat) : Nat :=
  if month == 2 then (if isLeapYear year then 29 else 28)
  else if month == 4 || month == 6 || month == 9 || month == 11 then 30 else 31

/-- The years that dates are kept for. -/
def isYearInRange (year : Int) : Bool := decide (-262143 ≤ year ∧ year ≤ 262142)

/-! ### Writing -/

/-- Four digits, and a sign where four digits do not do. -/
def yearText (year : Int) : String :=
  if 0 ≤ year ∧ year ≤ 9999 then Text.padded 4 year.toNat
  else (if year < 0 then "-" else "+") ++ Text.padded 4 year.natAbs

/-- The fewest fraction digits out of none, three, six and nine that lose nothing. -/
def fractionText (nano : Nat) : String :=
  if nano = 0 then ""
  else if nano % 1000000 = 0 then "." ++ Text.padded 3 (nano / 1000000)
  else if nano % 1000 = 0 then "." ++ Text.padded 6 (nano / 1000)
  else "." ++ Text.padded 9 nano

def text (t : Instant) : String :=
  let (year, month, day) := dateOfDay (t.second.fdiv 86400)
  let ofDay := (t.second.fmod 86400).toNat
  let leap := t.nano / 1000000000
  yearText year ++ "-" ++ Text.padded 2 month ++ "-" ++ Text.padded 2 day ++ "T"
    ++ Text.padded 2 (ofDay / 3600) ++ ":" ++ Text.padded 2 (ofDay / 60 % 60) ++ ":"
    ++ Text.padded 2 (ofDay % 60 + leap) ++ fractionText (t.nano % 1000000000) ++ "Z"

/-! ### Reading -/

/-- A step of reading consumes a beginning of the characters that are left. -/
abbrev Reader := StateT (List Char) Option

namespace Reader

def skipBlanks : Reader Unit := modify Text.trimLeft

def char (c : Char) : Reader Unit := fun cs =>
  match cs with
  | d :: rest => if c = d then some ((), rest) else none
  | [] => none

/-- Between one and `most` decimal digits. -/
def digits (most : Nat) : Reader (List Char) := fun cs =>
  let ds := (cs.take most).takeWhile (·.isDigit)
  if ds = [] then none else some (ds, cs.drop ds.length)

/-- A number of at most `most` digits after any blanks, if it is within bounds. -/
def number (most lo hi : Nat) : Reader Nat := do
  skipBlanks
  let n := Text.ofDigits (← digits most)
  if lo ≤ n ∧ n ≤ hi then return n else failure

/-- Up to four digits, or any number of them after a sign. -/
def year : Reader Int := do
  skipBlanks
  let n : Int ← fun cs => match cs with
    | '-' :: rest => (digits rest.length rest).map fun (ds, r) => (-(Text.ofDigits ds : Int), r)
    | '+' :: rest => (digits rest.length rest).map fun (ds, r) => ((Text.ofDigits ds : Int), r)
    | _ => (digits 4 cs).map fun (ds, r) => ((Text.ofDigits ds : Int), r)
  if isYearInRange n then return n else failure

/-- A literal character with blanks before it. -/
def spacedChar (c : Char) : Reader Unit := do
  skipBlanks
  char c

/-- The nanoseconds written after a point; digits past the ninth are dropped. -/
def fraction : Reader Nat := fun cs =>
  match cs with
  | '.' :: rest => do
    let (ds, r) ← digits 9 rest
    return (Text.ofDigits (ds ++ List.replicate (9 - ds.length) '0'), r.dropWhile (·.isDigit))
  | _ => some (0, cs)

/-- Exactly two decimal digits of which the first is at most `tens`. -/
def twoDigits (tens : Char) : Reader Nat := fun cs =>
  match cs with
  | a :: b :: rest =>
    if a.isDigit && b.isDigit && a ≤ tens then some (Text.ofDigits [a, b], rest) else none
  | _ => none

/-- Seconds east of UTC: `Z`, `UTC`, or a sign with hours and minutes. -/
def offset : Reader Int := fun cs =>
  if (cs.take 3).map (·.toLower) = ['u', 't', 'c'] then some (0, cs.drop 3)
  else match cs with
    | 'Z' :: rest => some (0, rest)
    | 'z' :: rest => some (0, rest)
    | sign :: rest =>
      if sign = '+' ∨ sign = '-' ∨ sign = '\u2212' then do
        let (h, rest) ← twoDigits '9' rest
        let (m, rest) ← twoDigits '5' (rest.dropWhile fun c => c == ':' || Text.isBlank c)
        let seconds : Int := h * 3600 + m * 60
        if seconds < 86400 then
          return (if sign = '+' then seconds else -seconds, rest)
        else none
      else none
    | [] => none

/-- The separator between date and time. -/
def dateEnd : Reader Unit := fun cs =>
  match cs with
  | c :: rest => if c = 't' ∨ c = 'T' ∨ c = ' ' then some ((), rest) else none
  | [] => none

def instant : Reader Instant := do
  let y ← year
  spacedChar '-'
  let mo ← number 2 1 12
  spacedChar '-'
  let d ← number 2 1 31
  guard (d ≤ daysInMonth y mo)
  dateEnd
  let h ← number 2 0 23
  spacedChar ':'
  let mi ← number 2 0 59
  spacedChar ':'
  let s ← number 2 0 60
  let f ← fraction
  skipBlanks
  let east ← offset
  skipBlanks
  let leap := s / 60
  let second := dayNumber y mo d * 86400 + h * 3600 + mi * 60 + (s - leap) - east
  guard (isYearInRange (dateOfDay (second.fdiv 86400)).1)
  return ⟨second, leap * 1000000000 + f⟩

end Reader

/-- Reads a date and time that is all of the text. -/
def parse? (s : String) : Option Instant :=
  match Reader.instant.run s.toList with
  | some (t, []) => some t
  | _ => none

end Instant

end SyncLedger
