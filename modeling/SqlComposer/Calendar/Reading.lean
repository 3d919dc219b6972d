import SqlComposer.Calendar.Timestamp
import SqlComposer.Text

/-!
# Reading dates and timestamps

Fields are separated as in `2014-07-15T09:30:01.5`. Blanks may stand in front of a number and
before a separator, a year may have a sign and then any number of digits, and a second may be 60.
Digits of a fraction past the ninth are dropped.
-/
namespace SqlComposer.Calendar

open Text (Scan digitsValue skipBlanks)

def number (most : Nat) : Scan Nat := fun cs =>
  let digits := (cs.take most).takeWhile Char.isDigit
  if digits = [] then none else some (digitsValue digits, cs.drop digits.length)

def longNumber : Scan Nat := fun cs => number cs.length cs

def signedYear : Scan Int := fun cs =>
  match skipBlanks cs with
  | '-' :: rest => (longNumber rest).map fun (n, rest) => (-(n : Int), rest)
  | '+' :: rest => (longNumber rest).map fun (n, rest) => ((n : Int), rest)
  | rest => (number 4 rest).map fun (n, rest) => ((n : Int), rest)

def twoDigits : Scan Nat := fun cs => number 2 (skipBlanks cs)

/-- A separator, with blanks allowed before it. -/
def separator (c : Char) : Scan Unit := fun cs =>
  match skipBlanks cs with
  | d :: rest => if c = d then some ((), rest) else none
  | [] => none

def fraction : Scan Nat := fun cs =>
  match cs with
  | '.' :: rest => do
    let (n, after) ← number 9 rest
    let width := rest.length - after.length
    pure (n * Nat.pow 10 (9 - width), after.dropWhile Char.isDigit)
  | rest => some (0, rest)

def dateFields : Scan Date := fun cs => do
  let (year, cs) ← signedYear cs
  let (_, cs) ← separator '-' cs
  let (month, cs) ← twoDigits cs
  let (_, cs) ← separator '-' cs
  let (day, cs) ← twoDigits cs
  let date ← Date.ofParts? year month day
  pure (date, skipBlanks cs)

def timestampFields : Scan Timestamp := fun cs => do
  let (date, cs) ← dateFields cs
  let (_, cs) ← separator 'T' cs
  let (hour, cs) ← twoDigits cs
  let (_, cs) ← separator ':' cs
  let (minute, cs) ← twoDigits cs
  let (_, cs) ← separator ':' cs
  let (seconds, cs) ← twoDigits cs
  let (nanos, cs) ← fraction cs
  let t ←
    if seconds = 60 then Timestamp.ofParts? date hour minute 59 (second + nanos)
    else Timestamp.ofParts? date hour minute seconds nanos
  pure (t, skipBlanks cs)

def Date.read? (s : String) : Option Date :=
  Text.Scan.complete? dateFields s

def Timestamp.read? (s : String) : Option Timestamp :=
  Text.Scan.complete? timestampFields s

end SqlComposer.Calendar
