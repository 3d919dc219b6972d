import SqlComposer.Calendar.Date

/-!
# Timestamps

A date and a time of day without a zone. A leap second is second 59 with a second or more of
nanoseconds, and is written as second 60.
-/
namespace SqlComposer.Calendar

def second : Nat := 1000000000

structure Timestamp where
  date : Date
  hour : Nat
  minute : Nat
  seconds : Nat
  nanos : Nat
  deriving DecidableEq, Repr

/-- Nanoseconds past the first second are allowed in a minute's last second only. -/
def Timestamp.ofParts? (date : Date) (hour minute seconds nanos : Nat) : Option Timestamp :=
  if hour < 24 ∧ minute < 60 ∧ seconds < 60 ∧
      (nanos < second ∨ (seconds = 59 ∧ nanos < 2 * second)) then
    some ⟨date, hour, minute, seconds, nanos⟩
  else none

def Timestamp.timeText (t : Timestamp) : String :=
  padded 2 t.hour ++ ":" ++ padded 2 t.minute ++ ":" ++ padded 2 (t.seconds + t.nanos / second)

/-- The date and the time of day, with one character between them and without a fraction. -/
def Timestamp.text (t : Timestamp) (separator : Char) : String :=
  t.date.text ++ String.singleton separator ++ t.timeText

/-- Three, six or nine digits, as few as hold the fraction; a whole second has none. -/
def Timestamp.fractionText (t : Timestamp) : String :=
  let fraction := t.nanos % second
  if fraction = 0 then ""
  else if fraction % 1000000 = 0 then "." ++ padded 3 (fraction / 1000000)
  else if fraction % 1000 = 0 then "." ++ padded 6 (fraction / 1000)
  else "." ++ padded 9 fraction

def Timestamp.isoText (t : Timestamp) : String :=
  t.text 'T' ++ t.fractionText

end SqlComposer.Calendar
