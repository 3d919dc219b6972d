import SqlComposer.Decimal.Layout
import SqlComposer.Text

/-!
# JSON numbers

A whole number within 64 bits is exact. Any other number is a double: as many digits as fit a
64-bit significand, scaled by one power of ten, so the last bit may differ from the nearest
double. A number too large for a double is refused.
-/
namespace SqlComposer.Json

open SqlComposer.Text (Scan)

inductive Number where
  | whole (n : Int)
  | double (x : Float)

/-- Doubles keep a `.0` and are written without an exponent between 1e-5 and 1e16; what is no
number is `null`. -/
def floatLayout : Decimal.Layout where
  plain := fun e => -5 ≤ e && e ≤ 15
  wholePoint := true
  tie := .toEven
  nan := "null"
  infinity := "null"
  negativeInfinity := "null"

def largestSignificand : Nat := 18446744073709551615

/-- Take digits into a significand until the next one does not fit. -/
def gather : Nat → List Nat → Nat × List Nat
  | n, [] => (n, [])
  | n, d :: ds => if 10 * n + d ≤ largestSignificand then gather (10 * n + d) ds else (n, d :: ds)

def powerOfTen (n : Nat) : Float :=
  Float.ofScientific 1 false n

/-- Scale by a power of ten, in steps of 308 where the exponent is lower than that. -/
def scaleBy : Nat → Float → Int → Option Float
  | 0, x, _ => some x
  | fuel + 1, x, exponent =>
    if exponent.natAbs ≤ 308 then
      if 0 ≤ exponent then
        let y := x * powerOfTen exponent.toNat
        if y.isInf then none else some y
      else some (x / powerOfTen exponent.natAbs)
    else if x == 0 then some x
    else if 0 ≤ exponent then none
    else scaleBy fuel (x / powerOfTen 308) (exponent + 308)

def toDouble (negative : Bool) (significand : Nat) (exponent : Int) : Option Number :=
  (scaleBy 4 significand.toUInt64.toFloat exponent).map fun x =>
    .double (if negative then -x else x)

def digitList : Scan (List Nat) := fun cs =>
  let digits := cs.takeWhile Char.isDigit
  if digits = [] then none
  else some (digits.map fun c => c.toNat - '0'.toNat, cs.drop digits.length)

def wholeDigits : Scan (List Nat) := fun cs =>
  match digitList cs with
  | some (0 :: _ :: _, _) => none
  | other => other

def fractionDigits : Scan (List Nat) := fun cs =>
  match cs with
  | '.' :: rest => digitList rest
  | _ => some ([], cs)

def exponentPart : Scan (Option Int) := fun cs =>
  match cs with
  | e :: rest =>
    if e = 'e' ∨ e = 'E' then
      let (negative, rest) :=
        match rest with
        | '-' :: more => (true, more)
        | '+' :: more => (false, more)
        | _ => (false, rest)
      match digitList rest with
      | some (ds, rest) =>
        let n : Nat := ds.foldl (fun n d => 10 * n + d) 0
        some (some (if negative then -(n : Int) else n), rest)
      | none => none
    else some (none, cs)
  | [] => some (none, cs)

def ofDigits (negative : Bool) (whole fraction : List Nat) (exponent : Option Int) :
    Option Number :=
  let (significand, left) := gather 0 whole
  if left = [] ∧ fraction = [] ∧ exponent.isNone then
    if !negative then some (.whole significand)
    else if significand = 0 ∨ significand > 9223372036854775808 then
      some (.double (-significand.toUInt64.toFloat))
    else some (.whole (-(significand : Int)))
  else
    let (significand, unread) := gather significand fraction
    let taken : Nat := fraction.length - unread.length
    toDouble negative significand ((left.length : Int) - taken + exponent.getD 0)

def number : Scan Number := fun cs => do
  let (negative, cs) :=
    match cs with
    | '-' :: rest => (true, rest)
    | _ => (false, cs)
  let (whole, cs) ← wholeDigits cs
  let (fraction, cs) ← fractionDigits cs
  let (exponent, cs) ← exponentPart cs
  let n ← ofDigits negative whole fraction exponent
  pure (n, cs)

end SqlComposer.Json
