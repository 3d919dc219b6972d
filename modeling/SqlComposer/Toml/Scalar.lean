import SqlComposer.Calendar.Date
import SqlComposer.Decimal.Reading
import SqlComposer.Text
import SqlComposer.Toml

/-!
# TOML numbers, dates and truth values

Each is one word, save that a blank may stand between a date and its time. Digits may be grouped
by single underscores. An integer has 64 bits, with an optional sign in base ten and none in bases
sixteen, eight and two; a number too large for a double is refused.
-/
namespace SqlComposer.Toml

open SqlComposer.Text (Scan digitsValue valueInBase?)

/-- Digits without the underscores between them. -/
def ungrouped? (isDigit : Char → Bool) : List Char → Option (List Char)
  | [] => none
  | [c] => if isDigit c then some [c] else none
  | c :: '_' :: rest => if isDigit c then (ungrouped? isDigit rest).map (c :: ·) else none
  | c :: rest => if isDigit c then (ungrouped? isDigit rest).map (c :: ·) else none

/-- Digits of base ten that begin with zero only where zero is all there is. -/
def whole? (cs : List Char) : Option (List Char) :=
  if cs.head? = some '0' ∧ cs.length ≠ 1 then none else ungrouped? Char.isDigit cs

def splitSign : List Char → Bool × List Char
  | '-' :: rest => (true, rest)
  | '+' :: rest => (false, rest)
  | cs => (false, cs)

def inRange? (n : Int) : Option Toml :=
  if Int64.minValue.toInt ≤ n ∧ n ≤ Int64.maxValue.toInt then some (.integer (Int64.ofInt n))
  else none

def isHexDigit (c : Char) : Bool := (Text.hexDigit? c).isSome

def inBase? (base : Nat) (cs : List Char) : Option Toml := do
  let digits ← ungrouped? isHexDigit cs
  let n ← valueInBase? base digits
  inRange? n

def integer? (cs : List Char) : Option Toml :=
  match cs with
  | '0' :: 'x' :: digits => inBase? 16 digits
  | '0' :: 'o' :: digits => inBase? 8 digits
  | '0' :: 'b' :: digits => inBase? 2 digits
  | _ =>
    let (negative, digits) := splitSign cs
    (whole? digits).bind fun digits =>
      inRange? (if negative then -(digitsValue digits : Int) else digitsValue digits)

def isExponentMark (c : Char) : Bool := c == 'e' || c == 'E'

def isExponent : List Char → Bool
  | [] => true
  | mark :: rest => isExponentMark mark && (ungrouped? Char.isDigit (splitSign rest).2).isSome

def isDecimal (cs : List Char) : Bool :=
  let whole := cs.takeWhile fun c => c != '.' && !isExponentMark c
  (whole? whole).isSome &&
    match cs.drop whole.length with
    | '.' :: rest =>
      let fraction := rest.takeWhile fun c => !isExponentMark c
      (ungrouped? Char.isDigit fraction).isSome && isExponent (rest.drop fraction.length)
    | [] => false
    | rest => isExponent rest

def float? (cs : List Char) : Option Toml :=
  let (_, magnitude) := splitSign cs
  let written := String.ofList (cs.filter (· != '_'))
  if magnitude = ['i', 'n', 'f'] ∨ magnitude = ['n', 'a', 'n'] then
    (Decimal.read? written).map .float
  else if isDecimal magnitude then
    (Decimal.read? written).bind fun x => if x.isInf && x > 0 then none else some (.float x)
  else none

/-- A number of two digits, neither below `least` nor above `most`. -/
def twoDigits (least most : Nat) : Scan Nat := fun cs =>
  match cs with
  | a :: b :: rest =>
    let n := digitsValue [a, b]
    if a.isDigit && b.isDigit && least ≤ n && n ≤ most then some (n, rest) else none
  | _ => none

def dayPart : Scan Unit := fun cs => do
  let year := cs.take 4
  if year.length ≠ 4 ∨ !year.all Char.isDigit then none
  match cs.drop 4 with
  | '-' :: rest =>
    match ← twoDigits 1 12 rest with
    | (month, '-' :: rest) =>
      let (day, rest) ← twoDigits 1 31 rest
      let _ ← Calendar.Date.ofParts? (digitsValue year) month day
      pure ((), rest)
    | _ => none
  | _ => none

/-- Hours, minutes and seconds, of which there may be 60, and a fraction. -/
def clockPart : Scan Unit := fun cs => do
  let (_, cs) ← twoDigits 0 23 cs
  let ':' :: cs := cs | none
  let (_, cs) ← twoDigits 0 59 cs
  let ':' :: cs := cs | none
  let (_, cs) ← twoDigits 0 60 cs
  match cs with
  | '.' :: rest =>
    let digits := rest.takeWhile Char.isDigit
    if digits = [] then none else pure ((), rest.drop digits.length)
  | _ => pure ((), cs)

/-- Whether the text is a distance from universal time, or nothing. -/
def isOffset : List Char → Bool
  | [] => true
  | ['Z'] | ['z'] => true
  | sign :: rest =>
    (sign == '+' || sign == '-') &&
      match twoDigits 0 23 rest with
      | some (_, ':' :: rest) => (twoDigits 0 59 rest).any fun read => read.2 = []
      | _ => false

/-- Whether the text is a time of day with an optional distance from universal time. -/
def isClock (cs : List Char) : Bool :=
  (clockPart cs).any fun read => isOffset read.2

def isWordChar (c : Char) : Bool :=
  c.isAlphanum || c == '+' || c == '-' || c == '_' || c == '.' || c == ':'

def word? (cs : List Char) : Option Toml :=
  match dayPart cs, clockPart cs with
  | some (_, rest), _ =>
    match rest with
    | [] => some (.moment (String.ofList cs))
    | mark :: clock =>
      if (mark == 'T' || mark == 't') && isClock clock then some (.moment (String.ofList cs))
      else none
  | none, some (_, rest) => if rest = [] then some (.moment (String.ofList cs)) else none
  | none, none =>
    match String.ofList cs with
    | "true" => some (.bool true)
    | "false" => some (.bool false)
    | _ => (float? cs).or (integer? cs)

def scalar : Scan Toml := fun cs =>
  let (word, rest) := cs.span isWordChar
  match dayPart word, rest with
  | some (_, []), ' ' :: more =>
    let (clock, after) := more.span isWordChar
    if isClock clock then some (.moment (String.ofList (word ++ ' ' :: clock)), after)
    else some (.moment (String.ofList word), rest)
  | _, _ => (word? word).map fun v => (v, rest)

end SqlComposer.Toml
