import SqlComposer.Text

/-!
# Reading a double

A sign, digits with at most one point among or beside them and an exponent; or, in any case,
`nan`, `inf` and `infinity`. The double nearest to the decimal is taken.
-/
namespace SqlComposer.Decimal

open Text (digitsValue)

/-- An exponent at the end of the text; without one it is zero. -/
def exponent? : List Char → Option Int
  | [] => some 0
  | e :: rest =>
    if e ≠ 'e' ∧ e ≠ 'E' then none
    else
      let (negative, digits) :=
        match rest with
        | '-' :: more => (true, more)
        | '+' :: more => (false, more)
        | _ => (false, rest)
      if digits = [] ∨ !digits.all Char.isDigit then none
      else some (if negative then -(digitsValue digits : Int) else digitsValue digits)

/-- The double nearest to `digits * 10 ^ exponent`. -/
def nearest (digits : Nat) (exponent : Int) : Float :=
  if digits = 0 then 0
  else Float.ofScientific digits (exponent < 0) (min exponent.natAbs 100000)

def unsigned? (cs : List Char) : Option Float :=
  let whole := cs.takeWhile Char.isDigit
  let rest := cs.drop whole.length
  let (fraction, rest) :=
    match rest with
    | '.' :: more => (more.takeWhile Char.isDigit, more.dropWhile Char.isDigit)
    | _ => ([], rest)
  if whole = [] ∧ fraction = [] then none
  else (exponent? rest).map fun e =>
    nearest (digitsValue (whole ++ fraction)) (e - fraction.length)

def magnitude? (cs : List Char) : Option Float :=
  match Text.lowered (String.ofList cs) with
  | "inf" | "infinity" => some (1.0 / 0.0)
  | "nan" => some (0.0 / 0.0)
  | _ => unsigned? cs

def read? (s : String) : Option Float :=
  match s.toList with
  | '-' :: rest => (magnitude? rest).map fun x => -x
  | '+' :: rest => magnitude? rest
  | cs => magnitude? cs

end SqlComposer.Decimal
