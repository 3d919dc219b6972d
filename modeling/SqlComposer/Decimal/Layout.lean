import SqlComposer.Decimal.Shortest

/-!
# How a double is written

The digits come from `Double.shortest`; a `Layout` says how they are set out.
-/
namespace SqlComposer.Decimal

/-- The decisions of one output format for doubles. -/
structure Layout where
  /-- whether a number whose leading digit stands for this power of ten is written without
  an exponent -/
  plain : Int → Bool
  /-- whether a whole number keeps a `.0` -/
  wholePoint : Bool
  tie : Tie
  nan : String
  infinity : String
  negativeInfinity : String

def zeros (n : Nat) : String :=
  String.ofList (List.replicate n '0')

/-- Without an exponent: the point stands after, inside or before the digits. -/
def Layout.positional (l : Layout) (digits : List Char) (leading : Int) : String :=
  if leading < 0 then "0." ++ zeros (leading.natAbs - 1) ++ String.ofList digits
  else
    let places := leading.toNat + 1
    if digits.length ≤ places then
      String.ofList digits ++ zeros (places - digits.length) ++ (if l.wholePoint then ".0" else "")
    else String.ofList (digits.take places) ++ "." ++ String.ofList (digits.drop places)

/-- With an exponent: one digit before the point, a sign on every exponent. -/
def scientific (digits : List Char) (leading : Int) : String :=
  let mantissa :=
    match digits with
    | [] => ""
    | [d] => String.ofList [d]
    | d :: rest => String.ofList (d :: '.' :: rest)
  let sign := if leading < 0 then "-" else "+"
  mantissa ++ "e" ++ sign ++ toString leading.natAbs

def Layout.magnitude (l : Layout) (bits : UInt64) : String :=
  let x := Double.ofBits bits
  if x.significand = 0 then l.positional ['0'] 0
  else
    let d := x.shortest l.tie
    let digits := Nat.toDigits 10 d.digits
    let leading := d.exponent + (digits.length : Int) - 1
    if l.plain leading then l.positional digits leading else scientific digits leading

def Layout.write (l : Layout) (x : Float) : String :=
  let bits := x.toBits
  let negative := bits >>> 63 == 1
  if x.isNaN then l.nan
  else if x.isInf then (if negative then l.negativeInfinity else l.infinity)
  else (if negative then "-" else "") ++ l.magnitude bits

end SqlComposer.Decimal
