/-!
# The shortest decimal of a double

A positive double stands for every real that rounds to it. `shortest` picks, among the decimals
in that interval, one with the fewest digits and of those the nearest to the double. The
arithmetic is exact: both ends of the interval, the double and the decimal grid are written as
multiples of one common unit.
-/
namespace SqlComposer.Decimal

/-- Which of two equally near decimals is taken. -/
inductive Tie where
  | toEven
  | awayFromZero
  deriving DecidableEq, Repr

/-- The decimal `digits * 10 ^ exponent`. -/
structure Scaled where
  digits : Nat
  exponent : Int
  deriving DecidableEq, Repr

/-- The positive double `significand * 2 ^ exponent`. Just above a power of two the neighbour
below is twice as near as the neighbour above. -/
structure Double where
  significand : Nat
  exponent : Int
  nearBelow : Bool
  deriving DecidableEq, Repr

/-- Read the bits of a finite double, without regard to its sign. -/
def Double.ofBits (bits : UInt64) : Double :=
  let field := ((bits >>> 52) &&& 0x7FF).toNat
  let fraction := (bits &&& 0xFFFFFFFFFFFFF).toNat
  if field = 0 then ⟨fraction, -1074, false⟩
  else ⟨1 <<< 52 + fraction, (field : Int) - 1075, fraction = 0 && field > 1⟩

/-- The reals that round to a double, the double itself and one step of a decimal grid, all as
multiples of the same unit. The ends belong to the interval iff the significand is even. -/
structure Interval where
  low : Nat
  middle : Nat
  high : Nat
  step : Nat
  closed : Bool

def Double.interval (x : Double) (grid : Int) : Interval :=
  let scale := Nat.pow 10 (-grid).toNat <<< (x.exponent - 2).toNat
  let below := if x.nearBelow then 1 else 2
  { low := (4 * x.significand - below) * scale
    middle := 4 * x.significand * scale
    high := (4 * x.significand + 2) * scale
    step := Nat.pow 10 grid.toNat <<< (2 - x.exponent).toNat
    closed := x.significand % 2 = 0 }

def Interval.holds (i : Interval) (point : Nat) : Bool :=
  if i.closed then i.low ≤ point && point ≤ i.high else i.low < point && point < i.high

/-- The multiple of the step in the interval that is nearest to the middle. -/
def Interval.nearest? (i : Interval) (tie : Tie) : Option Nat :=
  let lower := i.middle / i.step
  let upper := lower + 1
  match i.holds (lower * i.step), i.holds (upper * i.step) with
  | true, false => some lower
  | false, true => some upper
  | false, false => none
  | true, true =>
    match compare (2 * i.middle) ((lower + upper) * i.step), tie with
    | .lt, _ => some lower
    | .gt, _ => some upper
    | .eq, .awayFromZero => some upper
    | .eq, .toEven => some (if lower % 2 = 0 then lower else upper)

/-- The least `k` with `x < 10 ^ k`, found beside an estimate from the binary logarithm. -/
def Double.magnitude (x : Double) : Int :=
  let estimate := ((x.significand.log2 : Int) + x.exponent) * 1233 / 4096
  let isBelow (k : Int) : Bool :=
    let i := x.interval k
    i.middle < i.step
  ([estimate - 1, estimate, estimate + 1].find? isBelow).getD (estimate + 2)

def Double.exact (x : Double) : Scaled :=
  if x.exponent < 0 then ⟨x.significand * Nat.pow 5 x.exponent.natAbs, x.exponent⟩
  else ⟨x.significand <<< x.exponent.toNat, 0⟩

/-- Move trailing zeros of the digits into the exponent, at most `fuel` of them. -/
def Scaled.stripped : Nat → Scaled → Scaled
  | 0, d => d
  | fuel + 1, d =>
    if d.digits ≠ 0 ∧ d.digits % 10 = 0 then stripped fuel ⟨d.digits / 10, d.exponent + 1⟩ else d

/-- The fewest digits that read back, at most seventeen; the exact value stands behind them. -/
def Double.shortest (x : Double) (tie : Tie) : Scaled :=
  let k := x.magnitude
  let found := (List.range 17).findSome? fun (n : Nat) =>
    let grid := k - 1 - n
    ((x.interval grid).nearest? tie).map fun digits => (⟨digits, grid⟩ : Scaled)
  (found.getD x.exact).stripped 1100

end SqlComposer.Decimal
