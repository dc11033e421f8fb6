import MessageMachine.Double

namespace MessageMachine.Double

/-- The decimal `digits * 10 ^ exponent`. -/
structure Decimal where
  digits : Nat
  exponent : Int
deriving DecidableEq, Repr, Inhabited

/-- A positive number with the interval that rounds to it, all three over one denominator. -/
structure Interval where
  low : Nat
  value : Nat
  high : Nat
  denominator : Nat
  closed : Bool

namespace Interval

/-- The reals that round to a finite positive double. The lower half-gap is narrower where the
exponent changes; the ends belong to it when the significand is even. -/
def ofDouble (x : Double) : Interval :=
  let m := 4 * x.significand
  let below := if x.fraction = 0 && 1 < x.exponentField then 1 else 2
  let closed := x.significand % 2 == 0
  match x.scale - 2 with
  | .ofNat e => ⟨(m - below) <<< e, m <<< e, (m + 2) <<< e, 1, closed⟩
  | .negSucc e => ⟨m - below, m, m + 2, 1 <<< (e + 1), closed⟩

def inUnits (i : Interval) (k : Int) : Interval :=
  match k with
  | .ofNat n => { i with denominator := i.denominator * Nat.pow 10 n }
  | .negSucc n =>
    let u := Nat.pow 10 (n + 1)
    { i with low := i.low * u, value := i.value * u, high := i.high * u }

def contains (i : Interval) (c : Nat) : Bool :=
  let p := c * i.denominator
  if i.closed then i.low ≤ p && p ≤ i.high else i.low < p && p < i.high

/-- The whole number of the interval nearest to its value, the greater of two equally near. -/
def nearest? (i : Interval) : Option Nat :=
  let c := i.value / i.denominator
  let nearer := if i.denominator ≤ 2 * (i.value % i.denominator) then [c + 1, c] else [c, c + 1]
  nearer.find? i.contains

end Interval

def searchGrids (i : Interval) : Nat → Int → Decimal
  | 0, k => ⟨i.value / i.denominator, k⟩
  | fuel + 1, k =>
    match (i.inUnits k).nearest? with
    | some c => ⟨c, k⟩
    | none => searchGrids i fuel (k - 1)

def exponentAbove (x : Double) : Int :=
  (x.significand.log2 + 1 + x.scale) * 30103 / 100000 + 2

/-- Seventeen digits always suffice, and the search starts at most three grids too coarse. -/
def shortest (x : Double) : Decimal := searchGrids (Interval.ofDouble x) 21 x.exponentAbove

def Decimal.positional (d : Decimal) : String :=
  let ds := (toString d.digits).toList
  match d.exponent with
  | .ofNat e => String.ofList (ds ++ List.replicate e '0')
  | .negSucc e =>
    let places := e + 1
    if places < ds.length then
      String.ofList (ds.take (ds.length - places) ++ '.' :: ds.drop (ds.length - places))
    else
      String.ofList ('0' :: '.' :: List.replicate (places - ds.length) '0' ++ ds)

/-- The text of a double: `NaN`, `inf`, or its shortest decimal, with the sign of zero too. -/
def text (x : Double) : String :=
  if x.isNaN then "NaN"
  else
    let sign := if x.isNegative then "-" else ""
    if !x.isFinite then sign ++ "inf"
    else if x.isZero then sign ++ "0"
    else sign ++ x.shortest.positional

end MessageMachine.Double
