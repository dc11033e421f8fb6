namespace MessageMachine

/-- A double-precision number: sign bit, eleven exponent bits, fifty-two fraction bits. -/
structure Double where
  bits : UInt64
deriving DecidableEq, Repr, Inhabited

namespace Double

def isNegative (x : Double) : Bool := 0x8000000000000000 ≤ x.bits

def exponentField (x : Double) : Nat := (x.bits.toNat >>> 52) % (1 <<< 11)

def fraction (x : Double) : Nat := x.bits.toNat % (1 <<< 52)

def isFinite (x : Double) : Bool := x.exponentField != 2047

def isNaN (x : Double) : Bool := !x.isFinite && x.fraction != 0

/-- The magnitude of a finite double is `significand * 2 ^ scale`. -/
def significand (x : Double) : Nat :=
  if x.exponentField = 0 then x.fraction else (1 <<< 52) + x.fraction

def scale (x : Double) : Int := (max x.exponentField 1 : Nat) - 1075

def isZero (x : Double) : Bool := x.significand == 0

def magnitude (x : Double) : Nat := x.bits.toNat % (1 <<< 63)

def ofMagnitude (negative : Bool) (magnitude : Nat) : Double :=
  ⟨UInt64.ofNat (if negative then (1 <<< 63) + magnitude else magnitude)⟩

def infinity (negative : Bool) : Double := ofMagnitude negative 0x7ff0000000000000

def undefinedResult : Double := ⟨0xfff8000000000000⟩

def quiet (x : Double) : Double := ⟨x.bits ||| 0x0008000000000000⟩

def negate (x : Double) : Double := ⟨x.bits ^^^ 0x8000000000000000⟩

def roundQuotient (m n : Nat) : Nat :=
  let q := m / n
  let twice := 2 * (m % n)
  if n < twice || (twice == n && q % 2 == 1) then q + 1 else q

def quotientLog2 (m n : Nat) : Int :=
  let k : Int := m.log2 - n.log2
  if m <<< (-k).toNat < n <<< k.toNat then k - 1 else k

/-- The double nearest to `m / n`, of two equally near the one with an even significand. A
significand that is rounded up to a power of two carries into the exponent. -/
def ofQuotient (negative : Bool) (m n : Nat) : Double :=
  if m = 0 then ofMagnitude negative 0
  else
    let scale := max (quotientLog2 m n - 52) (-1074)
    let significand := roundQuotient (m <<< (-scale).toNat) (n <<< scale.toNat)
    ofMagnitude negative (min ((scale + 1074).toNat <<< 52 + significand) 0x7ff0000000000000)

def ofInt (n : Int) : Double := ofQuotient (n < 0) n.natAbs 1

def inUnits (x : Double) (s : Int) : Int :=
  let m : Int := (x.significand <<< (x.scale - s).toNat : Nat)
  if x.isNegative then -m else m

def addNumbers (x y : Double) : Double :=
  if x.isFinite && y.isFinite then
    let s := min x.scale y.scale
    let sum := x.inUnits s + y.inUnits s
    let negative := if sum = 0 then x.isNegative && y.isNegative else sum < 0
    ofQuotient negative (sum.natAbs <<< s.toNat) (1 <<< (-s).toNat)
  else if x.isFinite then y
  else if y.isFinite || x.isNegative == y.isNegative then x
  else undefinedResult

def mulNumbers (x y : Double) : Double :=
  let negative := x.isNegative != y.isNegative
  if x.isFinite && y.isFinite then
    let s := x.scale + y.scale
    ofQuotient negative ((x.significand * y.significand) <<< s.toNat) (1 <<< (-s).toNat)
  else if x.isZero || y.isZero then undefinedResult
  else infinity negative

def divNumbers (x y : Double) : Double :=
  let negative := x.isNegative != y.isNegative
  if x.isFinite && y.isFinite then
    if y.isZero then if x.isZero then undefinedResult else infinity negative
    else
      let s := x.scale - y.scale
      ofQuotient negative (x.significand <<< s.toNat) (y.significand <<< (-s).toNat)
  else if x.isFinite then ofMagnitude negative 0
  else if y.isFinite then infinity negative
  else undefinedResult

/-- A NaN operand is the result, the left one first; otherwise it is that of `op` on two numbers. -/
def combine (op : Double → Double → Double) (x y : Double) : Double :=
  if x.isNaN then x.quiet
  else if y.isNaN then y.quiet
  else op x y

def add : Double → Double → Double := combine addNumbers

def sub : Double → Double → Double := combine fun x y => x.addNumbers y.negate

def mul : Double → Double → Double := combine mulNumbers

def div : Double → Double → Double := combine divNumbers

/-- A number's place in the order of all numbers, which the two zeros share. -/
def rank (x : Double) : Int := if x.isNegative then -(x.magnitude : Int) else x.magnitude

def areNumbers (x y : Double) : Bool := !x.isNaN && !y.isNaN

def eq (x y : Double) : Bool := areNumbers x y && x.rank == y.rank

def lt (x y : Double) : Bool := areNumbers x y && x.rank < y.rank

def le (x y : Double) : Bool := areNumbers x y && x.rank ≤ y.rank

def wholePart (x : Double) : Nat :=
  match x.scale with
  | .ofNat e => x.significand <<< e
  | .negSucc e => x.significand >>> (e + 1)

def isWhole (x : Double) : Bool :=
  match x.scale with
  | .ofNat _ => true
  | .negSucc e => x.significand % (1 <<< (e + 1)) == 0

def truncate? (x : Double) : Option Int :=
  if x.isFinite then some (if x.isNegative then -(x.wholePart : Int) else x.wholePart) else none

/-- The greatest integer that is not above `x`; what is whole already keeps its sign of zero. -/
def floor (x : Double) : Double :=
  if x.isNaN then x.quiet
  else if !x.isFinite || x.isWhole then x
  else ofInt (if x.isNegative then -((x.wholePart : Int) + 1) else x.wholePart)

end Double

end MessageMachine
