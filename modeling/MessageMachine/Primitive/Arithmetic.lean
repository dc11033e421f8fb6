import MessageMachine.Fault

namespace MessageMachine

inductive Operands where
  | integers (a b : Int64)
  | doubles (a b : Double)

namespace Arithmetic

def toDouble (n : Int64) : Double := .ofInt n.toInt

def operands (selector : String) (left right : Value) : Except Fault Operands :=
  match left, right with
  | .integer a, .integer b => .ok (.integers a b)
  | .integer a, .double b => .ok (.doubles (toDouble a) b)
  | .double a, .integer b => .ok (.doubles a (toDouble b))
  | .double a, .double b => .ok (.doubles a b)
  | _, _ => .error (.primitiveFailed selector (.cannotCombine left right))

def fit? (n : Int) : Option Int64 :=
  if -0x8000000000000000 ≤ n ∧ n < 0x8000000000000000 then some (.ofInt n) else none

def checked (selector : String) : Option Int64 → Except Fault Value
  | some n => .ok (.integer n)
  | none => .error (.primitiveFailed selector .integerOverflow)

def arithmetic (selector : String) (integers : Int → Int → Int)
    (doubles : Double → Double → Double) (left right : Value) : Except Fault Value := do
  match ← operands selector left right with
  | .integers a b => checked selector (fit? (integers a.toInt b.toInt))
  | .doubles a b => return .double (doubles a b)

def quotientFits (a b : Int64) : Bool := b != 0 && !(a == .minValue && b == -1)

def quotient? (a b : Int64) : Option Int64 := if quotientFits a b then some (a / b) else none

/-- The remainder that goes with this quotient; there is none where the quotient does not fit. -/
def remainder? (a b : Int64) : Option Int64 := if quotientFits a b then some (a % b) else none

def signsDiffer (a b : Int64) : Bool := decide (a < 0) != decide (b < 0)

def floorQuotient? (a b : Int64) : Option Int64 :=
  (quotient? a b).map fun q => if a % b != 0 && signsDiffer a b then q - 1 else q

/-- The remainder that goes with the quotient rounded down; it has the sign of the divisor. -/
def floorRemainder? (a b : Int64) : Option Int64 :=
  (remainder? a b).map fun r => if r != 0 && signsDiffer r b then r + b else r

def floorDivide (left right : Value) : Except Fault Value := do
  match ← operands "/" left right with
  | .integers a b =>
    if b = 0 then throw (.primitiveFailed "/" .divisionByZero)
    else checked "/" (floorQuotient? a b)
  | .doubles a b => return .double (a.div b).floor

/-- Division in Double; the text of a failure tells which of its two selectors was sent. -/
def divide (left right : Value) : Except Fault Value := do
  let selector := if left.double?.isSome then "/" else "//"
  match ← operands selector left right with
  | .integers a b => return .double ((toDouble a).div (toDouble b))
  | .doubles a b => return .double (a.div b)

def modulo (a b : Int64) : Except Fault Value :=
  if b = 0 then .error (.primitiveFailed "\\\\" .divisionByZero)
  else checked "\\\\" (floorRemainder? a b)

def compare (selector : String) (integers : Int64 → Int64 → Bool)
    (doubles : Double → Double → Bool) (left right : Value) : Except Fault Value := do
  match ← operands selector left right with
  | .integers a b => return .boolean (integers a b)
  | .doubles a b => return .boolean (doubles a b)

def equal (left right : Value) : Except Fault Value :=
  match right with
  | .integer _ | .double _ => compare "=" (· == ·) Double.eq left right
  | _ => .ok (.boolean false)

def notEqual (left right : Value) : Except Fault Value := do
  return .boolean ((← equal left right) = .boolean false)

def asInteger (x : Double) : Except Fault Value :=
  match x.truncate?.bind fit? with
  | some n => .ok (.integer n)
  | none => .error (.primitiveFailed "asInteger" (.noIntegerValue x))

end Arithmetic

end MessageMachine
