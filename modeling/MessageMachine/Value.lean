import MessageMachine.Arena
import MessageMachine.Double
import MessageMachine.Symbol

namespace MessageMachine

inductive Method where
  | compiled (code : CodeRef)
  | primitive (ref : PrimitiveRef)
deriving DecidableEq, Repr

structure Block where
  serial : Nat
  code : CodeRef
  context : FrameRef
  level : UInt8
deriving DecidableEq, Repr

/-- Numbers, booleans and nil are immediate. Everything else carries a reference or a serial number, so
that two values are the same object exactly when they are equal. -/
inductive Value where
  | nil
  | boolean (b : Bool)
  | integer (n : Int64)
  | double (x : Double)
  | string (serial : Nat) (text : String)
  | symbol (s : Symbol)
  | array (r : ArrayRef)
  | object (r : ObjectRef)
  | cls (r : ClassRef)
  | block (b : Block)
  | method (m : Method)
deriving DecidableEq

namespace Value

instance : Inhabited Value := ⟨nil⟩

/-- Identity: equal numbers by their bits, anything with identity by that. -/
def identical (a b : Value) : Bool := decide (a = b)

/-- Equality: doubles numerically, strings by content, everything else by identity. -/
def equal : Value → Value → Bool
  | double x, double y => x.eq y
  | string _ s, string _ t => s == t
  | a, b => a.identical b

def integer? : Value → Option Int64
  | integer n => some n
  | _ => none

def double? : Value → Option Double
  | double x => some x
  | _ => none

def block? : Value → Option Block
  | block b => some b
  | _ => none

def object? : Value → Option ObjectRef
  | object r => some r
  | _ => none

def class? : Value → Option ClassRef
  | cls c => some c
  | _ => none

end Value

end MessageMachine
