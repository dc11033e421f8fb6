import MessageMachine.Primitive.Arithmetic
import MessageMachine.World.Describe

namespace MessageMachine

namespace Argument

def any (selector : String) (args : List Value) (position : Nat) : Except Fault Value :=
  match args[position]? with
  | some v => .ok v
  | none => .error (.primitiveFailed selector (.missingArgument (position + 1)))

def integer (selector : String) (args : List Value) (position : Nat) : Except Fault Int64 := do
  match ← any selector args position with
  | .integer n => return n
  | v => throw (.primitiveFailed selector (.expectedInteger v))

def symbol (selector : String) (args : List Value) (position : Nat) : Except Fault Symbol := do
  match ← any selector args position with
  | .symbol s => return s
  | v => throw (.primitiveFailed selector (.notASymbol v))

/-- The position, counted from zero, that a program means by `index`, counted from one. -/
def position (selector : String) (index : Int64) (size : Nat) : Except Fault Nat :=
  if 1 ≤ index.toInt ∧ index.toInt ≤ size then .ok (index.toInt.toNat - 1)
  else .error (.primitiveFailed selector (.indexOutOfBounds index size))

end Argument

namespace Receiver

def fail (selector : String) (expected : ReceiverKind) : Except Fault α :=
  .error (.primitiveFailed selector (.wrongReceiver expected))

def array (selector : String) : Value → Except Fault ArrayRef
  | .array r => .ok r
  | _ => fail selector .array

def cls (selector : String) : Value → Except Fault ClassRef
  | .cls c => .ok c
  | _ => fail selector .cls

def integer (selector : String) : Value → Except Fault Int64
  | .integer n => .ok n
  | _ => fail selector .integer

def double (selector : String) : Value → Except Fault Double
  | .double x => .ok x
  | _ => fail selector .double

def object (selector : String) : Value → Except Fault ObjectRef
  | .object r => .ok r
  | _ => .error (.primitiveFailed selector .noFields)

end Receiver

def textOf (selector : String) : Value → Except Fault String
  | .string _ s => .ok s
  | .symbol s => .ok s.name
  | v => .error (.primitiveFailed selector (.expectedString v))

def World.printed (w : World) : Value → String
  | .string _ s => s
  | v => w.nameOrDescription v

namespace AtomicOperation

open Argument

def run (op : AtomicOperation) (receiver : Value) (args : List Value) : Action Value :=
  let newString (s : String) : Action Value := Action.update (·.newString s)
  let binary (selector : String) (f : Value → Value → Except Fault Value) : Action Value :=
    liftM (do f receiver (← any selector args 0) : Except Fault Value)
  match op with
  | identical => binary "==" fun a b => .ok (.boolean (a.identical b))
  | classOf => do return .cls ((← get).classOf receiver)
  | describe => do newString ((← get).describe receiver)
  | fieldAt => do
    let selector := "instVarAt:"
    let index ← integer selector args 0
    let r ← Receiver.object selector receiver
    let w ← get
    let i ← position selector index (w.objects.get r).fields.size
    return (w.field? r i).getD .nil
  | fieldAtPut => do
    let selector := "instVarAt:put:"
    let index ← integer selector args 0
    let v ← any selector args 1
    let r ← Receiver.object selector receiver
    let i ← position selector index ((← get).objects.get r).fields.size
    modify fun w => (w.setField? r i v).getD w
    return v
  | failNotUnderstood => do
    let selector ← any "doesNotUnderstand:arguments:" args 0
    throw (.messageNotUnderstood receiver selector)
  | failUnknownGlobal => do
    let name ← any "unknownGlobal:" args 0
    throw (.unknownGlobal receiver name)
  | failEscapedBlock => throw (.escapedBlock receiver)
  | newInstance => do
    let c ← Receiver.cls "new" receiver
    Action.update (·.newInstance c)
  | className => do
    let c ← Receiver.cls "name" receiver
    return .symbol ((← get).cls c).name
  | superclass => do
    let c ← Receiver.cls "superclass" receiver
    return (((← get).cls c).superclass.map Value.cls).getD .nil
  | add => binary "+" (Arithmetic.arithmetic "+" (· + ·) Double.add)
  | subtract => binary "-" (Arithmetic.arithmetic "-" (· - ·) Double.sub)
  | multiply => binary "*" (Arithmetic.arithmetic "*" (· * ·) Double.mul)
  | floorDivide => binary "/" Arithmetic.floorDivide
  | divide => binary (if receiver.double?.isSome then "/" else "//") Arithmetic.divide
  | modulo => do
    let selector := "\\\\"
    let a ← Receiver.integer selector receiver
    let b ← integer selector args 0
    Arithmetic.modulo a b
  | less => binary "<" (Arithmetic.compare "<" (· < ·) Double.lt)
  | greater => binary ">" (Arithmetic.compare ">" (· > ·) fun a b => Double.lt b a)
  | lessEqual => binary "<=" (Arithmetic.compare "<=" (· ≤ ·) Double.le)
  | greaterEqual => binary ">=" (Arithmetic.compare ">=" (· ≥ ·) fun a b => Double.le b a)
  | numericEqual => binary "=" Arithmetic.equal
  | numericNotEqual => binary "=" Arithmetic.notEqual
  | asDouble => do return .double (Arithmetic.toDouble (← Receiver.integer "asDouble" receiver))
  | asInteger => do Arithmetic.asInteger (← Receiver.double "asInteger" receiver)
  | newArray => do
    let length ← integer "new:" args 0
    if length < 0 then throw (.primitiveFailed "new:" (.negativeLength length))
    else Action.update (·.newArray (Array.replicate length.toInt.toNat .nil))
  | arrayAt => do
    let r ← Receiver.array "at:" receiver
    let index ← integer "at:" args 0
    let elements := (← get).arrays.get r
    return elements.getD (← position "at:" index elements.size) .nil
  | arrayAtPut => do
    let r ← Receiver.array "at:put:" receiver
    let index ← integer "at:put:" args 0
    let v ← any "at:put:" args 1
    let i ← position "at:put:" index ((← get).arrays.get r).size
    modify fun w => { w with arrays := w.arrays.modify r (·.setIfInBounds i v) }
    return v
  | arrayLength => do
    let r ← Receiver.array "length" receiver
    return .integer (.ofNat ((← get).arrays.get r).size)
  | stringLength => do return .integer (.ofNat (← textOf "length" receiver).length)
  | stringEqual => binary "=" fun a b => .ok (.boolean (
      match a, b with
      | .string _ s, .string _ t => s == t
      | a, b => a.identical b))
  | concatenate => do
    let s ← textOf "," receiver
    let t ← textOf "," (← any "," args 0)
    newString (s ++ t)
  | asSymbol => do
    let s ← textOf "asSymbol" receiver
    return .symbol (← Action.update (·.intern s))
  | asString => do newString (← textOf "asString" receiver)
  | globalAt => do
    let name ← symbol "global:" args 0
    return ((← get).global? name).getD .nil
  | globalAtPut => do
    let v ← any "global:put:" args 1
    let name ← symbol "global:put:" args 0
    modify (·.setGlobal name v)
    return v
  | printText => do
    let v ← any "printString:" args 0
    modify fun w => w.print (w.printed v)
    return receiver
  | printNewline => do
    modify (·.print "\n")
    return receiver

end AtomicOperation

end MessageMachine
