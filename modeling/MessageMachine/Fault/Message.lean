import MessageMachine.Text.Padded
import MessageMachine.World.Describe

namespace MessageMachine

namespace Subject

def text (w : World) : Subject → String
  | selector name => name
  | method m => w.methodText m

end Subject

namespace LiteralKind

def name : LiteralKind → String
  | symbol => "symbol"
  | block => "block"

end LiteralKind

namespace Area

def slotName : Area → String
  | arguments => "argument"
  | locals => "local"

end Area

namespace MissingClass

def text (w : World) : MissingClass → String
  | holder r => "holder of " ++ w.codeText r
  | blocks n => "Block" ++ toString n
  | metaclass c => w.className c ++ " class"

end MissingClass

namespace ReceiverKind

def text : ReceiverKind → String
  | array => "an Array"
  | cls => "a class"
  | integer => "an Integer"
  | double => "a Double"

end ReceiverKind

namespace PrimitiveFailure

def message (w : World) : PrimitiveFailure → String
  | missingArgument n => "missing argument " ++ toString n
  | expectedInteger v => "expected an Integer, got " ++ w.describe v
  | expectedArray v => "expected an Array, got " ++ w.describe v
  | expectedString v => "expected a String, got " ++ w.describe v
  | expectedBlock => "expected a block"
  | indexOutOfBounds i n => "index " ++ toString i.toInt ++ " out of bounds 1.." ++ toString n
  | noFields => "receiver has no fields"
  | notASelector v => w.describe v ++ " is not a selector"
  | wrongArgumentCount s n =>
    "#" ++ s.name ++ " takes " ++ toString (s.arity - 1) ++ " arguments, got " ++ toString n
  | negativeLength n => "negative length " ++ toString n.toInt
  | wrongReceiver k => "receiver is not " ++ k.text
  | notABlock v => w.describe v ++ " is not a block"
  | conditionNotBoolean v => "condition answered " ++ w.describe v ++ ", not a Boolean"
  | cannotCombine a b => "cannot combine " ++ w.describe a ++ " with " ++ w.describe b
  | integerOverflow => "integer overflow"
  | divisionByZero => "division by zero"
  | noIntegerValue x => x.text ++ " has no Integer value"
  | notASymbol v => w.describe v ++ " is not a Symbol"

end PrimitiveFailure

namespace InternalCause

def message (w : World) : InternalCause → String
  | noSlot r area i => w.codeText r ++ " has no " ++ area.slotName ++ " slot " ++ toString i
  | stackPointerOutside => "stack pointer outside the frame"
  | runningWithoutBlock r => w.codeText r ++ " is running without its block"
  | tooManyLiterals s => "#" ++ s ++ " needs more than 256 literals"
  | countOverflow => "attempt to add with overflow"
  | nonLocalReturnEscaped => "non-local return escaped its top-level activation"
  | invalidConfiguration => "invalid configuration: the document does not set what can be set"

end InternalCause

namespace Fault

def message (w : World) : Fault → String
  | invalidOpcode b r i =>
    "invalid opcode " ++ Text.hexByte b ++ " at " ++ w.codeText r ++ "@" ++ toString i
  | bytecodeOverrun r i =>
    "bytecode of " ++ w.codeText r ++ " ends inside the instruction at " ++ toString i
  | stackOverflow s slot limit =>
    "stack overflow in " ++ s.text w ++ ": slot " ++ toString slot
      ++ " exceeds declared maximum " ++ toString limit
  | stackUnderflow r => "stack underflow in " ++ w.codeText r
  | missingLiteral r i => w.codeText r ++ " has no literal at index " ++ toString i
  | literalType r i k =>
    "literal " ++ toString i ++ " of " ++ w.codeText r ++ " is not a " ++ k.name
  | arityMismatch s expected actual =>
    s.text w ++ " expects " ++ toString expected ++ " arguments, got " ++ toString actual
  | missingContext r level =>
    w.codeText r ++ " addresses context level " ++ toString level.toNat
      ++ " beyond its captured chain"
  | fieldAccess v i => "field access " ++ toString i ++ " on " ++ w.describe v ++ " is invalid"
  | unresolvableClass missing => "cannot resolve class: " ++ missing.text w
  | contextLevelMismatch r declared actual =>
    "block " ++ w.codeText r ++ " declares context level " ++ toString declared.toNat
      ++ " but is created at level " ++ toString actual.toNat
  | callDepthExceeded n => "maximum call depth of " ++ toString n ++ " exceeded"
  | reentryDepthExceeded n =>
    "primitives re-entered the interpreter more than " ++ toString n ++ " times"
  | primitiveFailed s cause => "primitive " ++ s ++ " failed: " ++ cause.message w
  | messageNotUnderstood v s => w.describe v ++ " does not understand #" ++ w.nameOrDescription s
  | unknownGlobal v name =>
    "unknown global #" ++ w.nameOrDescription name ++ " referenced from " ++ w.describe v
  | escapedBlock v => "block escaped from its home context in " ++ w.describe v
  | internal cause => "Internal error: " ++ cause.message w

end Fault

end MessageMachine
