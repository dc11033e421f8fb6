import MessageMachine.Bytecode.Instruction
import MessageMachine.Value

namespace MessageMachine

inductive Subject where
  | selector (name : String)
  | method (m : Method)
deriving DecidableEq

inductive LiteralKind where
  | symbol | block
deriving DecidableEq, Repr

inductive MissingClass where
  | holder (code : CodeRef)
  | blocks (argCount : Nat)
  | metaclass (cls : ClassRef)
deriving DecidableEq

inductive ReceiverKind where
  | array | cls | integer | double
deriving DecidableEq, Repr

inductive PrimitiveFailure where
  /-- Arguments are counted from one. -/
  | missingArgument (position : Nat)
  | expectedInteger (actual : Value)
  | expectedArray (actual : Value)
  | expectedString (actual : Value)
  | expectedBlock
  | indexOutOfBounds (index : Int64) (size : Nat)
  | noFields
  | notASelector (actual : Value)
  | wrongArgumentCount (selector : Symbol) (actual : Nat)
  | negativeLength (length : Int64)
  | wrongReceiver (expected : ReceiverKind)
  | notABlock (actual : Value)
  | conditionNotBoolean (actual : Value)
  | cannotCombine (left right : Value)
  | integerOverflow
  | divisionByZero
  | noIntegerValue (x : Double)
  | notASymbol (actual : Value)
deriving DecidableEq

/-- A state that should not arise, or a request that cannot be met at all. -/
inductive InternalCause where
  | noSlot (method : CodeRef) (area : Area) (index : Nat)
  | stackPointerOutside
  | runningWithoutBlock (method : CodeRef)
  | tooManyLiterals (signature : String)
  /-- A sum of counts of a body leaves the machine word. This is no answer of the program: built with
  overflow checks it stops here, built without them it goes on with the remainder. -/
  | countOverflow
  | nonLocalReturnEscaped
  | invalidConfiguration
deriving DecidableEq

inductive Fault where
  | invalidOpcode (byte : UInt8) (method : CodeRef) (offset : Nat)
  | bytecodeOverrun (method : CodeRef) (offset : Nat)
  | stackOverflow (subject : Subject) (slot limit : Nat)
  | stackUnderflow (method : CodeRef)
  | missingLiteral (method : CodeRef) (index : Nat)
  | literalType (method : CodeRef) (index : Nat) (expected : LiteralKind)
  | arityMismatch (subject : Subject) (expected actual : Nat)
  | missingContext (method : CodeRef) (level : UInt8)
  | fieldAccess (receiver : Value) (index : Nat)
  | unresolvableClass (missing : MissingClass)
  | contextLevelMismatch (method : CodeRef) (declared actual : UInt8)
  | callDepthExceeded (limit : Nat)
  | reentryDepthExceeded (limit : Nat)
  | primitiveFailed (selector : String) (cause : PrimitiveFailure)
  /-- The failed selector is whatever value the default handler was given for it. -/
  | messageNotUnderstood (receiver selector : Value)
  | unknownGlobal (receiver name : Value)
  | escapedBlock (receiver : Value)
  | internal (cause : InternalCause)
deriving DecidableEq

namespace Fault

def isUnhandledCondition : Fault → Bool
  | messageNotUnderstood _ _ | unknownGlobal _ _ | escapedBlock _ => true
  | _ => false

end Fault

end MessageMachine
