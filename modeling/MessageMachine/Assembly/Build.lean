import MessageMachine.Assembly.Emission
import MessageMachine.World

namespace MessageMachine

structure Layout where
  signature : Symbol
  bytecodes : Array UInt8
  literals : Array Value
  argCount : Nat
  localCount : Nat
  maxStack : Nat
  level : UInt8

namespace Layout

/-- Whether the counts, and the sum of arguments and locals, are machine words. -/
def Fits (l : Layout) : Prop :=
  l.argCount + l.localCount < UInt64.size ∧ l.maxStack < UInt64.size

instance (l : Layout) : Decidable l.Fits :=
  inferInstanceAs (Decidable (_ ∧ _))

/-- Accepts a layout whose counts fit its signature and each other. -/
def code? (l : Layout) : Except Fault Code :=
  let subject := Subject.selector l.signature.name
  if hargs : l.argCount ≠ l.signature.arity then
    .error (.arityMismatch subject l.signature.arity l.argCount)
  else if hfits : ¬ l.Fits then
    .error (.internal .countOverflow)
  else if hroom : l.maxStack < l.argCount + l.localCount then
    .error (.stackOverflow subject (l.argCount + l.localCount) l.maxStack)
  else
    .ok {
      signature := l.signature
      bytecodes := l.bytecodes
      literals := l.literals
      localCount := l.localCount
      operandCapacity := l.maxStack - (l.argCount + l.localCount)
      level := l.level
      fits := by
        have hmax := (Decidable.not_not.mp hfits).2
        omega }

def compile (l : Layout) : Action CodeRef := do
  Action.update (·.newCode (← l.code?))

end Layout

namespace LiteralSource

def value (blocks : Array CodeRef) : LiteralSource → Action Value
  | constant v => return v
  | symbol name => return .symbol (← Action.update (·.intern name))
  | block n => return .method (.compiled (blocks.getD n default))

end LiteralSource

def nestedLevel (level : UInt8) : UInt8 := if level = 255 then 255 else level + 1

mutual

/-- Builds a body and, before it, the blocks nested in it. `outerLevel` is the level that the body
gets if it does not set its own. -/
def Source.build (s : Source) (outerLevel : UInt8) : Action CodeRef :=
  match s with
  | .mk _ signature localCount level? maxStack? code => do
    let level := level?.getD outerLevel
    let e := Emission.items code
    let argCount := selectorArity signature
    let size := argCount + localCount + e.maxDepth
    -- The sum is formed even if the source sets its stack itself.
    if UInt64.size ≤ size then throw (.internal .countOverflow)
    if e.tooManyLiterals then throw (.internal (.tooManyLiterals signature))
    let blocks ← buildBlocks (nestedLevel level) code
    let literals ← e.literals.mapM (·.value blocks.toArray)
    let signature ← Action.update (·.intern signature)
    Layout.compile {
      signature, literals, argCount, localCount, level
      bytecodes := e.bytes
      maxStack := maxStack?.getD size }

def buildBlocks (level : UInt8) (code : List SourceItem) : Action (List CodeRef) :=
  match code with
  | [] => return []
  | item :: rest => do
    let here ← buildBlock level item
    return here ++ (← buildBlocks level rest)

def buildBlock (level : UInt8) (item : SourceItem) : Action (List CodeRef) :=
  match item with
  | .pushBlock s => do return [← s.build level]
  | _ => return []

end

def Source.compile (s : Source) : Action CodeRef := s.build s.ownLevel

end MessageMachine
