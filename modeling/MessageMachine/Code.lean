import MessageMachine.Bytecode.Instruction
import MessageMachine.Value

namespace MessageMachine

/-- A body with the frame that it needs. The signature fixes the number of arguments, and the frame
holds the arguments, the locals and `operandCapacity` operands. No sum of these counts leaves the
machine word. -/
structure Code where
  signature : Symbol
  bytecodes : Array UInt8
  literals : Array Value
  localCount : Nat
  operandCapacity : Nat
  /-- Zero for methods, the depth of nesting for blocks. -/
  level : UInt8
  fits : signature.arity + localCount + operandCapacity < UInt64.size

instance : Inhabited Code where
  default := {
    signature := default, bytecodes := #[], literals := #[], localCount := 0, operandCapacity := 0
    level := 0, fits := by decide }

namespace Code

/-- Number of arguments, the receiver (or the block itself) included. -/
def argCount (c : Code) : Nat := c.signature.arity

def baseline (c : Code) : Nat := c.argCount + c.localCount

def maxStack (c : Code) : Nat := c.baseline + c.operandCapacity

def isBlock (c : Code) : Bool := 0 < c.level

def sendSites (c : Code) : List Nat := sendOffsets 0 c.bytecodes.toList

theorem maxStack_lt (c : Code) : c.maxStack < UInt64.size := c.fits

theorem argCount_pos (c : Code) : 0 < c.argCount := c.signature.arity_pos

end Code

end MessageMachine
