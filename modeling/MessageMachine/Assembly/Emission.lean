import MessageMachine.Assembly.Source

namespace MessageMachine

inductive LiteralSource where
  | constant (v : Value)
  | symbol (name : String)
  | block (number : Nat)
deriving DecidableEq

namespace LiteralSource

/-- Whether equal literals of this form may share a place: names, and the constants that have no
identity beyond their value. -/
def isShared : LiteralSource → Bool
  | constant .nil | constant (.boolean _) | constant (.integer _) => true
  | symbol _ => true
  | _ => false

end LiteralSource

structure Emission where
  bytes : Array UInt8
  literals : Array LiteralSource
  blockCount : Nat
  depth : Nat
  maxDepth : Nat
  /-- Whether some literal got a place that no operand can name. -/
  tooManyLiterals : Bool

namespace Emission

def start : Emission := ⟨#[], #[], 0, 0, 0, false⟩

def emit (e : Emission) (i : Instruction) (pops pushes : Nat) : Emission :=
  let depth := e.depth - pops + pushes
  { e with bytes := e.bytes ++ i.encode, depth, maxDepth := max e.maxDepth depth }

/-- The place of a literal, shared with an equal one where that is allowed. -/
def place (e : Emission) (l : LiteralSource) : Nat × Emission :=
  match if l.isShared then e.literals.toList.idxOf? l else none with
  | some i => (i, e)
  | none => (e.literals.size, { e with literals := e.literals.push l })

def emitLiteral (e : Emission) (l : LiteralSource) (i : UInt8 → Instruction) (pops : Nat) :
    Emission :=
  let (n, e) := e.place l
  if n < 256 then e.emit (i (UInt8.ofNat n)) pops 1
  else { e.emit (i 0) pops 1 with tooManyLiterals := true }

def item (e : Emission) : SourceItem → Emission
  | .halt => e.emit .halt 0 0
  | .dup => e.emit .dup 0 1
  | .pop => e.emit .pop 1 0
  | .returnLocal => e.emit .returnLocal 1 0
  | .returnNonLocal => e.emit .returnNonLocal 1 0
  | .pushSlot area index level => e.emit (.pushSlot area index level) 0 1
  | .popSlot area index level => e.emit (.popSlot area index level) 1 0
  | .pushField index => e.emit (.pushField index) 0 1
  | .popField index => e.emit (.popField index) 1 0
  | .pushBlock _ =>
    { e.emitLiteral (.block e.blockCount) .pushBlock 0 with blockCount := e.blockCount + 1 }
  | .pushConstant v => e.emitLiteral (.constant v) .pushConstant 0
  | .pushSymbol name => e.emitLiteral (.symbol name) .pushConstant 0
  | .pushGlobal name => e.emitLiteral (.symbol name) .pushGlobal 0
  | .send selector => e.emitLiteral (.symbol selector) .send (selectorArity selector)
  | .superSend selector => e.emitLiteral (.symbol selector) .superSend (selectorArity selector)
  | .raw bytes => { e with bytes := e.bytes ++ bytes }

def items (code : List SourceItem) : Emission := code.foldl item start

end Emission

end MessageMachine
