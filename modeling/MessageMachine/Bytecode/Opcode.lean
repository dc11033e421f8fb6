namespace MessageMachine

inductive Opcode where
  | halt | dup | pushLocal | pushArgument | pushField | pushBlock | pushConstant | pushGlobal
  | pop | popLocal | popArgument | popField | send | superSend | returnLocal | returnNonLocal
deriving DecidableEq, Repr

inductive OperandForm where
  | none
  | field
  | literal
  | slot
deriving DecidableEq, Repr

namespace Opcode

def all : List Opcode :=
  [halt, dup, pushLocal, pushArgument, pushField, pushBlock, pushConstant, pushGlobal,
   pop, popLocal, popArgument, popField, send, superSend, returnLocal, returnNonLocal]

def byte : Opcode → UInt8
  | halt => 0
  | dup => 1
  | pushLocal => 2
  | pushArgument => 3
  | pushField => 4
  | pushBlock => 5
  | pushConstant => 6
  | pushGlobal => 7
  | pop => 8
  | popLocal => 9
  | popArgument => 10
  | popField => 11
  | send => 12
  | superSend => 13
  | returnLocal => 14
  | returnNonLocal => 15

/-- The opcode numbered `b`; bytes from sixteen on name none. -/
def ofByte? (b : UInt8) : Option Opcode := all[b.toNat]?

def operandForm : Opcode → OperandForm
  | halt | dup | pop | returnLocal | returnNonLocal => .none
  | pushField | popField => .field
  | pushBlock | pushConstant | pushGlobal | send | superSend => .literal
  | pushLocal | pushArgument | popLocal | popArgument => .slot

def length (op : Opcode) : Nat :=
  match op.operandForm with
  | .none => 1
  | .field | .literal => 2
  | .slot => 3

def hasLiteralOperand (op : Opcode) : Bool := op.operandForm == .literal

def mnemonic : Opcode → String
  | halt => "HALT"
  | dup => "DUP"
  | pushLocal => "PUSH_LOCAL"
  | pushArgument => "PUSH_ARGUMENT"
  | pushField => "PUSH_FIELD"
  | pushBlock => "PUSH_BLOCK"
  | pushConstant => "PUSH_CONSTANT"
  | pushGlobal => "PUSH_GLOBAL"
  | pop => "POP"
  | popLocal => "POP_LOCAL"
  | popArgument => "POP_ARGUMENT"
  | popField => "POP_FIELD"
  | send => "SEND"
  | superSend => "SUPER_SEND"
  | returnLocal => "RETURN_LOCAL"
  | returnNonLocal => "RETURN_NON_LOCAL"

@[simp] theorem ofByte?_byte (op : Opcode) : ofByte? op.byte = some op := by
  cases op <;> rfl

theorem length_pos (op : Opcode) : 0 < op.length := by
  cases op <;> decide

theorem eq_byte_of_ofByte? {b : UInt8} {op : Opcode} (h : ofByte? b = some op) : b = op.byte := by
  have table : ∀ n : Fin 16, (all[n.val]?).map byte = some (UInt8.ofNat n) := by decide
  rcases Nat.lt_or_ge b.toNat 16 with hlt | hge
  · have hb := table ⟨b.toNat, hlt⟩
    unfold ofByte? at h
    simpa [h] using hb.symm
  · have : ofByte? b = none := List.getElem?_eq_none hge
    simp [this] at h

end Opcode

end MessageMachine
