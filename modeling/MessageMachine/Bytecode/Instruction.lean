import MessageMachine.Bytecode.Opcode

namespace MessageMachine

inductive Area where
  | arguments | locals
deriving DecidableEq, Repr

inductive Instruction where
  | halt
  | dup
  /-- Pushes slot `index` of an area, `level` contexts outward. -/
  | pushSlot (area : Area) (index level : UInt8)
  | pushField (index : UInt8)
  | pushBlock (literal : UInt8)
  | pushConstant (literal : UInt8)
  | pushGlobal (literal : UInt8)
  | pop
  | popSlot (area : Area) (index level : UInt8)
  | popField (index : UInt8)
  | send (literal : UInt8)
  /-- Sends with the lookup starting above the class that holds the running method. -/
  | superSend (literal : UInt8)
  | returnLocal
  | returnNonLocal
deriving DecidableEq, Repr

namespace Instruction

def opcode : Instruction → Opcode
  | halt => .halt
  | dup => .dup
  | pushSlot .locals _ _ => .pushLocal
  | pushSlot .arguments _ _ => .pushArgument
  | pushField _ => .pushField
  | pushBlock _ => .pushBlock
  | pushConstant _ => .pushConstant
  | pushGlobal _ => .pushGlobal
  | pop => .pop
  | popSlot .locals _ _ => .popLocal
  | popSlot .arguments _ _ => .popArgument
  | popField _ => .popField
  | send _ => .send
  | superSend _ => .superSend
  | returnLocal => .returnLocal
  | returnNonLocal => .returnNonLocal

def operands : Instruction → List UInt8
  | pushSlot _ i l | popSlot _ i l => [i, l]
  | pushField i | popField i => [i]
  | pushBlock i | pushConstant i | pushGlobal i | send i | superSend i => [i]
  | halt | dup | pop | returnLocal | returnNonLocal => []

/-- The instruction with this opcode and these operands; operands that it lacks are ignored. -/
def ofOperands (op : Opcode) (first second : UInt8) : Instruction :=
  match op with
  | .halt => halt
  | .dup => dup
  | .pushLocal => pushSlot .locals first second
  | .pushArgument => pushSlot .arguments first second
  | .pushField => pushField first
  | .pushBlock => pushBlock first
  | .pushConstant => pushConstant first
  | .pushGlobal => pushGlobal first
  | .pop => pop
  | .popLocal => popSlot .locals first second
  | .popArgument => popSlot .arguments first second
  | .popField => popField first
  | .send => send first
  | .superSend => superSend first
  | .returnLocal => returnLocal
  | .returnNonLocal => returnNonLocal

def length (i : Instruction) : Nat := i.opcode.length

def encode (i : Instruction) : List UInt8 := i.opcode.byte :: i.operands

@[simp] theorem opcode_ofOperands (op : Opcode) (a b : UInt8) :
    (ofOperands op a b).opcode = op := by
  cases op <;> rfl

@[simp] theorem length_encode (i : Instruction) : i.encode.length = i.length := by
  cases i with
  | pushSlot a _ _ | popSlot a _ _ => cases a <;> rfl
  | _ => rfl

end Instruction

inductive Undecodable where
  | unknownByte (byte : UInt8)
  /-- The bytecode ends before the instruction does. -/
  | truncated
deriving DecidableEq, Repr

def fetch (bytes : Array UInt8) (offset : Nat) : Except Undecodable Instruction :=
  match bytes[offset]? with
  | none => .error .truncated
  | some b =>
    match Opcode.ofByte? b with
    | none => .error (.unknownByte b)
    | some op =>
      if bytes.size < offset + op.length then .error .truncated
      else .ok (.ofOperands op (bytes.getD (offset + 1) 0) (bytes.getD (offset + 2) 0))

theorem fetch_le {bytes : Array UInt8} {offset : Nat} {i : Instruction}
    (h : fetch bytes offset = .ok i) : 0 < i.length ∧ offset + i.length ≤ bytes.size := by
  unfold fetch at h
  split at h
  · cases h
  split at h
  · cases h
  · next op _ =>
    split at h
    · cases h
    · next hle =>
      cases h
      rw [Instruction.length, Instruction.opcode_ofOperands]
      exact ⟨op.length_pos, Nat.le_of_not_lt hle⟩

/-- Offsets of the send instructions, up to the first unknown byte; `offset` is that of the first
byte of the list. A send whose operand is missing at the end counts too. -/
def sendOffsets (offset : Nat) : List UInt8 → List Nat
  | [] => []
  | b :: rest =>
    match Opcode.ofByte? b with
    | none => []
    | some op =>
      let later :=
        match op.length, rest with
        | 1, rest => sendOffsets (offset + 1) rest
        | 2, _ :: rest => sendOffsets (offset + 2) rest
        | 3, _ :: _ :: rest => sendOffsets (offset + 3) rest
        | _, _ => []
      if op = .send then offset :: later else later

inductive ListingLine where
  | instruction (offset : Nat) (instruction : Instruction)
  /-- The bytecode ends inside this instruction. -/
  | truncated (offset : Nat) (opcode : Opcode)
  | unknownByte (offset : Nat) (byte : UInt8)
deriving DecidableEq, Repr

/-- Splits a bytecode into lines. After an unknown byte decoding goes on with the next byte. -/
def listingLines (offset : Nat) : List UInt8 → List ListingLine
  | [] => []
  | b :: rest =>
    match Opcode.ofByte? b with
    | none => .unknownByte offset b :: listingLines (offset + 1) rest
    | some op =>
      match op.length, rest with
      | 1, rest => .instruction offset (.ofOperands op 0 0) :: listingLines (offset + 1) rest
      | 2, x :: rest => .instruction offset (.ofOperands op x 0) :: listingLines (offset + 2) rest
      | 3, x :: y :: rest =>
        .instruction offset (.ofOperands op x y) :: listingLines (offset + 3) rest
      | _, _ => [.truncated offset op]

end MessageMachine
