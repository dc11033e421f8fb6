import MessageMachine.Code
import MessageMachine.Fault

namespace MessageMachine

/-- The slots hold argument zero (the receiver or the block), the other arguments, the locals and the
operands, in this order; `top` is the number of those in use. -/
structure Frame where
  method : CodeRef
  code : Code
  slots : Array Value
  top : Nat
  marker : MarkerRef
  outer : Option FrameRef
deriving Inhabited

namespace Frame

def create (method : CodeRef) (code : Code) (args : List Value) (marker : MarkerRef)
    (outer : Option FrameRef) : Except Fault Frame :=
  if args.length = code.argCount then
    .ok {
      method, code, marker, outer
      slots := args.toArray ++ Array.replicate (code.localCount + code.operandCapacity) .nil
      top := code.baseline }
  else .error (.arityMismatch (.method (.compiled method)) code.argCount args.length)

def baseline (f : Frame) : Nat := f.code.baseline

def depth (f : Frame) : Nat := f.top - f.baseline

/-- Index of the topmost occupied slot. -/
def stackPointer (f : Frame) : Nat := f.top - 1

def underflow (f : Frame) : Fault := .stackUnderflow f.method

def push (f : Frame) (v : Value) : Except Fault Frame :=
  if f.top < f.slots.size then
    .ok { f with slots := f.slots.setIfInBounds f.top v, top := f.top + 1 }
  else .error (.stackOverflow (.method (.compiled f.method)) f.top f.slots.size)

def pop (f : Frame) : Except Fault (Value × Frame) :=
  if f.top ≤ f.baseline then .error f.underflow
  else
    let top := f.top - 1
    match f.slots[top]? with
    | some v => .ok (v, { f with slots := f.slots.setIfInBounds top .nil, top })
    | none => .error (.internal .stackPointerOutside)

def clearSlots (slots : Array Value) (start : Nat) : Nat → Array Value
  | 0 => slots
  | n + 1 => (clearSlots slots start n).setIfInBounds (start + n) .nil

/-- Takes the top `count` operands, oldest first. -/
def popN (f : Frame) (count : Nat) : Except Fault (List Value × Frame) :=
  if f.depth < count then .error f.underflow
  else
    let start := f.top - count
    if f.top ≤ f.slots.size then
      .ok ((f.slots.extract start f.top).toList,
        { f with slots := clearSlots f.slots start count, top := start })
    else .error (.internal .stackPointerOutside)

/-- The operand `offset` places below the top. -/
def peek (f : Frame) (offset : Nat) : Except Fault Value :=
  if f.depth ≤ offset then .error f.underflow
  else
    match f.slots[f.top - 1 - offset]? with
    | some v => .ok v
    | none => .error (.internal .stackPointerOutside)

def reset (f : Frame) : Frame :=
  { f with slots := clearSlots f.slots f.baseline f.depth, top := f.baseline }

def areaStart (f : Frame) : Area → Nat
  | .arguments => 0
  | .locals => f.code.argCount

def areaSize (f : Frame) : Area → Nat
  | .arguments => f.code.argCount
  | .locals => f.code.localCount

def noSlot (f : Frame) (area : Area) (index : Nat) : Fault :=
  .internal (.noSlot f.method area index)

def read (f : Frame) (area : Area) (index : Nat) : Except Fault Value :=
  if index < f.areaSize area then
    match f.slots[f.areaStart area + index]? with
    | some v => .ok v
    | none => .error (f.noSlot area index)
  else .error (f.noSlot area index)

def write (f : Frame) (area : Area) (index : Nat) (v : Value) : Except Fault Frame :=
  if index < f.areaSize area && f.areaStart area + index < f.slots.size then
    .ok { f with slots := f.slots.setIfInBounds (f.areaStart area + index) v }
  else .error (f.noSlot area index)

end Frame

end MessageMachine
