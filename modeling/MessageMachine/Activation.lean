import MessageMachine.Context
import MessageMachine.Message

namespace MessageMachine

structure Activation where
  handle : FrameHandle
  method : CodeRef
  marker : MarkerRef
  offset : Nat

inductive Abrupt where
  | fault (f : Fault)
  /-- A value on its way to the activation with this marker, which is to return it. -/
  | nonLocalReturn (value : Value) (target : MarkerRef)

abbrev Outcome := Except Abrupt Value

inductive Use where
  | push
  | complete
deriving DecidableEq, Repr

inductive Effect where
  | resume (a : Activation)
  | activate (sender callee : Activation)
  /-- Suspends the whole run loop until a call from outside it completes. -/
  | callOut (sender : Activation) (call : Call) (use : Use)
  | complete (v : Value)
  | unwind (v : Value) (target : MarkerRef)

namespace Activation

def start (method : CodeRef) (args : List Value) (outer : Option FrameRef) : Action Activation := do
  let w ← get
  if w.config.maxCallDepth ≤ w.depth then throw (.callDepthExceeded w.config.maxCallDepth)
  else
    let f ← Action.makeFrame method args outer
    Action.count fun n => { n with frames := n.frames + 1 }
    modify fun w => { w with depth := w.depth + 1 }
    return ⟨.own f, method, f.marker, 0⟩

/-- Retires an activation. Its marker dies whatever the outcome; the activation of a method turns a
non-local return to itself into its own result, that of a block only lets it pass. -/
def retire (a : Activation) (o : Outcome) (w : World) : Outcome × World :=
  let w := { w with depth := w.depth - 1 }.deactivate a.marker
  match o with
  | .error (.nonLocalReturn v target) =>
    if !(w.code a.method).isBlock && target = a.marker then
      (.ok v, w.note (.homeCompleted a.method v))
    else (o, w)
  | o => (o, w)

def fetch (a : Activation) (w : World) : Except Fault Instruction :=
  match MessageMachine.fetch (w.code a.method).bytecodes a.offset with
  | .ok i => .ok i
  | .error .truncated => .error (.bytecodeOverrun a.method a.offset)
  | .error (.unknownByte b) => .error (.invalidOpcode b a.method a.offset)

def literal (a : Activation) (index : UInt8) : Action Value := do
  (← get).literal a.method index.toNat

def symbolLiteral (a : Activation) (index : UInt8) : Action Symbol := do
  (← get).symbolLiteral a.method index.toNat

def pushBlock (a : Activation) (literal : UInt8) : Action Activation := do
  let w ← get
  let body ← w.blockLiteral a.method literal.toNat
  let level := (w.code a.method).level + 1
  let c := w.code body
  if c.level ≠ level then throw (.contextLevelMismatch body c.level level)
  else if (w.blockClass? c.argCount).isNone then throw (.unresolvableClass (.blocks c.argCount))
  else
    let context ← Action.update a.handle.share
    let block ← Action.update (·.newBlock body context level)
    return { a with handle := ← (FrameHandle.shared context).push block }

def readField (receiver : Value) (index : UInt8) : Action Value := do
  match receiver with
  | .object o =>
    match (← get).field? o index.toNat with
    | some v => return v
    | none => throw (.fieldAccess receiver index.toNat)
  | _ => throw (.fieldAccess receiver index.toNat)

def writeField (receiver : Value) (index : UInt8) (v : Value) : Action Unit := do
  match receiver with
  | .object o =>
    match (← get).setField? o index.toNat v with
    | some w => set w
    | none => throw (.fieldAccess receiver index.toNat)
  | _ => throw (.fieldAccess receiver index.toNat)

/-- Takes receiver and arguments off the stack and starts the method found for them. Compiled
methods and blocks run next in the same loop; everything else is called from outside it. -/
def enter (a : Activation) (target : Option Method) (selector : Symbol) : Action Effect := do
  let (args, handle) ← a.handle.popN selector.arity
  let sender := { a with handle }
  match target with
  | some (.compiled c) => return .activate sender (← start c args none)
  | some (.primitive p) =>
    match ((← get).primitives.get p).evaluatesBlock, args.head? with
    | true, some (.block b) => return .activate sender (← start b.code args (some b.context))
    | _, _ => return .callOut sender ⟨.primitive p, args⟩ .push
  | none =>
    return .callOut sender
      (← Action.doesNotUnderstand (args.headD .nil) selector args.tail) .push

def send (a : Activation) (offset : Nat) (selector : Symbol) : Action Effect := do
  let receiver ← a.handle.peek (selector.arity - 1)
  let c := (← get).classOf receiver
  a.enter (← Action.resolve a.method offset c selector) selector

def superSend (a : Activation) (selector : Symbol) : Action Effect := do
  a.enter (← Action.resolveSuper a.method selector) selector

/-- Returns from the method that the running block was created in. Argument zero of a block
activation is the block itself; its level says how far out that method's frame is. -/
def returnNonLocal (a : Activation) : Action Effect := do
  let (v, handle) ← a.handle.pop
  let w ← get
  if !(w.code a.method).isBlock then return .complete v
  else
    let frame := handle.frame w
    match ← frame.read .arguments 0 with
    | .block b =>
      let home := w.frames.get (← w.outerContext frame b.level)
      if w.isLive home.marker then
        Action.count fun n => { n with nonLocalReturns := n.nonLocalReturns + 1 }
        Action.note (.unwinding a.method home.method)
        return .unwind v home.marker
      else
        Action.count fun n => { n with escapedBlocks := n.escapedBlocks + 1 }
        let receiver ← home.read .arguments 0
        Action.note (.escaped a.method receiver)
        return .callOut { a with handle } (← Action.escapedBlock receiver (.block b)) .complete
    | _ => throw (.internal (.runningWithoutBlock a.method))

/-- Executes a decoded instruction; the offset of `a` is already that of the next one. -/
def execute (a : Activation) (offset : Nat) (i : Instruction) : Action Effect :=
  let resume (handle : Action FrameHandle) : Action Effect := do
    return .resume { a with handle := ← handle }
  match i with
  | .halt => do return .complete (← a.handle.peek 0)
  | .dup => resume do a.handle.push (← a.handle.peek 0)
  | .pushSlot area index level => resume do
    a.handle.push (← a.handle.readSlot area index.toNat level)
  | .pushField index => resume do
    a.handle.push (← readField (← a.handle.receiver) index)
  | .pushBlock literal => do return .resume (← a.pushBlock literal)
  | .pushConstant literal => resume do a.handle.push (← a.literal literal)
  | .pushGlobal literal => do
    let name ← a.symbolLiteral literal
    match (← get).global? name with
    | some v => return .resume { a with handle := ← a.handle.push v }
    | none => return .callOut a (← Action.unknownGlobal (← a.handle.receiver) name) .push
  | .pop => resume do return (← a.handle.pop).2
  | .popSlot area index level => resume do
    let (v, handle) ← a.handle.pop
    handle.writeSlot area index.toNat level v
  | .popField index => resume do
    let (v, handle) ← a.handle.pop
    writeField (← handle.receiver) index v
    return handle
  | .send literal => do a.send offset (← a.symbolLiteral literal)
  | .superSend literal => do a.superSend (← a.symbolLiteral literal)
  | .returnLocal => do return .complete (← a.handle.pop).1
  | .returnNonLocal => a.returnNonLocal

def step (a : Activation) : Action Effect := do
  let w ← get
  let i ← a.fetch w
  if w.config.traceExecution then
    Action.note (.executing a.method a.offset i (a.handle.frame w).stackPointer)
  { a with offset := a.offset + i.length }.execute a.offset i

end Activation

end MessageMachine
