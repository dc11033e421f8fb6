import MessageMachine.Proofs.Handle
import MessageMachine.Machine

namespace MessageMachine

variable {α : Type}

inductive Defect where
  | negative
  | stackPointerOutside
  | frameBorrowed
  | contextBorrowed
  | entryLost
deriving DecidableEq, Repr

/-- What keeps a strict operation from completing. -/
inductive Trouble where
  | fault (f : Fault)
  | defect (d : Defect)

/-- A stack pointer outside its frame is a defect, whatever it is reported as. -/
def Trouble.of : Fault → Trouble
  | .internal .stackPointerOutside => .defect .stackPointerOutside
  | f => .fault f

/-- A world with the captured frames that are in use. -/
structure Usage where
  world : World
  borrowed : List FrameRef

abbrev Strict := EStateM Trouble Usage

namespace Strict

def lift (x : Action α) : Strict α := fun s =>
  match x s.world with
  | .ok a w => .ok a ⟨w, s.borrowed⟩
  | .error f w => .error (.of f) ⟨w, s.borrowed⟩

instance : MonadLift Action Strict := ⟨lift⟩

instance : MonadLift (Except Trouble) Strict where
  monadLift
    | .ok a => pure a
    | .error t => throw t

def world : Strict World := return (← get).world

/-- Uses a captured frame, unless it is in use already. -/
def borrowing (r : FrameRef) (d : Defect) (x : Strict α) : Strict α := fun s =>
  if r ∈ s.borrowed then .error (.defect d) s
  else
    match x { s with borrowed := r :: s.borrowed } with
    | .ok a s' => .ok a { s' with borrowed := s.borrowed }
    | .error t s' => .error t { s' with borrowed := s.borrowed }

def subtract (a b : Nat) : Except Trouble Nat :=
  if b ≤ a then .ok (a - b) else .error (.defect .negative)

/-- Follows links like `World.follow`, looking into one captured frame after the other. -/
def follow : Nat → Option FrameRef → Strict (Option FrameRef)
  | 0, r => return r
  | _ + 1, none => return none
  | links + 1, some r => do
    let next ← borrowing r .contextBorrowed do return ((← world).frames.get r).outer
    follow links next

def outerContext (f : Frame) (level : UInt8) : Strict FrameRef := do
  match ← follow (level.toNat - 1) f.outer with
  | some r => return r
  | none => throw (.of (.missingContext f.method level))

end Strict

namespace Frame

open Strict

def strictDepth (f : Frame) : Except Trouble Nat := subtract f.top f.baseline

def strictPush (f : Frame) (v : Value) : Except Trouble Frame := (f.push v).mapError Trouble.of

def strictPop (f : Frame) : Except Trouble (Value × Frame) :=
  if f.top ≤ f.baseline then .error (.of f.underflow)
  else do
    let top ← subtract f.top 1
    match f.slots[top]? with
    | some v => .ok (v, { f with slots := f.slots.setIfInBounds top .nil, top })
    | none => .error (.defect .stackPointerOutside)

def strictPopN (f : Frame) (count : Nat) : Except Trouble (List Value × Frame) := do
  if (← f.strictDepth) < count then .error (.of f.underflow)
  else
    let start ← subtract f.top count
    if f.top ≤ f.slots.size then
      .ok ((f.slots.extract start f.top).toList,
        { f with slots := clearSlots f.slots start count, top := start })
    else .error (.defect .stackPointerOutside)

def strictPeek (f : Frame) (offset : Nat) : Except Trouble Value := do
  if (← f.strictDepth) ≤ offset then .error (.of f.underflow)
  else
    match f.slots[← subtract (← subtract f.top 1) offset]? with
    | some v => .ok v
    | none => .error (.defect .stackPointerOutside)

end Frame

namespace FrameHandle

open Strict

def within (a : FrameHandle) (x : Strict α) : Strict α :=
  match a with
  | own _ => x
  | shared r => borrowing r .frameBorrowed x

def strictTake (a : FrameHandle) (op : Frame → Except Trouble (α × Frame)) :
    Strict (α × FrameHandle) := fun s =>
  match op (a.frame s.world) with
  | .ok (x, f) => .ok (x, (a.put f s.world).1) { s with world := (a.put f s.world).2 }
  | .error t => .error t s

theorem strictTake_apply (a : FrameHandle) (op : Frame → Except Trouble (α × Frame)) (w : World)
    (busy : List FrameRef) :
    a.strictTake op ⟨w, busy⟩ = match op (a.frame w) with
      | .ok (x, f) => .ok (x, (a.put f w).1) ⟨(a.put f w).2, busy⟩
      | .error t => .error t ⟨w, busy⟩ := rfl

def strictModify (a : FrameHandle) (op : Frame → Except Trouble Frame) : Strict FrameHandle := do
  return (← a.strictTake fun f => return ((), ← op f)).2

def strictPush (a : FrameHandle) (v : Value) : Strict FrameHandle := a.strictModify (·.strictPush v)

def strictPop (a : FrameHandle) : Strict (Value × FrameHandle) := a.strictTake (·.strictPop)

def strictPopN (a : FrameHandle) (count : Nat) : Strict (List Value × FrameHandle) :=
  a.strictTake (·.strictPopN count)

def strictPeek (a : FrameHandle) (offset : Nat) : Strict Value := do
  (a.frame (← world)).strictPeek offset

def strictReadSlot (a : FrameHandle) (area : Area) (index : Nat) (level : UInt8) :
    Strict Value := do
  let f := a.frame (← world)
  if level = 0 then f.read area index
  else
    let r ← outerContext f level
    borrowing r .contextBorrowed do ((← world).frames.get r).read area index

def strictWriteSlot (a : FrameHandle) (area : Area) (index : Nat) (level : UInt8) (v : Value) :
    Strict FrameHandle := do
  if level = 0 then a.strictModify fun f => (f.write area index v).mapError Trouble.of
  else
    let r ← outerContext (a.frame (← world)) level
    let _ ← borrowing r .contextBorrowed
      ((shared r).strictModify fun f => (f.write area index v).mapError Trouble.of)
    return a

def strictReceiver (a : FrameHandle) : Strict Value := do
  a.strictReadSlot .arguments 0 (a.frame (← world)).code.level

end FrameHandle

namespace Activation

open Strict

def strictPushBlock (a : Activation) (literal : UInt8) : Strict Activation := do
  let w ← world
  let body ← w.blockLiteral a.method literal.toNat
  let level := (w.code a.method).level + 1
  let c := w.code body
  if c.level ≠ level then throw (.of (.contextLevelMismatch body c.level level))
  else if (w.blockClass? c.argCount).isNone then
    throw (.of (.unresolvableClass (.blocks c.argCount)))
  else
    let context ← Action.update a.handle.share
    let block ← Action.update (·.newBlock body context level)
    let handle := FrameHandle.shared context
    return { a with handle := ← handle.within (handle.strictPush block) }

def strictEnter (a : Activation) (target : Option Method) (selector : Symbol) : Strict Effect := do
  let (args, handle) ← a.handle.within (a.handle.strictPopN selector.arity)
  let sender := { a with handle }
  match target with
  | some (.compiled c) => return .activate sender (← start c args none)
  | some (.primitive p) =>
    match ((← world).primitives.get p).evaluatesBlock, args.head? with
    | true, some (.block b) => return .activate sender (← start b.code args (some b.context))
    | _, _ => return .callOut sender ⟨.primitive p, args⟩ .push
  | none =>
    return .callOut sender
      (← Action.doesNotUnderstand (args.headD .nil) selector args.tail) .push

def strictSend (a : Activation) (offset : Nat) (selector : Symbol) : Strict Effect := do
  let receiver ← a.handle.within do a.handle.strictPeek (← subtract selector.arity 1)
  let c := (← world).classOf receiver
  a.strictEnter (← Action.resolve a.method offset c selector) selector

def strictSuperSend (a : Activation) (selector : Symbol) : Strict Effect := do
  a.strictEnter (← Action.resolveSuper a.method selector) selector

def strictReturnNonLocal (a : Activation) : Strict Effect := do
  let (v, handle) ← a.handle.within a.handle.strictPop
  let w ← world
  if !(w.code a.method).isBlock then return .complete v
  else
    match ← handle.within (handle.strictReadSlot .arguments 0 0) with
    | .block b =>
      let r ← handle.within do outerContext (handle.frame (← world)) b.level
      let home ← borrowing r .contextBorrowed do return (← world).frames.get r
      if w.isLive home.marker then
        Action.count fun n => { n with nonLocalReturns := n.nonLocalReturns + 1 }
        Action.note (.unwinding a.method home.method)
        return .unwind v home.marker
      else
        Action.count fun n => { n with escapedBlocks := n.escapedBlocks + 1 }
        let receiver ← borrowing r .contextBorrowed do
          ((← world).frames.get r).read .arguments 0
        Action.note (.escaped a.method receiver)
        return .callOut { a with handle } (← Action.escapedBlock receiver (.block b)) .complete
    | _ => throw (.of (.internal (.runningWithoutBlock a.method)))

def strictExecute (a : Activation) (offset : Nat) (i : Instruction) : Strict Effect :=
  let resume (handle : Strict FrameHandle) : Strict Effect := do
    return .resume { a with handle := ← a.handle.within handle }
  match i with
  | .halt => do return .complete (← a.handle.within (a.handle.strictPeek 0))
  | .dup => resume do a.handle.strictPush (← a.handle.strictPeek 0)
  | .pushSlot area index level => resume do
    a.handle.strictPush (← a.handle.strictReadSlot area index.toNat level)
  | .pushField index => resume do
    a.handle.strictPush (← readField (← a.handle.strictReceiver) index)
  | .pushBlock literal => do return .resume (← a.strictPushBlock literal)
  | .pushConstant literal => do
    let v ← a.literal literal
    resume (a.handle.strictPush v)
  | .pushGlobal literal => do
    let name ← a.symbolLiteral literal
    match (← world).global? name with
    | some v => resume (a.handle.strictPush v)
    | none =>
      let receiver ← a.handle.within a.handle.strictReceiver
      return .callOut a (← Action.unknownGlobal receiver name) .push
  | .pop => resume do return (← a.handle.strictPop).2
  | .popSlot area index level => resume do
    let (v, handle) ← a.handle.strictPop
    handle.strictWriteSlot area index.toNat level v
  | .popField index => resume do
    let (v, handle) ← a.handle.strictPop
    writeField (← handle.strictReceiver) index v
    return handle
  | .send literal => do a.strictSend offset (← a.symbolLiteral literal)
  | .superSend literal => do a.strictSuperSend (← a.symbolLiteral literal)
  | .returnLocal => do return .complete (← a.handle.within a.handle.strictPop).1
  | .returnNonLocal => a.strictReturnNonLocal

def strictStep (a : Activation) : Strict Effect := do
  let w ← world
  let i ← a.fetch w
  if w.config.traceExecution then
    a.handle.within (Action.note (.executing a.method a.offset i (a.handle.frame w).stackPointer))
  { a with offset := a.offset + i.length }.strictExecute a.offset i

end Activation

/-- Who waits for the outcome of a call: a stack of activations, or an iteration. -/
inductive StrictWaiting where
  | sender (stack : List Activation) (use : Use)
  | iteration (i : Iteration)

inductive StrictControl where
  | run (stack : List Activation)
  | finish (stack : List Activation) (outcome : Outcome)
  | call (c : Call)
  | answer (outcome : Outcome)

structure StrictMachine where
  control : StrictControl
  waiting : List StrictWaiting
  world : World

def Waiting.strict : Waiting → StrictWaiting
  | sender loop use => .sender (loop.current :: loop.suspended) use
  | iteration i => .iteration i

def Control.strict : Control → StrictControl
  | run loop => .run (loop.current :: loop.suspended)
  | finish loop o => .finish (loop.current :: loop.suspended) o
  | call c => .call c
  | answer o => .answer o

def Machine.strict (m : Machine) : StrictMachine :=
  ⟨m.control.strict, m.waiting.map (·.strict), m.world⟩

namespace StrictMachine

variable (waiting : List StrictWaiting) (w : World)

/-- Goes on with an outcome, unless it comes from a defect. -/
def fail (t : Trouble) (next : Outcome → StrictMachine) : Except Defect StrictMachine :=
  match t with
  | .fault f => .ok (next (.error (.fault f)))
  | .defect d => .error d

def execute (method : CodeRef) (args : List Value) (outer : Option FrameRef) :
    Except Defect StrictMachine :=
  match RunLoop.start method args outer w with
  | .ok loop w => .ok ⟨.run (loop.current :: loop.suspended), waiting, w⟩
  | .error f w => fail (.of f) (⟨.answer ·, waiting, w⟩)

def evaluate (b : Block) (params : List Value) : Except Defect StrictMachine :=
  execute waiting w b.code (.block b :: params) (some b.context)

def reply (r : Reply) : Except Defect StrictMachine :=
  match r with
  | .answer v => .ok ⟨.answer (.ok v), waiting, w⟩
  | .call c => .ok ⟨.call c, waiting, w⟩
  | .evaluate b params none => evaluate waiting w b params
  | .evaluate b params (some i) => evaluate (.iteration i :: waiting) w b params

def operate (op : Operation) (receiver : Value) (args : List Value) : Except Defect StrictMachine :=
  match op.start receiver args w with
  | .ok r w => reply waiting w r
  | .error f w => fail (.of f) (⟨.answer ·, waiting, w⟩)

def call (c : Call) : Except Defect StrictMachine :=
  match c.method, c.args with
  | .compiled r, args => execute waiting w r args none
  | .primitive p, receiver :: args => operate waiting w (w.primitives.get p).operation receiver args
  | .primitive p, [] =>
    fail (.of (.arityMismatch (.method (.primitive p)) (w.argCount (.primitive p)) 0))
      (⟨.answer ·, waiting, w⟩)

/-- The topmost activation executes one instruction. -/
def advance (stack : List Activation) : Except Defect StrictMachine :=
  match stack with
  | [] => .error .entryLost
  | current :: rest =>
    match current.strictStep ⟨w, []⟩ with
    | .ok (.resume a) s => .ok ⟨.run (a :: rest), waiting, s.world⟩
    | .ok (.activate sender callee) s => .ok ⟨.run (callee :: sender :: rest), waiting, s.world⟩
    | .ok (.callOut sender c use) s => .ok ⟨.call c, .sender (sender :: rest) use :: waiting, s.world⟩
    | .ok (.complete v) s => .ok ⟨.finish stack (.ok v), waiting, s.world⟩
    | .ok (.unwind v target) s =>
      .ok ⟨.finish stack (.error (.nonLocalReturn v target)), waiting, s.world⟩
    | .error t s => fail t (⟨.finish stack ·, waiting, s.world⟩)

/-- The topmost activation goes on with a result. -/
def deliver (stack : List Activation) (v : Value) : Except Defect StrictMachine :=
  match stack with
  | [] => .error .entryLost
  | current :: rest =>
    match current.handle.within (current.handle.strictPush v) ⟨w, []⟩ with
    | .ok handle s => .ok ⟨.run ({ current with handle } :: rest), waiting, s.world⟩
    | .error t s => fail t (⟨.finish stack ·, waiting, s.world⟩)

/-- Takes the topmost activation off the stack and hands its outcome on. -/
def finish (stack : List Activation) (o : Outcome) : Except Defect StrictMachine :=
  match stack with
  | [] => .ok ⟨.answer o, waiting, w⟩
  | finished :: rest =>
    if w.depth = 0 then .error .negative
    else
      match finished.retire o w, rest with
      | (o, w), [] =>
        if w.reentry = 0 then .error .negative
        else .ok ⟨.answer o, waiting, { w with reentry := w.reentry - 1 }⟩
      | (.ok v, w), rest => deliver waiting w rest v
      | (.error u, w), rest => .ok ⟨.finish rest (.error u), waiting, w⟩

def answer (o : Outcome) (waiting : List StrictWaiting) (w : World) : Except Defect StrictMachine :=
  match waiting, o with
  | [], o => .ok ⟨.answer o, [], w⟩
  | .sender stack .push :: rest, .ok v => deliver rest w stack v
  | .sender stack _ :: rest, o => .ok ⟨.finish stack o, rest, w⟩
  | .iteration i :: rest, .ok v =>
    match i.next v with
    | .ok r => reply rest w r
    | .error f => fail (.of f) (⟨.answer ·, rest, w⟩)
  | .iteration _ :: rest, .error u => .ok ⟨.answer (.error u), rest, w⟩

def step (m : StrictMachine) : Except Defect StrictMachine :=
  match m.control with
  | .run stack => advance m.waiting m.world stack
  | .finish stack o => finish m.waiting m.world stack o
  | .call c => call m.waiting m.world c
  | .answer o => answer o m.waiting m.world

end StrictMachine

end MessageMachine
