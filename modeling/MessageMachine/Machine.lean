import MessageMachine.Primitive.Reentrant
import MessageMachine.Activation

namespace MessageMachine

/-- The activation that runs, and those waiting for it, innermost first. A send to compiled code suspends
the sender in its loop; whatever calls code from outside suspends the whole loop. -/
structure RunLoop where
  current : Activation
  suspended : List Activation

/-- Who waits for the outcome of a call. -/
inductive Waiting where
  | sender (loop : RunLoop) (use : Use)
  | iteration (i : Iteration)

inductive Control where
  | run (loop : RunLoop)
  | finish (loop : RunLoop) (outcome : Outcome)
  | call (c : Call)
  | answer (outcome : Outcome)

/-- What happens next, who waits for it (innermost first), and the world. -/
structure Machine where
  control : Control
  waiting : List Waiting
  world : World

namespace RunLoop

def start (method : CodeRef) (args : List Value) (outer : Option FrameRef) : Action RunLoop := do
  let w ← get
  if w.config.maxReentryDepth ≤ w.reentry then
    throw (.reentryDepthExceeded w.config.maxReentryDepth)
  else
    let a ← Activation.start method args outer
    modify fun w => { w with reentry := w.reentry + 1 }
    return ⟨a, []⟩

def push (loop : RunLoop) (v : Value) : Action RunLoop := do
  return { loop with current :=
    { loop.current with handle := ← loop.current.handle.push v } }

end RunLoop

namespace Control

def fault (f : Fault) : Control := .answer (.error (.fault f))

end Control

namespace Machine

def execute (method : CodeRef) (args : List Value) (outer : Option FrameRef)
    (waiting : List Waiting) (w : World) : Machine :=
  match RunLoop.start method args outer w with
  | .ok loop w => ⟨.run loop, waiting, w⟩
  | .error f w => ⟨.fault f, waiting, w⟩

def evaluate (b : Block) (params : List Value) (waiting : List Waiting) (w : World) : Machine :=
  execute b.code (.block b :: params) (some b.context) waiting w

def reply (r : Reply) (waiting : List Waiting) (w : World) : Machine :=
  match r with
  | .answer v => ⟨.answer (.ok v), waiting, w⟩
  | .call c => ⟨.call c, waiting, w⟩
  | .evaluate b params none => evaluate b params waiting w
  | .evaluate b params (some i) => evaluate b params (.iteration i :: waiting) w

def operate (op : Operation) (receiver : Value) (args : List Value) (waiting : List Waiting)
    (w : World) : Machine :=
  match op.start receiver args w with
  | .ok r w => reply r waiting w
  | .error f w => ⟨.fault f, waiting, w⟩

def call (c : Call) (waiting : List Waiting) (w : World) : Machine :=
  match c.method, c.args with
  | .compiled r, args => execute r args none waiting w
  | .primitive p, receiver :: args =>
    operate (w.primitives.get p).operation receiver args waiting w
  | .primitive p, [] =>
    ⟨.fault (.arityMismatch (.method (.primitive p)) (w.argCount (.primitive p)) 0), waiting, w⟩

def advance (loop : RunLoop) (waiting : List Waiting) (w : World) : Machine :=
  match loop.current.step w with
  | .ok (.resume a) w => ⟨.run { loop with current := a }, waiting, w⟩
  | .ok (.activate sender callee) w => ⟨.run ⟨callee, sender :: loop.suspended⟩, waiting, w⟩
  | .ok (.callOut sender c use) w =>
    ⟨.call c, .sender { loop with current := sender } use :: waiting, w⟩
  | .ok (.complete v) w => ⟨.finish loop (.ok v), waiting, w⟩
  | .ok (.unwind v target) w => ⟨.finish loop (.error (.nonLocalReturn v target)), waiting, w⟩
  | .error f w => ⟨.finish loop (.error (.fault f)), waiting, w⟩

def deliver (loop : RunLoop) (v : Value) (waiting : List Waiting) (w : World) : Machine :=
  match loop.push v w with
  | .ok loop w => ⟨.run loop, waiting, w⟩
  | .error f w => ⟨.finish loop (.error (.fault f)), waiting, w⟩

def finish (loop : RunLoop) (o : Outcome) (waiting : List Waiting) (w : World) : Machine :=
  match loop.current.retire o w, loop.suspended with
  | (o, w), [] => ⟨.answer o, waiting, { w with reentry := w.reentry - 1 }⟩
  | (.ok v, w), sender :: rest => deliver ⟨sender, rest⟩ v waiting w
  | (.error u, w), sender :: rest => ⟨.finish ⟨sender, rest⟩ (.error u), waiting, w⟩

def answer (o : Outcome) (waiting : List Waiting) (w : World) : Machine :=
  match waiting, o with
  | [], o => ⟨.answer o, [], w⟩
  | .sender loop .push :: rest, .ok v => deliver loop v rest w
  | .sender loop _ :: rest, o => ⟨.finish loop o, rest, w⟩
  | .iteration i :: rest, .ok v =>
    match i.next v with
    | .ok r => reply r rest w
    | .error f => ⟨.fault f, rest, w⟩
  | .iteration _ :: rest, .error u => ⟨.answer (.error u), rest, w⟩

/-- One step; a machine that has its answer stays as it is. -/
def step (m : Machine) : Machine :=
  match m.control with
  | .run loop => advance loop m.waiting m.world
  | .finish loop o => finish loop o m.waiting m.world
  | .call c => call c m.waiting m.world
  | .answer o => answer o m.waiting m.world

def outcome? (m : Machine) : Option Outcome :=
  match m.control, m.waiting with
  | .answer o, [] => some o
  | _, _ => none

/-- Runs for at most `fuel` steps, until there is an outcome. -/
def run : Nat → Machine → Option (Outcome × World)
  | 0, m => m.outcome?.map (·, m.world)
  | fuel + 1, m =>
    match m.outcome? with
    | some o => some (o, m.world)
    | none => run fuel m.step

theorem run_of_outcome? {m : Machine} {o : Outcome} (h : m.outcome? = some o) (fuel : Nat) :
    m.run fuel = some (o, m.world) := by
  cases fuel <;> simp [run, h]

theorem run_succ {m : Machine} (h : m.outcome? = none) (fuel : Nat) :
    m.run (fuel + 1) = m.step.run fuel := by
  simp [run, h]

theorem run_add {m : Machine} {r : Outcome × World} {fuel : Nat} (h : m.run fuel = some r)
    (more : Nat) : m.run (fuel + more) = some r := by
  induction fuel generalizing m with
  | zero =>
    cases ho : m.outcome? with
    | none => simp [run, ho] at h
    | some o => rw [run_of_outcome? ho]; simpa [run, ho] using h
  | succ fuel ih =>
    cases ho : m.outcome? with
    | none =>
      rw [run_succ ho] at h
      rw [Nat.add_right_comm, run_succ ho]
      exact ih h
    | some o => rw [run_of_outcome? ho] at h ⊢; exact h

end Machine

end MessageMachine
