import MessageMachine.Machine

namespace MessageMachine

namespace Outcome

/-- The outcome as a host sees it that waits for no non-local return. -/
def settle : Outcome → Except Fault Value
  | .ok v => .ok v
  | .error (.fault f) => .error f
  | .error (.nonLocalReturn _ _) => .error (.internal .nonLocalReturnEscaped)

end Outcome

namespace World

def call (w : World) (fuel : Nat) (m : Method) (args : List Value) : Option (Outcome × World) :=
  (Machine.call ⟨m, args⟩ [] w).run fuel

def dispatch (w : World) (fuel : Nat) (receiver : Value) (selector : Symbol) (args : List Value) :
    Option (Outcome × World) :=
  match Action.dispatch receiver selector args w with
  | .ok c w => (Machine.call c [] w).run fuel
  | .error f w => some (.error (.fault f), w)

def evaluate (w : World) (fuel : Nat) (b : Block) (params : List Value) :
    Option (Outcome × World) :=
  (Machine.evaluate b params [] w).run fuel

/-- Runs a body, over a captured frame if it is that of a block. -/
def execute (w : World) (fuel : Nat) (r : CodeRef) (args : List Value) (outer : Option FrameRef) :
    Option (Outcome × World) :=
  (Machine.execute r args outer [] w).run fuel

def operate (w : World) (fuel : Nat) (op : Operation) (receiver : Value) (args : List Value) :
    Option (Outcome × World) :=
  (Machine.operate op receiver args [] w).run fuel

def settled (r : Option (Outcome × World)) : Option (Except Fault Value × World) :=
  r.map fun (o, w) => (o.settle, w)

def invoke (w : World) (fuel : Nat) (m : Method) (receiver : Value) (args : List Value) :
    Option (Except Fault Value × World) :=
  if args.length + 1 = w.argCount m then settled (w.call fuel m (receiver :: args))
  else some (.error (.arityMismatch (.method m) (w.argCount m) (args.length + 1)), w)

def send (w : World) (fuel : Nat) (receiver : Value) (selector : String) (args : List Value) :
    Option (Except Fault Value × World) :=
  let (selector, w) := w.intern selector
  if args.length + 1 = selector.arity then settled (w.dispatch fuel receiver selector args)
  else
    some (.error (.arityMismatch (.selector selector.name) selector.arity (args.length + 1)), w)

end World

end MessageMachine
