import MessageMachine.Message
import MessageMachine.Primitive.Atomic

namespace MessageMachine

inductive Iteration where
  | testing (test body : Block) (sense : Bool)
  | repeating (test body : Block) (sense : Bool)
  | counting (body : Block) (start current limit : Int64)
deriving DecidableEq

/-- What a primitive wants next; it runs no code of the language itself. -/
inductive Reply where
  | answer (v : Value)
  | call (c : Call)
  /-- The outcome of this evaluation is the outcome of the primitive, or else goes to a loop. -/
  | evaluate (b : Block) (params : List Value) (then? : Option Iteration)

namespace Iteration

def selector (sense : Bool) : String := if sense then "whileTrue:" else "whileFalse:"

def test (test body : Block) (sense : Bool) : Reply :=
  .evaluate test [] (some (testing test body sense))

def countFrom (body : Block) (start current limit : Int64) : Reply :=
  if current ≤ limit then
    .evaluate body [.integer current] (some (counting body start current limit))
  else .answer (.integer start)

/-- A loop that counts below its limit does not wrap around. -/
theorem toInt_succ {current limit : Int64} (h : current < limit) :
    (current + 1).toInt = current.toInt + 1 := by
  have hlt := Int64.lt_iff_toInt_lt.mp h
  have hlimit := limit.toInt_lt
  have hcurrent := current.le_toInt
  rw [Int64.toInt_add, show (1 : Int64).toInt = 1 by decide]
  exact Int.bmod_eq_of_le (by omega) (by omega)

def next (i : Iteration) (v : Value) : Except Fault Reply :=
  match i with
  | testing t body sense =>
    match v with
    | .boolean b =>
      .ok (if b = sense then .evaluate body [] (some (repeating t body sense)) else .answer .nil)
    | v => .error (.primitiveFailed (selector sense) (.conditionNotBoolean v))
  | repeating t body sense => .ok (test t body sense)
  | counting body start current limit =>
    .ok (if current < limit then countFrom body start (current + 1) limit
      else .answer (.integer start))

end Iteration

namespace PerformForm

def selector : PerformForm → String
  | noArgument => "perform:"
  | oneArgument => "perform:with:"
  | argumentArray => "perform:withArguments:"

def arguments (form : PerformForm) (w : World) (args : List Value) : Except Fault (List Value) :=
  match form with
  | noArgument => .ok []
  | oneArgument => do return [← Argument.any form.selector args 1]
  | argumentArray => do
    match ← Argument.any form.selector args 1 with
    | .array r => return (w.arrays.get r).toList
    | v => throw (.primitiveFailed form.selector (.expectedArray v))

def send (form : PerformForm) (receiver : Value) (args : List Value) : Action Call := do
  let selector ← Argument.any form.selector args 0
  let arguments ← form.arguments (← get) args
  match selector with
  | .symbol s =>
    if s.arity = arguments.length + 1 then Action.dispatch receiver s arguments
    else throw (.primitiveFailed form.selector (.wrongArgumentCount s arguments.length))
  | v => throw (.primitiveFailed form.selector (.notASelector v))

end PerformForm

namespace Operation

def blockOf (selector : String) : Value → Except Fault Block
  | .block b => .ok b
  | v => .error (.primitiveFailed selector (.notABlock v))

def start (op : Operation) (receiver : Value) (args : List Value) : Action Reply :=
  match op with
  | atomic op => do return .answer (← op.run receiver args)
  | perform form => do return .call (← form.send receiver args)
  | evaluate => do return .evaluate (← blockOf "value" receiver) args none
  | whileLoop sense => do
    let selector := Iteration.selector sense
    let test ← blockOf selector receiver
    let body ← blockOf selector (← Argument.any selector args 0)
    return Iteration.test test body sense
  | count => do
    let selector := "to:do:"
    let start ← Receiver.integer selector receiver
    let limit ← Argument.integer selector args 0
    match ← Argument.any selector args 1 with
    | .block body => return Iteration.countFrom body start start limit
    | _ => throw (.primitiveFailed selector .expectedBlock)

end Operation

end MessageMachine
