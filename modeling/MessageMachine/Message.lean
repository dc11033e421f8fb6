import MessageMachine.Journal.Event
import MessageMachine.World.Lookup

namespace MessageMachine

structure Call where
  method : Method
  args : List Value

namespace Action

def intern (name : String) : Action Symbol := update (·.intern name)

def lookup (c : ClassRef) (selector : Symbol) : Action (Option Method) := do
  count fun n => { n with lookups := n.lookups + 1 }
  update (·.lookup c selector)

/-- Hands a failed send to the receiver, its arguments in a new array. -/
def doesNotUnderstand (receiver : Value) (selector : Symbol) (args : List Value) : Action Call := do
  count fun n => { n with doesNotUnderstand := n.doesNotUnderstand + 1 }
  let arguments ← update (·.newArray args.toArray)
  note (.notUnderstood receiver selector)
  let handler ← intern "doesNotUnderstand:arguments:"
  match ← lookup ((← get).classOf receiver) handler with
  | some m => return ⟨m, [receiver, .symbol selector, arguments]⟩
  | none => throw (.messageNotUnderstood receiver (.symbol selector))

def dispatch (receiver : Value) (selector : Symbol) (args : List Value) : Action Call := do
  match ← lookup ((← get).classOf receiver) selector with
  | some m => return ⟨m, receiver :: args⟩
  | none => doesNotUnderstand receiver selector args

/-- Asks the receiver for the value of a global that is not bound. -/
def unknownGlobal (receiver : Value) (name : Symbol) : Action Call := do
  count fun n => { n with unknownGlobals := n.unknownGlobals + 1 }
  note (.unboundGlobal name receiver)
  dispatch receiver (← intern "unknownGlobal:") [.symbol name]

/-- Tells the receiver of a method that one of its blocks tried to return from it too late. -/
def escapedBlock (receiver : Value) (block : Value) : Action Call := do
  dispatch receiver (← intern "escapedBlock:") [block]

def resolve (method : CodeRef) (offset : Nat) (c : ClassRef) (selector : Symbol) :
    Action (Option Method) := do
  count fun n => { n with sends := n.sends + 1 }
  match ((← get).cacheAt method offset).find? c with
  | some m =>
    count fun n => { n with cacheHits := n.cacheHits + 1 }
    return some m
  | none =>
    count fun n => { n with cacheMisses := n.cacheMisses + 1 }
    match ← lookup c selector with
    | none => return none
    | some m =>
      let (fill, cache) := ((← get).cacheAt method offset).fill c m
      if fill = .saturated then
        count fun n => { n with saturatedMisses := n.saturatedMisses + 1 }
      else modify fun w => { w with caches := w.caches.insert (method, offset) cache }
      note (.cached method offset c m fill)
      return some m

/-- Finds the method for a super send: the search starts above the class holding the sender. -/
def resolveSuper (method : CodeRef) (selector : Symbol) : Action (Option Method) := do
  let w ← get
  match w.holder? (.compiled method) with
  | none => throw (.unresolvableClass (.holder method))
  | some holder =>
    match (w.cls holder).superclass with
    | some s => lookup s selector
    | none => return none

end Action

end MessageMachine
