import MessageMachine.Arena
import MessageMachine.Class
import MessageMachine.Code
import MessageMachine.Config
import MessageMachine.Counters
import MessageMachine.Frame
import MessageMachine.InlineCache
import MessageMachine.Journal
import MessageMachine.Operation
import MessageMachine.Symbol
import MessageMachine.Table

namespace MessageMachine

/-- A compiled body with the class it was last installed in. -/
structure Compiled where
  code : Code
  holder : Option ClassRef
deriving Inhabited

structure Instance where
  cls : ClassRef
  fields : Array Value
deriving Inhabited

structure World where
  config : Config
  symbols : SymbolTable
  globals : Table Symbol Value
  classes : Arena .classes Class
  registered : List ClassRef
  codes : Arena .codes Compiled
  primitives : Arena .primitives Primitive
  arrays : Arena .arrays (Array Value)
  objects : Arena .objects Instance
  frames : Arena .frames Frame
  /-- For every activation ever started, whether it is still running. -/
  markers : Arena .markers Bool
  nextSerial : Nat
  memos : Table (ClassRef × Symbol) Method
  /-- Inline caches by method and offset of the send. -/
  caches : Table (CodeRef × Nat) InlineCache
  transcript : String
  counters : Counters
  depth : Nat
  reentry : Nat
  journal : Journal

abbrev Action := EStateM Fault World

instance : MonadLift (Except Fault) Action where
  monadLift
    | .ok a => pure a
    | .error f => throw f

namespace World

def empty (config : Config) (journal : Journal) : World where
  config := config
  symbols := .empty
  globals := .empty
  classes := .empty
  registered := []
  codes := .empty
  primitives := .empty
  arrays := .empty
  objects := .empty
  frames := .empty
  markers := .empty
  nextSerial := 0
  memos := .empty
  caches := .empty
  transcript := ""
  counters := .zero
  depth := 0
  reentry := 0
  journal := journal

instance : Inhabited World := ⟨empty .standard .off⟩

def code (w : World) (r : CodeRef) : Code := (w.codes.get r).code

def isLive (w : World) (m : MarkerRef) : Bool := w.markers.get m

/-- The live flag of the activation that `r` belongs to. -/
def frameIsLive (w : World) (r : FrameRef) : Bool := w.isLive (w.frames.get r).marker

def signature (w : World) : Method → Symbol
  | .compiled r => (w.code r).signature
  | .primitive r => (w.primitives.get r).signature

def argCount (w : World) (m : Method) : Nat := (w.signature m).arity

def holder? (w : World) : Method → Option ClassRef
  | .compiled r => (w.codes.get r).holder
  | .primitive r => (w.primitives.get r).holder

def literal (w : World) (r : CodeRef) (index : Nat) : Except Fault Value :=
  match (w.code r).literals[index]? with
  | some v => .ok v
  | none => .error (.missingLiteral r index)

def symbolLiteral (w : World) (r : CodeRef) (index : Nat) : Except Fault Symbol := do
  match ← w.literal r index with
  | .symbol s => return s
  | _ => throw (.literalType r index .symbol)

def blockLiteral (w : World) (r : CodeRef) (index : Nat) : Except Fault CodeRef := do
  match ← w.literal r index with
  | .method (.compiled c) =>
    if (w.code c).isBlock then return c else throw (.literalType r index .block)
  | _ => throw (.literalType r index .block)

def cacheAt (w : World) (r : CodeRef) (offset : Nat) : InlineCache :=
  (w.caches.find? (r, offset)).getD .cold

/-- The inline cache at an offset that holds a send. -/
def inlineCache? (w : World) (r : CodeRef) (offset : Nat) : Option InlineCache :=
  if offset ∈ (w.code r).sendSites then some (w.cacheAt r offset) else none

def intern (w : World) (name : String) : Symbol × World :=
  let (s, symbols) := w.symbols.intern name
  (s, { w with symbols })

def newString (w : World) (text : String) : Value × World :=
  (.string w.nextSerial text, { w with nextSerial := w.nextSerial + 1 })

def newBlock (w : World) (code : CodeRef) (context : FrameRef) (level : UInt8) : Value × World :=
  (.block ⟨w.nextSerial, code, context, level⟩, { w with nextSerial := w.nextSerial + 1 })

def newArray (w : World) (elements : Array Value) : Value × World :=
  (.array w.arrays.next, { w with arrays := w.arrays.push elements })

def newCode (w : World) (code : Code) : CodeRef × World :=
  (w.codes.next, { w with codes := w.codes.push ⟨code, none⟩ })

def newPrimitive (w : World) (p : Primitive) : PrimitiveRef × World :=
  (w.primitives.next, { w with primitives := w.primitives.push p })

def newMarker (w : World) : MarkerRef × World :=
  (w.markers.next, { w with markers := w.markers.push true })

def newFrame (w : World) (f : Frame) : FrameRef × World :=
  (w.frames.next, { w with frames := w.frames.push f })

def deactivate (w : World) (m : MarkerRef) : World :=
  { w with markers := w.markers.set m false }

def setFrame (w : World) (r : FrameRef) (f : Frame) : World :=
  { w with frames := w.frames.set r f }

def global? (w : World) (name : Symbol) : Option Value := w.globals.find? name

def setGlobal (w : World) (name : Symbol) (v : Value) : World :=
  { w with globals := w.globals.insert name v }

def globalNamed? (w : World) (name : String) : Option Value := do
  w.global? (← w.symbols.get? name)

def classNamed? (w : World) (name : String) : Option ClassRef := do
  (← w.globalNamed? name).class?

def print (w : World) (text : String) : World := { w with transcript := w.transcript ++ text }

def takeTranscript (w : World) : String × World := (w.transcript, { w with transcript := "" })

def count (w : World) (f : Counters → Counters) : World := { w with counters := f w.counters }

def withoutCaches (w : World) : World := { w with memos := .empty, caches := .empty }

end World

namespace Action

def update (f : World → α × World) : Action α := fun w =>
  let (a, w) := f w
  .ok a w

def count (f : Counters → Counters) : Action Unit := modify (·.count f)

def makeFrame (method : CodeRef) (args : List Value) (outer : Option FrameRef) : Action Frame := do
  let w ← get
  let f ← Frame.create method (w.code method) args w.markers.next outer
  discard (update (·.newMarker))
  return f

end Action

end MessageMachine
