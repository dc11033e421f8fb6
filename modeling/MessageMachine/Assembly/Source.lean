import MessageMachine.Bytecode.Instruction
import MessageMachine.Value

namespace MessageMachine

inductive SourceKind where
  | method | block
deriving DecidableEq, Repr

mutual

/-- The source of one body. What it leaves open follows from its code and from where it stands. -/
inductive Source where
  | mk (kind : SourceKind) (signature : String) (localCount : Nat) (level? : Option UInt8)
    (maxStack? : Option Nat) (code : List SourceItem)

inductive SourceItem where
  | halt
  | dup
  | pop
  | returnLocal
  | returnNonLocal
  | pushSlot (area : Area) (index level : UInt8)
  | popSlot (area : Area) (index level : UInt8)
  | pushField (index : UInt8)
  | popField (index : UInt8)
  | pushBlock (block : Source)
  | pushConstant (v : Value)
  | pushSymbol (name : String)
  | pushGlobal (name : String)
  | send (selector : String)
  | superSend (selector : String)
  /-- Bytes taken over as they are; their effect on the stack is not tracked. -/
  | raw (bytes : List UInt8)

end

namespace Source

def kind : Source → SourceKind
  | mk kind _ _ _ _ _ => kind

def signature : Source → String
  | mk _ signature _ _ _ _ => signature

def localCount : Source → Nat
  | mk _ _ localCount _ _ _ => localCount

def level? : Source → Option UInt8
  | mk _ _ _ level? _ _ => level?

def maxStack? : Source → Option Nat
  | mk _ _ _ _ maxStack? _ => maxStack?

def code : Source → List SourceItem
  | mk _ _ _ _ _ code => code

/-- The signature of blocks with this many parameters: `value`, `value:`, `value:with:`, … -/
def blockSignature : Nat → String
  | 0 => "value"
  | n + 1 => "value:" ++ String.join (List.replicate n "with:")

def method (signature : String) (code : List SourceItem) : Source :=
  mk .method signature 0 none none code

def block (params : Nat) (code : List SourceItem) : Source :=
  mk .block (blockSignature params) 0 none none code

def argCount (s : Source) : Nat := selectorArity s.signature

def ownLevel (s : Source) : UInt8 :=
  match s.kind with
  | .method => 0
  | .block => 1

end Source

namespace SourceItem

def returnSelf : List SourceItem := [pushSlot .arguments 0 0, returnLocal]

end SourceItem

end MessageMachine
