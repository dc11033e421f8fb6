import MessageMachine.Value

namespace MessageMachine

/-- Operations that complete by themselves, without running any code of the language. -/
inductive AtomicOperation where
  | identical | classOf | describe | fieldAt | fieldAtPut
  | failNotUnderstood | failUnknownGlobal | failEscapedBlock
  | newInstance | className | superclass
  | add | subtract | multiply | floorDivide | divide | modulo
  | less | greater | lessEqual | greaterEqual | numericEqual | numericNotEqual
  | asDouble | asInteger
  | newArray | arrayAt | arrayAtPut | arrayLength
  | stringLength | stringEqual | concatenate | asSymbol | asString
  | globalAt | globalAtPut | printText | printNewline
deriving DecidableEq, Repr

inductive PerformForm where
  | noArgument | oneArgument | argumentArray
deriving DecidableEq, Repr

inductive Operation where
  | atomic (op : AtomicOperation)
  | perform (form : PerformForm)
  | evaluate
  | whileLoop (sense : Bool)
  | count
deriving DecidableEq, Repr

structure Primitive where
  signature : Symbol
  operation : Operation
  /-- A send to a block starts the block as an ordinary activation instead of calling out. -/
  evaluatesBlock : Bool
  holder : Option ClassRef

instance : Inhabited Primitive := ⟨⟨default, .evaluate, false, none⟩⟩

end MessageMachine
