import MessageMachine.Listing

namespace MessageMachine

inductive Event where
  | defined (cls : ClassRef) (superclass : ClassRef)
  | installing (cls : ClassRef) (code : CodeRef)
  | executing (method : CodeRef) (offset : Nat) (instruction : Instruction) (stackPointer : Nat)
  | cached (method : CodeRef) (offset : Nat) (cls : ClassRef) (found : Method) (fill : CacheFill)
  | notUnderstood (receiver : Value) (selector : Symbol)
  | unboundGlobal (name : Symbol) (receiver : Value)
  | unwinding (code : CodeRef) (home : CodeRef)
  | homeCompleted (home : CodeRef) (result : Value)
  | escaped (code : CodeRef) (receiver : Value)

namespace Event

def severity : Event → Severity
  | executing _ _ _ _ => .trace
  | _ => .debug

def text (w : World) : Event → String
  | defined c s =>
    "defined class " ++ w.className c ++ " < " ++ w.className s
      ++ " (" ++ toString (w.fieldCount c) ++ " fields)"
  | installing c r =>
    "installing " ++ w.className c ++ ">>#" ++ (w.code r).signature.name ++ "\n" ++ w.listing r
  | executing r offset i sp =>
    let operand (n : Nat) : String := toString (i.operands.getD n 0).toNat
    w.codeText r ++ "@" ++ toString offset ++ ": " ++ i.opcode.mnemonic
      ++ " " ++ operand 0 ++ " " ++ operand 1 ++ " sp=" ++ toString sp
  | cached r offset c m fill =>
    w.codeText r ++ "@" ++ toString offset ++ ": " ++
      match fill with
      | .saturated => "call site saturated, " ++ w.className c ++ " not cached"
      | fill =>
        "cached " ++ w.className c ++ " -> " ++ w.methodText m ++ " (" ++ fill.name ++ ")"
  | notUnderstood v s => w.describe v ++ " does not understand #" ++ s.name
  | unboundGlobal name v => "unknown global #" ++ name.name ++ " referenced from " ++ w.describe v
  | unwinding r home =>
    "non-local return from " ++ w.codeText r ++ " unwinding to " ++ w.codeText home
  | homeCompleted home v =>
    "non-local return to " ++ w.codeText home ++ " completed with " ++ w.describe v
  | escaped r v => "escaped block " ++ w.codeText r ++ " in " ++ w.describe v

end Event

namespace World

def note (w : World) (e : Event) : World :=
  if w.journal.keeps e.severity then
    let text := e.text w
    { w with journal := w.journal.record e.severity text }
  else w

end World

def Action.note (e : Event) : Action Unit := modify (·.note e)

end MessageMachine
