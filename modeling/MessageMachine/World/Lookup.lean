import MessageMachine.World.Hierarchy

namespace MessageMachine.World

def firstMethod (w : World) (selector : Symbol) : List ClassRef → Option Method
  | [] => none
  | c :: rest =>
    match (w.cls c).methods.find? selector with
    | some m => some m
    | none => w.firstMethod selector rest

/-- The method for `selector` found by walking the whole superclass chain. -/
def method? (w : World) (c : ClassRef) (selector : Symbol) : Option Method :=
  w.firstMethod selector (w.ancestors c)

def remember (w : World) (c : ClassRef) (selector : Symbol) (m : Method) : World :=
  { w with memos := w.memos.insert (c, selector) m }

/-- Looks up along at most `steps` classes, trusting and extending what is remembered. -/
def lookupWithin (w : World) (selector : Symbol) : Nat → ClassRef → Option Method × World
  | 0, _ => (none, w)
  | steps + 1, c =>
    match w.memos.find? (c, selector) with
    | some m => (some m, w)
    | none =>
      let found :=
        match (w.cls c).methods.find? selector, (w.cls c).superclass with
        | some m, _ => (some m, w)
        | none, some s => w.lookupWithin selector steps s
        | none, none => (none, w)
      match found with
      | (some m, w) => (some m, w.remember c selector m)
      | (none, w) => (none, w)

def lookup (w : World) (c : ClassRef) (selector : Symbol) : Option Method × World :=
  w.lookupWithin selector (c.index + 1) c

def flushMemos (w : World) : World :=
  { w with memos := w.memos.filterKeys fun k => !w.registered.contains k.1 }

def setHolderWithin (c : ClassRef) : Nat → CodeRef → World → World
  | 0, _, w => w
  | depth + 1, r, w =>
    let compiled := w.codes.get r
    let w := { w with codes := w.codes.set r { compiled with holder := some c } }
    compiled.code.literals.toList.foldl
      (fun w v =>
        match v with
        | .method (.compiled nested) => setHolderWithin c depth nested w
        | _ => w) w

/-- A literal is always made before the body that uses it, which bounds the nesting. -/
def setHolder (w : World) (c : ClassRef) : Method → World
  | .compiled r => setHolderWithin c (r.index + 1) r w
  | .primitive r =>
    { w with primitives := w.primitives.set r { w.primitives.get r with holder := some c } }

/-- Enters a method into the table of a class, replacing one with the same signature. What lookups
remember stays. Answers whether the signature was new. -/
def addMethod (w : World) (c : ClassRef) (m : Method) : Bool × World :=
  let w := w.setHolder c m
  let signature := w.signature m
  let k := w.cls c
  (!k.methods.contains signature,
    { w with classes := w.classes.set c { k with methods := k.methods.insert signature m } })

/-- Enters a method and forgets the lookups that it may outdate. -/
def install (w : World) (c : ClassRef) (m : Method) : World := (w.addMethod c m).2.flushMemos

def installPrimitive (w : World) (c : ClassRef) (selector : String) (op : Operation)
    (evaluatesBlock : Bool) : Method × World :=
  let (signature, w) := w.intern selector
  let (r, w) := w.newPrimitive ⟨signature, op, evaluatesBlock, none⟩
  (.primitive r, w.install c (.primitive r))

def installClassPrimitive (w : World) (c : ClassRef) (selector : String) (op : Operation) :
    Except Fault (Method × World) :=
  match (w.cls c).metaclass with
  | some m => .ok (w.installPrimitive m selector op false)
  | none => .error (.unresolvableClass (.metaclass c))

end MessageMachine.World
