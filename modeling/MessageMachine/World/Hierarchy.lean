import MessageMachine.World

namespace MessageMachine.World

def cls (w : World) (c : ClassRef) : Class := w.classes.get c

def className (w : World) (c : ClassRef) : String := (w.cls c).name.name

def chain (w : World) : Nat → ClassRef → List ClassRef
  | 0, _ => []
  | steps + 1, c =>
    c :: match (w.cls c).superclass with
      | some s => w.chain steps s
      | none => []

def ancestors (w : World) (c : ClassRef) : List ClassRef := w.chain (c.index + 1) c

def declaredCount (w : World) (cs : List ClassRef) : Nat :=
  cs.foldl (fun n c => n + (w.cls c).fields.length) 0

def fieldCount (w : World) (c : ClassRef) : Nat := w.declaredCount (w.ancestors c)

def lastIndexOf [DecidableEq α] (x : α) : List α → Option Nat
  | [] => none
  | y :: ys =>
    match lastIndexOf x ys with
    | some i => some (i + 1)
    | none => if y = x then some 0 else none

/-- The position of a field among those of a chain; the innermost declaration wins. -/
def fieldIndexIn (w : World) (name : Symbol) : List ClassRef → Option Nat
  | [] => none
  | c :: rest =>
    match lastIndexOf name (w.cls c).fields with
    | some own => some (w.declaredCount rest + own)
    | none => w.fieldIndexIn name rest

def fieldIndex? (w : World) (c : ClassRef) (name : Symbol) : Option Nat :=
  w.fieldIndexIn name (w.ancestors c)

def blockClass? (_ : World) (argCount : Nat) : Option ClassRef :=
  (CoreClass.ofArgCount? argCount).map (·.ref)

def classOf (w : World) : Value → ClassRef
  | .nil => CoreClass.nil.ref
  | .boolean true => CoreClass.true.ref
  | .boolean false => CoreClass.false.ref
  | .integer _ => CoreClass.integer.ref
  | .double _ => CoreClass.double.ref
  | .string _ _ => CoreClass.string.ref
  | .symbol _ => CoreClass.symbol.ref
  | .array _ => CoreClass.array.ref
  | .object r => (w.objects.get r).cls
  | .cls c => (w.cls c).metaclass.getD CoreClass.metaclass.ref
  | .block b => (w.blockClass? (w.code b.code).argCount).getD CoreClass.block.ref
  | .method (.compiled _) => CoreClass.method.ref
  | .method (.primitive _) => CoreClass.primitive.ref

def newInstance (w : World) (c : ClassRef) : Value × World :=
  (.object w.objects.next,
    { w with objects := w.objects.push ⟨c, Array.replicate (w.fieldCount c) .nil⟩ })

def field? (w : World) (r : ObjectRef) (index : Nat) : Option Value :=
  (w.objects.get r).fields[index]?

def setField? (w : World) (r : ObjectRef) (index : Nat) (v : Value) : Option World :=
  let o := w.objects.get r
  if index < o.fields.size then
    some { w with objects := w.objects.set r { o with fields := o.fields.setIfInBounds index v } }
  else none

end MessageMachine.World
