import MessageMachine.CoreLibrary

namespace MessageMachine

namespace World

def newCoreClass (w : World) (c : CoreClass) : World :=
  let (name, w) := w.intern c.name
  (w.newClass name (c.superclass?.map (·.ref)) []).2

def bind (w : World) (name : String) (v : Value) : World :=
  let (s, w) := w.intern name
  w.setGlobal s v

def installEntry (w : World) (e : CoreLibrary.PrimitiveEntry) : World :=
  (w.installPrimitive e.cls.ref e.selector e.operation e.evaluatesBlock).2

def bare (config : Config) (journal : Journal) : World :=
  let w := CoreClass.all.foldl newCoreClass (empty config journal)
  let w := CoreClass.all.foldl (fun w c => w.register c.ref) w
  let (system, w) := w.newInstance CoreClass.system.ref
  let w := (((w.bind "nil" .nil).bind "true" (.boolean true)).bind "false" (.boolean false)).bind
    "system" system
  let w := CoreLibrary.primitives.foldl installEntry w
  match w.installClassPrimitive CoreClass.array.ref "new:" (.atomic .newArray) with
  | .ok (_, w) => w
  | .error _ => w

end World

def CoreLibrary.install : Action Unit :=
  methods.forM fun e => discard (e.2.install e.1.ref)

/-- The world that programs start in, or the fault that kept it from being made. -/
def World.boot (config : Config) (journal : Journal) : Except Fault World :=
  match CoreLibrary.install (.bare config journal) with
  | .ok _ w => .ok w
  | .error f _ => .error f

end MessageMachine
