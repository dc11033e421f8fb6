import MessageMachine.Assembly.Build
import MessageMachine.Journal.Event
import MessageMachine.World.Lookup

namespace MessageMachine

namespace World

def newClass (w : World) (name : Symbol) (superclass : Option ClassRef) (fields : List Symbol) :
    ClassRef × World :=
  (w.classes.next, { w with classes := w.classes.push ⟨name, superclass, none, fields, .empty⟩ })

/-- The superclass that the metaclass of `c` gets: the metaclass of the superclass of `c`, or else
the class of classes. -/
def metaSuperclass (w : World) (c : ClassRef) : ClassRef :=
  ((w.cls c).superclass.bind fun s => (w.cls s).metaclass).getD CoreClass.cls.ref

def register (w : World) (c : ClassRef) : World :=
  let superclass := w.metaSuperclass c
  let (name, w) := w.intern (w.className c ++ " class")
  let (m, w) := w.newClass name (some superclass) []
  let k := w.cls c
  { w with
    classes := w.classes.set c { k with metaclass := some m }
    registered := w.registered ++ [c, m]
    globals := w.globals.insert k.name (.cls c) }

def internAll (w : World) : List String → List Symbol × World
  | [] => ([], w)
  | name :: rest =>
    let (s, w) := w.intern name
    let (ss, w) := w.internAll rest
    (s :: ss, w)

def define (w : World) (name : String) (superclass : ClassRef) (fields : List String) :
    ClassRef × World :=
  let (fields, w) := w.internAll fields
  let (name, w) := w.intern name
  let (c, w) := w.newClass name (some superclass) fields
  (c, (w.register c).note (.defined c superclass))

def installCode (w : World) (c : ClassRef) (r : CodeRef) : World :=
  let w := if w.config.dumpBytecode then w.note (.installing c r) else w
  w.install c (.compiled r)

end World

def Source.install (s : Source) (c : ClassRef) : Action Method := do
  let r ← s.compile
  modify (·.installCode c r)
  return .compiled r

end MessageMachine
