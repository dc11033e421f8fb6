import MessageMachine.Double.Shortest
import MessageMachine.Text.Quoted
import MessageMachine.World.Hierarchy

namespace MessageMachine.World

def methodText (w : World) (m : Method) : String :=
  let name := "#" ++ (w.signature m).name
  let held :=
    match w.holder? m with
    | some c => w.className c ++ ">>" ++ name
    | none => name
  match m with
  | .compiled _ => held
  | .primitive _ => held ++ " (primitive)"

def codeText (w : World) (r : CodeRef) : String := w.methodText (.compiled r)

def blockArgCount (w : World) (b : Block) : Nat := (w.code b.code).argCount

/-- A short description, the answer to `printString`. -/
def describe (w : World) : Value → String
  | .nil => "nil"
  | .boolean true => "true"
  | .boolean false => "false"
  | .integer n => toString n.toInt
  | .double x => x.text
  | .string _ s => "'" ++ s ++ "'"
  | .symbol s => "#" ++ s.name
  | .array r => "an Array(" ++ toString (w.arrays.get r).size ++ ")"
  | .object r => "a " ++ w.className (w.objects.get r).cls
  | .cls c => w.className c
  | .block b => "a Block" ++ toString (w.blockArgCount b)
  | .method m => w.methodText m

def nameOrDescription (w : World) : Value → String
  | .symbol s => s.name
  | v => w.describe v

/-- A description that shows the kind of every value, with arrays opened `depth` deep. -/
def inspectWithin (w : World) : Nat → Value → String
  | _, .nil => "Nil"
  | _, .boolean true => "True"
  | _, .boolean false => "False"
  | _, .integer n => "Integer(" ++ toString n.toInt ++ ")"
  | _, .double x => "Double(" ++ x.text ++ ")"
  | _, .string _ s => "String(" ++ Text.quoted s ++ ")"
  | _, .symbol s => "Symbol(#" ++ s.name ++ ")"
  | 0, .array _ => "[..]"
  | depth + 1, .array r =>
    "[" ++ ", ".intercalate ((w.arrays.get r).toList.map (w.inspectWithin depth)) ++ "]"
  | _, .object r => "Object(" ++ w.className (w.objects.get r).cls ++ ")"
  | _, .cls c => "Class(" ++ w.className c ++ ")"
  | _, .block b => "Block(" ++ (w.code b.code).signature.name ++ ")"
  | _, .method m => "Method(" ++ w.methodText m ++ ")"

/-- Arrays that do not contain themselves nest at most as deep as there are arrays. -/
def inspect (w : World) (v : Value) : String := w.inspectWithin w.arrays.size v

def inspectCode (w : World) (r : CodeRef) : String :=
  let c := w.code r
  "Invokable \x7b signature: #" ++ c.signature.name
    ++ ", num_args: " ++ toString c.argCount
    ++ ", num_locals: " ++ toString c.localCount
    ++ ", max_stack: " ++ toString c.maxStack
    ++ ", context_level: " ++ toString c.level.toNat
    ++ ", bytecodes: " ++ toString c.bytecodes.size ++ " \x7d"

end MessageMachine.World
