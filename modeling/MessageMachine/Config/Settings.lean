import MessageMachine.Config
import MessageMachine.Json
import MessageMachine.Text.Blank

namespace MessageMachine

inductive Setting where
  | maxCallDepth | maxReentryDepth | traceExecution | dumpBytecode | echoTranscript
deriving DecidableEq, Repr

namespace Setting

def all : List Setting :=
  [maxCallDepth, maxReentryDepth, traceExecution, dumpBytecode, echoTranscript]

def name : Setting → String
  | maxCallDepth => "max_call_depth"
  | maxReentryDepth => "max_reentry_depth"
  | traceExecution => "trace_execution"
  | dumpBytecode => "dump_bytecode"
  | echoTranscript => "echo_transcript"

def named? (s : String) : Option Setting := all.find? (·.name == s)

end Setting

namespace Config

def maxLimit : Nat := 0xffffffffffffffff

def set? (c : Config) (s : Setting) (v : Json) : Option Config :=
  match s, v with
  | .maxCallDepth, .natural n => if n ≤ maxLimit then some { c with maxCallDepth := n } else none
  | .maxReentryDepth, .natural n =>
    if n ≤ maxLimit then some { c with maxReentryDepth := n } else none
  | .traceExecution, .boolean b => some { c with traceExecution := b }
  | .dumpBytecode, .boolean b => some { c with dumpBytecode := b }
  | .echoTranscript, .boolean b => some { c with echoTranscript := b }
  | _, _ => none

/-- Takes over named settings. Names of no setting are ignored; a setting may come only once. -/
def ofMembers? (c : Config) (seen : List Setting) :
    List (Text.Escaped × Json) → Option Config
  | [] => some c
  | (k, v) :: rest => do
    match Setting.named? (String.ofList (← Text.characters? k)) with
    | none => c.ofMembers? seen rest
    | some s => if s ∈ seen then none else (← c.set? s v).ofMembers? (s :: seen) rest

def ofItems? (c : Config) : List Setting → List Json → Option Config
  | _, [] => some c
  | s :: ss, v :: vs => do (← c.set? s v).ofItems? ss vs
  | [], _ :: _ => none

def ofJson? : Json → Option Config
  | .object members => standard.ofMembers? [] members
  | .array items => standard.ofItems? Setting.all items
  | _ => none

def parse? (text : String) : Option Config := (Json.parse? text).bind ofJson?

/-- A limit written in decimal; blanks around it and one plus sign are allowed. -/
def limit? (text : String) : Option Nat :=
  let digits :=
    match Text.trim text.toList with
    | '+' :: cs => cs
    | cs => cs
  if !digits.isEmpty && digits.all Char.isDigit && Json.ofDigits digits ≤ maxLimit then
    some (Json.ofDigits digits)
  else none

/-- A flag, in any mixture of ASCII cases and with blanks around it. -/
def flag? (text : String) : Option Bool :=
  let word := String.ofList ((Text.trim text.toList).map Char.toLower)
  if ["1", "true", "yes", "on"].contains word then some true
  else if ["0", "false", "no", "off"].contains word then some false
  else none

/-- Settings from environment variables whose names start with `scope`; unreadable ones are
ignored. -/
def ofEnvironment (scope : String) (environment : List (String × String)) : Config :=
  let valueOf (name : String) : Option String := environment.lookup (scope ++ name)
  let c := standard
  { c with
    maxCallDepth := ((valueOf "_MAX_CALL_DEPTH").bind limit?).getD c.maxCallDepth
    maxReentryDepth := ((valueOf "_MAX_REENTRY_DEPTH").bind limit?).getD c.maxReentryDepth
    traceExecution := ((valueOf "_TRACE").bind flag?).getD c.traceExecution
    dumpBytecode := ((valueOf "_DUMP_BYTECODE").bind flag?).getD c.dumpBytecode }

end Config

end MessageMachine
