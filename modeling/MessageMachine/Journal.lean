namespace MessageMachine

inductive Severity where
  | debug | trace
deriving DecidableEq, Repr

namespace Severity

def label : Severity → String
  | debug => "DEBUG"
  | trace => "TRACE"

def admits (threshold severity : Severity) : Bool :=
  threshold == trace || severity == debug

end Severity

structure Journal where
  /-- The most detailed records to keep; without one nothing is kept. -/
  threshold : Option Severity
  records : Array (Severity × String)

namespace Journal

def off : Journal := ⟨none, #[]⟩

def keeping (threshold : Severity) : Journal := ⟨some threshold, #[]⟩

instance : Inhabited Journal := ⟨off⟩

def keeps (j : Journal) (severity : Severity) : Bool :=
  match j.threshold with
  | none => false
  | some t => t.admits severity

def record (j : Journal) (severity : Severity) (text : String) : Journal :=
  { j with records := j.records.push (severity, text) }

def drain (j : Journal) : Journal := { j with records := #[] }

end Journal

end MessageMachine
