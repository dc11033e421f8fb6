namespace MessageMachine

structure Config where
  maxCallDepth : Nat
  /-- Run loops that may be nested through primitives. -/
  maxReentryDepth : Nat
  traceExecution : Bool
  dumpBytecode : Bool
  echoTranscript : Bool
deriving DecidableEq, Repr

def Config.standard : Config := ⟨1000, 100, false, false, false⟩

instance : Inhabited Config := ⟨Config.standard⟩

end MessageMachine
