import MessageMachine.Double

namespace MessageMachine

structure Counters where
  sends : Nat
  cacheHits : Nat
  cacheMisses : Nat
  lookups : Nat
  /-- Misses at a site whose cache was already full. -/
  saturatedMisses : Nat
  doesNotUnderstand : Nat
  unknownGlobals : Nat
  frames : Nat
  nonLocalReturns : Nat
  escapedBlocks : Nat
deriving DecidableEq, Repr

namespace Counters

def zero : Counters := ⟨0, 0, 0, 0, 0, 0, 0, 0, 0, 0⟩

instance : Inhabited Counters := ⟨zero⟩

/-- The share of sends that an inline cache served; zero when nothing was sent. -/
def hitRatio (c : Counters) : Double :=
  if c.sends = 0 then .ofInt 0 else (Double.ofInt c.cacheHits).div (.ofInt c.sends)

end Counters

end MessageMachine
