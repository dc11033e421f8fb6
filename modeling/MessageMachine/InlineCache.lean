import MessageMachine.Value

namespace MessageMachine

structure CacheEntry where
  cls : ClassRef
  method : Method
deriving DecidableEq, Repr

inductive InlineCache where
  | cold
  | single (primary : CacheEntry)
  | full (primary fallback : CacheEntry)
deriving DecidableEq, Repr

inductive CacheFill where
  | primary | fallback
  /-- Both places are taken; nothing was recorded. -/
  | saturated
deriving DecidableEq, Repr

namespace CacheFill

def name : CacheFill → String
  | primary => "Primary"
  | fallback => "Fallback"
  | saturated => "Saturated"

end CacheFill

namespace InlineCache

instance : Inhabited InlineCache := ⟨cold⟩

def entries : InlineCache → List CacheEntry
  | cold => []
  | single e => [e]
  | full e f => [e, f]

def find? (c : InlineCache) (cls : ClassRef) : Option Method :=
  (c.entries.find? (·.cls = cls)).map (·.method)

def fill (c : InlineCache) (cls : ClassRef) (m : Method) : CacheFill × InlineCache :=
  match c with
  | cold => (.primary, single ⟨cls, m⟩)
  | single e => (.fallback, full e ⟨cls, m⟩)
  | full _ _ => (.saturated, c)

def classes (c : InlineCache) : List ClassRef := c.entries.map (·.cls)

def occupancy (c : InlineCache) : Nat := c.entries.length

def isSaturated (c : InlineCache) : Bool := c.occupancy == 2

theorem entries_fill (c : InlineCache) (cls : ClassRef) (m : Method) :
    (c.fill cls m).2.entries =
      if (c.fill cls m).1 = .saturated then c.entries else c.entries ++ [⟨cls, m⟩] := by
  cases c <;> rfl

end InlineCache

end MessageMachine
