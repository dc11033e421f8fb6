namespace MessageMachine

def isOperatorChar (c : Char) : Bool :=
  ['~', '&', '|', '*', '/', '@', '+', '-', '=', '>', '<', ',', '%', '\\'].contains c

def selectorArityOf (cs : List Char) : Nat :=
  if !cs.isEmpty && cs.all isOperatorChar then 2 else (cs.filter (· == ':')).length + 1

/-- Number of operands, receiver included: two for operators, else one more than the colons. -/
def selectorArity (name : String) : Nat := selectorArityOf name.toList

/-- A name known to a symbol table, with the position at which it was interned. -/
structure Symbol where
  index : Nat
  name : String
deriving DecidableEq, Repr, Inhabited

namespace Symbol

def arity (s : Symbol) : Nat := selectorArity s.name

theorem arity_pos (s : Symbol) : 0 < s.arity := by
  unfold arity selectorArity selectorArityOf
  split <;> omega

end Symbol

structure SymbolTable where
  symbols : List Symbol
deriving Inhabited

namespace SymbolTable

def empty : SymbolTable := ⟨[]⟩

def size (t : SymbolTable) : Nat := t.symbols.length

def isEmpty (t : SymbolTable) : Bool := t.symbols.isEmpty

def get? (t : SymbolTable) (name : String) : Option Symbol := t.symbols.find? (·.name == name)

def intern (t : SymbolTable) (name : String) : Symbol × SymbolTable :=
  match t.get? name with
  | some s => (s, t)
  | none =>
    let s : Symbol := ⟨t.size, name⟩
    (s, ⟨s :: t.symbols⟩)

@[simp] theorem get?_empty (name : String) : empty.get? name = none := rfl

theorem name_of_get? {t : SymbolTable} {name : String} {s : Symbol} (h : t.get? name = some s) :
    s.name = name := by
  have := List.find?_some h
  simpa using this

@[simp] theorem name_intern (t : SymbolTable) (name : String) : (t.intern name).1.name = name := by
  unfold intern
  split
  · next h => exact name_of_get? h
  · rfl

@[simp] theorem get?_intern (t : SymbolTable) (name other : String) :
    (t.intern name).2.get? other =
      if name = other then some (t.intern name).1 else t.get? other := by
  unfold intern
  split
  · next h =>
    split
    · next e => rw [← e, h]
    · rfl
  · by_cases e : name = other <;> simp [get?, e]

theorem get?_intern_of_get? {t : SymbolTable} {other : String} {s : Symbol} (h : t.get? other = some s)
    (name : String) : (t.intern name).2.get? other = some s := by
  rw [get?_intern]
  split
  · next heq => rw [intern, heq, h]
  · exact h

end SymbolTable

end MessageMachine
