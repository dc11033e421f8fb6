namespace MessageMachine

inductive CellKind where
  | classes | codes | primitives | arrays | objects | frames | markers
deriving DecidableEq, Repr

/-- The name of a cell. Two references are the same object exactly when they are equal. -/
structure Ref (kind : CellKind) where
  index : Nat
deriving DecidableEq, Repr, Inhabited

abbrev ClassRef := Ref .classes
abbrev CodeRef := Ref .codes
abbrev PrimitiveRef := Ref .primitives
abbrev ArrayRef := Ref .arrays
abbrev ObjectRef := Ref .objects
abbrev FrameRef := Ref .frames
abbrev MarkerRef := Ref .markers

structure Arena (kind : CellKind) (α : Type) where
  cells : Array α

namespace Arena

variable {kind : CellKind} {α : Type}

def empty : Arena kind α := ⟨#[]⟩

instance : Inhabited (Arena kind α) := ⟨empty⟩

def size (a : Arena kind α) : Nat := a.cells.size

def next (a : Arena kind α) : Ref kind := ⟨a.size⟩

def get? (a : Arena kind α) (r : Ref kind) : Option α := a.cells[r.index]?

/-- The cell named by `r`; a reference that names no cell reads as the default. -/
def get [Inhabited α] (a : Arena kind α) (r : Ref kind) : α := a.cells.getD r.index default

def push (a : Arena kind α) (v : α) : Arena kind α := ⟨a.cells.push v⟩

def set (a : Arena kind α) (r : Ref kind) (v : α) : Arena kind α :=
  ⟨a.cells.setIfInBounds r.index v⟩

def modify (a : Arena kind α) (r : Ref kind) (f : α → α) : Arena kind α :=
  ⟨a.cells.modify r.index f⟩

/-- References in the order of their allocation. -/
def refs (a : Arena kind α) : List (Ref kind) := (List.range a.size).map Ref.mk

@[simp] theorem size_push (a : Arena kind α) (v : α) : (a.push v).size = a.size + 1 := by
  simp [size, push]

@[simp] theorem size_set (a : Arena kind α) (r : Ref kind) (v : α) : (a.set r v).size = a.size := by
  simp [size, set]

@[simp] theorem size_modify (a : Arena kind α) (r : Ref kind) (f : α → α) :
    (a.modify r f).size = a.size := by
  simp [size, modify]

theorem get_eq_get?_getD [Inhabited α] (a : Arena kind α) (r : Ref kind) :
    a.get r = (a.get? r).getD default := by
  simp [get, get?]

@[simp] theorem get?_push (a : Arena kind α) (v : α) (r : Ref kind) :
    (a.push v).get? r = if r = a.next then some v else a.get? r := by
  obtain ⟨i⟩ := r
  simp [get?, push, next, size, Array.getElem?_push]

theorem get?_set (a : Arena kind α) (r s : Ref kind) (v : α) :
    (a.set r v).get? s =
      if r = s then (if r.index < a.size then some v else none) else a.get? s := by
  obtain ⟨i⟩ := r
  obtain ⟨j⟩ := s
  by_cases h : i = j <;> simp [get?, set, size, Array.getElem?_setIfInBounds, h]

theorem get?_modify (a : Arena kind α) (r s : Ref kind) (f : α → α) :
    (a.modify r f).get? s = if r = s then (a.get? s).map f else a.get? s := by
  obtain ⟨i⟩ := r
  obtain ⟨j⟩ := s
  by_cases h : i = j <;> simp [get?, modify, Array.getElem?_modify, h]

end Arena

end MessageMachine
