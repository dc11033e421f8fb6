namespace MessageMachine

/-- A table from keys to values, oldest key first. -/
structure Table (κ α : Type) where
  entries : List (κ × α)

namespace Table

variable {κ α : Type} [DecidableEq κ]

def empty : Table κ α := ⟨[]⟩

instance : Inhabited (Table κ α) := ⟨empty⟩

def size (t : Table κ α) : Nat := t.entries.length

def keys (t : Table κ α) : List κ := t.entries.map (·.1)

def values (t : Table κ α) : List α := t.entries.map (·.2)

def findIn (k : κ) : List (κ × α) → Option α
  | [] => none
  | e :: rest => if e.1 = k then some e.2 else findIn k rest

def find? (t : Table κ α) (k : κ) : Option α := findIn k t.entries

/-- Replaces the value of `k` where it stands, or adds `k` at the end. -/
def insertIn (k : κ) (v : α) : List (κ × α) → List (κ × α)
  | [] => [(k, v)]
  | e :: rest => if e.1 = k then (k, v) :: rest else e :: insertIn k v rest

def insert (t : Table κ α) (k : κ) (v : α) : Table κ α := ⟨insertIn k v t.entries⟩

def contains (t : Table κ α) (k : κ) : Bool := (t.find? k).isSome

def filterKeys (t : Table κ α) (p : κ → Bool) : Table κ α :=
  ⟨t.entries.filter fun e => p e.1⟩

theorem findIn_insertIn (k k' : κ) (v : α) (es : List (κ × α)) :
    findIn k' (insertIn k v es) = if k = k' then some v else findIn k' es := by
  induction es with
  | nil => simp [insertIn, findIn]
  | cons e rest ih =>
    by_cases he : e.1 = k
    · by_cases hk : k = k' <;> simp_all [insertIn, findIn]
    · by_cases hk : k = k'
      · subst hk; simp_all [insertIn, findIn]
      · by_cases h' : e.1 = k' <;> simp_all [insertIn, findIn]

@[simp] theorem find?_empty (k : κ) : (empty : Table κ α).find? k = none := rfl

@[simp] theorem find?_insert (t : Table κ α) (k k' : κ) (v : α) :
    (t.insert k v).find? k' = if k = k' then some v else t.find? k' :=
  findIn_insertIn k k' v t.entries

theorem find?_insert_self (t : Table κ α) (k : κ) (v : α) :
    (t.insert k v).find? k = some v := by simp

end Table

end MessageMachine
