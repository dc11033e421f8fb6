import MessageMachine.Activation

namespace MessageMachine

/-- A fault that running code may raise. -/
def Fault.Raised (f : Fault) : Prop := f ≠ .internal .nonLocalReturnEscaped

/-- A fault that code is meant to raise, whatever the code. -/
def Fault.Meant (f : Fault) : Prop := f ≠ .internal .stackPointerOutside

def Fault.Ordinary (f : Fault) : Prop := f.Raised ∧ f.Meant

variable {w : World} {f : Frame} {e : Fault}

namespace Frame

variable {area : Area} {index : Nat} {v : Value}

theorem push_eq_error (h : f.push v = .error e) :
    e = .stackOverflow (.method (.compiled f.method)) f.top f.slots.size := by
  unfold push at h
  split at h <;> cases h
  rfl

theorem pop_eq_error (h : f.pop = .error e) :
    e = f.underflow ∨ e = .internal .stackPointerOutside := by
  unfold pop at h
  split at h
  · cases h
    exact .inl rfl
  · dsimp only at h
    split at h <;> cases h
    exact .inr rfl

theorem popN_eq_error {n : Nat} (h : f.popN n = .error e) :
    e = f.underflow ∨ e = .internal .stackPointerOutside := by
  unfold popN at h
  split at h
  · cases h
    exact .inl rfl
  · dsimp only at h
    split at h <;> cases h
    exact .inr rfl

theorem peek_eq_error {offset : Nat} (h : f.peek offset = .error e) :
    e = f.underflow ∨ e = .internal .stackPointerOutside := by
  unfold peek at h
  split at h
  · cases h
    exact .inl rfl
  · split at h <;> cases h
    exact .inr rfl

theorem read_eq_error (h : f.read area index = .error e) : e = f.noSlot area index := by
  unfold read at h
  split at h
  · split at h <;> cases h
    rfl
  · cases h
    rfl

theorem write_eq_error (h : f.write area index v = .error e) : e = f.noSlot area index := by
  unfold write at h
  split at h <;> cases h
  rfl

theorem ordinary_of_push (h : f.push v = .error e) : e.Ordinary := by
  obtain rfl := push_eq_error h
  exact ⟨nofun, nofun⟩

theorem raised_of_pop (h : f.pop = .error e) : e.Raised := by
  obtain rfl | rfl := pop_eq_error h <;> nofun

theorem raised_of_popN {n : Nat} (h : f.popN n = .error e) : e.Raised := by
  obtain rfl | rfl := popN_eq_error h <;> nofun

theorem raised_of_peek {offset : Nat} (h : f.peek offset = .error e) : e.Raised := by
  obtain rfl | rfl := peek_eq_error h <;> nofun

theorem ordinary_of_read (h : f.read area index = .error e) : e.Ordinary := by
  obtain rfl := read_eq_error h
  exact ⟨nofun, nofun⟩

theorem ordinary_of_write (h : f.write area index v = .error e) : e.Ordinary := by
  obtain rfl := write_eq_error h
  exact ⟨nofun, nofun⟩

end Frame

namespace World

variable {r : CodeRef} {index : Nat} {level : UInt8}

theorem outerContext_eq_error : w.outerContext f level = .error e ↔
    w.follow (level.toNat - 1) f.outer = none ∧ e = .missingContext f.method level := by
  unfold outerContext
  split
  · next r hr => simp [hr]
  · next hr => simp [hr, eq_comm]

theorem readSlot_eq_error {area : Area} (h : w.readSlot f area index level = .error e) :
    e = .missingContext f.method level ∨ ∃ m, e = .internal (.noSlot m area index) := by
  unfold readSlot at h
  split at h
  · exact .inr ⟨_, Frame.read_eq_error h⟩
  · cases hr : w.outerContext f level with
    | error e' =>
      rw [hr] at h
      cases h
      exact .inl (outerContext_eq_error.mp hr).2
    | ok r =>
      rw [hr] at h
      change (w.frames.get r).read area index = .error e at h
      exact .inr ⟨_, Frame.read_eq_error h⟩

theorem literal_eq_error (h : w.literal r index = .error e) : e = .missingLiteral r index := by
  unfold literal at h
  split at h <;> cases h
  rfl

theorem symbolLiteral_eq_error (h : w.symbolLiteral r index = .error e) :
    e = .missingLiteral r index ∨ e = .literalType r index .symbol := by
  unfold symbolLiteral at h
  cases hv : w.literal r index with
  | error e' =>
    rw [hv] at h
    cases h
    exact .inl (literal_eq_error hv)
  | ok v =>
    rw [hv] at h
    cases v <;> cases h
    all_goals exact .inr rfl

theorem blockLiteral_eq_error (h : w.blockLiteral r index = .error e) :
    e = .missingLiteral r index ∨ e = .literalType r index .block := by
  unfold blockLiteral at h
  cases hv : w.literal r index with
  | error e' =>
    rw [hv] at h
    cases h
    exact .inl (literal_eq_error hv)
  | ok v =>
    rw [hv] at h
    dsimp only [bind, Except.bind] at h
    split at h
    · split at h <;> cases h
      exact .inr rfl
    · cases h
      exact .inr rfl

theorem ordinary_of_outerContext (h : w.outerContext f level = .error e) : e.Ordinary := by
  obtain ⟨-, rfl⟩ := outerContext_eq_error.mp h
  exact ⟨nofun, nofun⟩

theorem ordinary_of_readSlot {area : Area} (h : w.readSlot f area index level = .error e) :
    e.Ordinary := by
  obtain rfl | ⟨m, rfl⟩ := readSlot_eq_error h <;> exact ⟨nofun, nofun⟩

theorem ordinary_of_literal (h : w.literal r index = .error e) : e.Ordinary := by
  obtain rfl := literal_eq_error h
  exact ⟨nofun, nofun⟩

theorem ordinary_of_symbolLiteral (h : w.symbolLiteral r index = .error e) : e.Ordinary := by
  obtain rfl | rfl := symbolLiteral_eq_error h <;> exact ⟨nofun, nofun⟩

theorem ordinary_of_blockLiteral (h : w.blockLiteral r index = .error e) : e.Ordinary := by
  obtain rfl | rfl := blockLiteral_eq_error h <;> exact ⟨nofun, nofun⟩

end World

theorem Activation.ordinary_of_fetch {a : Activation} (h : a.fetch w = .error e) : e.Ordinary := by
  unfold fetch at h
  split at h <;> cases h <;> exact ⟨nofun, nofun⟩

end MessageMachine
