import MessageMachine.Proofs.Discipline

namespace MessageMachine

/-- The slots that instructions can address in the frame of a body. -/
structure Shape where
  args : Nat
  locals : Nat

def Shape.size (s : Shape) : Area → Nat
  | .arguments => s.args
  | .locals => s.locals

def Code.shape (c : Code) : Shape := ⟨c.argCount, c.localCount⟩

theorem Frame.areaSize_eq (f : Frame) (area : Area) : f.areaSize area = f.code.shape.size area := by
  cases area <;> rfl

theorem Code.isBlock_iff {c : Code} : c.isBlock ↔ 0 < c.level.toNat := by
  simp only [Code.isBlock, decide_eq_true_eq]
  exact UInt8.lt_iff_toNat_lt

theorem Code.isBlock_eq_false_iff {c : Code} : c.isBlock = false ↔ c.level.toNat = 0 := by
  rw [← Bool.not_eq_true, isBlock_iff]
  omega

namespace World

variable {w w' : World}

/-- The captured frames outward of a frame have these shapes, innermost first. -/
def Encloses (w : World) : List Shape → Option FrameRef → Prop
  | [], o => o = none
  | s :: rest, o => ∃ r, o = some r ∧ r.index < w.frames.size ∧ (w.frames.get r).code.shape = s ∧
      (w.frames.get r).code.level.toNat = rest.length ∧ w.Encloses rest (w.frames.get r).outer

theorem Encloses.mono (h : w.Extends w') {outer : List Shape} {o : Option FrameRef}
    (ho : w.Encloses outer o) : w'.Encloses outer o := by
  induction outer generalizing o with
  | nil => exact ho
  | cons s rest ih =>
    obtain ⟨r, rfl, hlt, hshape, hlevel, hrest⟩ := ho
    have hc := h.frame r hlt
    refine ⟨r, rfl, Nat.lt_of_lt_of_le hlt h.frames_le, ?_, ?_, ?_⟩
    · rw [hc.code, hshape]
    · rw [hc.code, hlevel]
    · rw [hc.outer]
      exact ih hrest

theorem Encloses.follow {outer : List Shape} {o : Option FrameRef} (h : w.Encloses outer o)
    {n : Nat} {s : Shape} (hs : outer[n]? = some s) :
    ∃ r, w.follow n o = some r ∧ r.index < w.frames.size ∧ (w.frames.get r).code.shape = s ∧
      (w.frames.get r).code.level.toNat = outer.length - 1 - n := by
  induction n generalizing outer o with
  | zero =>
    cases outer with
    | nil => cases hs
    | cons s' rest =>
      cases hs
      obtain ⟨r, rfl, hlt, hshape, hlevel, -⟩ := h
      exact ⟨r, rfl, hlt, hshape, hlevel⟩
  | succ n ih =>
    cases outer with
    | nil => cases hs
    | cons s' rest =>
      obtain ⟨r, rfl, -, -, -, hrest⟩ := h
      obtain ⟨r', hfollow, hlt, hshape, hlevel⟩ := ih hrest hs
      refine ⟨r', hfollow, hlt, hshape, hlevel.trans ?_⟩
      rw [List.length_cons]
      omega

theorem Encloses.home {outer : List Shape} {o : Option FrameRef} (h : w.Encloses outer o)
    (hne : outer ≠ []) :
    ∃ r, w.follow (outer.length - 1) o = some r ∧ r.index < w.frames.size ∧
      (w.frames.get r).code.isBlock = false := by
  have hlt : outer.length - 1 < outer.length := Nat.sub_lt (List.length_pos_iff.mpr hne) Nat.one_pos
  obtain ⟨r, hfollow, hr, -, hlevel⟩ := h.follow (List.getElem?_eq_getElem hlt)
  refine ⟨r, hfollow, hr, Code.isBlock_eq_false_iff.mpr ?_⟩
  rw [hlevel, Nat.sub_self]

theorem Encloses.cons {outer : List Shape} {f : Frame} (h : w.Encloses outer f.outer)
    (hlevel : f.code.level.toNat = outer.length) {r : FrameRef} (hr : r.index < w.frames.size)
    (hget : w.frames.get r = f) : w.Encloses (f.code.shape :: outer) (some r) := by
  subst hget
  exact ⟨r, rfl, hr, rfl, hlevel, h⟩

theorem follow_end {n m : Nat} {o : Option FrameRef} {r s : FrameRef}
    (hr : w.follow n o = some r) (hrend : (w.frames.get r).outer = none)
    (hs : w.follow m o = some s) (hsend : (w.frames.get s).outer = none) : r = s := by
  have hnone (n : Nat) : w.follow n none = none := by cases n <;> rfl
  induction n generalizing m o with
  | zero =>
    cases hr
    cases m with
    | zero => exact Option.some.inj hs
    | succ m =>
      rw [follow, hrend, hnone] at hs
      cases hs
  | succ n ih =>
    cases o with
    | none => cases hr
    | some t =>
      rw [follow] at hr
      cases m with
      | zero =>
        cases hs
        rw [hsend, hnone] at hr
        cases hr
      | succ m => exact ih hr hs

end World

end MessageMachine
