import MessageMachine.Context
import MessageMachine.Proofs.Action

namespace MessageMachine

namespace World

theorem follow_congr {w v : World} (h : v.frames = w.frames) (links : Nat)
    (r : Option FrameRef) : v.follow links r = w.follow links r := by
  induction links generalizing r with
  | zero => rfl
  | succ links ih =>
    cases r with
    | none => rfl
    | some r => simp only [follow, h, ih]

theorem outerContext_congr {w v : World} (h : v.frames = w.frames) (f : Frame) (level : UInt8) :
    v.outerContext f level = w.outerContext f level := by
  simp only [outerContext, follow_congr h]

theorem outerContext_of_follow {w : World} {f : Frame} {level : UInt8} {r : FrameRef}
    (h : w.follow (level.toNat - 1) f.outer = some r) : w.outerContext f level = .ok r := by
  simp only [outerContext, h]

theorem readSlot_congr {w v : World} (h : v.frames = w.frames) (f : Frame) (area : Area)
    (index : Nat) (level : UInt8) :
    v.readSlot f area index level = w.readSlot f area index level := by
  simp only [readSlot, outerContext_congr h, h]

end World

namespace FrameHandle

theorem frame_congr {w v : World} (h : v.frames = w.frames) (a : FrameHandle) :
    a.frame v = a.frame w := by
  cases a with
  | own f => rfl
  | shared r => simp only [frame, h]

theorem peek_apply (a : FrameHandle) (offset : Nat) (w : World) :
    a.peek offset w = match (a.frame w).peek offset with
      | .ok x => .ok x w
      | .error e => .error e w := by
  simp only [peek, Action.bind_apply, Action.get_apply]
  cases (a.frame w).peek offset <;> rfl

theorem writeSlot_eq (a : FrameHandle) (area : Area) (index : Nat) {level : UInt8}
    (hl : level ≠ 0) (x : Value) (w : World) :
    a.writeSlot area index level x w =
      match w.outerContext (a.frame w) level with
      | .error e => .error e w
      | .ok r =>
        match (w.frames.get r).write area index x with
        | .error e => .error e w
        | .ok f => .ok a (w.setFrame r f) := by
  simp only [writeSlot, if_neg hl, Action.bind_apply, Action.get_apply]
  cases w.outerContext (a.frame w) level with
  | error e => rfl
  | ok r => cases hf : (w.frames.get r).write area index x <;> simp [hf]

/-- Puts a frame in the place of the frame of a handle. -/
def put (a : FrameHandle) (f : Frame) (w : World) : FrameHandle × World :=
  match a with
  | own _ => (own f, w)
  | shared r => (shared r, w.setFrame r f)

theorem modify_apply (a : FrameHandle) (op : Frame → Except Fault Frame) (w : World) :
    a.modify op w = match op (a.frame w) with
      | .ok f => .ok (a.put f w).1 (a.put f w).2
      | .error e => .error e w := by
  cases a with
  | own f =>
    simp only [modify, frame]
    cases op f <;> rfl
  | shared r =>
    simp only [modify, frame]
    cases op (w.frames.get r) <;> rfl

theorem take_apply {α : Type} (a : FrameHandle) (op : Frame → Except Fault (α × Frame))
    (w : World) :
    a.take op w = match op (a.frame w) with
      | .ok (x, f) => .ok (x, (a.put f w).1) (a.put f w).2
      | .error e => .error e w := by
  cases a with
  | own f =>
    simp only [take, frame]
    cases op f <;> rfl
  | shared r =>
    simp only [take, frame]
    cases op (w.frames.get r) <;> rfl

end FrameHandle

end MessageMachine
