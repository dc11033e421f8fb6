import MessageMachine.World

namespace MessageMachine

/-- The frame of an activation, its own or shared with the blocks that captured it. -/
inductive FrameHandle where
  | own (f : Frame)
  | shared (r : FrameRef)

namespace FrameHandle

def frame (w : World) : FrameHandle → Frame
  | own f => f
  | shared r => w.frames.get r

def isShared : FrameHandle → Bool
  | own _ => false
  | shared _ => true

def modify (a : FrameHandle) (op : Frame → Except Fault Frame) : Action FrameHandle := fun w =>
  match a with
  | own f =>
    match op f with
    | .ok f => .ok (own f) w
    | .error e => .error e w
  | shared r =>
    match op (w.frames.get r) with
    | .ok f => .ok (shared r) (w.setFrame r f)
    | .error e => .error e w

def take (a : FrameHandle) (op : Frame → Except Fault (α × Frame)) : Action (α × FrameHandle) :=
  fun w =>
    match a with
    | own f =>
      match op f with
      | .ok (x, f) => .ok (x, own f) w
      | .error e => .error e w
    | shared r =>
      match op (w.frames.get r) with
      | .ok (x, f) => .ok (x, shared r) (w.setFrame r f)
      | .error e => .error e w

def push (a : FrameHandle) (v : Value) : Action FrameHandle := a.modify (·.push v)

def pop (a : FrameHandle) : Action (Value × FrameHandle) := a.take (·.pop)

def popN (a : FrameHandle) (count : Nat) : Action (List Value × FrameHandle) :=
  a.take (·.popN count)

def peek (a : FrameHandle) (offset : Nat) : Action Value := do (a.frame (← get)).peek offset

/-- Moves the frame to where blocks can share it, unless it is there already. -/
def share (a : FrameHandle) (w : World) : FrameRef × World :=
  match a with
  | own f => w.newFrame f
  | shared r => (r, w)

end FrameHandle

namespace World

def follow (w : World) : Nat → Option FrameRef → Option FrameRef
  | 0, r => r
  | _ + 1, none => none
  | links + 1, some r => w.follow links (w.frames.get r).outer

/-- The captured frame `level` links outward; level zero counts as one. -/
def outerContext (w : World) (f : Frame) (level : UInt8) : Except Fault FrameRef :=
  match w.follow (level.toNat - 1) f.outer with
  | some r => .ok r
  | none => .error (.missingContext f.method level)

/-- Reads a slot of the frame itself or of the frame `level` links outward. -/
def readSlot (w : World) (f : Frame) (area : Area) (index : Nat) (level : UInt8) :
    Except Fault Value :=
  if level = 0 then f.read area index
  else do (w.frames.get (← w.outerContext f level)).read area index

/-- The receiver of the method that a frame belongs to: argument zero of its outermost context. -/
def receiver (w : World) (f : Frame) : Except Fault Value := w.readSlot f .arguments 0 f.code.level

end World

namespace FrameHandle

def readSlot (a : FrameHandle) (area : Area) (index : Nat) (level : UInt8) : Action Value := do
  let w ← get
  w.readSlot (a.frame w) area index level

def writeSlot (a : FrameHandle) (area : Area) (index : Nat) (level : UInt8) (v : Value) :
    Action FrameHandle := do
  if level = 0 then a.modify (·.write area index v)
  else
    let w ← get
    let r ← w.outerContext (a.frame w) level
    let f ← (w.frames.get r).write area index v
    set (w.setFrame r f)
    return a

def receiver (a : FrameHandle) : Action Value := do
  let w ← get
  w.receiver (a.frame w)

end FrameHandle

end MessageMachine
