import MessageMachine.Proofs.Handle
import MessageMachine.Proofs.Operands
import MessageMachine.Proofs.Quiet

namespace MessageMachine

/-- What the activation of `c` with marker `k` does to a world: it may change its own frame, the
slots that blocks share, and the stores. -/
structure World.Moved (k : MarkerRef) (c : CodeRef) (w w' : World) : Prop where
  config : w'.config = w.config
  classes : w'.classes = w.classes
  registered : w'.registered = w.registered
  codes : w'.codes = w.codes
  primitives : w'.primitives = w.primitives
  markers : w'.markers = w.markers
  depth : w'.depth = w.depth
  reentry : w'.reentry = w.reentry
  frames_le : w.frames.size ≤ w'.frames.size
  frame : ∀ r, r.index < w.frames.size → (w.frames.get r).Continues (w'.frames.get r)
  kept : ∀ r, r.index < w.frames.size → (w.frames.get r).Proper → (w.frames.get r).marker ≠ k →
    (w'.frames.get r).operands = (w.frames.get r).operands
  fresh : ∀ r, w.frames.size ≤ r.index → r.index < w'.frames.size →
    (w'.frames.get r).marker = k ∧ (w'.frames.get r).method = c

variable {k k' : MarkerRef} {c c' : CodeRef} {w w' w'' : World} {α β : Type}

namespace World

namespace Moved

theorem of_still (h : w.Still w') : w.Moved k c w' where
  config := h.config
  classes := h.classes
  registered := h.registered
  codes := h.codes
  primitives := h.primitives
  markers := h.markers
  depth := h.depth
  reentry := h.reentry
  frames_le := Nat.le_of_eq (by rw [h.frames])
  frame := fun r _ => by
    rw [h.frames]
    exact .refl _
  kept := fun r _ _ _ => by rw [h.frames]
  fresh := fun r hle hlt => by
    rw [h.frames] at hlt
    exact absurd hlt (Nat.not_lt.mpr hle)

theorem refl (w : World) : w.Moved k c w := of_still (.refl w)

theorem trans (h : w.Moved k c w') (h' : w'.Moved k c w'') : w.Moved k c w'' where
  config := h'.config.trans h.config
  classes := h'.classes.trans h.classes
  registered := h'.registered.trans h.registered
  codes := h'.codes.trans h.codes
  primitives := h'.primitives.trans h.primitives
  markers := h'.markers.trans h.markers
  depth := h'.depth.trans h.depth
  reentry := h'.reentry.trans h.reentry
  frames_le := Nat.le_trans h.frames_le h'.frames_le
  frame := fun r hr => (h.frame r hr).trans (h'.frame r (Nat.lt_of_lt_of_le hr h.frames_le))
  kept := fun r hr hp hk => by
    have hc := h.frame r hr
    rw [← h.kept r hr hp hk]
    refine h'.kept r (Nat.lt_of_lt_of_le hr h.frames_le) (hc.proper hp) ?_
    rw [hc.marker]
    exact hk
  fresh := fun r hle hlt => by
    by_cases hr : r.index < w'.frames.size
    · have hf := h'.frame r hr
      rw [hf.marker, hf.method]
      exact h.fresh r hle hr
    · exact h'.fresh r (Nat.le_of_not_lt hr) hlt

end Moved

theorem setFrame_moved {r : FrameRef} {f : Frame} (hc : (w.frames.get r).Continues f)
    (hk : (w.frames.get r).Proper → (w.frames.get r).marker ≠ k →
      f.operands = (w.frames.get r).operands) : w.Moved k c (w.setFrame r f) where
  config := rfl
  classes := rfl
  registered := rfl
  codes := rfl
  primitives := rfl
  markers := rfl
  depth := rfl
  reentry := rfl
  frames_le := Nat.le_of_eq (Arena.size_set _ _ _).symm
  frame := fun s _ => by
    simp only [World.setFrame, Arena.get_set]
    split
    · next h => exact h.1 ▸ hc
    · exact .refl _
  kept := fun s hs hp hne => by
    simp only [World.setFrame, Arena.get_set]
    split
    · next h =>
      obtain ⟨rfl, -⟩ := h
      exact hk hp hne
    · rfl
  fresh := fun s hle hlt => by
    simp only [World.setFrame, Arena.size_set] at hlt
    exact absurd hlt (Nat.not_lt.mpr hle)

theorem newFrame_moved {f : Frame} (hmarker : f.marker = k) (hmethod : f.method = c) :
    w.Moved k c (w.newFrame f).2 := by
  have hold (r : FrameRef) (hr : r.index < w.frames.size) :
      (w.newFrame f).2.frames.get r = w.frames.get r := by
    rw [World.newFrame, Arena.get_push, if_neg]
    rintro rfl
    exact Nat.lt_irrefl _ hr
  refine ⟨rfl, rfl, rfl, rfl, rfl, rfl, rfl, rfl, ?_, fun r hr => ?_, fun r hr _ _ => ?_,
    fun r hle hlt => ?_⟩
  · simp only [World.newFrame, Arena.size_push]
    exact Nat.le_succ _
  · rw [hold r hr]
    exact .refl _
  · rw [hold r hr]
  · simp only [World.newFrame, Arena.size_push] at hlt
    have hr : r = w.frames.next := by
      obtain ⟨i⟩ := r
      exact congrArg Ref.mk (Nat.le_antisymm (Nat.le_of_lt_succ hlt) hle)
    rw [World.newFrame, Arena.get_push, if_pos hr]
    exact ⟨hmarker, hmethod⟩

end World

namespace FrameHandle

variable {a b : FrameHandle}

/-- A handle of the frame of the activation of `c` with marker `k`. -/
structure Held (k : MarkerRef) (c : CodeRef) (a : FrameHandle) (w : World) : Prop where
  bound : ∀ r, a = .shared r → r.index < w.frames.size
  proper : (a.frame w).Proper
  marker : (a.frame w).marker = k
  method : (a.frame w).method = c

/-- A handle after some work of its activation. Once the frame is shared it stays where it is. -/
structure Leads (k : MarkerRef) (c : CodeRef) (a : FrameHandle) (w : World) (b : FrameHandle)
    (w' : World) : Prop where
  moved : w.Moved k c w'
  held : b.Held k c w'
  code : (b.frame w').code = (a.frame w).code
  stays : ∀ r, a = .shared r → b = .shared r
  seat : ∀ r : FrameRef, w.frames.size ≤ r.index → r.index < w'.frames.size → b = .shared r

namespace Held

theorem congr (h : a.Held k c w) (hframes : w'.frames = w.frames) : a.Held k c w' := by
  have hframe := a.frame_congr hframes
  refine ⟨fun r hr => ?_, ?_, ?_, ?_⟩
  · rw [hframes]
    exact h.bound r hr
  · rw [hframe]
    exact h.proper
  · rw [hframe]
    exact h.marker
  · rw [hframe]
    exact h.method

theorem moved (h : a.Held k c w) (hm : w.Moved k' c' w') : a.Held k c w' := by
  cases a with
  | own f => exact ⟨nofun, h.proper, h.marker, h.method⟩
  | shared r =>
    have hr := h.bound r rfl
    have hc := hm.frame r hr
    refine ⟨fun s hs => ?_, hc.proper h.proper, hc.marker.trans h.marker, hc.method.trans h.method⟩
    cases hs
    exact Nat.lt_of_lt_of_le hr hm.frames_le

theorem code_moved (h : a.Held k c w) (hm : w.Moved k' c' w') :
    (a.frame w').code = (a.frame w).code := by
  cases a with
  | own f => rfl
  | shared r => exact (hm.frame r (h.bound r rfl)).code

theorem operands (h : a.Held k c w) (hm : w.Moved k' c' w') (hk : k ≠ k') :
    (a.frame w').operands = (a.frame w).operands := by
  cases a with
  | own f => rfl
  | shared r =>
    refine hm.kept r (h.bound r rfl) h.proper ?_
    rw [show (w.frames.get r).marker = k from h.marker]
    exact hk

theorem leads (h : a.Held k c w) : a.Leads k c w a w :=
  ⟨.refl w, h, rfl, fun _ => id, fun _ hle hlt => absurd hlt (Nat.not_lt.mpr hle)⟩

theorem put (h : a.Held k c w) {f : Frame} (hc : (a.frame w).Continues f) :
    a.Leads k c w (a.put f w).1 (a.put f w).2 ∧ (a.put f w).1.frame (a.put f w).2 = f := by
  have hproper := hc.proper h.proper
  have hmarker := hc.marker.trans h.marker
  have hmethod := hc.method.trans h.method
  cases a with
  | own g =>
    refine ⟨⟨.refl w, ⟨nofun, hproper, hmarker, hmethod⟩, hc.code, nofun, fun _ hle hlt => ?_⟩, rfl⟩
    exact absurd hlt (Nat.not_lt.mpr hle)
  | shared r =>
    have hr := h.bound r rfl
    have hget : (w.setFrame r f).frames.get r = f := by
      rw [World.setFrame, Arena.get_set, if_pos ⟨rfl, hr⟩]
    have hm : w.Moved k c (w.setFrame r f) :=
      World.setFrame_moved hc fun _ hne => absurd h.marker hne
    refine ⟨⟨hm, ⟨fun s hs => ?_, ?_, ?_, ?_⟩, ?_, fun _ => id, fun s hle hlt => ?_⟩, hget⟩
    · cases hs
      exact Nat.lt_of_lt_of_le hr hm.frames_le
    · change ((w.setFrame r f).frames.get r).Proper
      rwa [hget]
    · change ((w.setFrame r f).frames.get r).marker = k
      rwa [hget]
    · change ((w.setFrame r f).frames.get r).method = c
      rwa [hget]
    · change ((w.setFrame r f).frames.get r).code = _
      rw [hget]
      exact hc.code
    · simp only [FrameHandle.put, World.setFrame, Arena.size_set] at hlt
      exact absurd hlt (Nat.not_lt.mpr hle)

end Held

namespace Leads

variable {d : FrameHandle}

theorem trans (h : a.Leads k c w b w') (h' : b.Leads k c w' d w'') : a.Leads k c w d w'' where
  moved := h.moved.trans h'.moved
  held := h'.held
  code := h'.code.trans h.code
  stays := fun r hr => h'.stays r (h.stays r hr)
  seat := fun r hle hlt => by
    by_cases hr : r.index < w'.frames.size
    · exact h'.stays r (h.seat r hle hr)
    · exact h'.seat r (Nat.le_of_not_lt hr) hlt

theorem still (h : a.Leads k c w b w') (hs : w'.Still w'') : a.Leads k c w b w'' :=
  h.trans ⟨.of_still hs, h.held.congr hs.frames, by rw [b.frame_congr hs.frames], fun _ => id,
    fun r hle hlt => by
      rw [hs.frames] at hlt
      exact absurd hlt (Nat.not_lt.mpr hle)⟩

theorem of_still (h : w.Still w') (h' : a.Leads k c w' b w'') : a.Leads k c w b w'' where
  moved := .trans (.of_still h) h'.moved
  held := h'.held
  code := by rw [← a.frame_congr h.frames, h'.code]
  stays := h'.stays
  seat := fun r hle hlt => h'.seat r (by rw [h.frames]; exact hle) hlt

end Leads

end FrameHandle

theorem World.holds_true (w : World) : w.Holds (fun _ => True) (fun _ => True) :=
  ⟨fun _ _ _ => trivial, fun _ _ _ => trivial, fun _ _ _ => trivial, fun _ _ _ _ => trivial,
    fun _ _ _ => trivial, fun _ _ _ _ => trivial⟩

theorem Action.Quiet.leaves_still {x : Action α} {P : α → Prop}
    (hx : Quiet (fun _ => True) (fun _ => True) x P) (w : World) :
    x.Ensures w (fun _ w' => w.Still w') fun _ w' => w.Still w' :=
  Ensures.mono (hx w w.holds_true) (fun _ _ h => h.2.1) fun _ _ h => h.2.1

/-- The activation of `c` with marker `k` runs this action. Whether it answers or fails, it does not
go beyond its own frame, captured slots and the stores. -/
def Action.Moves (k : MarkerRef) (c : CodeRef) (x : Action α) (w : World)
    (Q : α → World → Prop) : Prop :=
  x.Ensures w (fun a w' => w.Moved k c w' ∧ Q a w') fun _ w' => w.Moved k c w'

namespace Action.Moves

variable {Q : α → World → Prop} {R : β → World → Prop}

theorem pure {a : α} (h : Q a w) : Moves k c (pure a) w Q := ⟨.refl w, h⟩

theorem throw (f : Fault) : Moves k c (throw f : Action α) w Q := .refl w

theorem bind {x : Action α} {f : α → Action β} (hx : Moves k c x w Q)
    (hf : ∀ a w', w.Moved k c w' → Q a w' → Moves k c (f a) w' R) : Moves k c (x >>= f) w R := by
  refine Ensures.bind hx fun a w' ⟨hm, ha⟩ => (hf a w' hm ha).mono ?_ ?_
  · exact fun b w'' ⟨hm', hb⟩ => ⟨hm.trans hm', hb⟩
  · exact fun _ _ hm' => hm.trans hm'

theorem mono {x : Action α} {S : α → World → Prop} (hx : Moves k c x w Q)
    (h : ∀ a w', w.Moved k c w' → Q a w' → S a w') : Moves k c x w S :=
  Ensures.mono hx (fun a w' ⟨hm, ha⟩ => ⟨hm, h a w' hm ha⟩) fun _ _ => id

theorem get_bind {f : World → Action β} (hf : Moves k c (f w) w R) :
    Moves k c (get >>= f) w R := hf

theorem lift (e : Except Fault α) :
    Moves k c (liftM e) w fun a w' => w' = w ∧ e = .ok a := by
  cases e with
  | ok a => exact pure ⟨rfl, rfl⟩
  | error f => exact throw f

theorem quiet {x : Action α} {P : α → Prop} (hx : Quiet (fun _ => True) (fun _ => True) x P) :
    Moves k c x w fun _ w' => w.Still w' :=
  (hx.leaves_still w).mono (fun _ _ hs => ⟨.of_still hs, hs⟩) fun _ _ hs => .of_still hs

end Action.Moves

namespace FrameHandle

variable {a : FrameHandle}

theorem modify_moves (ha : a.Held k c w) {op : Frame → Except Fault Frame}
    (hop : ∀ f, op (a.frame w) = .ok f → (a.frame w).Continues f) :
    Action.Moves k c (a.modify op) w fun b w' =>
      a.Leads k c w b w' ∧ op (a.frame w) = .ok (b.frame w') := by
  unfold Action.Moves Action.Ensures
  rw [modify_apply]
  cases hf : op (a.frame w) with
  | error e => exact .refl w
  | ok f =>
    obtain ⟨hl, hframe⟩ := ha.put (hop f hf)
    exact ⟨hl.moved, hl, by rw [hframe]⟩

theorem take_moves (ha : a.Held k c w) {op : Frame → Except Fault (α × Frame)}
    (hop : ∀ x f, op (a.frame w) = .ok (x, f) → (a.frame w).Continues f) :
    Action.Moves k c (a.take op) w fun xb w' =>
      a.Leads k c w xb.2 w' ∧ op (a.frame w) = .ok (xb.1, xb.2.frame w') := by
  unfold Action.Moves Action.Ensures
  rw [take_apply]
  cases hf : op (a.frame w) with
  | error e => exact .refl w
  | ok xf =>
    obtain ⟨x, f⟩ := xf
    obtain ⟨hl, hframe⟩ := ha.put (hop x f hf)
    exact ⟨hl.moved, hl, by rw [hframe]⟩

theorem push_moves (ha : a.Held k c w) (v : Value) :
    Action.Moves k c (a.push v) w fun b w' =>
      a.Leads k c w b w' ∧ (b.frame w').operands = (a.frame w).operands ++ [v] :=
  (modify_moves ha fun _ hf => (Frame.push_eq_ok hf).1).mono fun _ _ _ ⟨hl, hf⟩ =>
    ⟨hl, (Frame.push_eq_ok hf).2.1 ha.proper⟩

theorem pop_moves (ha : a.Held k c w) :
    Action.Moves k c a.pop w fun xb w' =>
      a.Leads k c w xb.2 w' ∧ (a.frame w).operands = (xb.2.frame w').operands ++ [xb.1] :=
  (take_moves ha fun _ _ hf => (Frame.pop_eq_ok hf).1).mono fun _ _ _ ⟨hl, hf⟩ =>
    ⟨hl, (Frame.pop_eq_ok hf).2.1 ha.proper⟩

theorem popN_moves (ha : a.Held k c w) (n : Nat) :
    Action.Moves k c (a.popN n) w fun xb w' =>
      a.Leads k c w xb.2 w' ∧ xb.1.length = n ∧
        (a.frame w).operands = (xb.2.frame w').operands ++ xb.1 :=
  (take_moves ha fun _ _ hf => (Frame.popN_eq_ok hf).1).mono fun _ _ _ ⟨hl, hf⟩ =>
    have hpop := Frame.popN_eq_ok hf
    ⟨hl, hpop.2.2.1 ha.proper, hpop.2.1 ha.proper⟩

theorem peek_moves (a : FrameHandle) (offset : Nat) :
    Action.Moves k c (a.peek offset) w fun _ w' => w' = w :=
  .get_bind ((Action.Moves.lift _).mono fun _ _ _ => And.left)

theorem readSlot_moves (a : FrameHandle) (area : Area) (index : Nat) (level : UInt8) :
    Action.Moves k c (a.readSlot area index level) w fun _ w' => w' = w :=
  .get_bind ((Action.Moves.lift _).mono fun _ _ _ => And.left)

theorem receiver_moves (a : FrameHandle) :
    Action.Moves k c a.receiver w fun _ w' => w' = w :=
  .get_bind ((Action.Moves.lift _).mono fun _ _ _ => And.left)

theorem writeSlot_moves (ha : a.Held k c w) (area : Area) (index : Nat) (level : UInt8)
    (v : Value) :
    Action.Moves k c (a.writeSlot area index level v) w fun b w' => a.Leads k c w b w' := by
  by_cases hl : level = 0
  · rw [writeSlot, if_pos hl]
    exact (modify_moves ha fun _ hf => (Frame.write_eq_ok hf).1).mono fun _ _ _ => And.left
  · unfold Action.Moves Action.Ensures
    rw [writeSlot_eq a area index hl]
    cases w.outerContext (a.frame w) level with
    | error e => exact .refl w
    | ok r =>
      dsimp only
      cases hf : (w.frames.get r).write area index v with
      | error e => exact .refl w
      | ok f =>
        obtain ⟨hc, hops, -, -⟩ := Frame.write_eq_ok hf
        have hm : w.Moved k c (w.setFrame r f) := World.setFrame_moved hc fun hp _ => hops hp
        refine ⟨hm, hm, ha.moved hm, ha.code_moved hm, fun _ => id, fun s hle hlt => ?_⟩
        simp only [World.setFrame, Arena.size_set] at hlt
        exact absurd hlt (Nat.not_lt.mpr hle)

theorem share_moves (ha : a.Held k c w) :
    Action.Moves k c (Action.update a.share) w fun r w' => a.Leads k c w (.shared r) w' := by
  cases a with
  | shared r => exact ⟨.refl w, ha.leads⟩
  | own f =>
    have hm : w.Moved k c (w.newFrame f).2 := World.newFrame_moved ha.marker ha.method
    have hget : (w.newFrame f).2.frames.get w.frames.next = f := by
      rw [World.newFrame, Arena.get_push, if_pos rfl]
    have hsize : (w.newFrame f).2.frames.size = w.frames.size + 1 := Arena.size_push _ _
    refine ⟨hm, hm, ⟨fun r hr => ?_, ?_, ?_, ?_⟩, congrArg Frame.code hget, nofun,
      fun r hle hlt => ?_⟩
    · cases hr
      exact Nat.lt_of_lt_of_eq (Nat.lt_succ_self _) hsize.symm
    · change ((w.newFrame f).2.frames.get w.frames.next).Proper
      rw [hget]
      exact ha.proper
    · exact (congrArg Frame.marker hget).trans ha.marker
    · exact (congrArg Frame.method hget).trans ha.method
    · have hlt : r.index < w.frames.size + 1 := hsize ▸ hlt
      obtain ⟨i⟩ := r
      exact congrArg (FrameHandle.shared ∘ Ref.mk) (Nat.le_antisymm hle (Nat.le_of_lt_succ hlt))

end FrameHandle

end MessageMachine
