import MessageMachine.Activation
import MessageMachine.Proofs.Moving

namespace MessageMachine

namespace Activation

variable {a b sender callee : Activation} {w w' v : World}

/-- The same activation after some work. -/
structure Goes (a : Activation) (w : World) (b : Activation) (w' : World) : Prop where
  marker : b.marker = a.marker
  method : b.method = a.method
  leads : a.handle.Leads a.marker a.method w b.handle w'

/-- The activation after it handed over receiver and arguments, `count` operands in all. -/
structure Sends (a : Activation) (w : World) (count : Nat) (sender : Activation) (w' : World) : Prop
    extends a.Goes w sender w' where
  offset : sender.offset = a.offset
  operands : ∃ args, args.length = count ∧
    (a.handle.frame w).operands = (sender.handle.frame w').operands ++ args

/-- An activation that was just started, within the limit, with a frame and a marker of its own. -/
structure Begun (w : World) (callee : Activation) (w' : World) : Prop where
  room : w.depth < w.config.maxCallDepth
  world : w' = { w with
    markers := w.markers.push true, depth := w.depth + 1, counters := w'.counters }
  marker : callee.marker = w.markers.next
  own : ∃ f, callee.handle = .own f
  held : callee.handle.Held callee.marker callee.method w'

def Brings (a : Activation) (w : World) : Effect → World → Prop
  | .resume b, w' => a.Goes w b w'
  | .activate sender callee, w' => ∃ v, a.Goes w sender v ∧ callee.Begun v w'
  | .callOut sender _ _, w' => a.Goes w sender w'
  | .complete _, w' | .unwind _ _, w' => w.Moved a.marker a.method w'

def Entered (a : Activation) (w : World) (count : Nat) : Effect → World → Prop
  | .activate sender callee, w' => ∃ v, a.Sends w count sender v ∧ callee.Begun v w'
  | .callOut sender _ use, w' => use = .push ∧ a.Sends w count sender w'
  | _, _ => False

def Yields (a : Activation) (w : World) (x : Action Effect) (v : World)
    (Q : Effect → World → Prop) : Prop :=
  x.Ensures v Q fun _ w' => w.Moved a.marker a.method w'

theorem Goes.of_still (h : w.Still w') (hb : a.Goes w' b v) : a.Goes w b v :=
  ⟨hb.marker, hb.method, hb.leads.of_still h⟩

theorem Sends.of_still {count : Nat} (h : w.Still w') (hs : a.Sends w' count sender v) :
    a.Sends w count sender v where
  toGoes := hs.toGoes.of_still h
  offset := hs.offset
  operands := by
    rw [← a.handle.frame_congr h.frames]
    exact hs.operands

theorem Entered.of_still {count : Nat} {e : Effect} (h : w.Still w') (he : a.Entered w' count e v) :
    a.Entered w count e v := by
  cases e with
  | activate sender callee =>
    obtain ⟨u, hs, hc⟩ := he
    exact ⟨u, hs.of_still h, hc⟩
  | callOut sender c use => exact ⟨he.1, he.2.of_still h⟩
  | resume | complete | unwind => exact he

theorem Entered.brings {count : Nat} {e : Effect} (he : a.Entered w count e w') :
    a.Brings w e w' := by
  cases e with
  | activate sender callee =>
    obtain ⟨v, hs, hc⟩ := he
    exact ⟨v, hs.toGoes, hc⟩
  | callOut sender c use => exact he.2.toGoes
  | resume | complete | unwind => exact he.elim

theorem Brings.of_still {e : Effect} (h : w.Still w') (he : a.Brings w' e v) : a.Brings w e v := by
  cases e with
  | activate sender callee =>
    obtain ⟨u, hs, hc⟩ := he
    exact ⟨u, hs.of_still h, hc⟩
  | resume | callOut => exact Goes.of_still h he
  | complete | unwind => exact World.Moved.trans (.of_still h) he

namespace Yields

variable {α : Type} {x : Action α} {f : α → Action Effect} {P : α → World → Prop}
  {Q : Effect → World → Prop}

theorem bind (hm : w.Moved a.marker a.method v)
    (hx : Action.Moves a.marker a.method x v P)
    (hf : ∀ y w', w.Moved a.marker a.method w' → P y w' → a.Yields w (f y) w' Q) :
    a.Yields w (x >>= f) v Q := by
  refine Action.Ensures.bind (Action.Ensures.mono hx (fun _ _ => id) ?_) ?_
  · exact fun _ _ hm' => hm.trans hm'
  · exact fun y w' ⟨hm', hy⟩ => hf y w' (hm.trans hm') hy

theorem get_bind {f : World → Action Effect} (hf : a.Yields w (f v) v Q) :
    a.Yields w (get >>= f) v Q := hf

theorem of_still {e : Action Effect} (h : w.Still w') {R : Effect → World → Prop}
    (hx : a.Yields w' e v R) (hQ : ∀ e v, R e v → Q e v) : a.Yields w e v Q :=
  Action.Ensures.mono hx hQ fun _ _ hm => .trans (.of_still h) hm

theorem mono {e : Action Effect} {R : Effect → World → Prop} (hx : a.Yields w e v R)
    (hQ : ∀ e v, R e v → Q e v) : a.Yields w e v Q :=
  Action.Ensures.mono hx hQ fun _ _ => id

theorem resume {y : Action FrameHandle}
    (hy : Action.Moves a.marker a.method y w fun h w' =>
      a.handle.Leads a.marker a.method w h w') :
    a.Yields w (do return .resume { a with handle := ← y }) w (a.Brings w) :=
  .bind (.refl w) hy fun _ _ _ hl => ⟨rfl, rfl, hl⟩

end Yields

theorem start_creates (r : CodeRef) (args : List Value) (outer : Option FrameRef) (w : World) :
    (start r args outer).Ensures w
      (fun callee w' => w.depth < w.config.maxCallDepth ∧
        w' = { w with
          markers := w.markers.push true, depth := w.depth + 1, counters := w'.counters } ∧
        ∃ f, Frame.create r (w.code r) args w.markers.next outer = .ok f ∧
          callee = ⟨.own f, r, w.markers.next, 0⟩)
      (fun f w' => f.isProgramFault ∧ w' = w) := by
  unfold Action.Ensures
  simp only [start, Action.bind_apply, Action.get_apply]
  by_cases hd : w.config.maxCallDepth ≤ w.depth
  · simp only [if_pos hd]
    exact ⟨rfl, rfl⟩
  simp only [if_neg hd, Action.makeFrame, Action.bind_apply, Action.get_apply]
  cases hc : Frame.create r (w.code r) args w.markers.next outer with
  | error e =>
    refine ⟨?_, rfl⟩
    unfold Frame.create at hc
    split at hc
    · cases hc
    · cases hc
      rfl
  | ok f =>
    obtain ⟨-, -, -, -, -, hmarker, -, -⟩ := Frame.create_eq_ok hc
    exact ⟨Nat.lt_of_not_le hd, rfl, f, rfl, congrArg (Activation.mk (.own f) r · 0) hmarker⟩

theorem start_begun (r : CodeRef) (args : List Value) (outer : Option FrameRef) (w : World) :
    (start r args outer).Ensures w (fun callee w' => callee.Begun w w') (fun _ w' => w' = w) := by
  refine (start_creates r args outer w).mono ?_ fun _ _ => And.right
  rintro callee w' ⟨hroom, hworld, f, hf, rfl⟩
  obtain ⟨-, hproper, -, hmethod, -, hmarker, -, -⟩ := Frame.create_eq_ok hf
  exact ⟨hroom, hworld, rfl, ⟨f, rfl⟩, nofun, hproper, hmarker, hmethod⟩

theorem readField_moves (k : MarkerRef) (c : CodeRef) (receiver : Value) (index : UInt8) :
    Action.Moves k c (readField receiver index) w fun _ w' => w' = w := by
  cases receiver with
  | object o =>
    refine .get_bind ?_
    cases w.field? o index.toNat with
    | none => exact .throw _
    | some x => exact .pure rfl
  | _ => exact .throw _

section

variable {good : Value → Prop} {known : Method → Prop}

theorem readField_quiet (receiver : Value) (index : UInt8) :
    Action.Quiet good known (readField receiver index) good := by
  cases receiver with
  | object o =>
    refine .get_bind fun w hw => ?_
    cases hx : w.field? o index.toNat with
    | none => exact .throw rfl
    | some x => exact .pure (hw.fields o x (Array.mem_of_getElem? hx))
  | _ => exact .throw rfl

theorem writeField_quiet (receiver : Value) (index : UInt8) {x : Value} (hx : good x) :
    Action.Quiet good known (writeField receiver index x) fun _ => True := by
  cases receiver with
  | object o =>
    intro w hw
    unfold writeField
    refine .get_bind ?_
    cases hset : w.setField? o index.toNat x with
    | none => exact ⟨rfl, .refl w, hw⟩
    | some w' => exact ⟨trivial, World.setField?_quiet hw hx hset⟩
  | _ => exact .throw rfl

end

section

variable (ha : a.handle.Held a.marker a.method w)
include ha

theorem push_leads {x : Action Value}
    (hx : Action.Moves a.marker a.method x w fun _ w' => w' = w) :
    Action.Moves a.marker a.method (do a.handle.push (← x)) w fun h w' =>
      a.handle.Leads a.marker a.method w h w' := by
  refine .bind hx fun v w' _ heq => ?_
  subst heq
  exact (FrameHandle.push_moves ha v).mono fun _ _ _ => And.left

theorem pushBlock_goes (l : UInt8) :
    Action.Moves a.marker a.method (a.pushBlock l) w fun b w' => a.Goes w b w' := by
  refine .get_bind (.bind (.lift _) fun body w' _ ⟨heq, _⟩ => ?_)
  subst heq
  dsimp only
  split
  · exact .throw _
  split
  · exact .throw _
  refine .bind (FrameHandle.share_moves ha) fun r w₁ _ hl => ?_
  have hstill : w₁.Still (w₁.newBlock body r ((w'.code a.method).level + 1)).2 := .elsewhere
  refine .bind (Q := fun _ w₂ => w₁.Still w₂) ⟨.of_still hstill, hstill⟩ fun block w₂ _ hs => ?_
  have hl₂ := hl.still hs
  refine .bind (FrameHandle.push_moves hl₂.held block) fun h w₃ _ ⟨hl₃, _⟩ => ?_
  exact .pure ⟨rfl, rfl, hl₂.trans hl₃⟩

theorem enter_entered (target : Option Method) (selector : Symbol) :
    a.Yields w (a.enter target selector) w (a.Entered w selector.arity) := by
  refine .bind (.refl w) (FrameHandle.popN_moves ha selector.arity) ?_
  rintro ⟨args, handle⟩ w₁ hm ⟨hl, hlen, hops⟩
  have hsends : a.Sends w selector.arity { a with handle } w₁ := ⟨⟨rfl, rfl, hl⟩, rfl, args, hlen, hops⟩
  have hstarts (r : CodeRef) (outer : Option FrameRef) :
      a.Yields w (do return .activate { a with handle } (← start r args outer)) w₁
        (a.Entered w selector.arity) := by
    refine Action.Ensures.bind ((start_begun r args outer w₁).mono (fun _ _ => id) ?_)
      fun callee w₂ hc => ⟨w₁, hsends, hc⟩
    rintro _ _ rfl
    exact hm
  have hcalls (c : Call) {w₂ : World} (hstill : w₁.Still w₂) :
      a.Entered w selector.arity (.callOut { a with handle } c .push) w₂ := by
    refine ⟨rfl, ⟨rfl, rfl, hl.still hstill⟩, rfl, args, hlen, ?_⟩
    rw [hops]
    exact congrArg (·.operands ++ args) (handle.frame_congr hstill.frames).symm
  match target with
  | some (.compiled r) => exact hstarts r none
  | some (.primitive p) =>
    refine .get_bind ?_
    split
    · exact hstarts _ _
    · exact hcalls ⟨.primitive p, args⟩ (.refl w₁)
  | none =>
    refine .bind hm (.quiet (Action.doesNotUnderstand_quiet (fun _ _ => trivial) selector trivial
      fun _ _ => trivial)) fun c w₂ _ hstill => hcalls c hstill

theorem send_entered (offset : Nat) (selector : Symbol) :
    a.Yields w (a.send offset selector) w (a.Entered w selector.arity) := by
  refine .bind (.refl w) (FrameHandle.peek_moves a.handle _) fun receiver w' _ heq => ?_
  subst heq
  refine .get_bind (.bind (.refl _) (.quiet (Action.resolve_quiet _ _ _ _)) ?_)
  intro target w' _ hstill
  exact .of_still hstill (enter_entered (ha.congr hstill.frames) target selector)
    fun _ _ => Entered.of_still hstill

theorem superSend_entered (selector : Symbol) :
    a.Yields w (a.superSend selector) w (a.Entered w selector.arity) := by
  have hresolve : Action.Moves a.marker a.method (Action.resolveSuper a.method selector) w
      fun _ w' => w.Still w' := by
    refine .get_bind ?_
    split
    · exact .throw _
    · split
      · exact .quiet (Action.Quiet.lookup _ _)
      · exact .pure (.refl w)
  refine .bind (.refl w) hresolve fun target w' _ hstill => ?_
  exact .of_still hstill (enter_entered (ha.congr hstill.frames) target selector)
    fun _ _ => Entered.of_still hstill

theorem returnNonLocal_brings : a.Yields w a.returnNonLocal w (a.Brings w) := by
  refine .bind (.refl w) (FrameHandle.pop_moves ha) ?_
  rintro ⟨v, handle⟩ w₁ hm ⟨hl, -⟩
  refine .get_bind ?_
  split
  · exact hm
  refine .bind hm (.lift _) fun argument w₂ _ ⟨heq, _⟩ => ?_
  subst heq
  split
  · next b =>
    refine .bind hm (.lift _) fun r w₂ _ ⟨heq, _⟩ => ?_
    subst heq
    dsimp only
    split
    · refine .bind hm (.quiet (.count _)) fun _ w₃ hm₃ _ => ?_
      exact .bind hm₃ (.quiet (.note _)) fun _ w₄ hm₄ _ => hm₄
    · refine .bind hm (.quiet (.count _)) fun _ w₃ hm₃ hs₃ => ?_
      refine .bind hm₃ (.lift _) fun receiver w₄ _ ⟨heq, _⟩ => ?_
      subst heq
      refine .bind hm₃ (.quiet (.note _)) fun _ w₄ hm₄ hs₄ => ?_
      refine .bind hm₄ (.quiet (Action.escapedBlock_quiet (fun _ _ => trivial) trivial trivial))
        fun c w₅ _ hs₅ => ?_
      exact ⟨rfl, rfl, hl.still (hs₃.trans (hs₄.trans hs₅))⟩
  · exact hm

theorem popSlot_leads (area : Area) (index level : UInt8) :
    Action.Moves a.marker a.method (do
      let (v, handle) ← a.handle.pop
      handle.writeSlot area index.toNat level v) w fun h w' =>
        a.handle.Leads a.marker a.method w h w' :=
  .bind (FrameHandle.pop_moves ha) fun (v, _) _ _ ⟨hl, _⟩ =>
    (FrameHandle.writeSlot_moves hl.held area _ level v).mono fun _ _ _ hl' => hl.trans hl'

theorem popField_leads (index : UInt8) :
    Action.Moves a.marker a.method (do
      let (v, handle) ← a.handle.pop
      writeField (← handle.receiver) index v
      return handle) w fun h w' => a.handle.Leads a.marker a.method w h w' := by
  refine .bind (FrameHandle.pop_moves ha) ?_
  rintro ⟨v, handle⟩ w₁ - ⟨hl, -⟩
  refine .bind (FrameHandle.receiver_moves handle) fun receiver w₂ _ heq => ?_
  subst heq
  exact .bind (.quiet (writeField_quiet receiver index trivial)) fun _ w₃ _ hs => .pure (hl.still hs)

theorem pushGlobal_brings (offset : Nat) (l : UInt8) :
    a.Yields w (a.execute offset (.pushGlobal l)) w (a.Brings w) := by
  refine .bind (.refl w) (.get_bind (.lift _)) fun name w' _ ⟨heq, _⟩ => ?_
  subst heq
  refine .get_bind ?_
  split
  · exact .resume ((FrameHandle.push_moves ha _).mono fun _ _ _ => And.left)
  · refine .bind (.refl _) (FrameHandle.receiver_moves a.handle) fun receiver w₁ _ heq => ?_
    subst heq
    refine .bind (.refl _) (.quiet (Action.unknownGlobal_quiet (fun _ _ => trivial) name trivial))
      fun c w₂ _ hs => ?_
    exact ⟨rfl, rfl, ha.leads.still hs⟩

theorem execute_brings (offset : Nat) (i : Instruction) :
    a.Yields w (a.execute offset i) w (a.Brings w) := by
  cases i with
  | halt =>
    refine .bind (.refl w) (FrameHandle.peek_moves a.handle 0) fun v w' _ heq => ?_
    exact heq ▸ .refl w
  | dup => exact .resume (push_leads ha (FrameHandle.peek_moves a.handle 0))
  | pushSlot area index level =>
    exact .resume (push_leads ha (FrameHandle.readSlot_moves a.handle area _ level))
  | pushField index =>
    refine .resume (.bind (FrameHandle.receiver_moves a.handle) fun receiver w' _ heq => ?_)
    subst heq
    exact push_leads ha (readField_moves _ _ receiver index)
  | pushBlock l =>
    exact .bind (.refl w) (pushBlock_goes ha l) fun b w' _ hb => hb
  | pushConstant l =>
    refine .resume (push_leads ha ?_)
    exact .get_bind ((Action.Moves.lift _).mono fun _ _ _ => And.left)
  | pushGlobal l => exact pushGlobal_brings ha offset l
  | pop =>
    exact .resume (.bind (FrameHandle.pop_moves ha) fun _ _ _ ⟨hl, _⟩ => .pure hl)
  | popSlot area index level => exact .resume (popSlot_leads ha area index level)
  | popField index => exact .resume (popField_leads ha index)
  | send l =>
    refine .bind (.refl w) (.get_bind (.lift _)) fun s w' _ ⟨heq, _⟩ => ?_
    subst heq
    exact (send_entered ha offset s).mono fun _ _ => Entered.brings
  | superSend l =>
    refine .bind (.refl w) (.get_bind (.lift _)) fun s w' _ ⟨heq, _⟩ => ?_
    subst heq
    exact (superSend_entered ha s).mono fun _ _ => Entered.brings
  | returnLocal =>
    exact .bind (.refl w) (FrameHandle.pop_moves ha) fun _ _ hm _ => hm
  | returnNonLocal => exact returnNonLocal_brings ha

end

/-- The world that an activation executes an instruction in. -/
def traced (a : Activation) (i : Instruction) (w : World) : World :=
  if w.config.traceExecution then
    w.note (.executing a.method a.offset i (a.handle.frame w).stackPointer)
  else w

theorem traced_still (a : Activation) (i : Instruction) (w : World) : w.Still (a.traced i w) := by
  unfold traced
  split
  · exact w.note_still _
  · exact .refl w

theorem step_eq {i : Instruction} (h : a.fetch w = .ok i) :
    a.step w = execute { a with offset := a.offset + i.length } a.offset i (a.traced i w) := by
  simp only [step, Action.bind_apply, Action.get_apply, h, Action.lift_ok, traced]
  split <;> rfl

/-- A step is the instruction that is fetched; tracing it changes nothing that it could tell. -/
theorem step_yields {Q : Effect → World → Prop}
    (hexecute : ∀ i w', a.fetch w = .ok i → w.Still w' →
      a.Yields w ({ a with offset := a.offset + i.length }.execute a.offset i) w' Q) :
    a.Yields w a.step w Q := by
  refine .get_bind (.bind (.refl w) (.lift _) fun i w' _ ⟨heq, hi⟩ => ?_)
  subst heq
  split
  · exact .bind (.refl _) (.quiet (.note _)) fun _ w₁ _ hs => hexecute i w₁ hi hs
  · exact hexecute i _ hi (.refl _)

theorem Brings.of_offset {n : Nat} {e : Effect} (h : { a with offset := n }.Brings w e w') :
    a.Brings w e w' := by
  have goes {b : Activation} {v : World} (hb : { a with offset := n }.Goes w b v) : a.Goes w b v :=
    ⟨hb.marker, hb.method, hb.leads⟩
  cases e with
  | resume | callOut => exact goes h
  | activate sender callee =>
    obtain ⟨v, hs, hc⟩ := h
    exact ⟨v, goes hs, hc⟩
  | complete | unwind => exact h

theorem step_brings (ha : a.handle.Held a.marker a.method w) :
    a.Yields w a.step w (a.Brings w) := by
  refine step_yields fun i w' _ hs => ?_
  exact .of_still hs (execute_brings (a := { a with offset := a.offset + i.length })
    (ha.congr hs.frames) a.offset i) fun _ _ h => (h.of_still hs).of_offset

/-- The next instruction sends this message. -/
def Sending (a : Activation) (w : World) (selector : Symbol) : Prop :=
  ∃ l, (a.fetch w = .ok (.send l) ∨ a.fetch w = .ok (.superSend l)) ∧
    w.symbolLiteral a.method l.toNat = .ok selector

theorem Sending.step {selector : Symbol} (h : a.Sending w selector)
    (ha : a.handle.Held a.marker a.method w) :
    a.Yields w a.step w ({ a with offset := a.offset + 2 }.Entered w selector.arity) := by
  obtain ⟨l, hfetch, hl⟩ := h
  refine step_yields fun i w' hi hs => ?_
  have hsymbol : w'.symbolLiteral a.method l.toNat = .ok selector := by
    simpa only [World.symbolLiteral, World.literal, World.code, hs.codes] using hl
  have ha' := ha.congr hs.frames
  obtain hsend | hsend := hfetch
  all_goals
    rw [hsend] at hi
    cases hi
    refine .bind (.of_still hs) (.get_bind (.lift _)) fun s w₁ _ ⟨heq, hs'⟩ => ?_
    subst heq
    cases hsymbol.symm.trans hs'
  · exact .of_still hs (send_entered (a := { a with offset := a.offset + 2 }) ha' a.offset selector)
      fun _ _ => Entered.of_still hs
  · exact .of_still hs (superSend_entered (a := { a with offset := a.offset + 2 }) ha' selector)
      fun _ _ => Entered.of_still hs

/-- The world that a retired activation leaves. -/
def left (a : Activation) (w : World) : World :=
  { w with depth := w.depth - 1 }.deactivate a.marker

theorem retire_cases (a : Activation) (o : Outcome) (w : World) :
    (∃ v, o = .error (.nonLocalReturn v a.marker) ∧ (w.code a.method).isBlock = false ∧
      a.retire o w = (.ok v, (a.left w).note (.homeCompleted a.method v))) ∨
    ((∀ v, o = .error (.nonLocalReturn v a.marker) → (w.code a.method).isBlock) ∧
      a.retire o w = (o, a.left w)) := by
  match o with
  | .ok v => exact .inr ⟨nofun, rfl⟩
  | .error (.fault f) => exact .inr ⟨nofun, rfl⟩
  | .error (.nonLocalReturn v target) =>
    have hretire : a.retire (.error (.nonLocalReturn v target)) w =
        if !(w.code a.method).isBlock && target = a.marker then
          (.ok v, (a.left w).note (.homeCompleted a.method v))
        else (.error (.nonLocalReturn v target), a.left w) := rfl
    rw [hretire]
    split
    · next h =>
      simp only [Bool.and_eq_true, Bool.not_eq_true', decide_eq_true_eq] at h
      exact .inl ⟨v, by rw [h.2], h.1, rfl⟩
    · next h =>
      refine .inr ⟨fun v' hv => ?_, rfl⟩
      cases hv
      simpa using h

theorem retire_still (a : Activation) (o : Outcome) (w : World) :
    (a.left w).Still (a.retire o w).2 := by
  rcases a.retire_cases o w with ⟨v, -, -, h⟩ | ⟨-, h⟩
  · rw [h]
    exact World.note_still _ _
  · rw [h]
    exact .refl _

end Activation

end MessageMachine
