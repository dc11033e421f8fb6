import MessageMachine.Proofs.Checking
import MessageMachine.Proofs.Recalling
import MessageMachine.Proofs.Suspension

namespace MessageMachine

/-- The body of the frame that had no room, if that is the fault. -/
def Fault.overflowed? : Fault → Option CodeRef
  | .stackOverflow (.method (.compiled r)) _ _ => some r
  | _ => none

variable {α β : Type} {w w' v : World} {e : Fault}

theorem Fault.overflowed?_of_program (h : e.isProgramFault) : e.overflowed? = none := by
  cases e with
  | stackOverflow subject slot limit => cases h
  | _ => rfl

namespace Frame

variable {f : Frame}

theorem overflowed?_pop (h : f.pop = .error e) : e.overflowed? = none := by
  obtain rfl | rfl := pop_eq_error h <;> rfl

theorem overflowed?_popN {n : Nat} (h : f.popN n = .error e) : e.overflowed? = none := by
  obtain rfl | rfl := popN_eq_error h <;> rfl

theorem overflowed?_peek {offset : Nat} (h : f.peek offset = .error e) : e.overflowed? = none := by
  obtain rfl | rfl := peek_eq_error h <;> rfl

theorem overflowed?_read {area : Area} {index : Nat} (h : f.read area index = .error e) :
    e.overflowed? = none := by
  obtain rfl := read_eq_error h
  rfl

theorem overflowed?_write {area : Area} {index : Nat} {x : Value}
    (h : f.write area index x = .error e) : e.overflowed? = none := by
  obtain rfl := write_eq_error h
  rfl

theorem le_of_overflow {x : Value} {r : CodeRef} (hf : f.Proper) (h : f.push x = .error e)
    (hr : e.overflowed? = some r) : r = f.method ∧ f.code.operandCapacity ≤ f.operands.length := by
  have hs := size_eq hf
  have hb := hf.baseline_le
  unfold push at h
  split at h
  · cases h
  · cases h
    rw [length_operands hf, depth]
    exact ⟨(Option.some.inj hr).symm, by omega⟩

end Frame

namespace World

variable {r : CodeRef} {index : Nat}

theorem overflowed?_outerContext {f : Frame} {level : UInt8}
    (h : w.outerContext f level = .error e) : e.overflowed? = none := by
  obtain ⟨-, rfl⟩ := outerContext_eq_error.mp h
  rfl

theorem overflowed?_readSlot {f : Frame} {area : Area} {level : UInt8}
    (h : w.readSlot f area index level = .error e) : e.overflowed? = none := by
  obtain rfl | ⟨m, rfl⟩ := readSlot_eq_error h <;> rfl

theorem overflowed?_literal (h : w.literal r index = .error e) : e.overflowed? = none := by
  obtain rfl := literal_eq_error h
  rfl

theorem overflowed?_symbolLiteral (h : w.symbolLiteral r index = .error e) :
    e.overflowed? = none := by
  obtain rfl | rfl := symbolLiteral_eq_error h <;> rfl

theorem overflowed?_blockLiteral (h : w.blockLiteral r index = .error e) :
    e.overflowed? = none := by
  obtain rfl | rfl := blockLiteral_eq_error h <;> rfl

end World

namespace Action

/-- The action never fails for want of room on a stack. -/
def Fits (x : Action α) : Prop :=
  ∀ w, x.Ensures w (fun _ _ => True) fun f _ => f.overflowed? = none

namespace Fits

variable {x : Action α} {f : α → Action β}

theorem bind (hx : x.Fits) (hf : ∀ a, (f a).Fits) : (x >>= f).Fits :=
  fun w => (hx w).bind fun a w' _ => hf a w'

theorem pure (a : α) : (pure a : Action α).Fits := fun _ => trivial

theorem throw {f : Fault} (h : f.overflowed? = none) : (throw f : Action α).Fits := fun _ => h

theorem get_bind {f : World → Action β} (hf : ∀ w, (f w).Fits) : (get >>= f).Fits :=
  fun w => hf w w

theorem lift {x : Except Fault α} (h : ∀ e, x = .error e → e.overflowed? = none) :
    (liftM x : Action α).Fits := by
  intro w
  cases x with
  | ok a => exact trivial
  | error e => exact h e rfl

theorem quiet {Q : α → Prop} (hx : Quiet (fun _ => True) (fun _ => True) x Q) : x.Fits :=
  fun w => (hx w w.holds_true).mono (fun _ _ _ => trivial) fun _ _ h =>
    Fault.overflowed?_of_program h.1

end Fits

theorem resolveSuper_fits (method : CodeRef) (selector : Symbol) :
    (resolveSuper method selector).Fits := by
  refine .get_bind fun w => ?_
  split
  · exact .throw rfl
  · split
    · exact .quiet (Quiet.lookup _ _)
    · exact .pure _

end Action

open MessageMachine.Action

namespace FrameHandle

variable (a : FrameHandle)

theorem take_fits {op : Frame → Except Fault (α × Frame)}
    (h : ∀ f e, op f = .error e → e.overflowed? = none) : (a.take op).Fits := by
  intro w
  unfold Ensures
  rw [take_apply]
  cases hop : op (a.frame w) with
  | ok r => exact trivial
  | error e => exact h _ e hop

theorem modify_fits {op : Frame → Except Fault Frame}
    (h : ∀ f e, op f = .error e → e.overflowed? = none) : (a.modify op).Fits := by
  intro w
  unfold Ensures
  rw [modify_apply]
  cases hop : op (a.frame w) with
  | ok r => exact trivial
  | error e => exact h _ e hop

theorem pop_fits : a.pop.Fits := a.take_fits fun _ _ => Frame.overflowed?_pop

theorem popN_fits (n : Nat) : (a.popN n).Fits := a.take_fits fun _ _ => Frame.overflowed?_popN

theorem peek_fits (offset : Nat) : (a.peek offset).Fits :=
  .get_bind fun _ => .lift fun _ => Frame.overflowed?_peek

theorem readSlot_fits (area : Area) (index : Nat) (level : UInt8) :
    (a.readSlot area index level).Fits :=
  .get_bind fun _ => .lift fun _ => World.overflowed?_readSlot

theorem receiver_fits : a.receiver.Fits :=
  .get_bind fun _ => .lift fun _ => World.overflowed?_readSlot

theorem writeSlot_fits (area : Area) (index : Nat) (level : UInt8) (x : Value) :
    (a.writeSlot area index level x).Fits := by
  by_cases hl : level = 0
  · rw [writeSlot, if_pos hl]
    exact a.modify_fits fun _ _ => Frame.overflowed?_write
  · intro w
    unfold Ensures
    rw [writeSlot_eq a area index hl]
    cases hr : w.outerContext (a.frame w) level with
    | error e => exact World.overflowed?_outerContext hr
    | ok r =>
      dsimp only
      cases hf : (w.frames.get r).write area index x with
      | error e => exact Frame.overflowed?_write hf
      | ok f => exact trivial

theorem writeSlot_operands {a : FrameHandle} {k : MarkerRef} {c : CodeRef} (ha : a.Held k c w)
    (area : Area) (index : Nat) (level : UInt8) (x : Value) :
    (a.writeSlot area index level x).Ensures w
      (fun b w' => (b.frame w').operands = (a.frame w).operands) fun _ _ => True := by
  by_cases hl : level = 0
  · rw [writeSlot, if_pos hl]
    refine Ensures.mono (modify_moves ha fun _ hf => (Frame.write_eq_ok hf).1) ?_ fun _ _ _ => trivial
    exact fun b w' h => (Frame.write_eq_ok h.2.2).2.1 ha.proper
  · unfold Ensures
    rw [writeSlot_eq a area index hl]
    cases w.outerContext (a.frame w) level with
    | error e => exact trivial
    | ok r =>
      dsimp only
      cases hf : (w.frames.get r).write area index x with
      | error e => exact trivial
      | ok f =>
        cases a with
        | own g => rfl
        | shared s =>
          change ((w.frames.set r f).get s).operands = (w.frames.get s).operands
          rw [Arena.get_set]
          split
          · next h =>
            obtain ⟨rfl, -⟩ := h
            exact (Frame.write_eq_ok hf).2.1 ha.proper
          · rfl

end FrameHandle

namespace Activation

variable {a b callee : Activation}

theorem start_fits (r : CodeRef) (args : List Value) (outer : Option FrameRef) :
    (start r args outer).Fits :=
  fun w => (start_creates r args outer w).mono (fun _ _ _ => trivial) fun _ _ h =>
    Fault.overflowed?_of_program h.1

theorem overflowed?_fetch (h : a.fetch w = .error e) : e.overflowed? = none := by
  unfold fetch at h
  split at h <;> cases h <;> rfl

/-- The frame of an activation fits its body, which leads to this many operands, those it waits for
included. -/
def Counted (a : Activation) (w : World) (awaited : Nat) : Prop :=
  (a.handle.frame w).code = w.code a.method ∧
    (w.code a.method).Reaches a.offset ((a.handle.frame w).operands.length + awaited)

theorem start_counted (r : CodeRef) (args : List Value) (outer : Option FrameRef) (w : World) :
    (start r args outer).Ensures w (fun callee w' => callee.Counted w' 0) fun _ _ => True := by
  refine (start_creates r args outer w).mono ?_ fun _ _ _ => trivial
  rintro _ w' ⟨-, hworld, f, hf, rfl⟩
  obtain ⟨-, -, hops, -, hcode, -⟩ := Frame.create_eq_ok hf
  have hsame : w'.code r = w.code r := by rw [World.code, hworld, World.code]
  refine ⟨hcode.trans hsame.symm, ?_⟩
  rw [FrameHandle.frame, hops]
  exact .start

def Tallied (a : Activation) (w : World) (i : Instruction) : Effect → World → Prop
  | .resume b, w' => i.ends = false ∧ a.takes w i ≤ (a.handle.frame w).operands.length ∧
      (b.handle.frame w').operands.length =
        (a.handle.frame w).operands.length - a.takes w i + i.gives
  | .activate sender callee, w' => i.gives = 1 ∧
      a.takes w i ≤ (a.handle.frame w).operands.length ∧
      (sender.handle.frame w').operands.length =
        (a.handle.frame w).operands.length - a.takes w i ∧ callee.Counted w' 0
  | .callOut sender _ use, w' => use = .push → i.gives = 1 ∧
      a.takes w i ≤ (a.handle.frame w).operands.length ∧
      (sender.handle.frame w').operands.length =
        (a.handle.frame w).operands.length - a.takes w i
  | .complete _, _ | .unwind _ _, _ => True

/-- This fault is not a want of room, or else it is that of an instruction that leaves more operands
than the body has room for. -/
def Overflowing (a : Activation) (w : World) (i : Instruction) (f : Fault) : Prop :=
  ∀ r, f.overflowed? = some r → r = a.method ∧ i.ends = false ∧
    a.takes w i ≤ (a.handle.frame w).operands.length ∧
    (a.handle.frame w).code.operandCapacity <
      (a.handle.frame w).operands.length - a.takes w i + i.gives

def Tallies (a : Activation) (w : World) (i : Instruction) (x : Action Effect) (v : World) : Prop :=
  x.Ensures v (a.Tallied w i) fun f _ => a.Overflowing w i f

def TalliesFrame (a : Activation) (w : World) (i : Instruction) (x : Action FrameHandle)
    (v : World) : Prop :=
  x.Ensures v (fun h w' => a.takes w i ≤ (a.handle.frame w).operands.length ∧
    (h.frame w').operands.length = (a.handle.frame w).operands.length - a.takes w i + i.gives)
    fun f _ => a.Overflowing w i f

variable {i : Instruction} {P : α → World → Prop}

theorem Overflowing.of_fits {f : Fault} (h : f.overflowed? = none) : a.Overflowing w i f := by
  intro r hr
  rw [h] at hr
  cases hr

theorem tallies_still {x : Action Effect} (h : w.Still v) (hx : a.Tallies v i x w') :
    a.Tallies w i x w' := by
  have htakes := takes_still (a := a) h i
  have hframe := a.handle.frame_congr h.frames
  refine Ensures.mono hx (fun e w'' he => ?_) fun f _ hf r hr => ?_
  · cases e with
    | resume | activate | callOut => simpa only [Tallied, htakes, hframe] using he
    | complete | unwind => exact trivial
  · simpa only [htakes, hframe] using hf r hr

theorem fits_bind {x : Action α} {f : α → Action β} {R : β → World → Prop}
    (hx : Moves a.marker a.method x v P) (hfits : x.Fits)
    (hf : ∀ y w', P y w' → (f y).Ensures w' R fun e _ => a.Overflowing w i e) :
    (x >>= f).Ensures v R fun e _ => a.Overflowing w i e := by
  have hboth : x.Ensures v P fun e _ => a.Overflowing w i e := by
    have hmoves := hx
    have hnone := hfits v
    unfold Moves Ensures at *
    cases hrun : x v with
    | ok y w' =>
      rw [hrun] at hmoves
      exact hmoves.2
    | error e w' =>
      rw [hrun] at hnone
      exact .of_fits hnone
  exact hboth.bind hf

theorem Tallies.resume (hends : i.ends = false) {x : Action FrameHandle}
    (hx : a.TalliesFrame w i x v) : a.Tallies w i (do return .resume { b with handle := ← x }) v :=
  Ensures.bind hx fun _ _ h => ⟨hends, h⟩

theorem push_tallies {handle : FrameHandle} (hl : a.handle.Leads a.marker a.method w handle v)
    (hops : (handle.frame v).operands = (a.handle.frame w).operands) (htakes : a.takes w i = 0)
    (hgives : i.gives = 1) (x : Value) : a.TalliesFrame w i (handle.push x) v := by
  have hpush := FrameHandle.push_moves hl.held x
  unfold TalliesFrame Ensures
  unfold Moves Ensures at hpush
  cases hrun : handle.push x v with
  | ok h w' =>
    rw [hrun] at hpush
    refine ⟨htakes ▸ Nat.zero_le _, ?_⟩
    rw [hpush.2.2, hops, List.length_append, htakes, hgives]
    rfl
  | error e w' =>
    intro r hr
    rw [FrameHandle.push, FrameHandle.modify_apply] at hrun
    cases hf : (handle.frame v).push x with
    | ok f =>
      rw [hf] at hrun
      cases hrun
    | error e' =>
      rw [hf] at hrun
      cases hrun
      obtain ⟨rfl, hle⟩ := Frame.le_of_overflow hl.held.proper hf hr
      refine ⟨hl.held.method, Instruction.ends_of_gives hgives, htakes ▸ Nat.zero_le _, ?_⟩
      rw [hops, hl.code] at hle
      omega

section

variable (ha : a.handle.Held a.marker a.method w)
include ha

theorem pushed_tallies {x : Action Value} (hx : Moves a.marker a.method x w fun _ w' => w' = w)
    (hfits : x.Fits) (htakes : a.takes w i = 0) (hgives : i.gives = 1) :
    a.TalliesFrame w i (do a.handle.push (← x)) w := by
  refine fits_bind hx hfits fun v w' heq => ?_
  subst heq
  exact push_tallies ha.leads rfl htakes hgives v

theorem pushBlock_tallies (l : UInt8) :
    a.Tallies w (.pushBlock l) (do return .resume (← a.pushBlock l)) w := by
  have hblock : (a.pushBlock l).Ensures w (fun b w' =>
      a.takes w (.pushBlock l) ≤ (a.handle.frame w).operands.length ∧
      (b.handle.frame w').operands.length = (a.handle.frame w).operands.length -
        a.takes w (.pushBlock l) + (Instruction.pushBlock l).gives)
      fun f _ => a.Overflowing w (.pushBlock l) f := by
    refine Ensures.get_bind (fits_bind (Moves.lift _)
      (.lift fun _ => World.overflowed?_blockLiteral) ?_)
    rintro body w' ⟨rfl, -⟩
    dsimp only
    split
    · exact .of_fits rfl
    split
    · exact .of_fits rfl
    have hshare : Moves a.marker a.method (Action.update a.handle.share) w' fun r w₁ =>
        a.handle.Leads a.marker a.method w' (.shared r) w₁ ∧
          ((FrameHandle.shared r).frame w₁).operands = (a.handle.frame w').operands := by
      obtain ⟨hm, hl⟩ := FrameHandle.share_moves ha
      refine ⟨hm, hl, ?_⟩
      cases a.handle with
      | shared r => rfl
      | own f =>
        change ((w'.newFrame f).2.frames.get w'.frames.next).operands = f.operands
        rw [World.newFrame, Arena.get_push, if_pos rfl]
    refine fits_bind hshare (fun _ => trivial) ?_
    rintro r w₁ ⟨hl, hops⟩
    have hstill : w₁.Still (w₁.newBlock body r ((w'.code a.method).level + 1)).2 := .elsewhere
    refine fits_bind (P := fun _ w₂ => w₁.Still w₂)
      ⟨.of_still hstill, hstill⟩ (fun _ => trivial) fun block w₂ hs => ?_
    refine Ensures.bind (push_tallies (hl.still hs) ?_ rfl rfl block) fun _ _ h => h
    rw [FrameHandle.frame_congr hs.frames, hops]
  exact hblock.bind fun _ _ h => ⟨rfl, h⟩

theorem enter_tallies (hi : i.gives = 1) {selector : Symbol} (htakes : a.takes w i = selector.arity)
    (target : Option Method) : a.Tallies w i (a.enter target selector) w := by
  refine fits_bind (FrameHandle.popN_moves ha selector.arity) (a.handle.popN_fits _) ?_
  rintro ⟨args, handle⟩ w₁ ⟨hl, hlen, hops⟩
  have hcount : (a.handle.frame w).operands.length =
      (handle.frame w₁).operands.length + selector.arity := by rw [hops, List.length_append, hlen]
  have htaken {w₂ : World} (hframes : w₂.frames = w₁.frames) :
      a.takes w i ≤ (a.handle.frame w).operands.length ∧
        (handle.frame w₂).operands.length =
          (a.handle.frame w).operands.length - a.takes w i := by
    rw [FrameHandle.frame_congr hframes, htakes]
    omega
  have hstarts (r : CodeRef) (outer : Option FrameRef) :
      a.Tallies w i (do return .activate { a with handle } (← start r args outer)) w₁ := by
    have hstart := (start_begun r args outer w₁)
    have hcounted := start_counted r args outer w₁
    have hfits := start_fits r args outer w₁
    unfold Tallies Ensures at *
    rw [Action.bind_apply]
    cases hrun : start r args outer w₁ with
    | ok callee w₂ =>
      rw [hrun] at hstart hcounted
      obtain ⟨hle, heq⟩ := htaken (show w₂.frames = w₁.frames by rw [hstart.world])
      exact ⟨hi, hle, heq, hcounted⟩
    | error e w₂ =>
      rw [hrun] at hfits
      exact .of_fits hfits
  match target with
  | some (.compiled r) => exact hstarts r none
  | some (.primitive p) =>
    refine .get_bind ?_
    split
    · exact hstarts _ _
    · exact fun _ => ⟨hi, htaken rfl⟩
  | none =>
    have hquiet : Quiet (fun _ => True) (fun _ => True)
        (doesNotUnderstand (args.headD .nil) selector args.tail) _ :=
      doesNotUnderstand_quiet (fun _ _ => trivial) selector trivial fun _ _ => trivial
    exact fits_bind (.quiet hquiet) (.quiet hquiet)
      fun c w₂ hstill _ => ⟨hi, htaken hstill.frames⟩

theorem popped_tallies {y : Value → FrameHandle → Action FrameHandle} (hgives : i.gives = 0)
    (htakes : a.takes w i = 1) (hfits : ∀ v h, (y v h).Fits)
    (hy : ∀ v (h : FrameHandle) w', h.Held a.marker a.method w' → (y v h).Ensures w'
      (fun h' w'' => (h'.frame w'').operands = (h.frame w').operands) fun _ _ => True) :
    a.TalliesFrame w i (do let (v, handle) ← a.handle.pop; y v handle) w := by
  refine fits_bind (FrameHandle.pop_moves ha) a.handle.pop_fits ?_
  rintro ⟨v, handle⟩ w₁ ⟨hl, hops⟩
  have hcount : (a.handle.frame w).operands.length = (handle.frame w₁).operands.length + 1 := by
    rw [hops, List.length_append, List.length_singleton]
  have hrest := hy v handle w₁ hl.held
  have hnone := hfits v handle w₁
  unfold Ensures at *
  dsimp only
  cases hrun : y v handle w₁ with
  | ok h w₂ =>
    rw [hrun] at hrest
    dsimp only at hrest ⊢
    rw [hrest, hgives, htakes]
    omega
  | error e w₂ =>
    rw [hrun] at hnone
    exact .of_fits hnone

theorem popField_tallies (index : UInt8) : a.TalliesFrame w (.popField index) (do
    let (v, handle) ← a.handle.pop
    writeField (← handle.receiver) index v
    return handle) w := by
  refine popped_tallies (i := .popField index) (y := fun v handle => do
    writeField (← handle.receiver) index v
    return handle) ha rfl rfl (fun v h => ?_) fun v h w' _ => ?_
  · refine .bind h.receiver_fits fun receiver => ?_
    exact .bind (.quiet (writeField_quiet receiver index trivial)) fun _ => .pure _
  · have hwrite (receiver : Value) : (writeField receiver index v).Ensures w'
        (fun _ w'' => w''.frames = w'.frames) fun _ _ => True :=
      have hquiet : Quiet (fun _ => True) (fun _ => True) (writeField receiver index v) _ :=
        writeField_quiet receiver index trivial
      (hquiet.leaves_still w').mono (fun _ _ hs => hs.frames) fun _ _ _ => trivial
    have hreceiver : h.receiver.Ensures w' (fun _ w'' => w'' = w') fun _ _ => True :=
      Ensures.mono (FrameHandle.receiver_moves (k := a.marker) (c := a.method) h) (fun _ _ => And.right)
        fun _ _ _ => trivial
    refine hreceiver.bind fun receiver w'' heq => ?_
    subst heq
    exact (hwrite receiver).bind fun _ _ hframes => congrArg Frame.operands (h.frame_congr hframes)

theorem pushGlobal_tallies (offset : Nat) (l : UInt8) :
    a.Tallies w (.pushGlobal l) (a.execute offset (.pushGlobal l)) w := by
  have hsymbol : Moves a.marker a.method (a.symbolLiteral l) w fun _ w' => w' = w :=
    .get_bind ((Moves.lift _).mono fun _ _ _ => And.left)
  refine fits_bind hsymbol (.get_bind fun _ => .lift fun _ => World.overflowed?_symbolLiteral) ?_
  intro name w' heq
  subst heq
  refine .get_bind ?_
  split
  · exact Tallies.resume rfl (push_tallies ha.leads rfl rfl rfl _)
  · refine fits_bind (FrameHandle.receiver_moves a.handle) a.handle.receiver_fits ?_
    intro receiver w₁ heq
    subst heq
    have hquiet : Quiet (fun _ => True) (fun _ => True) (unknownGlobal receiver name) _ :=
      unknownGlobal_quiet (fun _ _ => trivial) name trivial
    refine fits_bind (.quiet hquiet) (.quiet hquiet) ?_
    intro c w₂ hstill _
    exact ⟨rfl, Nat.zero_le _, congrArg (·.operands.length) (a.handle.frame_congr hstill.frames)⟩

theorem returnNonLocal_tallies : a.Tallies w .returnNonLocal a.returnNonLocal w := by
  refine fits_bind (FrameHandle.pop_moves ha) a.handle.pop_fits ?_
  rintro ⟨v, handle⟩ w₁ -
  refine Ensures.get_bind ?_
  split
  · exact trivial
  refine fits_bind (.lift _) (.lift fun _ => Frame.overflowed?_read) ?_
  intro argument w₂ _
  split
  · next b _ =>
    refine fits_bind (.lift _) (.lift fun _ => World.overflowed?_outerContext) fun r w₃ _ => ?_
    dsimp only
    split
    · exact trivial
    · refine fits_bind (.quiet (.count _)) (fun _ => trivial) ?_
      intro _ w₄ _
      refine fits_bind (.lift _)
        (.lift fun _ => Frame.overflowed?_read) fun receiver w₅ _ => ?_
      refine fits_bind (.quiet (.note _)) (fun _ => trivial) ?_
      intro _ w₆ _
      have hquiet : Quiet (fun _ => True) (fun _ => True) (escapedBlock receiver (.block b)) _ :=
        escapedBlock_quiet (fun _ _ => trivial) trivial trivial
      exact fits_bind (.quiet hquiet) (.quiet hquiet) fun _ _ _ => nofun
  · exact .of_fits rfl

theorem execute_tallies (offset : Nat) (i : Instruction) :
    a.Tallies w i (a.execute offset i) w := by
  have peek {n : Nat} : Moves a.marker a.method (a.handle.peek n) w fun _ w' => w' = w :=
    FrameHandle.peek_moves a.handle n
  have symbol (l : UInt8) : Moves a.marker a.method (a.symbolLiteral l) w fun s w' =>
      w' = w ∧ w.symbolLiteral a.method l.toNat = .ok s := .get_bind (.lift _)
  have symbol_fits (l : UInt8) : (a.symbolLiteral l).Fits :=
    .get_bind fun _ => .lift fun _ => World.overflowed?_symbolLiteral
  cases i with
  | halt => exact fits_bind peek (a.handle.peek_fits 0) fun _ _ _ => trivial
  | dup => exact .resume rfl (pushed_tallies ha peek (a.handle.peek_fits 0) rfl rfl)
  | pushSlot area index level =>
    exact .resume rfl (pushed_tallies ha (FrameHandle.readSlot_moves a.handle area _ level)
      (a.handle.readSlot_fits area _ level) rfl rfl)
  | pushField index =>
    refine .resume rfl (fits_bind (FrameHandle.receiver_moves a.handle) a.handle.receiver_fits ?_)
    intro receiver w' heq
    subst heq
    exact pushed_tallies ha (readField_moves _ _ receiver index)
      (.quiet (readField_quiet receiver index)) rfl rfl
  | pushBlock l => exact pushBlock_tallies ha l
  | pushConstant l =>
    refine .resume rfl (pushed_tallies ha ?_ ?_ rfl rfl)
    · exact .get_bind ((Moves.lift _).mono fun _ _ _ => And.left)
    · exact .get_bind fun _ => .lift fun _ => World.overflowed?_literal
  | pushGlobal l => exact pushGlobal_tallies ha offset l
  | pop =>
    refine .resume rfl (popped_tallies (i := .pop) (y := fun _ handle => return handle) ha rfl rfl ?_ ?_)
    · exact fun _ _ => .pure _
    · exact fun _ _ _ _ => rfl
  | popSlot area index level =>
    refine .resume rfl (popped_tallies (i := .popSlot area index level)
      (y := fun v handle => handle.writeSlot area index.toNat level v) ha rfl rfl ?_ ?_)
    · exact fun v h => h.writeSlot_fits area _ level v
    · exact fun v h w' hh => FrameHandle.writeSlot_operands hh area _ level v
  | popField index => exact .resume rfl (popField_tallies ha index)
  | send l =>
    refine fits_bind (symbol l) (symbol_fits l) fun s w' ⟨heq, hs⟩ => ?_
    subst heq
    refine fits_bind peek (a.handle.peek_fits _) fun receiver w₁ heq => ?_
    subst heq
    have htakes := Code.takes_send (World.symbolLiteral_eq_ok hs)
    refine Ensures.get_bind (fits_bind (.quiet (resolve_quiet _ _ _ _)) (.quiet (resolve_quiet _ _ _ _)) ?_)
    intro target w₂ hstill
    exact tallies_still hstill (enter_tallies (ha.congr hstill.frames) rfl
      ((takes_still hstill _).trans htakes) target)
  | superSend l =>
    refine fits_bind (symbol l) (symbol_fits l) fun s w' ⟨heq, hs⟩ => ?_
    subst heq
    have htakes := Code.takes_superSend (World.symbolLiteral_eq_ok hs)
    have hresolve : Moves a.marker a.method (resolveSuper a.method s) w' fun _ w₁ => w'.Still w₁ := by
      refine .get_bind ?_
      split
      · exact .throw _
      · split
        · exact .quiet (Quiet.lookup _ _)
        · exact .pure (.refl _)
    refine fits_bind hresolve (resolveSuper_fits _ _) fun target w₁ hstill => ?_
    exact tallies_still hstill (enter_tallies (ha.congr hstill.frames) rfl
      ((takes_still hstill _).trans htakes) target)
  | returnLocal =>
    exact fits_bind (FrameHandle.pop_moves ha) a.handle.pop_fits fun _ _ _ => trivial
  | returnNonLocal => exact returnNonLocal_tallies ha

end

theorem step_tallies {i : Instruction} (ha : a.handle.Held a.marker a.method w)
    (hi : a.fetch w = .ok i) : a.Tallies w i a.step w := by
  have hstill := a.traced_still i w
  unfold Tallies Ensures
  rw [step_eq hi]
  exact tallies_still hstill (execute_tallies (a := { a with offset := a.offset + i.length })
    (ha.congr hstill.frames) a.offset i)

end Activation

end MessageMachine
