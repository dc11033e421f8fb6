import MessageMachine.Proofs.Agreeing

namespace MessageMachine

variable {w w' : World}

def Effect.Layered (n : Nat) : Effect → Prop
  | resume a => a.handle.Layered n
  | activate sender callee => sender.handle.Layered n ∧ callee.handle.Layered n
  | callOut sender c _ => sender.handle.Layered n ∧ ∀ v ∈ c.args, v.Before n
  | complete v | unwind v _ => v.Before n

def Strict.Yields (x : Strict Effect) (y : Action Effect) (w : World) : Prop :=
  x.Agrees y [] w fun e w' => e.Layered w'.frames.size

namespace Activation

open Strict

variable {a : Activation}

theorem start_ages (h : w.Layered) (r : CodeRef) {args : List Value} {outer : Option FrameRef}
    (hargs : ∀ v ∈ args, v.Before w.frames.size)
    (houter : ∀ s, outer = some s → s.index < w.frames.size) :
    (start r args outer).Ensures w
      (fun callee w' => w.Ages w' ∧ callee.handle.Layered w'.frames.size)
      fun f w' => w.Ages w' ∧ f.Meant := by
  refine (start_creates r args outer w).mono ?_ ?_
  · rintro callee w' ⟨-, hw', f, hf, rfl⟩
    obtain ⟨-, hproper, -, -, -, -, hlink, -⟩ := Frame.create_eq_ok hf
    have hframes : w'.frames = w.frames := by rw [hw']
    have hages : w.Ages w' := h.of_codes (by rw [hw']) hframes <|
      h.holds.congr (by rw [hw']) (by rw [hw']) (by rw [hw']) (by rw [hw']) (by rw [hw'])
        (by rw [hw'])
    refine ⟨hages, ?_⟩
    rw [hframes]
    refine ⟨hproper, fun v hv => ?_, hlink ▸ houter⟩
    rcases Frame.create_mem hf hv with hv | rfl
    · exact hargs v hv
    · exact Value.before_of_no_block rfl
  · rintro f _ ⟨hf, rfl⟩
    exact ⟨h.refl, Fault.meant_of_program hf⟩

theorem resume_yields {x : Strict FrameHandle} {y : Action FrameHandle}
    (hx : x.Agrees y a.handle.busy w fun b w' => b.Layered w'.frames.size) :
    Strict.Yields (do return .resume { a with handle := ← a.handle.within x })
      (do return .resume { a with handle := ← y }) w :=
  .bind (.within hx) fun _ _ hages hb => .pure hages.layered hb

section

variable (h : w.Layered) (ha : a.handle.Layered w.frames.size)
include h ha

theorem push_handle {x : Strict Value} {y : Action Value}
    (hx : x.Agrees y a.handle.busy w fun v w' => w' = w ∧ v.Before w.frames.size) :
    Agrees (do a.handle.strictPush (← x)) (do a.handle.push (← y)) a.handle.busy w
      fun b w' => b.Layered w'.frames.size := by
  refine .bind hx ?_
  rintro v _ - ⟨rfl, hv⟩
  exact (FrameHandle.push_agrees h ha hv).mono fun _ _ _ => And.left

theorem pushBlock_agrees (l : UInt8) :
    Agrees (a.strictPushBlock l) (a.pushBlock l) [] w fun b w' =>
      b.handle.Layered w'.frames.size := by
  refine .world_bind (.bind (Q := fun _ w' => w' = w) (.except h (fun _ _ => rfl) ?_) ?_)
  · exact fun _ he => (World.ordinary_of_blockLiteral he).2
  rintro body w - rfl
  dsimp only
  split
  · exact .throw h nofun
  split
  · exact .throw h nofun
  have hshare : (Action.update a.handle.share).Ensures w
      (fun r w' => w.Ages w' ∧ r.index < w'.frames.size) (fun f w' => w.Ages w' ∧ f.Meant) :=
    h.share ha
  refine .bind (.lift hshare) fun r w₁ hages hr => ?_
  have hnew : w₁.Ages (w₁.newBlock body r ((w.code a.method).level + 1)).2 :=
    hages.layered.of_codes rfl rfl (hages.layered.holds.congr rfl rfl rfl rfl rfl rfl)
  refine .bind (Q := fun v w₂ => v.Before w₂.frames.size ∧ r.index < w₂.frames.size)
    (.lift ⟨hnew, Value.before_block.mpr hr, hr⟩) fun block w₂ hages₂ ⟨hblock, hr₂⟩ => ?_
  refine .bind (.within (FrameHandle.push_agrees (a := .shared r) hages₂.layered hr₂ hblock)) ?_
  exact fun b w₃ hages₃ hb => .pure hages₃.layered hb.1

theorem enter_yields (target : Option Method) (selector : Symbol) :
    (a.strictEnter target selector).Yields (a.enter target selector) w := by
  refine .bind (.within (FrameHandle.popN_agrees h ha selector.arity)) ?_
  rintro ⟨args, handle⟩ w₁ hages ⟨hargs, hhandle, -⟩
  have hargs (v : Value) (hv : v ∈ args) : v.Before w₁.frames.size :=
    (hargs v hv).mono hages.size_le
  have hstarts (r : CodeRef) {outer : Option FrameRef}
      (houter : ∀ s, outer = some s → s.index < w₁.frames.size) :
      Strict.Yields (do return .activate { a with handle } (← start r args outer))
        (do return .activate { a with handle } (← start r args outer)) w₁ :=
    .bind (.lift (start_ages hages.layered r hargs houter)) fun callee w₂ hages₂ hcallee =>
      .pure hages₂.layered ⟨hhandle.mono hages₂.size_le, hcallee⟩
  match target with
  | some (.compiled r) => exact hstarts r nofun
  | some (.primitive p) =>
    refine .world_bind ?_
    cases (w₁.primitives.get p).evaluatesBlock with
    | false => exact .pure hages.layered ⟨hhandle, hargs⟩
    | true =>
      cases hhead : args.head? with
      | none => exact .pure hages.layered ⟨hhandle, hargs⟩
      | some v =>
        cases v with
        | block b =>
          refine hstarts b.code ?_
          rintro _ ⟨⟩
          exact Value.before_block.mp (hargs _ (List.mem_of_head? hhead))
        | _ => exact .pure hages.layered ⟨hhandle, hargs⟩
  | none =>
    have hhead : (args.headD .nil).Before w₁.frames.size := by
      cases args with
      | nil => exact Value.before_of_no_block rfl
      | cons v rest => exact hargs v List.mem_cons_self
    refine .bind (.quiet hages.layered (Action.doesNotUnderstand_quiet
      (fun _ => Value.before_of_no_block) selector hhead
      fun v hv => hargs v (List.mem_of_mem_tail hv))) ?_
    rintro c w₂ hages₂ ⟨hc, -⟩
    exact .pure hages₂.layered
      ⟨hhandle.mono hages₂.size_le, fun v hv => (hc.2 v hv).mono hages₂.size_le⟩

theorem send_yields (offset : Nat) (selector : Symbol) :
    (a.strictSend offset selector).Yields (a.send offset selector) w := by
  have harity : Strict.subtract selector.arity 1 = .ok (selector.arity - 1) :=
    subtract_of_le selector.arity_pos
  unfold strictSend
  rw [harity]
  refine .bind (.within (FrameHandle.peek_agrees h ha (selector.arity - 1))) ?_
  rintro receiver w - ⟨rfl, -⟩
  refine .world_bind (.bind (.quiet h (Action.resolve_quiet a.method offset _ selector)) ?_)
  rintro target w₁ hages -
  exact enter_yields hages.layered (ha.mono hages.size_le) target selector

theorem superSend_yields (selector : Symbol) :
    (a.strictSuperSend selector).Yields (a.superSend selector) w := by
  have hresolve : (Action.resolveSuper a.method selector).Ensures w
      (fun _ w' => w.Ages w' ∧ True) fun f w' => w.Ages w' ∧ f.Meant := by
    cases hholder : w.holder? (.compiled a.method) with
    | none =>
      unfold Action.Ensures
      rw [Action.resolveSuper_of_no_holder hholder]
      exact ⟨h.refl, nofun⟩
    | some holder =>
      refine (Action.resolveSuper_of_holder hholder selector h.holds).mono ?_ ?_
      · exact fun _ w' ⟨_, hs, hh⟩ => ⟨h.of_still hs hh, trivial⟩
      · exact fun f w' ⟨hf, hs, hh⟩ => ⟨h.of_still hs hh, Fault.meant_of_program hf⟩
  refine .bind (.lift hresolve) fun target w₁ hages _ => ?_
  exact enter_yields hages.layered (ha.mono hages.size_le) target selector

theorem returnNonLocal_yields : a.strictReturnNonLocal.Yields a.returnNonLocal w := by
  refine .bind (.within (FrameHandle.pop_agrees h ha)) ?_
  rintro ⟨v, handle⟩ w₁ hages ⟨hv, hhandle, -⟩
  have hw := hages.layered
  have hv := hv.mono hages.size_le
  have hframe := hw.frame hhandle
  refine .world_bind ?_
  dsimp only
  split
  · exact .pure hw hv
  refine .bind (.within (FrameHandle.readSlot_agrees hw hhandle .arguments 0 0)) ?_
  rintro x w₁ - ⟨rfl, hx⟩
  cases x with
  | block b =>
    have hbound := hhandle.layer_le
    have hcontext : Agrees (handle.within do outerContext (handle.frame (← world)) b.level)
        (liftM (w₁.outerContext (handle.frame w₁) b.level)) [] w₁
        fun r w' => w' = w₁ ∧ r.index < w₁.frames.size := by
      refine .within (.congr (.world_bind (g := fun w => liftM (w.outerContext _ _)) ?_) rfl)
      refine (FrameHandle.outerContext_agrees hw hframe hbound
        (FrameHandle.layer_le_of_busy handle _) b.level).mono ?_
      exact fun r w' _ ⟨heq, hr⟩ => ⟨heq, Nat.lt_of_lt_of_le hr hbound⟩
    refine .bind hcontext ?_
    rintro r w₁ - ⟨rfl, hr⟩
    refine .look_bind List.not_mem_nil ?_
    split
    · refine .bind (.quiet hw (.count _)) fun _ w₂ hages₂ _ => ?_
      refine .bind (.quiet hages₂.layered (.note _)) fun _ w₃ hages₃ _ => ?_
      exact .pure hages₃.layered (hv.mono (hages₂.trans hages₃).size_le)
    · refine .bind (.quiet hw (.count _)) fun _ w₂ hages₂ ⟨_, hstill⟩ => ?_
      rw [← hstill.frames] at hr ⊢
      have hread : Agrees (borrowing r .contextBorrowed do
            ((← world).frames.get r).read .arguments 0)
          (liftM ((w₂.frames.get r).read .arguments 0)) [] w₂
          fun v w' => w' = w₂ ∧ v.Before w₂.frames.size := by
        refine .borrowing List.not_mem_nil
          (.congr (.world_bind (g := fun w => liftM ((w.frames.get r).read .arguments 0)) ?_) rfl)
        refine .except hages₂.layered (fun v hv => ⟨rfl, ?_⟩) fun _ he =>
          (Frame.ordinary_of_read he).2
        exact (hages₂.layered.frames r hr).slots v (Frame.read_mem hv)
      refine .bind hread ?_
      rintro receiver w₂ - ⟨rfl, hreceiver⟩
      refine .bind (.quiet hages₂.layered (.note _)) fun _ w₃ hages₃ _ => ?_
      have hages := hages₂.trans hages₃
      refine .bind (.quiet hages₃.layered (Action.escapedBlock_quiet
        (fun _ => Value.before_of_no_block) (hreceiver.mono hages₃.size_le) (hx.mono hages.size_le))) ?_
      rintro c w₄ hages₄ ⟨hc, -⟩
      have hages := hages.trans hages₄
      exact .pure hages₄.layered
        ⟨hhandle.mono hages.size_le, fun v hv => (hc.2 v hv).mono hages₄.size_le⟩
  | _ => exact .throw hw nofun

theorem pushField_yields (offset : Nat) (index : UInt8) :
    (a.strictExecute offset (.pushField index)).Yields (a.execute offset (.pushField index)) w := by
  refine resume_yields (.bind (FrameHandle.receiver_agrees h ha) ?_)
  rintro receiver w - ⟨rfl, -⟩
  refine .bind (.quiet h (readField_quiet receiver index)) fun v w₁ hages ⟨hv, _⟩ => ?_
  exact (FrameHandle.push_agrees hages.layered (ha.mono hages.size_le)
    (hv.mono hages.size_le)).mono fun _ _ _ => And.left

theorem pushConstant_yields (offset : Nat) (l : UInt8) :
    (a.strictExecute offset (.pushConstant l)).Yields (a.execute offset (.pushConstant l)) w := by
  have hliteral : Agrees (liftM (a.literal l)) (a.literal l) [] w fun v w' =>
      w' = w ∧ v.Before w.frames.size := by
    refine .lift (.get_bind ?_)
    cases hv : w.literal a.method l.toNat with
    | ok v => exact ⟨h.refl, rfl, h.literals _ v (World.mem_of_literal hv)⟩
    | error e => exact ⟨h.refl, (World.ordinary_of_literal hv).2⟩
  refine .congr (.bind hliteral ?_) (congrFun (bind_assoc ..) w)
  rintro v w - ⟨rfl, hv⟩
  exact resume_yields ((FrameHandle.push_agrees h ha hv).mono fun _ _ _ => And.left)

omit ha in
theorem symbolLiteral_agrees (l : UInt8) :
    Agrees (liftM (a.symbolLiteral l)) (a.symbolLiteral l) [] w fun _ w' => w' = w := by
  refine .lift (.get_bind ?_)
  cases hs : w.symbolLiteral a.method l.toNat with
  | ok s => exact ⟨h.refl, rfl⟩
  | error e => exact ⟨h.refl, (World.ordinary_of_symbolLiteral hs).2⟩

theorem pushGlobal_yields (offset : Nat) (l : UInt8) :
    (a.strictExecute offset (.pushGlobal l)).Yields (a.execute offset (.pushGlobal l)) w := by
  refine .bind (symbolLiteral_agrees h l) ?_
  rintro name w - rfl
  refine .world_bind ?_
  cases hv : w.global? name with
  | some v =>
    exact resume_yields ((FrameHandle.push_agrees h ha (h.holds.globals name v hv)).mono
      fun _ _ _ => And.left)
  | none =>
    refine .bind (.within (FrameHandle.receiver_agrees h ha)) ?_
    rintro receiver w - ⟨rfl, hr⟩
    refine .bind (.quiet h
      (Action.unknownGlobal_quiet (fun _ => Value.before_of_no_block) name hr)) ?_
    rintro c w₁ hages ⟨hc, -⟩
    exact .pure hages.layered ⟨ha.mono hages.size_le, fun v hv => (hc.2 v hv).mono hages.size_le⟩

theorem popSlot_yields (offset : Nat) (area : Area) (index level : UInt8) :
    (a.strictExecute offset (.popSlot area index level)).Yields
      (a.execute offset (.popSlot area index level)) w := by
  refine resume_yields (.bind (FrameHandle.pop_agrees h ha) ?_)
  rintro ⟨v, handle⟩ w₁ hages ⟨hv, hhandle, hbusy⟩
  rw [← hbusy]
  exact FrameHandle.writeSlot_agrees hages.layered hhandle area _ level (hv.mono hages.size_le)

theorem popField_yields (offset : Nat) (index : UInt8) :
    (a.strictExecute offset (.popField index)).Yields (a.execute offset (.popField index)) w := by
  refine resume_yields (.bind (FrameHandle.pop_agrees h ha) ?_)
  rintro ⟨v, handle⟩ w₁ hages ⟨hv, hhandle, hbusy⟩
  rw [← hbusy]
  refine .bind (FrameHandle.receiver_agrees hages.layered hhandle) ?_
  rintro receiver w₁ - ⟨rfl, -⟩
  refine .bind (.quiet hages.layered (writeField_quiet receiver index (hv.mono hages.size_le))) ?_
  exact fun _ w₂ hages₂ _ => .pure hages₂.layered (hhandle.mono hages₂.size_le)

theorem execute_yields (offset : Nat) (i : Instruction) :
    (a.strictExecute offset i).Yields (a.execute offset i) w := by
  cases i with
  | halt =>
    refine .bind (.within (FrameHandle.peek_agrees h ha 0)) ?_
    rintro v w - ⟨rfl, hv⟩
    exact .pure h hv
  | dup => exact resume_yields (push_handle h ha (FrameHandle.peek_agrees h ha 0))
  | pushSlot area index level =>
    exact resume_yields (push_handle h ha (FrameHandle.readSlot_agrees h ha area _ level))
  | pushField index => exact pushField_yields h ha offset index
  | pushBlock l =>
    exact .bind (pushBlock_agrees h ha l) fun _ _ hages hb => .pure hages.layered hb
  | pushConstant l => exact pushConstant_yields h ha offset l
  | pushGlobal l => exact pushGlobal_yields h ha offset l
  | pop =>
    exact resume_yields (.bind (FrameHandle.pop_agrees h ha) fun _ _ hages hb =>
      .pure hages.layered hb.2.1)
  | popSlot area index level => exact popSlot_yields h ha offset area index level
  | popField index => exact popField_yields h ha offset index
  | send l =>
    refine .bind (symbolLiteral_agrees h l) ?_
    rintro s w - rfl
    exact send_yields h ha offset s
  | superSend l =>
    refine .bind (symbolLiteral_agrees h l) ?_
    rintro s w - rfl
    exact superSend_yields h ha s
  | returnLocal =>
    exact .bind (.within (FrameHandle.pop_agrees h ha)) fun _ _ hages hv =>
      .pure hages.layered (hv.1.mono hages.size_le)
  | returnNonLocal => exact returnNonLocal_yields h ha

end

theorem strictStep_yields (h : w.Layered) (ha : a.handle.Layered w.frames.size) :
    a.strictStep.Yields a.step w := by
  refine .world_bind (.bind (Q := fun _ w' => w' = w) (.except h (fun _ _ => rfl)
    fun _ he => (ordinary_of_fetch he).2) ?_)
  rintro i w - rfl
  dsimp only
  split
  · refine .bind (.within (.quiet h (.note _))) fun _ w₁ hages _ => ?_
    exact execute_yields (a := { a with offset := a.offset + i.length }) hages.layered
      (ha.mono hages.size_le) a.offset i
  · exact execute_yields (a := { a with offset := a.offset + i.length }) h ha a.offset i

end Activation

end MessageMachine
