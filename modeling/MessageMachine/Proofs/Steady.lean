import MessageMachine.Proofs.UniformStep

namespace MessageMachine

/-- How many activations may be running at once, and how many run loops may be nested. -/
structure Limits where
  calls : Nat
  loops : Nat

namespace Limits

protected def Le (l k : Limits) : Prop := l.calls ≤ k.calls ∧ l.loops ≤ k.loops

instance : LE Limits := ⟨Limits.Le⟩

protected theorem le_refl (l : Limits) : l ≤ l := ⟨Nat.le_refl _, Nat.le_refl _⟩

end Limits

def Fault.isLimit : Fault → Bool
  | callDepthExceeded _ | reentryDepthExceeded _ => true
  | _ => false

namespace World

def limits (w : World) : Limits := ⟨w.config.maxCallDepth, w.config.maxReentryDepth⟩

def within (w : World) (l : Limits) : World :=
  { w with config := { w.config with maxCallDepth := l.calls, maxReentryDepth := l.loops } }

variable (w : World) (l : Limits)

theorem within_limits : w.within w.limits = w := rfl

theorem classes_within : (w.within l).classes = w.classes := rfl

theorem frames_within : (w.within l).frames = w.frames := rfl

theorem cacheAt_within (r : CodeRef) (offset : Nat) :
    (w.within l).cacheAt r offset = w.cacheAt r offset := rfl

theorem className_within (c : ClassRef) : (w.within l).className c = w.className c := rfl

theorem methodText_within (m : Method) : (w.within l).methodText m = w.methodText m := by
  unfold methodText
  cases m <;> simp only [signature, holder?, code, className, cls, within]

theorem describe_within (v : Value) : (w.within l).describe v = w.describe v := by
  cases v with
  | boolean b => cases b <;> rfl
  | method m => exact methodText_within w l m
  | block b => simp only [describe, blockArgCount, code, within]
  | array | object | cls => simp only [describe, className, World.cls, within]
  | nil | integer | double | string | symbol => rfl

theorem listingWithin_within (depth : Nat) (pad : String) (r : CodeRef) :
    (w.within l).listingWithin depth pad r = w.listingWithin depth pad r := by
  have literal (v : Option Value) : (w.within l).literalText v = w.literalText v := by
    unfold literalText
    split
    · simp only [code, within]
    · exact describe_within w l _
    · rfl
  have line (c : Code) (x : ListingLine) : (w.within l).lineText c x = w.lineText c x := by
    cases x with
    | instruction o i => simp only [lineText, operandText.eq_def, literal]
    | truncated | unknownByte => rfl
  induction depth generalizing pad r with
  | zero => rfl
  | succ depth ih =>
    have hcode : (w.within l).code r = w.code r := rfl
    simp only [listingWithin, headingText, codeText, methodText_within, hcode, line]
    congr 2
    funext x
    cases x.nested? (w.code r) with
    | none => rfl
    | some n => simp only [ih]

theorem text_within (e : Event) : e.text (w.within l) = e.text w := by
  have hcode (r : CodeRef) : (w.within l).code r = w.code r := rfl
  unfold Event.text
  cases e with
  | defined c s => simp only [className_within, fieldCount_congr (classes_within w l)]
  | installing c r => simp only [listing, listingWithin_within, className_within, hcode]
  | cached r offset c m fill => simp only [codeText, methodText_within, className_within]
  | executing | unwinding | notUnderstood | unboundGlobal | homeCompleted | escaped =>
    simp only [codeText, methodText_within, describe_within]

theorem note_within (e : Event) : (w.within l).note e = (w.note e).within l := by
  unfold note
  rw [text_within]
  change (if w.journal.keeps e.severity then _ else _) = _
  split <;> rfl

theorem lookupWithin_within (selector : Symbol) (steps : Nat) (c : ClassRef) :
    (w.within l).lookupWithin selector steps c =
      ((w.lookupWithin selector steps c).1, (w.lookupWithin selector steps c).2.within l) := by
  induction steps generalizing c with
  | zero => rfl
  | succ steps ih =>
    have hmemos : (w.within l).memos = w.memos := rfl
    have hcls : (w.within l).cls c = w.cls c := rfl
    simp only [lookupWithin, hmemos, hcls, ih]
    cases w.memos.find? (c, selector) with
    | some m => rfl
    | none =>
      cases (w.cls c).methods.find? selector with
      | some m => rfl
      | none =>
        cases (w.cls c).superclass with
        | none => rfl
        | some s =>
          dsimp only
          obtain ⟨found, v⟩ := w.lookupWithin selector steps s
          cases found <;> rfl

end World

variable {α β : Type}

def withinLimits (l : Limits) : EStateM.Result Fault World α → EStateM.Result Fault World α
  | .ok a w => .ok a (w.within l)
  | .error f w => .error f (w.within l)

def Steady (x : Action α) : Prop :=
  ∀ (w : World) (l : Limits), w.limits ≤ l →
    (∃ f v, x w = .error f v ∧ f.isLimit) ∨ x (w.within l) = withinLimits l (x w)

namespace Steady

theorem limits_eq {x : Action α} (hx : Steady x) {w v : World} {a : α} (h : x w = .ok a v) :
    v.limits = w.limits := by
  obtain ⟨f, u, hf, -⟩ | hw := hx w w.limits w.limits.le_refl
  · rw [h] at hf
    cases hf
  · rw [w.within_limits, h] at hw
    injection hw with _ hv
    rw [hv]
    rfl

theorem pure (a : α) : Steady (pure a) := fun _ _ _ => .inr rfl

theorem throw (f : Fault) : Steady (throw f : Action α) := fun _ _ _ => .inr rfl

theorem bind {x : Action α} {f : α → Action β} (hx : Steady x) (hf : ∀ a, Steady (f a)) :
    Steady (x >>= f) := by
  intro w l hl
  obtain ⟨e, v, he, hlimit⟩ | hw := hx w l hl
  · exact .inl ⟨e, v, by rw [Action.bind_apply, he], hlimit⟩
  · simp only [Action.bind_apply, hw]
    cases h : x w with
    | ok a v => exact hf a v l (hx.limits_eq h ▸ hl)
    | error e v => exact .inr rfl

theorem lift (e : Except Fault α) : Steady (liftM e : Action α) := by
  cases e with
  | ok a => exact pure a
  | error f => exact throw f

theorem get_bind {f : World → Action α} (hs : ∀ w l, f (w.within l) = f w)
    (hf : ∀ w, Steady (f w)) : Steady (get >>= f) := by
  intro w l hl
  change (∃ e v, f w w = _ ∧ _) ∨ f (w.within l) (w.within l) = _
  rw [hs]
  exact hf w w l hl

theorem update {f : World → α × World} (hf : ∀ w l, f (w.within l) = ((f w).1, (f w).2.within l)) :
    Steady (Action.update f) := by
  intro w l _
  change (∃ _ _, _) ∨ EStateM.Result.ok (f (w.within l)).1 (f (w.within l)).2 = _
  rw [hf]
  exact .inr rfl

theorem modify {f : World → World} (hf : ∀ w l, f (w.within l) = (f w).within l) :
    Steady (modify f : Action Unit) :=
  update (f := fun w => ((), f w)) fun w l => by rw [hf]

theorem discard {x : Action α} (hx : Steady x) : Steady (discard x : Action PUnit) := by
  intro w l hl
  simp only [Action.discard_apply]
  obtain ⟨e, v, he, hlimit⟩ | hw := hx w l hl
  · exact .inl ⟨e, v, by rw [he], hlimit⟩
  · rw [hw]
    cases x w <;> exact .inr rfl

theorem count (f : Counters → Counters) : Steady (Action.count f) := modify fun _ _ => rfl

theorem note (e : Event) : Steady (Action.note e) := modify fun w l => w.note_within l e

theorem below {limit height : World → Nat} {f : Nat → Fault} {x : Action α} (hx : Steady x)
    (hlimit : ∀ w l, w.limits ≤ l → limit w ≤ limit (w.within l))
    (hheight : ∀ w l, height (w.within l) = height w) (hf : ∀ n, (f n).isLimit) :
    Steady (do
      let w ← get
      if limit w ≤ height w then MonadExcept.throw (f (limit w)) else x) := by
  intro w l hl
  simp only [Action.bind_apply, Action.get_apply]
  by_cases hw : limit w ≤ height w
  · rw [if_pos hw]
    exact .inl ⟨_, _, rfl, hf _⟩
  · rw [if_neg hw, if_neg]
    · exact hx w l hl
    · have := hlimit w l hl
      rw [hheight]
      omega

end Steady

namespace FrameHandle

theorem frame_within (a : FrameHandle) (w : World) (l : Limits) :
    a.frame (w.within l) = a.frame w :=
  a.frame_congr (w.frames_within l)

theorem modify_steady (a : FrameHandle) (op : Frame → Except Fault Frame) :
    Steady (a.modify op) := by
  intro w l _
  right
  simp only [modify_apply, frame_within]
  cases op (a.frame w) <;> cases a <;> rfl

theorem take_steady (a : FrameHandle) (op : Frame → Except Fault (α × Frame)) :
    Steady (a.take op) := by
  intro w l _
  right
  simp only [take_apply, frame_within]
  cases op (a.frame w) <;> cases a <;> rfl

theorem push_steady (a : FrameHandle) (v : Value) : Steady (a.push v) := a.modify_steady _

theorem pop_steady (a : FrameHandle) : Steady a.pop := a.take_steady _

theorem peek_steady (a : FrameHandle) (offset : Nat) : Steady (a.peek offset) :=
  .get_bind (fun w l => by rw [frame_within]) fun _ => .lift _

theorem readSlot_steady (a : FrameHandle) (area : Area) (index : Nat) (level : UInt8) :
    Steady (a.readSlot area index level) := by
  refine .get_bind (fun w l => ?_) fun _ => .lift _
  rw [frame_within, World.readSlot_congr (w.frames_within l)]

theorem receiver_steady (a : FrameHandle) : Steady a.receiver := by
  refine .get_bind (fun w l => ?_) fun _ => .lift _
  rw [frame_within, World.receiver, World.readSlot_congr (w.frames_within l)]
  rfl

theorem writeSlot_steady (a : FrameHandle) (area : Area) (index : Nat) (level : UInt8)
    (v : Value) : Steady (a.writeSlot area index level v) := by
  by_cases hlevel : level = 0
  · simp only [writeSlot, if_pos hlevel]
    exact a.modify_steady _
  · intro w l _
    right
    simp only [writeSlot_eq a area index hlevel, frame_within,
      World.outerContext_congr (w.frames_within l), w.frames_within l]
    cases w.outerContext (a.frame w) level with
    | error e => rfl
    | ok r => cases hf : (w.frames.get r).write area index v <;> simp only [hf] <;> rfl

theorem share_steady (a : FrameHandle) : Steady (Action.update a.share) :=
  .update fun _ _ => by cases a <;> rfl

end FrameHandle

theorem AtomicOperation.run_steady (op : AtomicOperation) (receiver : Value) (args : List Value) :
    Steady (op.run receiver args) := by
  have fresh (s : String) : Steady (Action.update (·.newString s)) := .update fun _ _ => rfl
  cases op with
  | identical | add | subtract | multiply | floorDivide | divide | less | greater | lessEqual
  | greaterEqual | numericEqual | numericNotEqual | stringEqual => exact .lift _
  | asInteger => exact .bind (.lift _) fun _ => .lift _
  | modulo => exact .bind (.lift _) fun _ => .bind (.lift _) fun _ => .lift _
  | failNotUnderstood | failUnknownGlobal => exact .bind (.lift _) fun _ => .throw _
  | failEscapedBlock => exact .throw _
  | asDouble | stringLength => exact .bind (.lift _) fun _ => .pure _
  | classOf => exact .get_bind (fun _ _ => rfl) fun _ => .pure _
  | describe => exact .get_bind (fun w l => by rw [w.describe_within]) fun _ => fresh _
  | className | superclass | arrayLength =>
    exact .bind (.lift _) fun _ => .get_bind (fun _ _ => rfl) fun _ => .pure _
  | asString => exact .bind (.lift _) fun _ => fresh _
  | concatenate =>
    exact .bind (.lift _) fun _ => .bind (.lift _) fun _ => .bind (.lift _) fun _ => fresh _
  | asSymbol => exact .bind (.lift _) fun _ => .bind (.update fun _ _ => rfl) fun _ => .pure _
  | newInstance =>
    refine .bind (.lift _) fun c => .update fun w l => ?_
    rw [World.newInstance, World.fieldCount_congr (w.classes_within l)]
    rfl
  | newArray =>
    refine .bind (.lift _) fun n => ?_
    split
    · exact .throw _
    · exact .update fun _ _ => rfl
  | fieldAt =>
    refine .bind (.lift _) fun _ => .bind (.lift _) fun _ => .get_bind (fun _ _ => rfl) fun _ => ?_
    exact .bind (.lift _) fun _ => .pure _
  | globalAt => exact .bind (.lift _) fun _ => .get_bind (fun _ _ => rfl) fun _ => .pure _
  | arrayAt =>
    refine .bind (.lift _) fun _ => .bind (.lift _) fun _ => .get_bind (fun _ _ => rfl) fun _ => ?_
    exact .bind (.lift _) fun _ => .pure _
  | fieldAtPut =>
    refine .bind (.lift _) fun _ => .bind (.lift _) fun _ => .bind (.lift _) fun _ => ?_
    refine .get_bind (fun _ _ => rfl) fun _ => .bind (.lift _) fun _ => ?_
    refine .bind (.modify fun w l => ?_) fun _ => .pure _
    simp only [World.getD_setField?]
    rfl
  | arrayAtPut =>
    refine .bind (.lift _) fun _ => .bind (.lift _) fun _ => .bind (.lift _) fun _ => ?_
    refine .get_bind (fun _ _ => rfl) fun _ => .bind (.lift _) fun _ => ?_
    exact .bind (.modify fun _ _ => rfl) fun _ => .pure _
  | globalAtPut =>
    refine .bind (.lift _) fun _ => .bind (.lift _) fun _ => ?_
    exact .bind (.modify fun _ _ => rfl) fun _ => .pure _
  | printText =>
    refine .bind (.lift _) fun v => .bind (.modify fun w l => ?_) fun _ => .pure _
    cases v <;> rfl
  | printNewline => exact .bind (.modify fun _ _ => rfl) fun _ => .pure _

namespace Action

theorem intern_steady (name : String) : Steady (intern name) := .update fun _ _ => rfl

theorem lookup_steady (c : ClassRef) (selector : Symbol) : Steady (lookup c selector) :=
  .bind (.count _) fun _ => .update fun w l => w.lookupWithin_within l selector (c.index + 1) c

theorem doesNotUnderstand_steady (receiver : Value) (selector : Symbol) (args : List Value) :
    Steady (doesNotUnderstand receiver selector args) := by
  refine .bind (.count _) fun _ => .bind (.update fun _ _ => rfl) fun _ => .bind (.note _) fun _ => ?_
  refine .bind (intern_steady _) fun _ => .get_bind (fun _ _ => rfl) fun w => ?_
  refine .bind (lookup_steady _ _) fun m => ?_
  cases m with
  | none => exact .throw _
  | some m => exact .pure _

theorem dispatch_steady (receiver : Value) (selector : Symbol) (args : List Value) :
    Steady (dispatch receiver selector args) := by
  refine .get_bind (fun _ _ => rfl) fun w => .bind (lookup_steady _ _) fun m => ?_
  cases m with
  | none => exact doesNotUnderstand_steady _ _ _
  | some m => exact .pure _

theorem unknownGlobal_steady (receiver : Value) (name : Symbol) :
    Steady (unknownGlobal receiver name) :=
  .bind (.count _) fun _ => .bind (.note _) fun _ => .bind (intern_steady _) fun _ =>
    dispatch_steady _ _ _

theorem escapedBlock_steady (receiver block : Value) : Steady (escapedBlock receiver block) :=
  .bind (intern_steady _) fun _ => dispatch_steady _ _ _

theorem resolve_steady (method : CodeRef) (offset : Nat) (c : ClassRef) (selector : Symbol) :
    Steady (resolve method offset c selector) := by
  refine .bind (.count _) fun _ => .get_bind (fun w l => by rw [w.cacheAt_within]) fun w => ?_
  cases (w.cacheAt method offset).find? c with
  | some m => exact .bind (.count _) fun _ => .pure _
  | none =>
    refine .bind (.count _) fun _ => .bind (lookup_steady _ _) fun found => ?_
    cases found with
    | none => exact .pure _
    | some m =>
      refine .get_bind (fun w l => by rw [w.cacheAt_within]) fun w => ?_
      dsimp only
      split
      · exact .bind (.count _) fun _ => .bind (.note _) fun _ => .pure _
      · exact .bind (.modify fun _ _ => rfl) fun _ => .bind (.note _) fun _ => .pure _

theorem resolveSuper_steady (method : CodeRef) (selector : Symbol) :
    Steady (resolveSuper method selector) := by
  refine .get_bind (fun _ _ => rfl) fun w => ?_
  cases w.holder? (.compiled method) with
  | none => exact .throw _
  | some holder =>
    dsimp only
    cases (w.cls holder).superclass with
    | none => exact .pure _
    | some s => exact lookup_steady _ _

end Action

theorem PerformForm.send_steady (form : PerformForm) (receiver : Value) (args : List Value) :
    Steady (form.send receiver args) := by
  refine .bind (.lift _) fun selector => ?_
  refine .get_bind (fun w l => by cases form <;> rfl) fun w => .bind (.lift _) fun _ => ?_
  cases selector with
  | symbol s =>
    dsimp only
    split
    · exact Action.dispatch_steady _ _ _
    · exact .throw _
  | _ => exact .throw _

theorem Operation.start_steady (op : Operation) (receiver : Value) (args : List Value) :
    Steady (op.start receiver args) := by
  cases op with
  | atomic op => exact .bind (op.run_steady _ _) fun _ => .pure _
  | perform form => exact .bind (form.send_steady _ _) fun _ => .pure _
  | evaluate => exact .bind (.lift _) fun _ => .pure _
  | whileLoop sense =>
    exact .bind (.lift _) fun _ => .bind (.lift _) fun _ => .bind (.lift _) fun _ => .pure _
  | count =>
    refine .bind (.lift _) fun _ => .bind (.lift _) fun _ => .bind (.lift _) fun body => ?_
    cases body with
    | block b => exact .pure _
    | _ => exact .throw _

namespace Activation

theorem start_steady (method : CodeRef) (args : List Value) (outer : Option FrameRef) :
    Steady (start method args outer) := by
  refine .below ?_ (fun _ _ hl => hl.1) (fun _ _ => rfl) fun _ => rfl
  refine .bind (.get_bind (fun _ _ => rfl) fun w => ?_) fun f => ?_
  · exact .bind (.lift _) fun f => .bind (.discard (.update fun _ _ => rfl)) fun _ => .pure _
  · exact .bind (.count _) fun _ => .bind (.modify fun _ _ => rfl) fun _ => .pure _

theorem literal_steady (a : Activation) (index : UInt8) : Steady (a.literal index) :=
  .get_bind (fun _ _ => rfl) fun _ => .lift _

theorem symbolLiteral_steady (a : Activation) (index : UInt8) : Steady (a.symbolLiteral index) :=
  .get_bind (fun _ _ => rfl) fun _ => .lift _

theorem pushBlock_steady (a : Activation) (literal : UInt8) : Steady (a.pushBlock literal) := by
  refine .get_bind (fun _ _ => rfl) fun w => .bind (.lift _) fun body => ?_
  dsimp only
  split
  · exact .throw _
  split
  · exact .throw _
  refine .bind a.handle.share_steady fun _ => .bind (.update fun _ _ => rfl) fun _ => ?_
  exact .bind (FrameHandle.push_steady _ _) fun _ => .pure _

theorem readField_steady (receiver : Value) (index : UInt8) : Steady (readField receiver index) := by
  cases receiver with
  | object o =>
    refine .get_bind (fun _ _ => rfl) fun w => ?_
    cases w.field? o index.toNat with
    | none => exact .throw _
    | some v => exact .pure _
  | _ => exact .throw _

theorem writeField_steady (receiver : Value) (index : UInt8) (v : Value) :
    Steady (writeField receiver index v) := by
  cases receiver with
  | object o =>
    intro w l _
    right
    have hobjects : (w.within l).objects = w.objects := rfl
    simp only [writeField_apply, World.getD_setField?, hobjects]
    split <;> rfl
  | _ => exact .throw _

theorem enter_steady (a : Activation) (target : Option Method) (selector : Symbol) :
    Steady (a.enter target selector) := by
  refine .bind (a.handle.take_steady _) fun ⟨args, handle⟩ => ?_
  dsimp only
  match target with
  | some (.compiled c) => exact .bind (start_steady _ _ _) fun _ => .pure _
  | some (.primitive p) =>
    refine .get_bind (fun _ _ => rfl) fun w => ?_
    split
    · exact .bind (start_steady _ _ _) fun _ => .pure _
    · exact .pure _
  | none => exact .bind (Action.doesNotUnderstand_steady _ _ _) fun _ => .pure _

theorem returnNonLocal_steady (a : Activation) : Steady a.returnNonLocal := by
  refine .bind a.handle.pop_steady fun ⟨v, handle⟩ => ?_
  refine .get_bind (fun w l => ?_) fun w => ?_
  · simp only [FrameHandle.frame_within, World.outerContext_congr (w.frames_within l)]
    rfl
  split
  · exact .pure _
  dsimp only
  refine .bind (.lift _) fun self => ?_
  split
  · refine .bind (.lift _) fun home => ?_
    split
    · exact .bind (.count _) fun _ => .bind (.note _) fun _ => .pure _
    · refine .bind (.count _) fun _ => .bind (.lift _) fun receiver => .bind (.note _) fun _ => ?_
      exact .bind (Action.escapedBlock_steady _ _) fun _ => .pure _
  · exact .throw _

theorem execute_steady (a : Activation) (offset : Nat) (i : Instruction) :
    Steady (a.execute offset i) := by
  have peek := a.handle.peek_steady
  have push := fun (handle : FrameHandle) (v : Value) => handle.push_steady v
  cases i with
  | halt => exact .bind (peek 0) fun _ => .pure _
  | dup => exact .bind (.bind (peek 0) fun _ => push _ _) fun _ => .pure _
  | pushSlot area index level =>
    exact .bind (.bind (a.handle.readSlot_steady _ _ _) fun _ => push _ _) fun _ => .pure _
  | pushField index =>
    exact .bind (.bind a.handle.receiver_steady fun _ =>
      .bind (readField_steady _ _) fun _ => push _ _) fun _ => .pure _
  | pushBlock literal => exact .bind (a.pushBlock_steady _) fun _ => .pure _
  | pushConstant literal =>
    exact .bind (.bind (a.literal_steady _) fun _ => push _ _) fun _ => .pure _
  | pushGlobal literal =>
    refine .bind (a.symbolLiteral_steady _) fun name => .get_bind (fun _ _ => rfl) fun w => ?_
    cases w.global? name with
    | some x => exact .bind (push _ _) fun _ => .pure _
    | none =>
      exact .bind a.handle.receiver_steady fun _ =>
        .bind (Action.unknownGlobal_steady _ _) fun _ => .pure _
  | pop => exact .bind (.bind a.handle.pop_steady fun _ => .pure _) fun _ => .pure _
  | popSlot area index level =>
    exact .bind (.bind a.handle.pop_steady fun _ => FrameHandle.writeSlot_steady _ _ _ _ _)
      fun _ => .pure _
  | popField index =>
    exact .bind (.bind a.handle.pop_steady fun _ => .bind (FrameHandle.receiver_steady _) fun _ =>
      .bind (writeField_steady _ _ _) fun _ => .pure _) fun _ => .pure _
  | send literal =>
    refine .bind (a.symbolLiteral_steady _) fun selector => .bind (peek _) fun receiver => ?_
    refine .get_bind (fun _ _ => rfl) fun w => .bind (Action.resolve_steady _ _ _ _) fun _ => ?_
    exact a.enter_steady _ _
  | superSend literal =>
    exact .bind (a.symbolLiteral_steady _) fun _ =>
      .bind (Action.resolveSuper_steady _ _) fun _ => a.enter_steady _ _
  | returnLocal => exact .bind a.handle.pop_steady fun _ => .pure _
  | returnNonLocal => exact a.returnNonLocal_steady

theorem step_steady (a : Activation) : Steady a.step := by
  refine .get_bind (fun w l => ?_) fun w => .bind (.lift _) fun i => ?_
  · rw [FrameHandle.frame_within]
    rfl
  split
  · exact .bind (.note _) fun _ => execute_steady _ _ _
  · exact execute_steady _ _ _

end Activation

end MessageMachine
