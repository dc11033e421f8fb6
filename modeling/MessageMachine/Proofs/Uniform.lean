import MessageMachine.Primitive.Reentrant
import MessageMachine.Proofs.Alike
import MessageMachine.Proofs.Handle

namespace MessageMachine

variable {k l : Nat} {α β : Type}

theorem setFrame_plain (r : FrameRef) (f : Frame) (a : α) :
    Plain fun w => (a, w.setFrame r f) :=
  ⟨fun _ _ => rfl, fun _ => rfl, fun _ => rfl, fun _ => rfl⟩

namespace World

variable (w : World) (t : Traces)

theorem classes_withTraces : (w.withTraces t).classes = w.classes := rfl

@[simp] theorem frames_withTraces : (w.withTraces t).frames = w.frames := rfl

@[simp] theorem outerContext_withTraces (f : Frame) (level : UInt8) :
    (w.withTraces t).outerContext f level = w.outerContext f level :=
  outerContext_congr (frames_withTraces w t) f level

@[simp] theorem readSlot_withTraces (f : Frame) (area : Area) (index : Nat) (level : UInt8) :
    (w.withTraces t).readSlot f area index level = w.readSlot f area index level :=
  readSlot_congr (frames_withTraces w t) f area index level

@[simp] theorem receiver_withTraces (f : Frame) : (w.withTraces t).receiver f = w.receiver f :=
  readSlot_withTraces w t f .arguments 0 f.code.level

@[simp] theorem frame_withTraces (a : FrameHandle) : a.frame (w.withTraces t) = a.frame w :=
  a.frame_congr (frames_withTraces w t)

end World

theorem Alike.frames {w v : World} (h : Alike k l w v) : v.frames = w.frames := by
  rw [h.same, World.frames_withTraces]

namespace FrameHandle

theorem modify_uniform (a : FrameHandle) (op : Frame → Except Fault Frame) :
    Uniform k l (a.modify op) := by
  intro w v h
  cases a with
  | own f => cases hop : op f <;> simp only [modify, hop] <;> exact ⟨rfl, h⟩
  | shared r =>
    have hget : v.frames.get r = w.frames.get r := by rw [h.frames]
    cases hop : op (w.frames.get r) with
    | error e =>
      simp only [modify, hget, hop]
      exact ⟨rfl, h⟩
    | ok f =>
      simp only [modify, hget, hop]
      exact ⟨rfl, ((setFrame_plain r f ()).alike h).2⟩

theorem take_uniform (a : FrameHandle) (op : Frame → Except Fault (α × Frame)) :
    Uniform k l (a.take op) := by
  intro w v h
  cases a with
  | own f => cases hop : op f <;> simp only [take, hop] <;> exact ⟨rfl, h⟩
  | shared r =>
    have hget : v.frames.get r = w.frames.get r := by rw [h.frames]
    cases hop : op (w.frames.get r) with
    | error e =>
      simp only [take, hget, hop]
      exact ⟨rfl, h⟩
    | ok f =>
      simp only [take, hget, hop]
      exact ⟨rfl, ((setFrame_plain r f.2 ()).alike h).2⟩

theorem push_uniform (a : FrameHandle) (v : Value) : Uniform k l (a.push v) := a.modify_uniform _

theorem pop_uniform (a : FrameHandle) : Uniform k l a.pop := a.take_uniform _

theorem popN_uniform (a : FrameHandle) (n : Nat) : Uniform k l (a.popN n) := a.take_uniform _

theorem peek_uniform (a : FrameHandle) (offset : Nat) : Uniform k l (a.peek offset) :=
  .get_bind (fun w t => by simp) fun _ => .lift _

theorem readSlot_uniform (a : FrameHandle) (area : Area) (index : Nat) (level : UInt8) :
    Uniform k l (a.readSlot area index level) :=
  .get_bind (fun w t => by simp) fun _ => .lift _

theorem receiver_uniform (a : FrameHandle) : Uniform k l a.receiver :=
  .get_bind (fun w t => by simp) fun _ => .lift _

theorem writeSlot_uniform (a : FrameHandle) (area : Area) (index : Nat) (level : UInt8)
    (x : Value) : Uniform k l (a.writeSlot area index level x) := by
  intro w v h
  by_cases hl : level = 0
  · simpa only [writeSlot, if_pos hl] using a.modify_uniform _ w v h
  · rw [writeSlot_eq a area index hl, writeSlot_eq a area index hl, frame_congr h.frames,
      World.outerContext_congr h.frames, h.frames]
    cases w.outerContext (a.frame w) level with
    | error e => exact ⟨rfl, h⟩
    | ok r =>
      cases hf : (w.frames.get r).write area index x with
      | error e =>
        simp only [hf]
        exact ⟨rfl, h⟩
      | ok f =>
        simp only [hf]
        exact ⟨rfl, ((setFrame_plain r f ()).alike h).2⟩

theorem share_plain (a : FrameHandle) : Plain a.share := by
  constructor <;> intros <;> cases a <;> rfl

end FrameHandle

theorem World.getD_setField? (w : World) (r : ObjectRef) (index : Nat) (v : Value) :
    (w.setField? r index v).getD w =
      { w with
        objects :=
          let o := w.objects.get r
          if index < o.fields.size then
            w.objects.set r { o with fields := o.fields.setIfInBounds index v }
          else w.objects } := by
  unfold World.setField?
  dsimp only
  split <;> rfl

theorem World.eq_of_setField? {w w' : World} {r : ObjectRef} {index : Nat} {v : Value}
    (h : w.setField? r index v = some w') : ∃ objects, w' = { w with objects } := by
  have hset := w.getD_setField? r index v
  rw [h, Option.getD_some] at hset
  exact ⟨_, hset⟩

theorem setField_plain (r : ObjectRef) (index : Nat) (v : Value) :
    Plain fun w => ((), (w.setField? r index v).getD w) := by
  simp only [World.getD_setField?]
  exact ⟨fun _ _ => rfl, fun _ => rfl, fun _ => rfl, fun _ => rfl⟩

namespace AtomicOperation

/-- An operation that completes by itself is uniform: it neither looks anything up nor counts. -/
theorem run_uniform (op : AtomicOperation) (receiver : Value) (args : List Value) :
    Uniform k l (op.run receiver args) := by
  have fresh : ∀ s : String, Uniform k l (Action.update (·.newString s)) := fun s =>
    .update ⟨fun _ _ => rfl, fun _ => rfl, fun _ => rfl, fun _ => rfl⟩
  cases op with
  | identical | add | subtract | multiply | floorDivide | divide | less | greater | lessEqual
  | greaterEqual | numericEqual | numericNotEqual | stringEqual => exact .lift _
  | asInteger => exact .bind (.lift _) fun _ => .lift _
  | modulo => exact .bind (.lift _) fun _ => .bind (.lift _) fun _ => .lift _
  | failNotUnderstood | failUnknownGlobal => exact .bind (.lift _) fun _ => .throw _
  | failEscapedBlock => exact .throw _
  | asDouble | stringLength => exact .bind (.lift _) fun _ => .pure _
  | classOf => exact .get_bind (fun _ _ => rfl) fun _ => .pure _
  | describe =>
    refine .get_bind (fun w t => ?_) fun _ => fresh _
    cases receiver <;> rfl
  | className | superclass | arrayLength =>
    exact .bind (.lift _) fun _ => .get_bind (fun _ _ => rfl) fun _ => .pure _
  | asString => exact .bind (.lift _) fun _ => fresh _
  | concatenate =>
    exact .bind (.lift _) fun _ => .bind (.lift _) fun _ => .bind (.lift _) fun _ => fresh _
  | asSymbol =>
    refine .bind (.lift _) fun s => .bind (.update ?_) fun _ => .pure _
    exact ⟨fun _ _ => rfl, fun _ => rfl, fun _ => rfl, fun _ => rfl⟩
  | newInstance =>
    refine .bind (.lift _) fun c => .update ⟨fun w t => ?_, fun _ => rfl, fun _ => rfl, fun _ => rfl⟩
    rw [World.newInstance, World.fieldCount_congr (World.classes_withTraces w t)]
    rfl
  | newArray =>
    refine .bind (.lift _) fun n => ?_
    split
    · exact .throw _
    · exact .update ⟨fun _ _ => rfl, fun _ => rfl, fun _ => rfl, fun _ => rfl⟩
  | fieldAt =>
    refine .bind (.lift _) fun _ => .bind (.lift _) fun _ => .get_bind (fun _ _ => rfl) fun _ => ?_
    exact .bind (.lift _) fun _ => .pure _
  | globalAt => exact .bind (.lift _) fun _ => .get_bind (fun _ _ => rfl) fun _ => .pure _
  | arrayAt =>
    refine .bind (.lift _) fun _ => .bind (.lift _) fun _ => .get_bind (fun _ _ => rfl) fun _ => ?_
    exact .bind (.lift _) fun _ => .pure _
  | fieldAtPut =>
    refine .bind (.lift _) fun _ => .bind (.lift _) fun _ => .bind (.lift _) fun _ => ?_
    refine .get_bind (fun _ _ => rfl) fun _ => .bind (.lift _) fun _ => ?_
    exact .bind (.modify (setField_plain _ _ _)) fun _ => .pure _
  | arrayAtPut =>
    refine .bind (.lift _) fun _ => .bind (.lift _) fun _ => .bind (.lift _) fun _ => ?_
    refine .get_bind (fun _ _ => rfl) fun _ => .bind (.lift _) fun _ => ?_
    refine .bind (.modify ?_) fun _ => .pure _
    exact ⟨fun _ _ => rfl, fun _ => rfl, fun _ => rfl, fun _ => rfl⟩
  | globalAtPut =>
    refine .bind (.lift _) fun _ => .bind (.lift _) fun _ => .bind (.modify ?_) fun _ => .pure _
    exact ⟨fun _ _ => rfl, fun _ => rfl, fun _ => rfl, fun _ => rfl⟩
  | printText =>
    refine .bind (.lift _) fun v => .bind (.modify ⟨fun w t => ?_, fun _ => rfl, fun _ => rfl, fun _ => rfl⟩) fun _ => .pure _
    cases v <;> rfl
  | printNewline =>
    refine .bind (.modify ?_) fun _ => .pure _
    exact ⟨fun _ _ => rfl, fun _ => rfl, fun _ => rfl, fun _ => rfl⟩
end AtomicOperation

namespace Action

theorem intern_uniform (name : String) : Uniform k l (intern name) :=
  .update ⟨fun _ _ => rfl, fun _ => rfl, fun _ => rfl, fun _ => rfl⟩

theorem lookup_apply {w : World} (hw : w.Coherent) (c : ClassRef) (selector : Symbol) :
    ∃ w', lookup c selector w = .ok (w.method? c selector) w' ∧ Retraced w w' := by
  have hn := Retraced.count hw fun n => { n with lookups := n.lookups + 1 }
  obtain ⟨hm, hl⟩ := Retraced.lookup hn.coherent c selector
  rw [hn.method?] at hm
  exact ⟨_, by simp only [lookup, bind_apply, count_apply, update_apply, hm], hn.trans hl⟩

theorem lookup_uniform (c : ClassRef) (selector : Symbol) : Uniform k l (lookup c selector) := by
  intro w v h
  obtain ⟨w', hw, hr⟩ := lookup_apply h.left c selector
  obtain ⟨v', hv, hr'⟩ := lookup_apply h.right c selector
  have hcls : v.classes = w.classes := by rw [h.same]; rfl
  rw [hw, hv, World.method?_congr hcls]
  exact ⟨rfl, h.retrace hr hr'⟩

theorem doesNotUnderstand_uniform (receiver : Value) (selector : Symbol) (args : List Value) :
    Uniform k l (doesNotUnderstand receiver selector args) := by
  refine .bind (.count _) fun _ => .bind (.update ?_) fun _ => .bind (.note _) fun _ => ?_
  · exact ⟨fun _ _ => rfl, fun _ => rfl, fun _ => rfl, fun _ => rfl⟩
  refine .bind (intern_uniform _) fun _ => .get_bind (fun _ _ => rfl) fun w => ?_
  refine .bind (lookup_uniform _ _) fun m => ?_
  cases m with
  | none => exact .throw _
  | some m => exact .pure _

theorem dispatch_uniform (receiver : Value) (selector : Symbol) (args : List Value) :
    Uniform k l (dispatch receiver selector args) := by
  refine .get_bind (fun _ _ => rfl) fun w => .bind (lookup_uniform _ _) fun m => ?_
  cases m with
  | none => exact doesNotUnderstand_uniform _ _ _
  | some m => exact .pure _

theorem unknownGlobal_uniform (receiver : Value) (name : Symbol) :
    Uniform k l (unknownGlobal receiver name) :=
  .bind (.count _) fun _ => .bind (.note _) fun _ => .bind (intern_uniform _) fun _ =>
    dispatch_uniform _ _ _

theorem escapedBlock_uniform (receiver block : Value) : Uniform k l (escapedBlock receiver block) :=
  .bind (intern_uniform _) fun _ => dispatch_uniform _ _ _

theorem resolveSuper_uniform (method : CodeRef) (selector : Symbol) :
    Uniform k l (resolveSuper method selector) := by
  refine .get_bind (fun _ _ => rfl) fun w => ?_
  cases w.holder? (.compiled method) with
  | none => exact .throw _
  | some holder =>
    dsimp only
    cases (w.cls holder).superclass with
    | none => exact .pure _
    | some s => exact lookup_uniform _ _

end Action

theorem PerformForm.send_uniform (form : PerformForm) (receiver : Value) (args : List Value) :
    Uniform k l (form.send receiver args) := by
  refine .bind (.lift _) fun selector => ?_
  refine .get_bind (fun w t => ?_) fun w => .bind (.lift _) fun _ => ?_
  · cases form <;> rfl
  cases selector with
  | symbol s =>
    dsimp only
    split
    · exact Action.dispatch_uniform _ _ _
    · exact .throw _
  | _ => exact .throw _

theorem Operation.start_uniform (op : Operation) (receiver : Value) (args : List Value) :
    Uniform k l (op.start receiver args) := by
  cases op with
  | atomic op => exact .bind (op.run_uniform _ _) fun _ => .pure _
  | perform form => exact .bind (form.send_uniform _ _) fun _ => .pure _
  | evaluate => exact .bind (.lift _) fun _ => .pure _
  | whileLoop sense =>
    exact .bind (.lift _) fun _ => .bind (.lift _) fun _ => .bind (.lift _) fun _ => .pure _
  | count =>
    refine .bind (.lift _) fun _ => .bind (.lift _) fun _ => .bind (.lift _) fun body => ?_
    cases body with
    | block b => exact .pure _
    | _ => exact .throw _

end MessageMachine
