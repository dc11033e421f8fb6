import MessageMachine.Proofs.Filling

namespace MessageMachine

variable {α β : Type} {t : World → World}

/-- The same result, in a world that was changed. -/
def inside (t : World → World) : EStateM.Result Fault World α → EStateM.Result Fault World α
  | .ok a w => .ok a (t w)
  | .error f w => .error f (t w)

def Ignores (t : World → World) (x : Action α) : Prop := ∀ w, x (t w) = inside t (x w)

namespace Ignores

theorem pure (a : α) : Ignores t (pure a) := fun _ => rfl

theorem throw (f : Fault) : Ignores t (throw f : Action α) := fun _ => rfl

theorem bind {x : Action α} {f : α → Action β} (hx : Ignores t x) (hf : ∀ a, Ignores t (f a)) :
    Ignores t (x >>= f) := by
  intro w
  rw [Action.bind_apply, Action.bind_apply, hx w]
  cases x w with
  | ok a v => exact hf a v
  | error e v => rfl

theorem lift (e : Except Fault α) : Ignores t (liftM e : Action α) := by
  cases e with
  | ok a => exact pure a
  | error f => exact throw f

theorem get_bind {f : World → Action α} (hs : ∀ w, f (t w) = f w) (hf : ∀ w, Ignores t (f w)) :
    Ignores t (get >>= f) := by
  intro w
  change f (t w) (t w) = inside t (f w w)
  rw [hs]
  exact hf w w

theorem update {f : World → α × World} (hf : ∀ w, f (t w) = ((f w).1, t (f w).2)) :
    Ignores t (Action.update f) := by
  intro w
  rw [Action.update_apply, hf]
  rfl

theorem modify {f : World → World} (hf : ∀ w, f (t w) = t (f w)) :
    Ignores t (modify f : Action Unit) :=
  update (f := fun w => ((), f w)) fun w => by rw [hf]

theorem discard {x : Action α} (hx : Ignores t x) : Ignores t (discard x : Action PUnit) := by
  intro w
  rw [Action.discard_apply, Action.discard_apply, hx w]
  cases x w <;> rfl

theorem mapM {f : α → Action β} (hf : ∀ a, Ignores t (f a)) (xs : List α) :
    Ignores t (xs.mapM f) := by
  induction xs with
  | nil => exact pure []
  | cons x xs ih =>
    rw [List.mapM_cons]
    exact .bind (hf x) fun _ => .bind ih fun _ => .pure _

end Ignores

theorem Ignores.leaves {x : Action α} (h : Ignores t x) (w : World) :
    Action.leaves x (t w) = t (Action.leaves x w) := by
  unfold Action.leaves
  rw [h w]
  cases x w <;> rfl

namespace World

/-- The same world with other inline caches. -/
def withSites (caches : Table (CodeRef × Nat) InlineCache) (w : World) : World := { w with caches }

variable (caches : Table (CodeRef × Nat) InlineCache) (w : World)

theorem methodText_withSites (m : Method) : (w.withSites caches).methodText m = w.methodText m := by
  unfold methodText
  cases m <;> simp only [signature, holder?, code, className, cls, withSites]

theorem describe_withSites (v : Value) : (w.withSites caches).describe v = w.describe v := by
  cases v with
  | boolean b => cases b <;> rfl
  | method m => exact w.methodText_withSites caches m
  | block b => simp only [describe, blockArgCount, code, withSites]
  | array | object | cls => simp only [describe, className, World.cls, withSites]
  | nil | integer | double | string | symbol => rfl

theorem text_withSites {e : Event} (he : ∀ c r, e ≠ .installing c r) :
    e.text (w.withSites caches) = e.text w := by
  have hclass (c : ClassRef) : (w.withSites caches).className c = w.className c := rfl
  have hfields (c : ClassRef) : (w.withSites caches).fieldCount c = w.fieldCount c :=
    fieldCount_congr (w := w) (v := w.withSites caches) rfl c
  unfold Event.text
  cases e with
  | installing c r => exact absurd rfl (he c r)
  | defined | executing | cached | notUnderstood | unboundGlobal | unwinding | homeCompleted
  | escaped =>
    simp only [hclass, hfields, codeText, methodText_withSites, describe_withSites]

theorem note_withSites {e : Event} (he : ∀ c r, e ≠ .installing c r) :
    (w.withSites caches).note e = (w.note e).withSites caches := by
  unfold note
  rw [text_withSites caches w he]
  change (if w.journal.keeps e.severity then _ else _) = _
  split <;> rfl

theorem traced_withSites (a : Activation) (i : Instruction) :
    a.traced i (w.withSites caches) = (a.traced i w).withSites caches := by
  have hframe : a.handle.frame (w.withSites caches) = a.handle.frame w := a.handle.frame_congr rfl
  unfold Activation.traced
  rw [hframe, note_withSites caches w fun _ _ h => by cases h]
  change (if w.config.traceExecution then _ else _) = _
  split <;> rfl

theorem lookup_withSites (c : ClassRef) (selector : Symbol) :
    (w.withSites caches).lookup c selector =
      ((w.lookup c selector).1, (w.lookup c selector).2.withSites caches) := by
  obtain ⟨found, memos, h⟩ := w.lookupWithin_depends selector (c.index + 1) c
  rw [lookup, h (w.withSites caches) rfl rfl, lookup, h w rfl rfl]
  rfl

end World

variable {caches : Table (CodeRef × Nat) InlineCache}

namespace Action

open World

theorem lookup_ignores (c : ClassRef) (selector : Symbol) :
    Ignores (withSites caches) (lookup c selector) :=
  .bind (.modify fun _ => rfl) fun _ => .update fun w => w.lookup_withSites caches c selector

theorem doesNotUnderstand_ignores (receiver : Value) (selector : Symbol) (args : List Value) :
    Ignores (withSites caches) (doesNotUnderstand receiver selector args) := by
  refine .bind (.modify fun _ => rfl) fun _ => .bind (.update fun _ => rfl) fun _ => ?_
  refine .bind (.modify fun w => w.note_withSites caches fun _ _ h => by cases h) fun _ => ?_
  refine .bind (.update fun _ => rfl) fun _ => .get_bind (fun _ => rfl) fun w => ?_
  refine .bind (lookup_ignores _ _) fun m => ?_
  cases m with
  | none => exact .throw _
  | some m => exact .pure _

theorem resolveSuper_ignores (method : CodeRef) (selector : Symbol) :
    Ignores (withSites caches) (resolveSuper method selector) := by
  refine .get_bind (fun _ => rfl) fun w => ?_
  cases w.holder? (.compiled method) with
  | none => exact .throw _
  | some holder =>
    dsimp only
    cases (w.cls holder).superclass with
    | none => exact .pure _
    | some s => exact lookup_ignores _ _

end Action

namespace Activation

open World

theorem start_ignores (method : CodeRef) (args : List Value) (outer : Option FrameRef) :
    Ignores (withSites caches) (start method args outer) := by
  refine .get_bind (fun _ => rfl) fun w => ?_
  split
  · exact .throw _
  refine .bind (.get_bind (fun _ => rfl) fun w => ?_) fun f => ?_
  · exact .bind (.lift _) fun f => .bind (.discard (.update fun _ => rfl)) fun _ => .pure _
  · exact .bind (.modify fun _ => rfl) fun _ => .bind (.modify fun _ => rfl) fun _ => .pure _

theorem enter_ignores (a : Activation) (target : Option Method) (selector : Symbol) :
    Ignores (withSites caches) (a.enter target selector) := by
  have hpop : Ignores (withSites caches) (a.handle.popN selector.arity) := by
    intro w
    unfold FrameHandle.popN
    have hframe : a.handle.frame (w.withSites caches) = a.handle.frame w := a.handle.frame_congr rfl
    rw [FrameHandle.take_apply, FrameHandle.take_apply, hframe]
    cases (a.handle.frame w).popN selector.arity <;> cases a.handle <;> rfl
  refine .bind hpop fun ⟨args, handle⟩ => ?_
  dsimp only
  match target with
  | some (.compiled c) => exact .bind (start_ignores _ _ _) fun _ => .pure _
  | some (.primitive p) =>
    refine .get_bind (fun _ => rfl) fun w => ?_
    split
    · exact .bind (start_ignores _ _ _) fun _ => .pure _
    · exact .pure _
  | none => exact .bind (Action.doesNotUnderstand_ignores _ _ _) fun _ => .pure _

theorem superSend_ignores (a : Activation) (selector : Symbol) :
    Ignores (withSites caches) (a.superSend selector) :=
  .bind (Action.resolveSuper_ignores _ _) fun _ => a.enter_ignores _ _

end Activation

end MessageMachine
