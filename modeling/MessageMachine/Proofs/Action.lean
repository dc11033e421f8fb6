import MessageMachine.World

namespace MessageMachine.Action

variable {α β : Type} (w : World)

theorem bind_apply (x : Action α) (f : α → Action β) :
    (x >>= f) w = match x w with
      | .ok a w => f a w
      | .error e w => .error e w := by
  change EStateM.bind x f w = _
  unfold EStateM.bind
  cases x w <;> rfl

@[simp] theorem pure_apply (a : α) : (pure a : Action α) w = .ok a w := rfl

@[simp] theorem throw_apply (f : Fault) : (throw f : Action α) w = .error f w := rfl

@[simp] theorem get_apply : (get : Action World) w = .ok w w := rfl

@[simp] theorem set_apply (v : World) : (set v : Action PUnit) w = .ok ⟨⟩ v := rfl

@[simp] theorem modify_apply (f : World → World) : (modify f : Action PUnit) w = .ok ⟨⟩ (f w) := rfl

@[simp] theorem update_apply (f : World → α × World) :
    Action.update f w = .ok (f w).1 (f w).2 := rfl

@[simp] theorem lift_ok (a : α) : (liftM (Except.ok a : Except Fault α) : Action α) w = .ok a w :=
  rfl

@[simp] theorem lift_error (f : Fault) :
    (liftM (Except.error f : Except Fault α) : Action α) w = .error f w := rfl

theorem lift_bind (e : Except Fault α) (f : α → Except Fault β) :
    (liftM (e >>= f) : Action β) = liftM e >>= fun a => liftM (f a) := by
  cases e <;> rfl

@[simp] theorem count_apply (f : Counters → Counters) : Action.count f w = .ok ⟨⟩ (w.count f) := rfl

theorem discard_apply (x : Action α) :
    (discard x : Action PUnit) w = match x w with
      | .ok _ w => .ok ⟨⟩ w
      | .error e w => .error e w := by
  change EStateM.map _ x w = _
  unfold EStateM.map
  cases x w <;> rfl

/-- The answer and the world after it, unless the action fails. -/
def result? (x : Action α) (w : World) : Option (α × World) :=
  match x w with
  | .ok a w => some (a, w)
  | .error _ _ => none

theorem result?_eq_some {x : Action α} {a : α} {w w' : World} :
    x.result? w = some (a, w') ↔ x w = .ok a w' := by
  unfold result?
  cases x w with
  | ok b v => simp
  | error f v => simp

/-- What holds of the answer and the world after it, or else of the fault and the world it left. -/
def Ensures (x : Action α) (w : World) (Q : α → World → Prop) (E : Fault → World → Prop) : Prop :=
  match x w with
  | .ok a w => Q a w
  | .error f w => E f w

namespace Ensures

variable {w : World} {Q : α → World → Prop} {E : Fault → World → Prop}

theorem of_ok {x : Action α} {w' : World} {a : α} (h : x.Ensures w Q E) (hx : x w = .ok a w') :
    Q a w' := by
  unfold Ensures at h
  rwa [hx] at h

theorem of_error {x : Action α} {w' : World} {f : Fault} (h : x.Ensures w Q E)
    (hx : x w = .error f w') : E f w' := by
  unfold Ensures at h
  rwa [hx] at h

theorem bind {x : Action α} {f : α → Action β} {R : β → World → Prop} (hx : x.Ensures w Q E)
    (hf : ∀ a w', Q a w' → (f a).Ensures w' R E) : (x >>= f).Ensures w R E := by
  unfold Ensures at hx ⊢
  rw [bind_apply]
  cases h : x w with
  | ok a w' =>
    rw [h] at hx
    exact hf a w' hx
  | error e w' =>
    rw [h] at hx
    exact hx

theorem mono {x : Action α} {R : α → World → Prop} {F : Fault → World → Prop}
    (hx : x.Ensures w Q E) (hQ : ∀ a w', Q a w' → R a w') (hE : ∀ f w', E f w' → F f w') :
    x.Ensures w R F := by
  unfold Ensures at hx ⊢
  cases h : x w with
  | ok a w' =>
    rw [h] at hx
    exact hQ a w' hx
  | error e w' =>
    rw [h] at hx
    exact hE e w' hx

theorem get_bind {f : World → Action β} {R : β → World → Prop} (h : (f w).Ensures w R E) :
    (get >>= f).Ensures w R E := h

theorem of_eq {x y : Action α} {v : World} (h : x w = y v) (hy : y.Ensures v Q E) :
    x.Ensures w Q E := by
  unfold Ensures at hy ⊢
  rwa [h]

theorem of_ok_bind {x : Action α} {f : α → Action β} {R : β → World → Prop} {v : World} {a : α}
    (hx : x w = .ok a v) (hf : (f a).Ensures v R E) : (x >>= f).Ensures w R E :=
  of_eq (by rw [bind_apply, hx]) hf

theorem of_error_bind {x : Action α} {f : α → Action β} {R : β → World → Prop} {v : World}
    {e : Fault} (hx : x w = .error e v) (he : E e v) : (x >>= f).Ensures w R E := by
  unfold Ensures
  rwa [bind_apply, hx]

theorem after {x : Action α} {f : α → Action β} {P : World → Prop} {R : β → World → Prop}
    (hx : x.Ensures w (fun _ v => P v) fun _ _ => False)
    (hf : ∀ a v, P v → (f a).Ensures v R E) : (x >>= f).Ensures w R E :=
  bind (hx.mono (fun _ _ => id) fun _ _ => False.elim) hf

end Ensures

end MessageMachine.Action
