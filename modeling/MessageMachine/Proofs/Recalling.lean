import MessageMachine.Proofs.Lasting

namespace MessageMachine

namespace World

/-- A lookup of the selector may find this method: a class has it, or remembers it. -/
def Offers (w : World) (selector : Symbol) (m : Method) : Prop :=
  ∃ c, (w.cls c).methods.find? selector = some m ∨ w.memos.find? (c, selector) = some m

structure Recalls (w w' : World) : Prop where
  classes : w'.classes = w.classes
  offers : ∀ selector m, w'.Offers selector m → w.Offers selector m

variable {w w' w'' : World} {selector : Symbol} {m : Method}

namespace Recalls

theorem of_eq (hclasses : w'.classes = w.classes) (hmemos : w'.memos = w.memos) :
    w.Recalls w' where
  classes := hclasses
  offers := by
    rintro selector m ⟨c, h⟩
    rw [cls, hclasses, hmemos] at h
    exact ⟨c, h⟩

theorem refl (w : World) : w.Recalls w := of_eq rfl rfl

theorem trans (h : w.Recalls w') (h' : w'.Recalls w'') : w.Recalls w'' where
  classes := h'.classes.trans h.classes
  offers := fun selector m hm => h.offers selector m (h'.offers selector m hm)

theorem remember (h : w.Recalls w') (hm : w.Offers selector m) (c : ClassRef) :
    w.Recalls (w'.remember c selector m) where
  classes := h.classes
  offers := by
    rintro selector' m' ⟨d, hd | hd⟩
    · exact h.offers selector' m' ⟨d, .inl hd⟩
    · simp only [World.remember, Table.find?_insert] at hd
      split at hd
      · next heq =>
        cases heq
        cases hd
        exact hm
      · exact h.offers selector' m' ⟨d, .inr hd⟩

theorem note (w : World) (e : Event) : w.Recalls (w.note e) := by
  unfold World.note
  split
  · exact of_eq rfl rfl
  · exact refl w

end Recalls

theorem lookupWithin_recalls (w : World) (selector : Symbol) (n : Nat) (c : ClassRef) :
    (∀ m, (w.lookupWithin selector n c).1 = some m → w.Offers selector m) ∧
      w.Recalls (w.lookupWithin selector n c).2 := by
  have missed : ∀ m, (none : Option Method) = some m → w.Offers selector m := nofun
  have found {m : Method} (hm : w.Offers selector m) :
      ∀ m', some m = some m' → w.Offers selector m' := by
    rintro _ ⟨⟩
    exact hm
  induction n generalizing c with
  | zero => exact ⟨missed, .refl w⟩
  | succ n ih =>
    unfold lookupWithin
    cases hmemo : w.memos.find? (c, selector) with
    | some m => exact ⟨found ⟨c, .inr hmemo⟩, .refl w⟩
    | none =>
      cases hown : (w.cls c).methods.find? selector with
      | some m => exact ⟨found ⟨c, .inl hown⟩, .remember (.refl w) ⟨c, .inl hown⟩ c⟩
      | none =>
        cases (w.cls c).superclass with
        | none => exact ⟨missed, .refl w⟩
        | some s =>
          obtain ⟨hfound, hrecalls⟩ := ih s
          dsimp only
          generalize w.lookupWithin selector n s = r at hfound hrecalls
          obtain ⟨_ | m, v⟩ := r
          · exact ⟨missed, hrecalls⟩
          · exact ⟨found (hfound m rfl), hrecalls.remember (hfound m rfl) c⟩

end World

variable {w w₀ : World} {α : Type} {Q : α → Prop}

instance : World.Lasting w₀.Recalls where
  congr := fun hw h => hw.trans (.of_eq h.classes h.memos)
  count := fun hw _ => hw.trans (.of_eq rfl rfl)
  lookup := fun hw c selector => hw.trans (World.lookupWithin_recalls _ selector _ c).2

theorem World.Found.offers {selector : Symbol} {m : Method} (h : Found w₀.Recalls selector m) :
    w₀.Offers selector m := by
  obtain ⟨w, hw, c, hm⟩ := h
  exact hw.offers selector m ((w.lookupWithin_recalls selector _ c).1 m hm)

/-- Wherever no lookup may find more than in `w₀`, the same holds afterwards, and the answer is like
this. -/
def Action.Recalls (w₀ : World) (x : Action α) (Q : α → Prop) : Prop :=
  ∀ w, w₀.Recalls w → x.Ensures w (fun a w' => w₀.Recalls w' ∧ Q a) fun _ w' => w₀.Recalls w'

namespace Action

def Finds (w : World) (selector : Symbol) (c : Call) : Prop :=
  ∃ s, (s = selector ∨ s.name = "doesNotUnderstand:arguments:") ∧ w.Offers s c.method

theorem Answers.finds {selector : Symbol} {c : Call} (h : Answers w₀.Recalls selector c) :
    Finds w₀ selector c := by
  obtain ⟨s, hs, hfound⟩ := h
  exact ⟨s, hs, hfound.offers⟩

end Action

def PerformForm.Performs (form : PerformForm) (w : World) (args : List Value) (c : Call) : Prop :=
  ∃ s rest, args = .symbol s :: rest ∧ form.Fits s ∧ Action.Finds w s c

/-- If a reflective send is what the operation wants next, it performs its first argument. -/
theorem Operation.start_recalls (op : Operation) (receiver : Value) (args : List Value) :
    Action.Recalls w₀ (op.start receiver args) fun r =>
      ∀ c, r = .call c → ∃ form, op = .perform form ∧ form.Performs w₀ args c := by
  refine (op.start_lasts receiver args).mono fun r hr c hc => ?_
  obtain ⟨form, hop, s, rest, hargs, hfits, hanswers⟩ := hr c hc
  exact ⟨form, hop, s, rest, hargs, hfits, hanswers.finds⟩

theorem Activation.step_recalls (a : Activation) (w : World) :
    a.step.Ensures w
      (fun e w' => w.Recalls w' ∧ ∃ i, a.fetch w = .ok i ∧ e.LeavesAt (a.offset + i.length))
      fun _ w' => w.Recalls w' :=
  a.step_lasts (.refl w) fun _ c selector _ =>
    Action.resolve_lasts (fun hw => hw.trans (.of_eq rfl rfl)) c selector

end MessageMachine
