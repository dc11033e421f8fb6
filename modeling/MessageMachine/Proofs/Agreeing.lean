import MessageMachine.Proofs.Layering
import MessageMachine.Proofs.Strict

namespace MessageMachine

theorem Fault.meant_of_program {f : Fault} (h : f.isProgramFault) : f.Meant := by
  rintro rfl
  cases h

theorem Trouble.of_meant {f : Fault} (h : f.Meant) : Trouble.of f = .fault f := by
  unfold of
  split
  · exact absurd rfl h
  · rfl

def FrameHandle.busy : FrameHandle → List FrameRef
  | own _ => []
  | shared r => [r]

variable {α β : Type} {busy : List FrameRef} {w w' : World}

/-- The strict action does what the action does, while these frames are in use, and keeps layers. -/
def Strict.Agrees (x : Strict α) (y : Action α) (busy : List FrameRef) (w : World)
    (Q : α → World → Prop) : Prop :=
  y.Ensures w (fun a w' => x ⟨w, busy⟩ = .ok a ⟨w', busy⟩ ∧ w.Ages w' ∧ Q a w')
    fun f w' => x ⟨w, busy⟩ = .error (.fault f) ⟨w', busy⟩ ∧ w.Ages w' ∧ f.Meant

namespace Strict

theorem bind_apply (x : Strict α) (f : α → Strict β) (s : Usage) :
    (x >>= f) s = match x s with
      | .ok a s => f a s
      | .error t s => .error t s := by
  change EStateM.bind x f s = _
  unfold EStateM.bind
  cases x s <;> rfl

namespace Agrees

variable {Q : α → World → Prop} {R : β → World → Prop} {x : Strict α} {y : Action α}

theorem pure (h : w.Layered) {a : α} (ha : Q a w) : Agrees (pure a) (pure a) busy w Q :=
  ⟨rfl, h.refl, ha⟩

theorem throw (h : w.Layered) {f : Fault} (hf : f.Meant) :
    Agrees (throw (.of f) : Strict α) (throw f : Action α) busy w Q :=
  ⟨congrArg (EStateM.Result.error · _) (Trouble.of_meant hf), h.refl, hf⟩

theorem bind {f : α → Strict β} {g : α → Action β} (hx : Agrees x y busy w Q)
    (hf : ∀ a w', w.Ages w' → Q a w' → Agrees (f a) (g a) busy w' R) :
    Agrees (x >>= f) (y >>= g) busy w R := by
  unfold Agrees Action.Ensures at *
  rw [Action.bind_apply, bind_apply]
  cases hy : y w with
  | error e w' =>
    rw [hy] at hx
    obtain ⟨hx, hrest⟩ := hx
    rw [hx]
    exact ⟨rfl, hrest⟩
  | ok a w' =>
    rw [hy] at hx
    obtain ⟨hx, hages, ha⟩ := hx
    rw [hx]
    have hf := hf a w' hages ha
    dsimp only
    cases hg : g a w' with
    | error e w'' =>
      rw [hg] at hf
      exact ⟨hf.1, hages.trans hf.2.1, hf.2.2⟩
    | ok b w'' =>
      rw [hg] at hf
      exact ⟨hf.1, hages.trans hf.2.1, hf.2.2⟩

theorem mono {S : α → World → Prop} (hx : Agrees x y busy w Q)
    (h : ∀ a w', w.Ages w' → Q a w' → S a w') : Agrees x y busy w S :=
  Action.Ensures.mono hx (fun a w' ⟨hx, hages, ha⟩ => ⟨hx, hages, h a w' hages ha⟩) fun _ _ => id

theorem congr {y' : Action α} (hx : Agrees x y' busy w Q) (h : y w = y' w) :
    Agrees x y busy w Q := by
  unfold Agrees Action.Ensures
  rw [h]
  exact hx

theorem world_bind {f : World → Strict α} {g : World → Action α} (hf : Agrees (f w) (g w) busy w Q) :
    Agrees (world >>= f) (get >>= g) busy w Q := hf

theorem lift (hy : y.Ensures w (fun a w' => w.Ages w' ∧ Q a w') fun f w' => w.Ages w' ∧ f.Meant) :
    Agrees (liftM y) y busy w Q := by
  have hlift : (liftM y : Strict α) ⟨w, busy⟩ = Strict.lift y ⟨w, busy⟩ := rfl
  unfold Agrees Action.Ensures at *
  rw [hlift, Strict.lift]
  cases h : y w with
  | ok a w' =>
    rw [h] at hy
    exact ⟨rfl, hy⟩
  | error f w' =>
    rw [h] at hy
    exact ⟨congrArg (EStateM.Result.error · _) (Trouble.of_meant hy.2), hy⟩

theorem quiet (h : w.Layered) {P : α → Prop}
    (hy : Action.Quiet (·.Before w.frames.size) (fun _ => True) y P) :
    Agrees (liftM y) y busy w fun a w' => P a ∧ w.Still w' := by
  refine lift ((hy w h.holds).mono ?_ ?_)
  · exact fun a w' ⟨ha, hstill, hholds⟩ => ⟨h.of_still hstill hholds, ha, hstill⟩
  · exact fun f w' ⟨hf, hstill, hholds⟩ => ⟨h.of_still hstill hholds, Fault.meant_of_program hf⟩

theorem except (h : w.Layered) {e : Except Fault α} (hok : ∀ a, e = .ok a → Q a w)
    (herror : ∀ f, e = .error f → f.Meant) : Agrees (liftM e) (liftM e) busy w Q := by
  cases e with
  | ok a => exact pure h (hok a rfl)
  | error f => exact throw h (herror f rfl)

theorem borrowing {r : FrameRef} {d : Defect} (hr : r ∉ busy) (hx : Agrees x y (r :: busy) w Q) :
    Agrees (borrowing r d x) y busy w Q := by
  unfold Agrees Action.Ensures at *
  rw [Strict.borrowing, if_neg hr]
  cases hy : y w with
  | ok a w' =>
    rw [hy] at hx
    rw [hx.1]
    exact ⟨rfl, hx.2⟩
  | error f w' =>
    rw [hy] at hx
    rw [hx.1]
    exact ⟨rfl, hx.2⟩

theorem look_bind {r : FrameRef} {d : Defect} {f : Frame → Strict α} (hr : r ∉ busy)
    (hf : Agrees (f (w.frames.get r)) y busy w Q) :
    Agrees (Strict.borrowing r d (do return (← world).frames.get r) >>= f) y busy w Q := by
  unfold Agrees Action.Ensures
  rw [bind_apply, Strict.borrowing, if_neg hr]
  exact hf

theorem within {a : FrameHandle} (hx : Agrees x y a.busy w Q) : Agrees (a.within x) y [] w Q := by
  cases a with
  | own f => exact hx
  | shared r => exact borrowing List.not_mem_nil hx

end Agrees

theorem subtract_of_le {a b : Nat} (h : b ≤ a) : subtract a b = .ok (a - b) := if_pos h

end Strict

namespace Frame

open Strict

variable {f : Frame}

theorem strictDepth_eq (hf : f.Proper) : f.strictDepth = .ok f.depth := subtract_of_le hf.baseline_le

theorem strictPop_eq (f : Frame) : f.strictPop = f.pop.mapError Trouble.of := by
  unfold strictPop pop
  by_cases h : f.top ≤ f.baseline
  · simp only [if_pos h]
    rfl
  · have hpos : 1 ≤ f.top := by omega
    simp only [if_neg h, subtract_of_le hpos]
    cases hx : f.slots[f.top - 1]? with
    | none =>
      simp only [bind, Except.bind, hx]
      rfl
    | some v =>
      simp only [bind, Except.bind, hx]
      rfl

theorem strictPopN_eq (hf : f.Proper) (count : Nat) :
    f.strictPopN count = (f.popN count).mapError Trouble.of := by
  unfold strictPopN popN
  rw [strictDepth_eq hf]
  by_cases h : f.depth < count
  · simp only [bind, Except.bind, if_pos h]
    rfl
  · have hle : count ≤ f.top := by
      rw [depth] at h
      omega
    simp only [bind, Except.bind, if_neg h, subtract_of_le hle]
    split <;> rfl

theorem strictPeek_eq (hf : f.Proper) (offset : Nat) :
    f.strictPeek offset = (f.peek offset).mapError Trouble.of := by
  unfold strictPeek peek
  rw [strictDepth_eq hf]
  by_cases h : f.depth ≤ offset
  · simp only [bind, Except.bind, if_pos h]
    rfl
  · have hdepth : f.depth = f.top - f.baseline := rfl
    have htop : 1 ≤ f.top := by omega
    have hoffset : offset ≤ f.top - 1 := by omega
    simp only [bind, Except.bind, if_neg h, subtract_of_le htop, subtract_of_le hoffset]
    cases f.slots[f.top - 1 - offset]? <;> rfl

theorem meant_of_pop (hf : f.Proper) {e : Fault} (h : f.pop = .error e) : e.Meant := by
  by_cases hops : f.operands = []
  · have hle : f.top ≤ f.baseline := by
      have hlen := length_operands hf
      rw [hops, List.length_nil, depth] at hlen
      omega
    rw [pop, if_pos hle] at h
    cases h
    intro hinternal
    cases hinternal
  · obtain ⟨x, f', hpop⟩ := pop_of_ne_nil hf hops
    rw [hpop] at h
    cases h

theorem meant_of_popN (hf : f.Proper) {count : Nat} {e : Fault} (h : f.popN count = .error e) :
    e.Meant := by
  by_cases hlt : f.depth < count
  · rw [popN, if_pos hlt] at h
    cases h
    intro hinternal
    cases hinternal
  · rw [← length_operands hf, Nat.not_lt] at hlt
    obtain ⟨xs, f', hpop⟩ := popN_of_le hf hlt
    rw [hpop] at h
    cases h

theorem meant_of_peek (hf : f.Proper) {offset : Nat} {e : Fault} (h : f.peek offset = .error e) :
    e.Meant := by
  by_cases hle : f.depth ≤ offset
  · rw [peek, if_pos hle] at h
    cases h
    intro hinternal
    cases hinternal
  · rw [← length_operands hf, Nat.not_le] at hle
    obtain ⟨x, hpeek⟩ := peek_of_lt hf hle
    rw [hpeek] at h
    cases h

end Frame

namespace FrameHandle

variable {a : FrameHandle}

theorem busy_put (a : FrameHandle) (f : Frame) (w : World) : (a.put f w).1.busy = a.busy := by
  cases a <;> rfl

section

variable (h : w.Layered) (ha : a.Layered w.frames.size)
include h ha

theorem take_agrees {sop : Frame → Except Trouble (α × Frame)}
    {op : Frame → Except Fault (α × Frame)}
    (hsop : sop (a.frame w) = (op (a.frame w)).mapError Trouble.of)
    (hmeant : ∀ e, op (a.frame w) = .error e → e.Meant) {P : α → Prop}
    (hop : ∀ x f, op (a.frame w) = .ok (x, f) →
      (a.frame w).Evolves False (·.Before w.frames.size) f ∧ P x) :
    Strict.Agrees (a.strictTake sop) (a.take op) busy w fun xb w' =>
      P xb.1 ∧ xb.2.Layered w'.frames.size ∧ xb.2.busy = a.busy := by
  unfold Strict.Agrees Action.Ensures
  rw [take_apply]
  rw [strictTake_apply, hsop]
  cases hf : op (a.frame w) with
  | error e =>
    refine ⟨?_, h.refl, hmeant e hf⟩
    exact congrArg (EStateM.Result.error · _) (Trouble.of_meant (hmeant e hf))
  | ok xf =>
    obtain ⟨x, f⟩ := xf
    obtain ⟨he, hx⟩ := hop x f hf
    obtain ⟨hages, hlayered⟩ := h.put ha he
    exact ⟨rfl, hages, hx, hlayered, a.busy_put f w⟩

theorem modify_agrees {sop : Frame → Except Trouble Frame} {op : Frame → Except Fault Frame}
    (hsop : sop (a.frame w) = (op (a.frame w)).mapError Trouble.of)
    (hmeant : ∀ e, op (a.frame w) = .error e → e.Meant)
    (hop : ∀ f, op (a.frame w) = .ok f → (a.frame w).Evolves False (·.Before w.frames.size) f) :
    Strict.Agrees (a.strictModify sop) (a.modify op) busy w fun b w' =>
      b.Layered w'.frames.size ∧ b.busy = a.busy := by
  unfold Strict.Agrees Action.Ensures
  rw [modify_apply, strictModify, Strict.bind_apply]
  have hstrict : a.strictTake (fun f => return ((), ← sop f)) ⟨w, busy⟩ =
      match sop (a.frame w) with
      | .ok f => .ok ((), (a.put f w).1) ⟨(a.put f w).2, busy⟩
      | .error t => .error t ⟨w, busy⟩ := by
    unfold strictTake
    dsimp only
    cases sop (a.frame w) <;> rfl
  rw [hstrict, hsop]
  cases hf : op (a.frame w) with
  | error e =>
    exact ⟨congrArg (EStateM.Result.error · _) (Trouble.of_meant (hmeant e hf)), h.refl, hmeant e hf⟩
  | ok f =>
    obtain ⟨hages, hlayered⟩ := h.put ha (hop f hf)
    exact ⟨rfl, hages, hlayered, a.busy_put f w⟩

theorem push_agrees {v : Value} (hv : v.Before w.frames.size) :
    Strict.Agrees (a.strictPush v) (a.push v) busy w fun b w' =>
      b.Layered w'.frames.size ∧ b.busy = a.busy :=
  modify_agrees h ha rfl (fun _ he => (Frame.ordinary_of_push he).2) fun _ => Frame.push_evolves hv

theorem pop_agrees :
    Strict.Agrees a.strictPop a.pop busy w fun vb w' =>
      vb.1.Before w.frames.size ∧ vb.2.Layered w'.frames.size ∧ vb.2.busy = a.busy := by
  have hf := h.frame ha
  refine take_agrees h ha (Frame.strictPop_eq _) (fun _ => Frame.meant_of_pop hf.proper) ?_
  intro v f hpop
  obtain ⟨he, hv⟩ := Frame.pop_evolves (Value.before_of_no_block rfl) hpop
  exact ⟨he, hf.slots v hv⟩

theorem popN_agrees (count : Nat) :
    Strict.Agrees (a.strictPopN count) (a.popN count) busy w fun vb w' =>
      (∀ v ∈ vb.1, v.Before w.frames.size) ∧ vb.2.Layered w'.frames.size ∧ vb.2.busy = a.busy := by
  have hf := h.frame ha
  refine take_agrees (P := fun vs : List Value => ∀ v ∈ vs, v.Before w.frames.size) h ha
    (Frame.strictPopN_eq hf.proper count) (fun _ => Frame.meant_of_popN hf.proper) ?_
  intro vs f hpop
  obtain ⟨he, hvs⟩ := Frame.popN_evolves (Value.before_of_no_block rfl) hpop
  exact ⟨he, fun v hv => hf.slots v (hvs v hv)⟩

theorem peek_agrees (offset : Nat) :
    Strict.Agrees (a.strictPeek offset) (a.peek offset) busy w fun v w' =>
      w' = w ∧ v.Before w.frames.size := by
  have hf := h.frame ha
  refine .world_bind ?_
  rw [Frame.strictPeek_eq hf.proper]
  cases hv : (a.frame w).peek offset with
  | ok v => exact .pure h ⟨rfl, hf.slots v (Frame.peek_mem hv)⟩
  | error e => exact .throw h (Frame.meant_of_peek hf.proper hv)

end

theorem follow_apply (h : w.Layered) {bound : Nat} (hbound : bound ≤ w.frames.size)
    (hbusy : ∀ s ∈ busy, bound ≤ s.index) (links : Nat) {o : Option FrameRef}
    (ho : ∀ r, o = some r → r.index < bound) :
    Strict.follow links o ⟨w, busy⟩ = .ok (w.follow links o) ⟨w, busy⟩ := by
  induction links generalizing o with
  | zero => rfl
  | succ links ih =>
    cases o with
    | none => rfl
    | some r =>
      have hr := ho r rfl
      have hfree : r ∉ busy := fun hmem => absurd (hbusy r hmem) (Nat.not_le.mpr hr)
      have hframe := h.frames r (Nat.lt_of_lt_of_le hr hbound)
      have hread : Strict.borrowing r .contextBorrowed (do
          return ((← Strict.world).frames.get r).outer) ⟨w, busy⟩ =
            .ok (w.frames.get r).outer ⟨w, busy⟩ := by
        rw [Strict.borrowing, if_neg hfree]
        rfl
      rw [Strict.follow, Strict.bind_apply, hread, World.follow]
      exact ih fun s hs => Nat.lt_trans (hframe.outer s hs) hr

theorem outerContext_agrees (h : w.Layered) {f : Frame} {bound : Nat}
    (hf : f.Layered w.frames.size bound)
    (hbound : bound ≤ w.frames.size) (hbusy : ∀ s ∈ busy, bound ≤ s.index) (level : UInt8) :
    Strict.Agrees (Strict.outerContext f level) (liftM (w.outerContext f level)) busy w
      fun r w' => w' = w ∧ r.index < bound := by
  have hmissing : (Fault.missingContext f.method level).Meant := nofun
  unfold Strict.Agrees Action.Ensures
  rw [Strict.outerContext, Strict.bind_apply, follow_apply h hbound hbusy _ hf.outer,
    World.outerContext]
  cases hr : w.follow (level.toNat - 1) f.outer with
  | none => exact ⟨rfl, h.refl, hmissing⟩
  | some r => exact ⟨rfl, h.refl, rfl, h.follow_lt hbound hf.outer hr⟩

/-- What a frame may link to is not in use while the activation of the frame works on it. -/
theorem layer_le_of_busy (a : FrameHandle) (n : Nat) : ∀ s ∈ a.busy, a.layer n ≤ s.index := by
  cases a with
  | own f => nofun
  | shared r =>
    intro s hs
    rw [List.mem_singleton.mp hs]
    exact Nat.le_refl _

theorem not_busy {a : FrameHandle} {n : Nat} {r : FrameRef} (hr : r.index < a.layer n) :
    r ∉ a.busy :=
  fun hmem => absurd (layer_le_of_busy a n r hmem) (Nat.not_le.mpr hr)

section

variable {a : FrameHandle} (h : w.Layered) (ha : a.Layered w.frames.size)
include h ha

theorem readSlot_agrees (area : Area) (index : Nat) (level : UInt8) :
    Strict.Agrees (a.strictReadSlot area index level) (a.readSlot area index level) a.busy w
      fun v w' => w' = w ∧ v.Before w.frames.size := by
  have hf := h.frame ha
  have hbound := ha.layer_le
  refine .world_bind ?_
  dsimp only
  rw [World.readSlot]
  by_cases hl : level = 0
  · rw [if_pos hl, if_pos hl]
    exact .except h (fun v hv => ⟨rfl, hf.slots v (Frame.read_mem hv)⟩)
      fun _ he => (Frame.ordinary_of_read he).2
  · rw [if_neg hl, if_neg hl, Action.lift_bind]
    refine .bind (outerContext_agrees h hf hbound (layer_le_of_busy a _) level) ?_
    rintro r _ - ⟨rfl, hr⟩
    have hcaptured := h.frames r (Nat.lt_of_lt_of_le hr hbound)
    refine .borrowing (not_busy hr) (.except h (fun v hv => ⟨rfl, ?_⟩) fun _ he =>
      (Frame.ordinary_of_read he).2)
    exact hcaptured.slots v (Frame.read_mem hv)

theorem writeSlot_agrees (area : Area) (index : Nat) (level : UInt8) {v : Value}
    (hv : v.Before w.frames.size) :
    Strict.Agrees (a.strictWriteSlot area index level v) (a.writeSlot area index level v) a.busy w
      fun b w' => b.Layered w'.frames.size := by
  have hf := h.frame ha
  have hbound := ha.layer_le
  unfold strictWriteSlot writeSlot
  by_cases hl : level = 0
  · rw [if_pos hl, if_pos hl]
    exact (modify_agrees h ha rfl (fun _ he => (Frame.ordinary_of_write he).2)
      fun _ => Frame.write_evolves hv False.elim).mono fun _ _ _ => And.left
  · rw [if_neg hl, if_neg hl]
    refine .world_bind (.bind (outerContext_agrees h hf hbound (layer_le_of_busy a _) level) ?_)
    rintro r w - ⟨rfl, hr⟩
    -- The write goes through a handle of the captured frame, like one to a frame of its own.
    have hwrite : (do
          let f ← liftM ((w.frames.get r).write area index v)
          set (w.setFrame r f)
          return a : Action FrameHandle) w =
        (do let _ ← (shared r).modify (·.write area index v); return a : Action FrameHandle) w := by
      simp only [Action.bind_apply, modify]
      cases (w.frames.get r).write area index v <;> rfl
    have hr' : (shared r).Layered w.frames.size := Nat.lt_of_lt_of_le hr hbound
    refine .congr (.bind (.borrowing (not_busy hr) (modify_agrees h hr' rfl
      (fun _ he => (Frame.ordinary_of_write he).2)
      fun _ => Frame.write_evolves hv False.elim)) ?_) hwrite
    exact fun _ w' hages _ => .pure hages.layered (ha.mono hages.size_le)

theorem receiver_agrees :
    Strict.Agrees a.strictReceiver a.receiver a.busy w fun v w' =>
      w' = w ∧ v.Before w.frames.size :=
  .world_bind (readSlot_agrees h ha .arguments 0 _)

end

end FrameHandle

end MessageMachine
