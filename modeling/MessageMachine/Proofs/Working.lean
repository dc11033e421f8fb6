import MessageMachine.Proofs.Discipline
import MessageMachine.Proofs.Raising

namespace MessageMachine

variable {D : Discipline} {F : Fault → Prop} {k : MarkerRef} {c : CodeRef} {α β : Type}
  {w : World}

/-- The activation of `c` with marker `k` runs this action in a sound world. It leaves a sound
world, whether it answers or fails with a fault of those in `F`. -/
def Action.Works (D : Discipline) (F : Fault → Prop) (k : MarkerRef) (c : CodeRef) (x : Action α)
    (w : World) (Q : α → World → Prop) : Prop :=
  x.Ensures w (fun a w' => Q a w' ∧ w.Moved k c w' ∧ w'.Sound D)
    (fun f w' => F f ∧ w.Moved k c w' ∧ w'.Sound D)

namespace Action.Works

variable {Q : α → World → Prop} {R : β → World → Prop}

theorem pure (hw : w.Sound D) {a : α} (h : Q a w) : Works D F k c (pure a) w Q := ⟨h, .refl w, hw⟩

theorem throw (hw : w.Sound D) {f : Fault} (h : F f) : Works D F k c (throw f : Action α) w Q :=
  ⟨h, .refl w, hw⟩

theorem bind {x : Action α} {f : α → Action β} (hx : Works D F k c x w Q)
    (hf : ∀ a w', w.Moved k c w' → w'.Sound D → Q a w' → Works D F k c (f a) w' R) :
    Works D F k c (x >>= f) w R := by
  refine Ensures.bind hx fun a w' ⟨ha, hm, hs⟩ => (hf a w' hm hs ha).mono ?_ ?_
  · exact fun b w'' ⟨hb, hm', hs'⟩ => ⟨hb, hm.trans hm', hs'⟩
  · exact fun e w'' ⟨he, hm', hs'⟩ => ⟨he, hm.trans hm', hs'⟩

theorem mono {x : Action α} {S : α → World → Prop} (hx : Works D F k c x w Q)
    (h : ∀ a w', w.Moved k c w' → w'.Sound D → Q a w' → S a w') : Works D F k c x w S :=
  Ensures.mono hx (fun a w' ⟨ha, hm, hs⟩ => ⟨h a w' hm hs ha, hm, hs⟩) fun _ _ => id

theorem lift (hw : w.Sound D) {e : Except Fault α} (hok : ∀ a, e = .ok a → Q a w)
    (herror : ∀ f, e = .error f → F f) : Works D F k c (liftM e) w Q := by
  cases e with
  | ok a => exact pure hw (hok a rfl)
  | error f => exact throw hw (herror f rfl)

theorem get_bind {f : World → Action β} (hf : Works D F k c (f w) w R) :
    Works D F k c (get >>= f) w R := hf

theorem quiet (hF : ∀ f, f.isProgramFault → F f) (hw : w.Sound D) {x : Action α} {P : α → Prop}
    (hx : Quiet (D.Valid w) (D.Known w) x P) :
    Works D F k c x w fun a w' => P a ∧ w.Still w' := by
  refine Ensures.mono (hx w hw.holds) ?_ ?_
  · exact fun a w' ⟨ha, hs, hh⟩ => ⟨⟨ha, hs⟩, .of_still hs, hw.of_still hs hh⟩
  · exact fun f w' ⟨hf, hs, hh⟩ => ⟨hF f hf, .of_still hs, hw.of_still hs hh⟩

end Action.Works

namespace World

def HasSlot (w : World) (f : Frame) (area : Area) (index : Nat) (level : UInt8) : Prop :=
  if level = 0 then index < f.areaSize area
  else ∃ r, w.outerContext f level = .ok r ∧ r.index < w.frames.size ∧
    index < (w.frames.get r).areaSize area

/-- A store into a slot, `level` contexts outward, leaves the block of a block activation alone. -/
def SparesSlot (w : World) (f : Frame) (area : Area) (index : Nat) (level : UInt8) : Prop :=
  if level = 0 then f.Spares area index
  else ∀ r, w.outerContext f level = .ok r → (w.frames.get r).Spares area index

instance (w : World) (f : Frame) (area : Area) (index : Nat) (level : UInt8) :
    Decidable (w.SparesSlot f area index level) :=
  if hl : level = 0 then
    decidable_of_iff (f.Spares area index) (by rw [SparesSlot, if_pos hl])
  else
    match hr : w.outerContext f level with
    | .ok r => decidable_of_iff ((w.frames.get r).Spares area index) (by
        rw [SparesSlot, if_neg hl, hr]
        exact ⟨fun h _ heq => Except.ok.inj heq ▸ h, fun h => h r rfl⟩)
    | .error _ => isTrue (by
        rw [SparesSlot, if_neg hl, hr]
        nofun)

theorem readSlot_valid (hw : w.Sound D) {f : Frame} (hf : f.Sound D w) {area : Area}
    {index : Nat} {level : UInt8} {x : Value} (h : w.readSlot f area index level = .ok x) :
    D.Valid w x := by
  unfold readSlot at h
  split at h
  · exact hf.slots x (Frame.read_mem h)
  · cases hr : w.outerContext f level with
    | error e =>
      rw [hr] at h
      cases h
    | ok r =>
      rw [hr] at h
      have hx := Frame.read_mem (show (w.frames.get r).read area index = .ok x from h)
      exact (hw.frames r (World.Sound.lt_of_mem_slots hx)).slots x hx

theorem follow_continues {w' : World} (hframes : ∀ r, (w.frames.get r).Continues (w'.frames.get r))
    (n : Nat) (o : Option FrameRef) : w'.follow n o = w.follow n o := by
  induction n generalizing o with
  | zero => rfl
  | succ n ih =>
    cases o with
    | none => rfl
    | some r => simp only [follow, (hframes r).outer, ih]

theorem outerContext_continues {w' : World} {f f' : Frame} (hf : f.Continues f')
    (hframes : ∀ r, (w.frames.get r).Continues (w'.frames.get r)) (level : UInt8) :
    w'.outerContext f' level = w.outerContext f level := by
  simp only [outerContext, follow_continues hframes, hf.outer, hf.method]

theorem HasSlot.continues {w' : World} {f f' : Frame} {area : Area} {index : Nat} {level : UInt8}
    (h : w.HasSlot f area index level) (hf : f.Continues f')
    (hframes : ∀ r, (w.frames.get r).Continues (w'.frames.get r))
    (hsize : w.frames.size ≤ w'.frames.size) : w'.HasSlot f' area index level := by
  have harea {g g' : Frame} (hg : g.Continues g') : g'.areaSize area = g.areaSize area := by
    cases area <;> simp only [Frame.areaSize, hg.code]
  unfold HasSlot at h ⊢
  split at h
  · next hl => rwa [if_pos hl, harea hf]
  · next hl =>
    obtain ⟨r, hr, hlt, hindex⟩ := h
    rw [if_neg hl]
    refine ⟨r, ?_, Nat.lt_of_lt_of_le hlt hsize, ?_⟩
    · rw [outerContext_continues hf hframes, hr]
    · rwa [harea (hframes r)]

theorem SparesSlot.continues {w' : World} {f f' : Frame} {area : Area} {index : Nat}
    {level : UInt8} (h : w.SparesSlot f area index level) (hf : f.Continues f')
    (hframes : ∀ r, (w.frames.get r).Continues (w'.frames.get r)) :
    w'.SparesSlot f' area index level := by
  unfold SparesSlot at h ⊢
  split at h
  · next hl =>
    rw [if_pos hl]
    unfold Frame.Spares
    rwa [hf.code]
  · next hl =>
    rw [if_neg hl]
    intro r hr
    rw [outerContext_continues hf hframes] at hr
    unfold Frame.Spares
    rw [(hframes r).code]
    exact h r hr

theorem HasSlot.read {f : Frame} {area : Area} {index : Nat} {level : UInt8}
    (h : w.HasSlot f area index level) (hw : w.Sound D) (hf : f.Sound D w) :
    ∃ x, w.readSlot f area index level = .ok x := by
  unfold HasSlot at h
  unfold readSlot
  split at h
  · next hl =>
    rw [if_pos hl]
    exact Frame.read_of_lt hf.proper h
  · next hl =>
    obtain ⟨r, hr, hlt, hindex⟩ := h
    obtain ⟨x, hx⟩ := Frame.read_of_lt (hw.frames r hlt).proper hindex
    rw [if_neg hl, hr]
    exact ⟨x, hx⟩

theorem receiver_of_sound {f : Frame} (hw : w.Sound D) (hf : f.Sound D w) :
    ∃ x, w.receiver f = .ok x := by
  refine HasSlot.read ?_ hw hf
  unfold HasSlot
  split
  · exact f.code.argCount_pos
  · next hl =>
    have hb : f.code.isBlock := by
      simp only [Code.isBlock, decide_eq_true_eq]
      exact UInt8.pos_iff_ne_zero.mpr hl
    obtain ⟨b, hfits, hcode, houter, -⟩ := hf.self hb
    obtain ⟨r, hr, hlt, -⟩ := D.home hfits
    rw [D.level hfits, hcode, ← hf.code, ← houter] at hr
    refine ⟨r, ?_, hlt, (w.frames.get r).code.argCount_pos⟩
    exact outerContext_of_follow hr

end World

namespace FrameHandle

/-- The handle of a frame in order that belongs to the activation of `c` with marker `k`. -/
structure Placed (D : Discipline) (k : MarkerRef) (c : CodeRef) (a : FrameHandle) (w : World) :
    Prop where
  bound : ∀ r, a = .shared r → r.index < w.frames.size
  sound : (a.frame w).Sound D w
  marker : (a.frame w).marker = k
  method : (a.frame w).method = c

variable {a : FrameHandle}

theorem Placed.code (h : a.Placed D k c w) : (a.frame w).code = w.code c := by
  rw [h.sound.code, h.method]

theorem Placed.held (h : a.Placed D k c w) : a.Held k c w :=
  ⟨h.bound, h.sound.proper, h.marker, h.method⟩

theorem Placed.still {w' : World} (h : a.Placed D k c w) (hs : w.Still w') : a.Placed D k c w' := by
  have hframe : a.frame w' = a.frame w := a.frame_congr hs.frames
  refine ⟨fun r hr => ?_, ?_, ?_, ?_⟩
  · rw [hs.frames]
    exact h.bound r hr
  · rw [hframe]
    exact h.sound.mono (.of_eq hs.codes hs.frames) (Nat.le_of_eq (by rw [hs.markers]))
  · rw [hframe, h.marker]
  · rw [hframe, h.method]

theorem Placed.marked {w' : World} (h : a.Placed D k c w) (hm : w.Marked w') :
    a.Placed D k c w' := by
  have hframe := a.frame_congr hm.frames
  refine ⟨fun r hr => ?_, ?_, ?_, ?_⟩
  · rw [hm.frames]
    exact h.bound r hr
  · rw [hframe]
    exact h.sound.mono hm.extended hm.size_le
  · rw [hframe, h.marker]
  · rw [hframe, h.method]

theorem Placed.moved {w' : World} {k' : MarkerRef} {c' : CodeRef} (h : a.Placed D k c w)
    (hw : w'.Sound D) (hm : w.Moved k' c' w') : a.Placed D k c w' := by
  cases a with
  | own f => exact ⟨nofun, hm.frameSound h.sound, h.marker, h.method⟩
  | shared r =>
    have hr := h.bound r rfl
    have hr' := Nat.lt_of_lt_of_le hr hm.frames_le
    have hc := hm.frame r hr
    refine ⟨fun s hs => ?_, hw.frames r hr', ?_, ?_⟩
    · cases hs
      exact hr'
    · exact hc.marker.trans h.marker
    · exact hc.method.trans h.method

theorem Placed.operands {w' : World} {k' : MarkerRef} {c' : CodeRef} (h : a.Placed D k c w)
    (hm : w.Moved k' c' w') (hk : k ≠ k') :
    (a.frame w').operands = (a.frame w).operands :=
  h.held.operands hm hk

theorem Placed.put {f : Frame} (hw : w.Sound D) (ha : a.Placed D k c w)
    (he : (a.frame w).Evolves D.guarded (D.Valid w) f) :
    (a.put f w).1.Placed D k c (a.put f w).2 ∧ (a.put f w).1.frame (a.put f w).2 = f ∧
      w.Moved k c (a.put f w).2 ∧ (a.put f w).2.Sound D ∧
      ∀ r, (w.frames.get r).Continues ((a.put f w).2.frames.get r) := by
  cases a with
  | own g =>
    refine ⟨⟨nofun, ha.sound.evolve he, ?_, ?_⟩, rfl, .refl w, hw, fun _ => .refl _⟩
    · exact he.marker.trans ha.marker
    · exact he.method.trans ha.method
  | shared r =>
    have hr := ha.bound r rfl
    have hget : (w.setFrame r f).frames.get r = f := by
      rw [World.setFrame, Arena.get_set, if_pos ⟨rfl, hr⟩]
    obtain ⟨hm, hs⟩ := hw.setFrame (k := k) (c := c) he fun _ hne => absurd ha.marker hne
    have hr' := Nat.lt_of_lt_of_le hr hm.frames_le
    refine ⟨⟨fun s hs => ?_, hs.frames r hr', ?_, ?_⟩, hget, hm, hs, fun s => ?_⟩
    · cases hs
      exact hr'
    · change ((w.setFrame r f).frames.get r).marker = k
      rw [hget]
      exact he.marker.trans ha.marker
    · change ((w.setFrame r f).frames.get r).method = c
      rw [hget]
      exact he.method.trans ha.method
    · simp only [FrameHandle.put, World.setFrame, Arena.get_set]
      split
      · next h => exact h.1 ▸ he.toContinues
      · exact .refl _

theorem modify_works (hw : w.Sound D) (ha : a.Placed D k c w) {op : Frame → Except Fault Frame}
    (hop : ∀ f, op (a.frame w) = .ok f → (a.frame w).Evolves D.guarded (D.Valid w) f)
    (herror : ∀ e, op (a.frame w) = .error e → F e) :
    Action.Works D F k c (a.modify op) w fun b w' =>
      b.Placed D k c w' ∧ op (a.frame w) = .ok (b.frame w') := by
  unfold Action.Works Action.Ensures
  rw [modify_apply]
  cases hf : op (a.frame w) with
  | error e => exact ⟨herror e hf, .refl w, hw⟩
  | ok f =>
    obtain ⟨hp, hframe, hm, hs, -⟩ := ha.put hw (hop f hf)
    exact ⟨⟨hp, by rw [hframe]⟩, hm, hs⟩

theorem take_works (hw : w.Sound D) (ha : a.Placed D k c w)
    {op : Frame → Except Fault (α × Frame)}
    (hop : ∀ x f, op (a.frame w) = .ok (x, f) → (a.frame w).Evolves D.guarded (D.Valid w) f)
    (herror : ∀ e, op (a.frame w) = .error e → F e) :
    Action.Works D F k c (a.take op) w fun xb w' =>
      xb.2.Placed D k c w' ∧ op (a.frame w) = .ok (xb.1, xb.2.frame w') ∧
        ∀ r, (w.frames.get r).Continues (w'.frames.get r) := by
  unfold Action.Works Action.Ensures
  rw [take_apply]
  cases hf : op (a.frame w) with
  | error e => exact ⟨herror e hf, .refl w, hw⟩
  | ok xf =>
    obtain ⟨x, f⟩ := xf
    obtain ⟨hp, hframe, hm, hs, hcontinues⟩ := ha.put hw (hop x f hf)
    exact ⟨⟨hp, by rw [hframe], hcontinues⟩, hm, hs⟩

theorem push_works (hw : w.Sound D) (ha : a.Placed D k c w) {v : Value} (hv : D.Valid w v)
    (hroom : (∀ f, f.Raised → F f) ∨ (a.frame w).operands.length < (w.code c).operandCapacity) :
    Action.Works D F k c (a.push v) w fun b w' =>
      b.Placed D k c w' ∧ (b.frame w').operands = (a.frame w).operands ++ [v] := by
  refine (modify_works hw ha (fun f hf => Frame.push_evolves hv hf) fun e he => ?_).mono ?_
  · obtain hF | hroom := hroom
    · exact hF e (Frame.ordinary_of_push he).1
    · rw [← ha.code] at hroom
      obtain ⟨f, hf⟩ := Frame.push_of_lt ha.sound.proper hroom v
      rw [hf] at he
      cases he
  · exact fun b w' _ _ ⟨hp, hf⟩ => ⟨hp, (Frame.push_eq_ok hf).2.1 ha.sound.proper⟩

theorem pop_works (hw : w.Sound D) (ha : a.Placed D k c w)
    (hne : (∀ f, f.Raised → F f) ∨ (a.frame w).operands ≠ []) :
    Action.Works D F k c a.pop w fun xb w' =>
      xb.2.Placed D k c w' ∧ D.Valid w' xb.1 ∧
        (a.frame w).operands = (xb.2.frame w').operands ++ [xb.1] ∧
        (a.frame w).Continues (xb.2.frame w') ∧
        ∀ r, (w.frames.get r).Continues (w'.frames.get r) := by
  have hevolves {x : Value} {f : Frame} (hf : (a.frame w).pop = .ok (x, f)) :
      (a.frame w).Evolves D.guarded (D.Valid w) f ∧ x ∈ (a.frame w).slots :=
    Frame.pop_evolves (Discipline.valid_of_no_block rfl) hf
  refine (take_works hw ha (fun x f hf => (hevolves hf).1) fun e he => ?_).mono ?_
  · obtain hF | hne := hne
    · exact hF e (Frame.raised_of_pop he)
    · obtain ⟨x, f, hf⟩ := Frame.pop_of_ne_nil ha.sound.proper hne
      rw [hf] at he
      cases he
  · intro xb w' hm _ ⟨hp, hf, hcontinues⟩
    have hx := (hevolves hf).2
    obtain ⟨hc, hops, -⟩ := Frame.pop_eq_ok hf
    exact ⟨hp, (ha.sound.slots _ hx).mono hm.extended, hops ha.sound.proper, hc, hcontinues⟩

theorem popN_works (hw : w.Sound D) (ha : a.Placed D k c w) {n : Nat}
    (hn : (∀ f, f.Raised → F f) ∨ n ≤ (a.frame w).operands.length) :
    Action.Works D F k c (a.popN n) w fun xb w' =>
      xb.2.Placed D k c w' ∧ (∀ v ∈ xb.1, D.Valid w' v) ∧ xb.1.length = n ∧
        (a.frame w).operands = (xb.2.frame w').operands ++ xb.1 := by
  have hevolves {xs : List Value} {f : Frame} (hf : (a.frame w).popN n = .ok (xs, f)) :
      (a.frame w).Evolves D.guarded (D.Valid w) f ∧ ∀ x ∈ xs, x ∈ (a.frame w).slots :=
    Frame.popN_evolves (Discipline.valid_of_no_block rfl) hf
  refine (take_works hw ha (fun x f hf => (hevolves hf).1) fun e he => ?_).mono ?_
  · obtain hF | hn := hn
    · exact hF e (Frame.raised_of_popN he)
    · obtain ⟨x, f, hf⟩ := Frame.popN_of_le ha.sound.proper hn
      rw [hf] at he
      cases he
  · rintro xb w' hm - ⟨hp, hf, -⟩
    have hx := (hevolves hf).2
    obtain ⟨-, hops, hlen, -⟩ := Frame.popN_eq_ok hf
    exact ⟨hp, fun v hv => (ha.sound.slots _ (hx v hv)).mono hm.extended, hlen ha.sound.proper,
      hops ha.sound.proper⟩

theorem peek_works (hw : w.Sound D) (ha : a.Placed D k c w) {offset : Nat}
    (hn : (∀ f, f.Raised → F f) ∨ offset < (a.frame w).operands.length) :
    Action.Works D F k c (a.peek offset) w fun x w' => w' = w ∧ D.Valid w x := by
  refine .get_bind (.lift hw (fun x hx => ⟨rfl, ha.sound.slots x (Frame.peek_mem hx)⟩) ?_)
  intro e he
  obtain hF | hn := hn
  · exact hF e (Frame.raised_of_peek he)
  · obtain ⟨x, hx⟩ := Frame.peek_of_lt ha.sound.proper hn
    rw [hx] at he
    cases he

theorem readSlot_works (hw : w.Sound D) (ha : a.Placed D k c w) {area : Area} {index : Nat}
    {level : UInt8} (hread : (∀ f, f.Raised → F f) ∨ ∃ x, w.readSlot (a.frame w) area index level = .ok x) :
    Action.Works D F k c (a.readSlot area index level) w fun x w' => w' = w ∧ D.Valid w x := by
  refine .get_bind (.lift hw (fun x hx => ⟨rfl, w.readSlot_valid hw ha.sound hx⟩) ?_)
  intro e he
  obtain hF | ⟨x, hx⟩ := hread
  · exact hF e (World.ordinary_of_readSlot he).1
  · rw [hx] at he
    cases he

theorem receiver_works (hw : w.Sound D) (ha : a.Placed D k c w) :
    Action.Works D F k c a.receiver w fun x w' => w' = w ∧ D.Valid w x :=
  readSlot_works hw ha (.inr (World.receiver_of_sound hw ha.sound))

theorem writeSlot_works (hw : w.Sound D) (ha : a.Placed D k c w) {area : Area} {index : Nat}
    {level : UInt8} {v : Value} (hv : D.Valid w v)
    (hspares : D.guarded → w.SparesSlot (a.frame w) area index level)
    (hwrite : (∀ f, f.Raised → F f) ∨ w.HasSlot (a.frame w) area index level) :
    Action.Works D F k c (a.writeSlot area index level v) w fun b w' =>
      b.Placed D k c w' ∧ (b.frame w').operands = (a.frame w).operands := by
  unfold World.SparesSlot at hspares
  unfold World.HasSlot at hwrite
  by_cases hl : level = 0
  · simp only [if_pos hl] at hspares hwrite
    rw [writeSlot, if_pos hl]
    refine (modify_works hw ha (fun f hf => Frame.write_evolves hv hspares hf) fun e he => ?_).mono ?_
    · obtain hF | hlt := hwrite
      · exact hF e (Frame.ordinary_of_write he).1
      · obtain ⟨f, hf⟩ := Frame.write_of_lt ha.sound.proper hlt v
        rw [hf] at he
        cases he
    · rintro b w' - - ⟨hp, hf⟩
      exact ⟨hp, (Frame.write_eq_ok hf).2.1 ha.sound.proper⟩
  · simp only [if_neg hl] at hspares hwrite
    unfold Action.Works Action.Ensures
    rw [writeSlot_eq a area index hl]
    cases hr : w.outerContext (a.frame w) level with
    | error e =>
      obtain hF | ⟨r, hr', -⟩ := hwrite
      · exact ⟨hF e (World.ordinary_of_outerContext hr).1, .refl w, hw⟩
      · rw [hr] at hr'
        cases hr'
    | ok r =>
      dsimp only
      -- The slot is in a captured frame, which may be that of another activation or of this one.
      cases hf : (w.frames.get r).write area index v with
      | error e =>
        obtain hF | ⟨r', hr', hlt, hindex⟩ := hwrite
        · exact ⟨hF e (Frame.ordinary_of_write hf).1, .refl w, hw⟩
        · rw [hr] at hr'
          cases hr'
          obtain ⟨f, hf'⟩ := Frame.write_of_lt (hw.frames r hlt).proper hindex v
          rw [hf] at hf'
          cases hf'
      | ok f =>
        have he := Frame.write_evolves hv (fun hg => hspares hg r hr) hf
        obtain ⟨-, hops, -, -⟩ := Frame.write_eq_ok hf
        obtain ⟨hm, hs⟩ := hw.setFrame (k := k) (c := c) he fun hp _ => hops hp
        refine ⟨⟨ha.moved hs hm, ?_⟩, hm, hs⟩
        cases a with
        | own g => rfl
        | shared s =>
          simp only [frame, World.setFrame, Arena.get_set]
          split
          · next h =>
            obtain ⟨rfl, hlt⟩ := h
            exact hops (hw.frames r hlt).proper
          · rfl

theorem share_works (hw : w.Sound D) (ha : a.Placed D k c w) :
    Action.Works D F k c (Action.update a.share) w fun r w' =>
      (shared r).Placed D k c w' ∧ w'.frames.get r = a.frame w := by
  cases a with
  | shared r => exact ⟨⟨ha, rfl⟩, .refl w, hw⟩
  | own f =>
    obtain ⟨hm, hs⟩ := hw.newFrame ha.sound ha.marker ha.method
    have hget : (w.newFrame f).2.frames.get w.frames.next = f := by
      rw [World.newFrame, Arena.get_push, if_pos rfl]
    have hlt : w.frames.next.index < (w.newFrame f).2.frames.size := by
      rw [World.newFrame, Arena.size_push]
      exact Nat.lt_succ_self _
    refine ⟨⟨⟨fun r hr => ?_, ?_, ?_, ?_⟩, hget⟩, hm, hs⟩
    · cases hr
      exact hlt
    · exact hs.frames _ hlt
    · exact (congrArg Frame.marker hget).trans ha.marker
    · exact (congrArg Frame.method hget).trans ha.method

end FrameHandle

end MessageMachine
