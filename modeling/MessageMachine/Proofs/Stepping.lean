import MessageMachine.Proofs.Effects
import MessageMachine.Proofs.Working

namespace MessageMachine

variable {D : Discipline} {F : Fault → Prop} {w w' : World}

/-- Operands that an instruction leaves on the stack once it is done. -/
def Instruction.gives : Instruction → Nat
  | dup | pushSlot _ _ _ | pushField _ | pushBlock _ | pushConstant _ | pushGlobal _ | send _
  | superSend _ => 1
  | halt | pop | popSlot _ _ _ | popField _ | returnLocal | returnNonLocal => 0

/-- The activation is over once the instruction is done. -/
def Instruction.ends : Instruction → Bool
  | halt | returnLocal | returnNonLocal => true
  | _ => false

theorem Instruction.ends_of_gives {i : Instruction} (h : i.gives = 1) : i.ends = false := by
  cases i <;> first | rfl | cases h

/-- Operands that an instruction takes off the stack. A send names its selector by a literal. -/
def Code.takes (c : Code) : Instruction → Nat
  | .pop | .popSlot _ _ _ | .popField _ | .returnLocal | .returnNonLocal => 1
  | .send literal | .superSend literal =>
    match c.literals[literal.toNat]? with
    | some (.symbol s) => s.arity
    | _ => 0
  | _ => 0

section

variable {c : Code} {literal : UInt8} {s : Symbol}

theorem Code.takes_send (h : c.literals[literal.toNat]? = some (.symbol s)) :
    c.takes (.send literal) = s.arity := by
  change (match c.literals[literal.toNat]? with | some (.symbol s) => s.arity | _ => 0) = s.arity
  rw [h]

theorem Code.takes_superSend (h : c.literals[literal.toNat]? = some (.symbol s)) :
    c.takes (.superSend literal) = s.arity :=
  Code.takes_send h

end

theorem World.symbolLiteral_eq_ok {r : CodeRef} {index : Nat} {s : Symbol}
    (h : w.symbolLiteral r index = .ok s) : (w.code r).literals[index]? = some (.symbol s) := by
  unfold World.symbolLiteral World.literal at h
  cases hget : (w.code r).literals[index]? with
  | none =>
    rw [hget] at h
    cases h
  | some v =>
    rw [hget] at h
    cases v with
    | symbol s' =>
      cases h
      rfl
    | _ => cases h

namespace Activation

variable {a : Activation}

/-- Operands that an instruction of an activation takes off its stack. -/
def takes (a : Activation) (w : World) (i : Instruction) : Nat := (w.code a.method).takes i

structure Continued (D : Discipline) (a : Activation) (w : World) (takes gives : Nat)
    (b : Activation) (w' : World) : Prop where
  marker : b.marker = a.marker
  method : b.method = a.method
  offset : b.offset = a.offset
  placed : b.handle.Placed D a.marker a.method w'
  takes_le : takes ≤ (a.handle.frame w).operands.length
  operands : ∃ new, new.length = gives ∧ (b.handle.frame w').operands =
    (a.handle.frame w).operands.take ((a.handle.frame w).operands.length - takes) ++ new

/-- A body and arguments that an activation may be started with: those of a method, or those of a
block over its context. -/
structure Startable (D : Discipline) (w : World) (r : CodeRef) (args : List Value)
    (outer : Option FrameRef) : Prop where
  lt : r.index < w.codes.size
  valid : ∀ v ∈ args, D.Valid w v
  root : (w.code r).isBlock = false → D.root w r ∧ outer = none
  self : (w.code r).isBlock → ∃ b, args[0]? = some (.block b) ∧ b.code = r ∧
    outer = some b.context

structure Started (D : Discipline) (w : World) (callee : Activation) (w' : World) : Prop where
  marked : w.Marked w'
  markers : w'.markers = w.markers.push true
  marker : callee.marker = w.markers.next
  offset : callee.offset = 0
  own : ∃ f, callee.handle = .own f ∧ f.operands = []
  placed : callee.handle.Placed D callee.marker callee.method w'
  sound : w'.Sound D

/-- What an instruction needs to be carried out: its literals, its slot, and enough operands or
enough room on the stack. -/
def Ready (a : Activation) (w : World) (i : Instruction) : Prop :=
  let ops := (a.handle.frame w).operands
  let room := ops.length < (w.code a.method).operandCapacity
  match i with
  | .halt | .pop | .popField _ | .returnLocal | .returnNonLocal => ops ≠ []
  | .dup => ops ≠ [] ∧ room
  | .pushSlot area index level => room ∧ w.HasSlot (a.handle.frame w) area index.toNat level
  | .popSlot area index level => ops ≠ [] ∧ w.HasSlot (a.handle.frame w) area index.toNat level
  | .pushField _ => room
  | .pushBlock l => room ∧ ∃ body, w.blockLiteral a.method l.toNat = .ok body ∧
      (w.code body).level = (w.code a.method).level + 1 ∧
      (w.blockClass? (w.code body).argCount).isSome
  | .pushConstant l => room ∧ ∃ v, w.literal a.method l.toNat = .ok v
  | .pushGlobal l => room ∧ ∃ s, w.symbolLiteral a.method l.toNat = .ok s
  | .send l => ∃ s, w.symbolLiteral a.method l.toNat = .ok s ∧ s.arity ≤ ops.length
  | .superSend l => (∃ s, w.symbolLiteral a.method l.toNat = .ok s ∧ s.arity ≤ ops.length) ∧
      (w.holder? (.compiled a.method)).isSome

/-- The instruction does not overwrite the block that a block activation runs. -/
def Spares (a : Activation) (w : World) (i : Instruction) : Prop :=
  ∀ area index level, i = .popSlot area index level →
    w.SparesSlot (a.handle.frame w) area index.toNat level

instance (a : Activation) (w : World) (i : Instruction) : Decidable (a.Spares w i) :=
  match i with
  | .popSlot area index level =>
    decidable_of_iff (w.SparesSlot (a.handle.frame w) area index.toNat level)
      ⟨fun h _ _ _ heq => by cases heq; exact h, fun h => h _ _ _ rfl⟩
  | .halt | .pop | .dup | .pushSlot _ _ _ | .pushField _ | .popField _ | .pushBlock _
  | .pushConstant _ | .pushGlobal _ | .send _ | .superSend _ | .returnLocal | .returnNonLocal =>
    isTrue nofun

def Nests (D : Discipline) (a : Activation) (w : World) (i : Instruction) : Prop :=
  ∀ l body, i = .pushBlock l → w.blockLiteral a.method l.toNat = .ok body →
    (w.code body).level = (w.code a.method).level + 1 →
    ∀ n r w', w.Extends w' → r.index < w'.frames.size → w'.frames.get r = a.handle.frame w →
      D.fits w' ⟨n, body, r, (w.code a.method).level + 1⟩

def Stepped (D : Discipline) (a : Activation) (w : World) (i : Instruction) :
    Effect → World → Prop
  | .resume b, w' => w.Moved a.marker a.method w' ∧ w'.Sound D ∧ i.ends = false ∧
      a.Continued D w (a.takes w i) i.gives b w'
  | .activate sender callee, w' => ∃ w₁, w.Moved a.marker a.method w₁ ∧ w₁.Sound D ∧
      i.gives = 1 ∧ 0 < a.takes w i ∧ a.Continued D w (a.takes w i) 0 sender w₁ ∧
      callee.Started D w₁ w'
  | .callOut sender c use, w' => w.Moved a.marker a.method w' ∧ w'.Sound D ∧
      (use = .push → i.gives = 1) ∧ a.Continued D w (a.takes w i) 0 sender w' ∧
      c.Holds (D.Valid w') (D.Known w')
  | .complete v, w' => w.Moved a.marker a.method w' ∧ w'.Sound D ∧ D.Valid w' v
  | .unwind v target, w' => w.Moved a.marker a.method w' ∧ w'.Sound D ∧ D.Valid w' v ∧
      w'.isLive target ∧ (D.guarded → ∃ r, r.index < w'.frames.size ∧
        (w'.frames.get r).marker = target ∧ (w'.frames.get r).code.isBlock = false)

/-- What the rest of a step comes to from the world `w'`: the effect of the instruction, or a fault
of those in `F`. -/
def Steps (D : Discipline) (F : Fault → Prop) (a : Activation) (w : World) (i : Instruction)
    (x : Action Effect) (w' : World) : Prop :=
  x.Ensures w' (a.Stepped D w i) fun f v => F f ∧ w.Moved a.marker a.method v ∧ v.Sound D

theorem Started.later {callee : Activation} {w'' : World} (h : callee.Started D w w')
    (hm : w'.Marked w'') (hmarkers : w''.markers = w'.markers) : callee.Started D w w'' where
  marked := h.marked.trans hm
  markers := hmarkers.trans h.markers
  marker := h.marker
  offset := h.offset
  own := h.own
  placed := h.placed.marked hm
  sound := h.sound.marked hm

theorem start_ensures (hF : ∀ f, f.isProgramFault → F f) (hw : w.Sound D) {r : CodeRef}
    {args : List Value} {outer : Option FrameRef} (hs : Startable D w r args outer) :
    (start r args outer).Ensures w
      (fun callee w' => callee.method = r ∧ callee.Started D w w') (fun f w' => F f ∧ w' = w) := by
  refine (start_creates r args outer w).mono ?_ fun f _ => And.imp_left (hF f)
  rintro callee w' ⟨-, hw', f, hf, rfl⟩
  obtain ⟨-, hproper, hops, hmethod, hcode, hmarker, houter, -⟩ := Frame.create_eq_ok hf
  have hmarkers : w'.markers = w.markers.push true := by rw [hw']
  have hmarked : w.Marked w' := by
    refine ⟨by rw [hw'], ?_⟩
    rw [hmarkers, Arena.size_push]
    exact Nat.le_succ _
  have he := hmarked.extended
  refine ⟨rfl, hmarked, hmarkers, rfl, rfl, ⟨f, rfl, hops⟩, ⟨nofun, ?_, hmarker, hmethod⟩,
    hw.marked hmarked⟩
  refine ⟨hproper, ?_, ?_, ?_, fun x hx => ?_, fun hb => ?_, fun hb => ?_⟩
  · rw [FrameHandle.frame, hmethod]
    exact Nat.lt_of_lt_of_le hs.lt he.codes_le
  · rw [FrameHandle.frame, hcode, hmethod, he.code r hs.lt]
  · rw [FrameHandle.frame, hmarker, hmarkers, Arena.size_push]
    exact Nat.lt_succ_self _
  · rcases Frame.create_mem hf hx with hx | rfl
    · exact (hs.valid x hx).mono he
    · exact Discipline.valid_of_no_block rfl
  · rw [FrameHandle.frame, hcode] at hb
    rw [FrameHandle.frame, hmethod, houter]
    exact (hs.root hb).imp_left (D.root_mono he)
  · rw [FrameHandle.frame, hcode] at hb
    obtain ⟨b, hb', hbc, hbo⟩ := hs.self hb
    have hfits := D.valid_block.mp (hs.valid _ (List.mem_of_getElem? hb'))
    rw [FrameHandle.frame, Frame.create_self hf, hmethod, houter]
    exact ⟨b, D.fits_mono he hfits, hbc, hbo, fun _ => hb'⟩

def Left (D : Discipline) (a : Activation) (w : World) (takes gives : Nat) (h : FrameHandle)
    (w' : World) : Prop :=
  Continued D a w takes gives { a with handle := h } w'

theorem left_of_pushed {h : FrameHandle} {v : Value} (hp : h.Placed D a.marker a.method w')
    (ho : (h.frame w').operands = (a.handle.frame w).operands ++ [v]) :
    a.Left D w 0 1 h w' :=
  ⟨rfl, rfl, rfl, hp, Nat.zero_le _, [v], rfl, by rw [Nat.sub_zero, List.take_length]; exact ho⟩

theorem left_of_taken {h : FrameHandle} {xs : List Value}
    (hp : h.Placed D a.marker a.method w')
    (ho : (a.handle.frame w).operands = (h.frame w').operands ++ xs) :
    a.Left D w xs.length 0 h w' := by
  refine ⟨rfl, rfl, rfl, hp, ?_, [], rfl, ?_⟩
  · rw [ho, List.length_append]
    exact Nat.le_add_left _ _
  · rw [ho, List.length_append, Nat.add_sub_cancel, List.take_left, List.append_nil]

theorem left_same {h : FrameHandle} (hp : h.Placed D a.marker a.method w')
    (ho : (h.frame w').operands = (a.handle.frame w).operands) : a.Left D w 0 0 h w' :=
  ⟨rfl, rfl, rfl, hp, Nat.zero_le _, [], rfl, by
    rw [Nat.sub_zero, List.take_length, List.append_nil, ho]⟩

theorem Left.same_operands {h h' : FrameHandle} {w'' : World} {takes gives : Nat}
    (hl : a.Left D w takes gives h w') (hp : h'.Placed D a.marker a.method w'')
    (ho : (h'.frame w'').operands = (h.frame w').operands) : a.Left D w takes gives h' w'' :=
  ⟨rfl, rfl, rfl, hp, hl.takes_le, by rw [ho]; exact hl.operands⟩

theorem takes_still (h : w.Still w') (i : Instruction) : a.takes w' i = a.takes w i := by
  rw [takes, World.code, h.codes, takes, World.code]

theorem Continued.of_still {b : Activation} {takes gives : Nat} {w'' : World} (h : w.Still w')
    (hb : a.Continued D w' takes gives b w'') : a.Continued D w takes gives b w'' where
  marker := hb.marker
  method := hb.method
  offset := hb.offset
  placed := hb.placed
  takes_le := by
    rw [← a.handle.frame_congr h.frames]
    exact hb.takes_le
  operands := by
    rw [← a.handle.frame_congr h.frames]
    exact hb.operands

theorem Stepped.of_still {i : Instruction} {e : Effect} {w'' : World} (h : w.Still w')
    (hs : a.Stepped D w' i e w'') : a.Stepped D w i e w'' := by
  have hm : w.Moved a.marker a.method w' := .of_still h
  cases e with
  | resume b =>
    obtain ⟨hm', hsound, hends, hb⟩ := hs
    rw [takes_still h] at hb
    exact ⟨hm.trans hm', hsound, hends, hb.of_still h⟩
  | activate sender callee =>
    obtain ⟨w₁, hm', hsound, hgives, htakes, hb, hc⟩ := hs
    rw [takes_still h] at hb htakes
    exact ⟨w₁, hm.trans hm', hsound, hgives, htakes, hb.of_still h, hc⟩
  | callOut sender c use =>
    obtain ⟨hm', hsound, hgives, hb, hc⟩ := hs
    rw [takes_still h] at hb
    exact ⟨hm.trans hm', hsound, hgives, hb.of_still h, hc⟩
  | complete v => exact ⟨hm.trans hs.1, hs.2⟩
  | unwind v target => exact ⟨hm.trans hs.1, hs.2⟩

theorem Steps.resume {i : Instruction} {x : Action FrameHandle} (hi : i.ends = false)
    (hx : Action.Works D F a.marker a.method x w (a.Left D w (a.takes w i) i.gives)) :
    a.Steps D F w i (do return .resume { a with handle := ← x }) w :=
  Action.Ensures.bind hx fun _ _ ⟨hl, hm, hs⟩ => ⟨hm, hs, hi, hl⟩

theorem Steps.complete {i : Instruction} {x : Action Value}
    (hx : Action.Works D F a.marker a.method x w fun v w' => D.Valid w' v) :
    a.Steps D F w i (do return .complete (← x)) w :=
  Action.Ensures.bind hx fun _ _ ⟨hl, hm, hs⟩ => ⟨hm, hs, hl⟩

theorem Steps.bind {β : Type} {i : Instruction} {x : Action β} {Q : β → World → Prop}
    {f : β → Action Effect} (hm : w.Moved a.marker a.method w')
    (hx : Action.Works D F a.marker a.method x w' Q)
    (hf : ∀ b v, w'.Moved a.marker a.method v → v.Sound D → Q b v → a.Steps D F w i (f b) v) :
    a.Steps D F w i (x >>= f) w' := by
  refine Action.Ensures.bind (Action.Ensures.mono hx (fun _ _ => id) ?_) ?_
  · exact fun e v ⟨he, hm', hs⟩ => ⟨he, hm.trans hm', hs⟩
  · exact fun b v ⟨hb, hm', hs⟩ => hf b v hm' hs hb

theorem Steps.get_bind {i : Instruction} {f : World → Action Effect}
    (hf : a.Steps D F w i (f w') w') : a.Steps D F w i (get >>= f) w' := hf

theorem Steps.of_still {i : Instruction} {x : Action Effect} {v : World} (h : w.Still w')
    (hx : a.Steps D F w' i x v) : a.Steps D F w i x v :=
  Action.Ensures.mono hx (fun _ _ hs => hs.of_still h)
    fun _ _ ⟨he, hm, hs⟩ => ⟨he, .trans (.of_still h) hm, hs⟩

section

variable (hw : w.Sound D)
include hw

theorem literal_works {l : UInt8} (hl : (∀ f, f.Raised → F f) ∨ ∃ v, w.literal a.method l.toNat = .ok v) :
    Action.Works D F a.marker a.method (a.literal l) w fun v w' => w' = w ∧ D.Valid w v := by
  refine .get_bind (.lift hw (fun v hv => ⟨rfl, ?_⟩) fun e he => ?_)
  · unfold World.literal at hv
    split at hv
    · next hget =>
      cases hv
      exact hw.literals _ _ (Array.mem_of_getElem? hget)
    · cases hv
  · obtain hF | ⟨v, hv⟩ := hl
    · exact hF e (World.ordinary_of_literal he).1
    · rw [hv] at he
      cases he

theorem symbolLiteral_works {l : UInt8}
    (hl : (∀ f, f.Raised → F f) ∨ ∃ s, w.symbolLiteral a.method l.toNat = .ok s) :
    Action.Works D F a.marker a.method (a.symbolLiteral l) w fun s w' =>
      w' = w ∧ w.symbolLiteral a.method l.toNat = .ok s := by
  refine .get_bind (.lift hw (fun s hs => ⟨rfl, hs⟩) fun e he => ?_)
  obtain hF | ⟨s, hs⟩ := hl
  · exact hF e (World.ordinary_of_symbolLiteral he).1
  · rw [hs] at he
    cases he

theorem readField_works (hF : ∀ f, f.isProgramFault → F f) (v : Value) (index : UInt8) :
    Action.Works D F a.marker a.method (readField v index) w fun x w' => w' = w ∧ D.Valid w x := by
  cases v with
  | object o =>
    refine .get_bind ?_
    cases hx : w.field? o index.toNat with
    | none => exact .throw hw (hF _ rfl)
    | some x => exact .pure hw ⟨rfl, hw.holds.fields o x (Array.mem_of_getElem? hx)⟩
  | _ => exact .throw hw (hF _ rfl)

theorem writeField_works (hF : ∀ f, f.isProgramFault → F f) (v : Value) (index : UInt8) {x : Value}
    (hx : D.Valid w x) :
    Action.Works D F a.marker a.method (writeField v index x) w fun _ w' => w.Still w' :=
  (Action.Works.quiet hF hw (writeField_quiet v index hx)).mono fun _ _ _ _ => And.right

end

section

variable (hw : w.Sound D) (ha : a.handle.Placed D a.marker a.method w)
include hw ha

theorem push_left {x : Action Value}
    (hx : Action.Works D F a.marker a.method x w fun v w' => w' = w ∧ D.Valid w v)
    (hroom : (∀ f, f.Raised → F f) ∨ (a.handle.frame w).operands.length < (w.code a.method).operandCapacity) :
    Action.Works D F a.marker a.method (do a.handle.push (← x)) w (a.Left D w 0 1) := by
  refine .bind hx fun v w' _ _ ⟨heq, hv⟩ => ?_
  subst heq
  exact (FrameHandle.push_works hw ha hv hroom).mono fun h w' _ _ ⟨hp, ho⟩ => left_of_pushed hp ho

theorem pushBlock_works {l : UInt8} (hn : a.Nests D w (.pushBlock l))
    (hready : (∀ f, f.Raised → F f) ∨ a.Ready w (.pushBlock l)) :
    Action.Works D F a.marker a.method (a.pushBlock l) w fun b w' =>
      ∃ h, b = { a with handle := h } ∧ a.Left D w 0 1 h w' := by
  refine .get_bind (.bind (Q := fun body w' => w' = w ∧ w.blockLiteral a.method l.toNat = .ok body)
    (.lift hw (fun body hb => ⟨rfl, hb⟩) fun e he => ?_) fun body w' _ _ ⟨heq, hbody⟩ => ?_)
  · obtain hF | ⟨-, body, hb, -⟩ := hready
    · exact hF e (World.ordinary_of_blockLiteral he).1
    · rw [hb] at he
      cases he
  subst heq
  have hother {f : Fault} (hf : f.Raised) (h : a.Ready w' (.pushBlock l) → False) : F f :=
    hready.elim (fun hF => hF f hf) fun hr => absurd hr h
  dsimp only
  split
  · next hlevel =>
    refine .throw hw (hother nofun ?_)
    rintro ⟨-, body', hb, hl, -⟩
    rw [hbody] at hb
    cases hb
    exact hlevel hl
  split
  · next hclass =>
    refine .throw hw (hother nofun ?_)
    rintro ⟨-, body', hb, -, hc⟩
    rw [hbody] at hb
    cases hb
    rw [Option.isNone_iff_eq_none] at hclass
    rw [hclass] at hc
    cases hc
  next hlevel _ =>
  refine .bind (FrameHandle.share_works hw ha) fun r w₁ hm hs ⟨hp, hget⟩ => ?_
  have hfits := hn l body rfl hbody (Decidable.not_not.mp hlevel) w₁.nextSerial r w₁ hm.extended
    (hp.bound r rfl) hget
  have hstill : w₁.Still (w₁.newBlock body r ((w'.code a.method).level + 1)).2 := .elsewhere
  refine .bind (Q := fun v w₂ => w₁.Still w₂ ∧ D.Valid w₁ v)
    ⟨⟨hstill, D.valid_block.mpr hfits⟩, .of_still hstill,
      hs.of_still hstill (hs.holds.congr rfl rfl rfl rfl rfl rfl)⟩
    fun v w₂ hm₂ hs₂ ⟨hstill, hv⟩ => ?_
  have hframe : (FrameHandle.shared r).frame w₂ = a.handle.frame w' := by
    rw [← hget, (FrameHandle.shared r).frame_congr hstill.frames]
    rfl
  refine .bind (FrameHandle.push_works hs₂ (hp.still hstill) (hv.mono hm₂.extended) ?_)
    fun h w₃ _ hs₃ ⟨hp₃, ho⟩ => .pure hs₃ ⟨h, rfl, left_of_pushed (v := v) hp₃ ?_⟩
  · refine hready.imp_right fun hr => ?_
    rw [hframe, World.code, hm₂.codes, hm.codes]
    exact hr.1
  · rw [ho, hframe]

theorem enter_steps (hF : ∀ f, f.isProgramFault → F f) {target : Option Method}
    {selector : Symbol} {i : Instruction} (htarget : ∀ m, target = some m → D.Known w m)
    (htakes : a.takes w i = selector.arity) (hgives : i.gives = 1)
    (hn : (∀ f, f.Raised → F f) ∨ selector.arity ≤ (a.handle.frame w).operands.length) :
    a.Steps D F w i (a.enter target selector) w := by
  refine .bind (.refl w) (FrameHandle.popN_works hw ha hn) ?_
  rintro ⟨args, handle⟩ w₁ hm hs ⟨hp, hargs, hlen, ho⟩
  have hleft : a.Left D w (a.takes w i) 0 handle w₁ := by
    rw [htakes, ← hlen]
    exact left_of_taken hp ho
  -- The callee is a method body or a block that is evaluated in place; both are started alike.
  have hstarts {r : CodeRef} {outer : Option FrameRef} (h : Startable D w₁ r args outer) :
      a.Steps D F w i (do return .activate { a with handle } (← start r args outer)) w₁ := by
    refine Action.Ensures.bind (Q := fun callee w₂ => callee.Started D w₁ w₂)
      ((start_ensures hF hs h).mono (fun _ _ => And.right) ?_)
      fun callee w₂ hc => ⟨w₁, hm, hs, hgives, htakes ▸ selector.arity_pos, hleft, hc⟩
    rintro f v ⟨hf, rfl⟩
    exact ⟨hf, hm, hs⟩
  have hcalls {c : Call} {w₂ : World} (hstill : w₁.Still w₂) (hs₂ : w₂.Sound D)
      (hc : c.Holds (D.Valid w₁) (D.Known w₁)) :
      a.Stepped D w i (.callOut { a with handle } c .push) w₂ := by
    have hm₂ : w₁.Moved a.marker a.method w₂ := .of_still hstill
    refine ⟨hm.trans hm₂, hs₂, fun _ => hgives, ?_, ⟨hc.1.mono hm₂.extended, fun v hv => (hc.2 v hv).mono hm₂.extended⟩⟩
    exact hleft.same_operands (hp.still hstill)
      (congrArg Frame.operands (handle.frame_congr hstill.frames))
  cases target with
  -- Nobody understands the message, so the receiver is told by another call.
  | none =>
    have hreceiver : D.Valid w₁ (args.headD .nil) := by
      cases args with
      | nil => exact D.valid_of_no_block rfl
      | cons v rest => exact hargs v List.mem_cons_self
    have hquiet : Action.Quiet (D.Valid w₁) (D.Known w₁) _ _ :=
      Action.doesNotUnderstand_quiet (fun _ => D.valid_of_no_block) selector hreceiver
        fun v hv => hargs v (List.mem_of_mem_tail hv)
    refine .bind hm (.quiet hF hs hquiet) ?_
    rintro c w₂ - hs₂ ⟨hc, hstill⟩
    exact hcalls hstill hs₂ hc
  | some m =>
    have hknown := (htarget m rfl).mono hm.extended
    cases m with
    | compiled r =>
      have hroot := hknown r rfl
      refine hstarts ⟨D.root_lt hroot, hargs, fun _ => ⟨hroot, rfl⟩, fun hb => ?_⟩
      rw [D.not_isBlock hroot] at hb
      cases hb
    | primitive p =>
      have hcall : a.Stepped D w i (.callOut { a with handle } ⟨.primitive p, args⟩ .push) w₁ :=
        hcalls (.refl w₁) hs ⟨hknown, hargs⟩
      refine .get_bind ?_
      split
      · next b _ hhead =>
        have hb : args[0]? = some (.block b) := by rw [← List.head?_eq_getElem?, hhead]
        have hfits := D.valid_block.mp (hargs _ (List.mem_of_getElem? hb))
        refine hstarts ⟨D.fits_lt hfits, hargs, fun hroot => ?_, fun _ => ⟨b, hb, rfl, rfl⟩⟩
        rw [D.isBlock hfits] at hroot
        cases hroot
      · exact hcall

theorem send_steps (hF : ∀ f, f.isProgramFault → F f) {i : Instruction} {selector : Symbol}
    (offset : Nat) (htakes : a.takes w i = selector.arity) (hgives : i.gives = 1)
    (hn : (∀ f, f.Raised → F f) ∨ selector.arity ≤ (a.handle.frame w).operands.length) :
    a.Steps D F w i (a.send offset selector) w := by
  have hpos := selector.arity_pos
  refine .bind (.refl w) (FrameHandle.peek_works hw ha (hn.imp_right fun h => by omega)) ?_
  rintro receiver _ - - ⟨rfl, -⟩
  refine .get_bind (.bind (.refl _) (.quiet hF hw (Action.resolve_quiet _ _ _ _)) ?_)
  intro target w' _ hw' ⟨htarget, hstill⟩
  refine .of_still hstill (enter_steps hw' (ha.still hstill) hF ?_ ?_ hgives ?_)
  · exact fun m hm => (htarget m hm).mono (.of_eq hstill.codes hstill.frames)
  · rw [takes_still hstill, htakes]
  · rwa [a.handle.frame_congr hstill.frames]

theorem superSend_steps (hF : ∀ f, f.isProgramFault → F f) {i : Instruction} {selector : Symbol}
    (htakes : a.takes w i = selector.arity) (hgives : i.gives = 1)
    (hn : (∀ f, f.Raised → F f) ∨ selector.arity ≤ (a.handle.frame w).operands.length)
    (hholder : (∀ f, f.Raised → F f) ∨ (w.holder? (.compiled a.method)).isSome) :
    a.Steps D F w i (a.superSend selector) w := by
  have hresolve : Action.Works D F a.marker a.method (Action.resolveSuper a.method selector) w
      fun target w' => (∀ m, target = some m → D.Known w m) ∧ w.Still w' := by
    cases h : w.holder? (.compiled a.method) with
    | none =>
      unfold Action.Works Action.Ensures
      rw [Action.resolveSuper_of_no_holder h]
      refine ⟨hholder.elim (fun hF => hF _ nofun) fun hs => ?_, .refl w, hw⟩
      rw [h] at hs
      cases hs
    | some holder =>
      refine (Action.resolveSuper_of_holder h selector hw.holds).mono ?_ ?_
      · exact fun m? w' ⟨hm, hs, hh⟩ => ⟨⟨hm, hs⟩, .of_still hs, hw.of_still hs hh⟩
      · exact fun f w' ⟨hf, hs, hh⟩ => ⟨hF f hf, .of_still hs, hw.of_still hs hh⟩
  refine .bind (.refl w) hresolve fun target w' _ hw' ⟨htarget, hstill⟩ => ?_
  refine .of_still hstill (enter_steps hw' (ha.still hstill) hF ?_ ?_ hgives ?_)
  · exact fun m hm => (htarget m hm).mono (.of_eq hstill.codes hstill.frames)
  · rw [takes_still hstill, htakes]
  · rwa [a.handle.frame_congr hstill.frames]

omit hw ha in
theorem escape_steps (hF : ∀ f, f.isProgramFault → F f) {handle : FrameHandle} {w₁ : World} {r : FrameRef}
    {v x : Value} (hm : w.Moved a.marker a.method w₁) (hs : w₁.Sound D)
    (hp : handle.Placed D a.marker a.method w₁)
    (ho : (a.handle.frame w).operands = (handle.frame w₁).operands ++ [v]) (hx : D.Valid w₁ x)
    (hreads : ∀ e, (w₁.frames.get r).read .arguments 0 = .error e → F e) :
    a.Steps D F w .returnNonLocal (do
      Action.count fun n => { n with escapedBlocks := n.escapedBlocks + 1 }
      let receiver ← (w₁.frames.get r).read .arguments 0
      Action.note (.escaped a.method receiver)
      return .callOut { a with handle } (← Action.escapedBlock receiver x) .complete) w₁ := by
  refine .bind hm (.quiet hF hs (.count _)) ?_
  rintro _ w₂ hm₂ hs₂ ⟨-, hstill⟩
  refine .bind (Q := fun x w₃ => w₃ = w₂ ∧ (w₁.frames.get r).read .arguments 0 = .ok x)
    (hm.trans hm₂) (.lift hs₂ (fun x hx => ⟨rfl, hx⟩) hreads) ?_
  rintro receiver w₂ - - ⟨rfl, hreceiver⟩
  have hslot := Frame.read_mem hreceiver
  have hvalid := (hs.frames r (World.Sound.lt_of_mem_slots hslot)).slots _ hslot
  refine .bind (hm.trans hm₂) (.quiet hF hs₂ (.note _)) ?_
  rintro _ w₃ hm₃ hs₃ ⟨-, hstill'⟩
  have he := (hm₂.trans hm₃).extended
  refine .bind (hm.trans (hm₂.trans hm₃)) (.quiet hF hs₃ (Action.escapedBlock_quiet
    (fun _ => D.valid_of_no_block) (hvalid.mono he) (hx.mono he))) ?_
  rintro c w₄ hm₄ hs₄ ⟨hc, hstill''⟩
  have hstill := (hstill.trans hstill').trans hstill''
  refine ⟨hm.trans (hm₂.trans (hm₃.trans hm₄)), hs₄, ?_, ?_, hc.1.mono hm₄.extended,
    fun v hv => (hc.2 v hv).mono hm₄.extended⟩
  · rintro ⟨⟩
  exact (left_of_taken hp ho).same_operands (hp.still hstill)
    (congrArg Frame.operands (handle.frame_congr hstill.frames))

/-- Returning from a block goes to the frame of the method that the block was created in, or tells
the receiver of that method when it is too late. -/
theorem returnNonLocal_steps (hF : ∀ f, f.isProgramFault → F f) (hguards : D.guarded ∨ ∀ f, F f)
    (hn : (∀ f, f.Raised → F f) ∨ (a.handle.frame w).operands ≠ []) :
    a.Steps D F w .returnNonLocal a.returnNonLocal w := by
  refine .bind (.refl w) (FrameHandle.pop_works hw ha hn) ?_
  rintro ⟨v, handle⟩ w₁ hm hs ⟨hp, hv, ho, -, -⟩
  refine .get_bind ?_
  split
  · exact ⟨hm, hs, hv⟩
  next hblock =>
  have hsound := hp.sound
  have hb : (handle.frame w₁).code.isBlock := by
    rw [hp.code]
    simpa using hblock
  obtain ⟨b', _, -, -, hslot, hfollow, hroot⟩ := hsound.home hb
  have hself (hg : D.guarded) := Frame.read_self (hslot hg)
  have hcontext := World.outerContext_of_follow hfollow
  have hfail {e : Fault} (h : D.guarded → False) : F e :=
    hguards.elim (fun hg => (h hg).elim) fun hF => hF e
  refine .bind (Q := fun x w₂ => w₂ = w₁ ∧ (handle.frame w₁).read .arguments 0 = .ok x) hm
    (.lift hs (fun x hx => ⟨rfl, hx⟩) fun e he => hfail fun hg => ?_) ?_
  · rw [hself hg] at he
    cases he
  rintro x w₁ - - ⟨rfl, hread⟩
  have hx := hsound.slots x (Frame.read_mem hread)
  split
  case h_2 hne =>
    refine ⟨hfail fun hg => hne b' ?_, hm, hs⟩
    rw [hself hg] at hread
    exact (Except.ok.inj hread).symm
  next b =>
  have hsame (hg : D.guarded) : b = b' := by
    rw [hself hg] at hread
    cases hread
    rfl
  refine .bind (Q := fun r w₂ => w₂ = w₁ ∧ w₁.outerContext (handle.frame w₁) b.level = .ok r) hm
    (.lift hs (fun r hr => ⟨rfl, hr⟩) fun e he => hfail fun hg => ?_) ?_
  · rw [hsame hg, hcontext] at he
    cases he
  rintro r w₁ - - ⟨rfl, hr⟩
  have hhome (hg : D.guarded) : r.index < w₁.frames.size ∧ (w₁.frames.get r).code.isBlock = false := by
    rw [hsame hg, hcontext] at hr
    cases hr
    exact hroot
  dsimp only
  split
  · next hlive =>
    refine .bind hm (.quiet hF hs (.count _)) ?_
    rintro _ w₂ hm₂ hs₂ ⟨-, hstill⟩
    refine .bind (hm.trans hm₂) (.quiet hF hs₂ (.note _)) ?_
    rintro _ w₃ hm₃ hs₃ ⟨-, hstill'⟩
    have hstill := hstill.trans hstill'
    refine ⟨hm.trans (hm₂.trans hm₃), hs₃, hv.mono (hm₂.trans hm₃).extended, ?_, fun hg => ?_⟩
    · rwa [World.isLive, hstill.markers]
    · rw [hstill.frames]
      exact ⟨r, (hhome hg).1, rfl, (hhome hg).2⟩
  · refine escape_steps hF hm hs hp ho hx fun e he => hfail fun hg => ?_
    obtain ⟨receiver, hreceiver⟩ := Frame.read_of_lt (hs.frames r (hhome hg).1).proper
      (show 0 < (w₁.frames.get r).areaSize .arguments from (w₁.frames.get r).code.argCount_pos)
    rw [hreceiver] at he
    cases he

theorem popSlot_works {area : Area} {index level : UInt8}
    (hspares : D.guarded → a.Spares w (.popSlot area index level))
    (hready : (∀ f, f.Raised → F f) ∨ a.Ready w (.popSlot area index level)) :
    Action.Works D F a.marker a.method (do
      let (v, handle) ← a.handle.pop
      handle.writeSlot area index.toNat level v) w (a.Left D w 1 0) := by
  refine .bind (FrameHandle.pop_works hw ha (hready.imp_right And.left)) ?_
  rintro ⟨v, handle⟩ w₁ hm hs ⟨hp, hv, ho, hc, hframes⟩
  refine (FrameHandle.writeSlot_works hs hp hv
    (fun hg => (hspares hg _ _ _ rfl).continues hc hframes) ?_).mono ?_
  · exact hready.imp_right fun hr => hr.2.continues hc hframes hm.frames_le
  · exact fun h w₂ _ _ ⟨hp', ho'⟩ => (left_of_taken hp ho).same_operands hp' ho'

theorem popField_works (hF : ∀ f, f.isProgramFault → F f) {index : UInt8}
    (hready : (∀ f, f.Raised → F f) ∨ a.Ready w (.popField index)) :
    Action.Works D F a.marker a.method (do
      let (v, handle) ← a.handle.pop
      writeField (← handle.receiver) index v
      return handle) w (a.Left D w 1 0) := by
  refine .bind (FrameHandle.pop_works hw ha hready) ?_
  rintro ⟨v, handle⟩ w₁ hm hs ⟨hp, hv, ho, -, -⟩
  refine .bind (FrameHandle.receiver_works hs hp) ?_
  rintro receiver _ - - ⟨rfl, -⟩
  refine .bind (writeField_works hs hF receiver index hv) fun _ w₂ _ hs₂ hstill => .pure hs₂ ?_
  exact (left_of_taken hp ho).same_operands (hp.still hstill)
    (congrArg Frame.operands (handle.frame_congr hstill.frames))

theorem pushGlobal_steps (hF : ∀ f, f.isProgramFault → F f) {l : UInt8} (offset : Nat)
    (hready : (∀ f, f.Raised → F f) ∨ a.Ready w (.pushGlobal l)) :
    a.Steps D F w (.pushGlobal l) (a.execute offset (.pushGlobal l)) w := by
  refine .bind (.refl w) (symbolLiteral_works hw (hready.imp_right And.right)) ?_
  rintro name _ - - ⟨rfl, -⟩
  refine .get_bind ?_
  split
  · next v hv =>
    refine .resume rfl ((FrameHandle.push_works hw ha (hw.holds.globals name v hv) ?_).mono ?_)
    · exact hready.imp_right And.left
    · exact fun h w₁ _ _ ⟨hp, ho⟩ => left_of_pushed hp ho
  · refine .bind (.refl _) (FrameHandle.receiver_works hw ha) ?_
    rintro receiver w₁ - - ⟨rfl, hv⟩
    refine .bind (.refl _) (.quiet hF hw (Action.unknownGlobal_quiet
      (fun _ => D.valid_of_no_block) name hv)) fun c w₂ hm₂ hs₂ ⟨hc, hstill⟩ => ?_
    refine ⟨hm₂, hs₂, fun _ => rfl, ?_, hc.1.mono hm₂.extended,
      fun v hv => (hc.2 v hv).mono hm₂.extended⟩
    exact left_same (ha.still hstill)
      (congrArg Frame.operands (a.handle.frame_congr hstill.frames))

theorem execute_steps (hF : ∀ f, f.isProgramFault → F f) (hguards : D.guarded ∨ ∀ f, F f)
    {i : Instruction} (offset : Nat) (hready : (∀ f, f.Raised → F f) ∨ a.Ready w i)
    (hspares : D.guarded → a.Spares w i) (hnests : a.Nests D w i) :
    a.Steps D F w i (a.execute offset i) w := by
  have hne {ops : List Value} (h : ops ≠ []) : 0 < ops.length := List.length_pos_iff.mpr h
  have htaken {h : FrameHandle} {w' : World} {v : Value} (hp : h.Placed D a.marker a.method w')
      (ho : (a.handle.frame w).operands = (h.frame w').operands ++ [v]) : a.Left D w 1 0 h w' :=
    left_of_taken hp ho
  cases i with
  | halt =>
    refine .complete ((FrameHandle.peek_works hw ha (hready.imp_right hne)).mono ?_)
    rintro v _ - - ⟨rfl, hv⟩
    exact hv
  | dup =>
    exact .resume rfl (push_left hw ha
      (FrameHandle.peek_works hw ha (hready.imp_right fun hr => hne hr.1))
      (hready.imp_right And.right))
  | pushSlot area index level =>
    refine .resume rfl (push_left hw ha (FrameHandle.readSlot_works hw ha ?_) ?_)
    · exact hready.imp_right fun hr => hr.2.read hw ha.sound
    · exact hready.imp_right And.left
  | pushField index =>
    refine .resume rfl (.bind (FrameHandle.receiver_works hw ha) ?_)
    rintro receiver _ - - ⟨rfl, -⟩
    exact push_left hw ha (readField_works hw hF receiver index) hready
  | pushBlock l =>
    refine .bind (.refl w) (pushBlock_works hw ha hnests hready) ?_
    rintro b w₁ hm hs ⟨h, rfl, hl⟩
    exact ⟨hm, hs, rfl, hl⟩
  | pushConstant l =>
    exact .resume rfl (push_left hw ha (literal_works hw (hready.imp_right And.right))
      (hready.imp_right And.left))
  | pushGlobal l => exact pushGlobal_steps hw ha hF offset hready
  | pop =>
    refine .resume rfl (.bind (FrameHandle.pop_works hw ha hready) ?_)
    rintro ⟨v, handle⟩ w₁ - hs ⟨hp, -, ho, -, -⟩
    exact .pure hs (htaken hp ho)
  | popSlot area index level => exact .resume rfl (popSlot_works hw ha hspares hready)
  | popField index => exact .resume rfl (popField_works hw ha hF hready)
  | send l =>
    refine .bind (.refl w) (symbolLiteral_works hw (hready.imp_right fun ⟨s, hs, _⟩ => ⟨s, hs⟩)) ?_
    rintro s _ - - ⟨rfl, hs⟩
    have htakes := Code.takes_send (World.symbolLiteral_eq_ok hs)
    refine send_steps hw ha hF offset htakes rfl (hready.imp_right ?_)
    rintro ⟨s', hs', hle⟩
    rw [hs] at hs'
    cases hs'
    exact hle
  | superSend l =>
    refine .bind (.refl w) (symbolLiteral_works hw (hready.imp_right fun ⟨⟨s, hs, _⟩, _⟩ => ⟨s, hs⟩)) ?_
    rintro s _ - - ⟨rfl, hs⟩
    have htakes := Code.takes_superSend (World.symbolLiteral_eq_ok hs)
    refine superSend_steps hw ha hF htakes rfl (hready.imp_right ?_) (hready.imp_right And.right)
    rintro ⟨⟨s', hs', hle⟩, -⟩
    rw [hs] at hs'
    cases hs'
    exact hle
  | returnLocal =>
    refine .bind (.refl w) (FrameHandle.pop_works hw ha hready) ?_
    rintro ⟨v, handle⟩ w₁ hm hs ⟨-, hv, -, -, -⟩
    exact ⟨hm, hs, hv⟩
  | returnNonLocal => exact returnNonLocal_steps hw ha hF hguards hready

end

theorem Spares.still {i : Instruction} (hs : a.Spares w i) (h : w.Still w') :
    a.Spares w' i := by
  intro area index level hi
  rw [a.handle.frame_congr h.frames]
  exact (hs area index level hi).continues (.refl _) fun r => by
    rw [h.frames]
    exact .refl _

theorem Nests.still {i : Instruction} (hn : a.Nests D w i) (h : w.Still w') :
    a.Nests D w' i := by
  intro l body hi hb hl n r v hv hr hget
  have hcode (c : CodeRef) : w'.code c = w.code c := by rw [World.code, h.codes, World.code]
  have hblock : w'.blockLiteral a.method l.toNat = w.blockLiteral a.method l.toNat := by
    simp only [World.blockLiteral, World.literal, hcode]
  rw [hcode, hcode] at hl
  rw [hcode]
  refine hn l body hi (hblock ▸ hb) hl n r v ?_ hr ?_
  · exact .trans (.of_eq h.codes h.frames) hv
  · rw [hget, a.handle.frame_congr h.frames]

theorem Ready.still {i : Instruction} (hr : a.Ready w i) (h : w.Still w') :
    a.Ready w' i := by
  have hcode (c : CodeRef) : w'.code c = w.code c := by rw [World.code, h.codes, World.code]
  have hslot (area : Area) (index : Nat) (level : UInt8)
      (hs : w.HasSlot (a.handle.frame w) area index level) :
      w'.HasSlot (a.handle.frame w) area index level :=
    hs.continues (.refl _) (fun r => by rw [h.frames]; exact .refl _)
      (Nat.le_of_eq (by rw [h.frames]))
  have hblock (l : Nat) : w'.blockLiteral a.method l = w.blockLiteral a.method l := by
    simp only [World.blockLiteral, World.literal, hcode]
  have hholder : w'.holder? (.compiled a.method) = w.holder? (.compiled a.method) := by
    simp only [World.holder?, h.codes]
  cases i <;>
    simp only [Ready, a.handle.frame_congr h.frames, hcode, World.symbolLiteral, World.literal,
      hblock, hholder, World.blockClass?] at hr ⊢
  case pushSlot => exact ⟨hr.1, hslot _ _ _ hr.2⟩
  case popSlot => exact ⟨hr.1, hslot _ _ _ hr.2⟩
  all_goals exact hr

theorem traced_sound (hw : w.Sound D) (i : Instruction) : (a.traced i w).Sound D := by
  unfold traced
  split
  · exact hw.of_still (w.note_still _) (hw.holds.note _)
  · exact hw

theorem step_steps (hw : w.Sound D) (ha : a.handle.Placed D a.marker a.method w)
    (hF : ∀ f, f.isProgramFault → F f) (hguards : D.guarded ∨ ∀ f, F f) {i : Instruction}
    (hfetch : a.fetch w = .ok i) (hready : (∀ f, f.Raised → F f) ∨ a.Ready w i)
    (hspares : D.guarded → a.Spares w i) (hnests : a.Nests D w i) :
    { a with offset := a.offset + i.length }.Steps D F w i a.step w := by
  have hstill := a.traced_still i w
  unfold Steps Action.Ensures
  rw [step_eq hfetch]
  refine Steps.of_still hstill (execute_steps (a := { a with offset := a.offset + i.length })
    (traced_sound hw i) (ha.still hstill) hF hguards a.offset ?_ ?_ ?_)
  · exact hready.imp_right fun hr => Ready.still (a := a) hr hstill
  · exact fun hg => Spares.still (a := a) (hspares hg) hstill
  · exact Nests.still (a := a) hnests hstill

end Activation

end MessageMachine
