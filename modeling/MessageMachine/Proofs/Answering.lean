import MessageMachine.Proofs.Messaging

namespace MessageMachine

theorem Frame.read_argument {f : Frame} {args rest : List Value} {x : Value} {i : Nat}
    (hbindings : f.bindings = args ++ rest) (hargs : args.length = f.code.argCount)
    (hx : args[i]? = some x) : f.read .arguments i = .ok x := by
  have hi : i < args.length := (List.getElem?_eq_some_iff.mp hx).1
  have hbaseline : i < f.baseline := Nat.lt_of_lt_of_le (hargs ▸ hi) (Nat.le_add_right _ _)
  have hslot : f.slots[i]? = some x := by
    rw [← Array.getElem?_toList, ← List.getElem?_take_of_lt hbaseline]
    change f.bindings[i]? = some x
    rw [hbindings, List.getElem?_append_left hi, hx]
  have hsize : i < f.areaSize .arguments := Nat.lt_of_lt_of_eq hi hargs
  simp only [read, if_pos hsize, areaStart, Nat.zero_add, hslot]

/-- The body executes this instruction and returns what it pushed. -/
structure Code.Returns (c : Code) (i : Instruction) : Prop where
  first : fetch c.bytecodes 0 = .ok i
  second : fetch c.bytecodes i.length = .ok .returnLocal
  capacity : 0 < c.operandCapacity

/-- The instruction pushes this value, an argument of the running body or a constant. -/
inductive World.Supplies (w : World) (r : CodeRef) (args : List Value) : Instruction → Value → Prop where
  | argument {index : UInt8} {x : Value} (hx : args[index.toNat]? = some x) :
      Supplies w r args (.pushSlot .arguments index 0) x
  | constant {l : UInt8} {x : Value} (hx : w.literal r l.toNat = .ok x) :
      Supplies w r args (.pushConstant l) x

namespace Activation

variable {f : Frame} {r : CodeRef} {k : MarkerRef} {offset : Nat} {w : World} {args rest : List Value}
  {i : Instruction} {x : Value}

theorem fetch_of_code (h : MessageMachine.fetch (w.code r).bytecodes offset = .ok i) (a : FrameHandle)
    (k : MarkerRef) : fetch ⟨a, r, k, offset⟩ w = .ok i := by
  simp only [fetch, h]

theorem step_supplies (hf : f.Proper) (hroom : f.operands.length < f.code.operandCapacity)
    (hbindings : f.bindings = args ++ rest) (hargs : args.length = f.code.argCount)
    (hfetch : MessageMachine.fetch (w.code r).bytecodes offset = .ok i) (hx : w.Supplies r args i x) :
    ∃ f' journal, f.push x = .ok f' ∧ step ⟨.own f, r, k, offset⟩ w =
      .ok (.resume ⟨.own f', r, k, offset + i.length⟩) { w with journal } := by
  obtain ⟨f', hpush⟩ := Frame.push_of_lt hf hroom x
  obtain ⟨journal, htraced⟩ := traced_eq ⟨.own f, r, k, offset⟩ i w
  refine ⟨f', journal, hpush, ?_⟩
  have hrun (v : World) : (FrameHandle.own f).push x v = .ok (.own f') v := by
    simp only [FrameHandle.push, FrameHandle.modify, hpush]
  rw [step_eq (fetch_of_code hfetch _ k), htraced]
  cases hx with
  | @argument index x hx =>
    have hread : World.readSlot { w with journal } f .arguments index.toNat 0 = .ok x :=
      Frame.read_argument hbindings hargs hx
    simp only [execute, FrameHandle.readSlot, Action.bind_apply, Action.get_apply, FrameHandle.frame, hread,
      Action.lift_ok, hrun]
    rfl
  | @constant l x hx =>
    have hliteral : World.literal { w with journal } r l.toNat = .ok x := hx
    simp only [execute, literal, Action.bind_apply, Action.get_apply, hliteral, Action.lift_ok, hrun]
    rfl

theorem step_returnLocal (hf : f.Proper) {left : List Value} (hops : f.operands = left ++ [x])
    (hfetch : MessageMachine.fetch (w.code r).bytecodes offset = .ok .returnLocal) :
    ∃ journal, step ⟨.own f, r, k, offset⟩ w = .ok (.complete x) { w with journal } := by
  obtain ⟨y, f', hpop⟩ := Frame.pop_of_ne_nil hf (by rw [hops]; exact List.append_ne_nil_of_right_ne_nil _ nofun)
  have hy := (Frame.pop_eq_ok hpop).2.1 hf
  rw [hops] at hy
  obtain ⟨-, hxy⟩ := List.append_inj' hy rfl
  cases hxy
  obtain ⟨journal, htraced⟩ := traced_eq ⟨.own f, r, k, offset⟩ .returnLocal w
  refine ⟨journal, ?_⟩
  rw [step_eq (fetch_of_code hfetch _ k), htraced]
  simp only [execute, FrameHandle.pop, FrameHandle.take, Action.bind_apply, hpop]
  rfl

end Activation

namespace Footing

variable {b : Footing} {w : World}

theorem opened_code (r : CodeRef) : (b.opened w).code r = w.code r := by
  cases b <;> rfl

theorem opened_journal (journal : Journal) :
    { b.opened w with journal } = b.opened { w with journal } := by
  cases b <;> rfl

theorem finish_passes (a : Activation) {o : Outcome}
    (h : ∀ v, o = .error (.nonLocalReturn v a.marker) → (w.code a.method).isBlock) :
    Machine.finish ⟨a, b.below⟩ o b.waiting (b.opened w) = b.resume o (a.left w) := by
  have hretire : a.retire o (b.opened w) = (o, a.left (b.opened w)) := by
    obtain ⟨v, ho, hmethod, -⟩ | ⟨-, heq⟩ := a.retire_cases o (b.opened w)
    · rw [opened_code, h v ho] at hmethod
      cases hmethod
    · exact heq
  rw [finish_eq, hretire]
  cases b <;> rfl

theorem start_returns {f : Frame} {r : CodeRef} {offset : Nat} {x : Value} (k : MarkerRef) (hf : f.Proper)
    (hops : f.operands = [x]) (hfetch : fetch (w.code r).bytecodes offset = .ok .returnLocal) (b : Footing) :
    ∃ journal, b.Receives ({ w with journal, depth := w.depth - 1 }.deactivate k) (.ok x)
      ((b.start ⟨.own f, r, k, offset⟩ w).after 2) := by
  rw [← opened_code (b := b)] at hfetch
  have hsplit : f.operands = [] ++ [x] := hops
  obtain ⟨journal, hstep⟩ := Activation.step_returnLocal (k := k) hf hsplit hfetch
  let a : Activation := ⟨.own f, r, k, offset⟩
  have hreturning : (b.start a w).step =
      ⟨.finish ⟨a, b.below⟩ (.ok x), b.waiting, b.opened { w with journal }⟩ := by
    change Machine.advance _ _ (b.opened w) = _
    simp only [Machine.advance, a, hstep, opened_journal]
    rfl
  refine ⟨journal, ?_⟩
  change b.Receives _ _ (Machine.step (Machine.step (b.start a w)))
  rw [hreturning]
  change b.Receives _ _ (Machine.finish ⟨a, b.below⟩ _ _ (b.opened _))
  rw [finish_passes (o := .ok x) a fun _ h => by cases h]
  exact b.receives_resume _ _

end Footing

namespace World.Activates

variable {w w' : World} {r : CodeRef} {args : List Value} {outer : Option FrameRef} {callee : Activation}
  {i : Instruction} {x : Value}

theorem code (h : w.Activates r args outer callee w') (r' : CodeRef) : w'.code r' = w.code r' :=
  (congrArg (World.code · r') h.world :)

theorem supplies (h : w.Activates r args outer callee w')
    (hfetch : fetch (w.code r).bytecodes 0 = .ok i) (hcapacity : 0 < (w.code r).operandCapacity)
    (hx : w.Supplies r args i x) (b : Footing) :
    ∃ f journal, f.Proper ∧ f.code = w.code r ∧ f.operands = [x] ∧ (b.start callee w').step =
      b.start ⟨.own f, r, w.markers.next, i.length⟩ { w' with journal } := by
  obtain ⟨f, rfl, hproper, hcode, -, hops, hbindings⟩ := h.frame
  have hsupplies : (b.opened w').Supplies r args i x := by
    cases hx with
    | argument hx => exact .argument hx
    | constant hx =>
      refine .constant ?_
      rw [literal, Footing.opened_code, h.code]
      exact hx
  have hroom : f.operands.length < f.code.operandCapacity := by
    rw [hops, hcode]
    exact hcapacity
  rw [← h.code, ← Footing.opened_code (b := b)] at hfetch
  obtain ⟨f', journal, hpush, hstep⟩ := Activation.step_supplies (k := w.markers.next) hproper hroom
    hbindings (h.arity.trans (by rw [hcode])) hfetch hsupplies
  obtain ⟨hcontinues, hpushed, -⟩ := Frame.push_eq_ok hpush
  refine ⟨f', journal, hcontinues.proper hproper, hcontinues.code.trans hcode, ?_, ?_⟩
  · rw [hpushed hproper, hops]
    rfl
  · rw [Footing.opened_journal, Nat.zero_add] at hstep
    change Machine.advance _ _ (b.opened w') = _
    simp only [Machine.advance, hstep]
    rfl

theorem answers (h : w.Activates r args outer callee w') (hbody : (w.code r).Returns i)
    (hx : w.Supplies r args i x) (b : Footing) :
    ∃ u, b.Receives u (.ok x) ((b.start callee w').after 3) ∧
      w.EqualUpToTraces { u with markers := w.markers } ∧
      u.markers = (w.markers.push true).set w.markers.next false := by
  obtain ⟨f, journal, hproper, -, hops, hstep⟩ := h.supplies hbody.first hbody.capacity hx b
  let v : World := { w' with journal }
  have hsecond : fetch (v.code r).bytecodes i.length = .ok .returnLocal := by
    change fetch (w'.code r).bytecodes i.length = _
    rw [h.code]
    exact hbody.second
  obtain ⟨journal', hreceives⟩ := Footing.start_returns w.markers.next hproper hops hsecond b
  refine ⟨{ v with journal := journal', depth := v.depth - 1 }.deactivate w.markers.next, ?_, ?_, ?_⟩
  · change b.Receives _ _ (Machine.after 2 (Machine.step _))
    rw [hstep]
    exact hreceives
  · refine h.world.trans ?_
    unfold EqualUpToTraces
    change _ = { w' with markers := w.markers, depth := w.depth, journal := journal' }
    simp only [World.deactivate]
    rw [show v.depth = w'.depth from rfl, h.depth]
    rfl
  · change w'.markers.set w.markers.next false = _
    rw [h.markers]

end World.Activates

end MessageMachine
