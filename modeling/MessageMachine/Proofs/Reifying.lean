import MessageMachine.Proofs.Failing

namespace MessageMachine

namespace World

variable {w w' : World} {H I : History}

theorem Alters.superclass (h : w.Alters w' I) {c : ClassRef} (hc : c.index < w.classes.size) :
    c.index < w'.classes.size ∧ (w'.cls c).superclass = (w.cls c).superclass := by
  cases h with
  | prepare h =>
    rw [cls, h.classes]
    exact ⟨hc, rfl⟩
  | @install u h d _ m hm =>
    rw [cls, cls, ← h.classes]
    rw [← h.classes] at hc
    obtain ⟨codes, primitives, heq, -⟩ := u.install_eq d m
    rw [heq]
    change c.index < (u.classes.set d _).size ∧ ((u.classes.set d _).get c).superclass = _
    rw [Arena.size_set, Arena.get_set]
    refine ⟨hc, ?_⟩
    split
    · next hd =>
      rw [← hd.1]
      rfl
    · rfl
  | @define u h name superclass _ fields =>
    rw [cls.eq_def w, ← h.classes]
    rw [← h.classes] at hc
    have hwidens := (u.define_widens name superclass fields).1
    exact ⟨Nat.lt_of_lt_of_le hc hwidens.size_le, hwidens.superclass c hc⟩

theorem Alters.method?_isSome (h : w.Alters w' I) (hw : w.Logged H) {c : ClassRef} {selector : Symbol}
    (hm : (w.method? c selector).isSome) : (w'.method? c selector).isSome := by
  have hw' := h.logged hw
  induction hi : c.index using Nat.strongRecOn generalizing c with
  | ind i ih =>
    rw [method?_eq hw'.finds.ordered]
    cases hfound : (w'.cls c).methods.find? selector with
    | some x => rfl
    | none =>
      -- The table had no entry before either, so the method is that of the superclass.
      have hnone : (w.cls c).methods.find? selector = none := by
        rw [← Option.not_isSome_iff_eq_none, hw.recorded.table, latest?_isSome]
        rintro ⟨x, hx, hs⟩
        have hsome : (w'.latest? c selector (I ++ H)).isSome := latest?_isSome.mpr
          ⟨x, List.mem_append_right I hx, by rw [h.retains.signature (hw.recorded.made _ hx).2, hs]⟩
        rw [← hw'.recorded.table, hfound] at hsome
        cases hsome
      rw [method?_eq hw.finds.ordered, hnone] at hm
      cases hs : (w.cls c).superclass with
      | none =>
        rw [hs] at hm
        cases hm
      | some s =>
        have hc : c.index < w.classes.size := by
          refine Nat.lt_of_not_le fun hle => ?_
          rw [cls_of_le hle] at hs
          cases hs
        rw [hs] at hm
        rw [(h.superclass hc).2, hs]
        exact ih s.index (hi ▸ hw.finds.ordered c s hs) hm rfl

end World

theorem Chronicle.cached_isSome {permits : World → Alteration → Prop} {w₀ : World} {H I : History}
    {m : Machine} (h : Chronicle permits w₀ H m) (hw : w₀.Logged I) (hcold : w₀.caches = .empty) :
    m.world.Cached fun c selector _ => (m.world.method? c selector).isSome := by
  refine h.cached (R := fun w c selector _ => (w.method? c selector).isSome) hw hcold ?_ ?_ ?_
  · intro _ _ _ c selector x hx
    rw [hx]
    rfl
  · intro v v' hclasses c selector _ hm
    rwa [World.method?_congr hclasses]
  · intro _ _ v a hv ha _ c selector _ hm
    have hlogged := hv.logged hw
    exact (World.alter_alters hlogged.tidy ha).method?_isSome hlogged hm

theorem Chronicle.reached {permits : World → Alteration → Prop} {w₀ : World} {H : History}
    {m : Machine} (h : Chronicle permits w₀ H m) : m.Reached ∨ ∃ o, m.outcome? = some o := by
  induction h with
  | boot => exact .inr ⟨_, rfl⟩
  | @step _ m _ ih =>
    obtain hm | ⟨o, ho⟩ := ih
    · exact .inl (hm.after 1)
    · rw [Machine.step_of_outcome ho]
      exact .inr ⟨o, ho⟩
  | @request _ _ w _ r _ => exact .inl ⟨r, w, 0, rfl⟩
  | alter | change => exact .inr ⟨_, rfl⟩

/-- The class of the receiver finds a compiled handler of failed sends, and there is room to run it. -/
structure World.Handled (w : World) (receiver : Value) (r : CodeRef) : Prop where
  handler : w.method? (w.classOf receiver) w.handler = some (.compiled r)
  depth : w.depth < w.config.maxCallDepth
  reentry : w.reentry < w.config.maxReentryDepth

theorem Activation.start_of_room {w : World} {r : CodeRef} {args : List Value}
    (hdepth : w.depth < w.config.maxCallDepth) (hargs : args.length = (w.code r).argCount)
    (outer : Option FrameRef) : ∃ callee v, start r args outer w = .ok callee v := by
  simp only [start, Action.bind_apply, Action.get_apply, if_neg (Nat.not_le.mpr hdepth),
    Action.makeFrame, Frame.create, if_pos hargs]
  exact ⟨_, _, rfl⟩

namespace Machine

variable {w u : World} {r : CodeRef} {receiver : Value} {selector : Symbol} {args : List Value}
  {own : Machine}

/-- The handler is about to run in a loop of its own, with the receiver, the selector and a new array
of the arguments. Apart from that, no inline cache and, but for the frame of the sender, nothing that a
program can see has changed. -/
structure Handles (w : World) (r : CodeRef) (receiver : Value) (selector : Symbol)
    (args : List Value) (own : Machine) : Prop where
  starts : ∃ callee u v, w.Reifies args { u with frames := w.frames } ∧
    Activation.start r [receiver, .symbol selector, .array w.arrays.next] none u = .ok callee v ∧
    own = ⟨.run ⟨callee, []⟩, [], { v with reentry := v.reentry + 1 }⟩
  arrays : own.world.arrays = w.arrays.push args.toArray
  caches : own.world.caches = w.caches

theorem call_handles (h : w.Handled receiver r) (harity : (w.code r).argCount = 3)
    (hu : w.Reifies args { u with frames := w.frames }) (selector : Symbol) :
    ∃ own, Handles w r receiver selector args own ∧ own.world.frames = u.frames ∧ ∀ waiting,
      Machine.call ⟨.compiled r, [receiver, .symbol selector, .array w.arrays.next]⟩ waiting u =
        own.on waiting := by
  have hdepth : u.depth = w.depth := (congrArg World.depth hu :)
  have hreentry : u.reentry = w.reentry := (congrArg World.reentry hu :)
  have hconfig : u.config = w.config := (congrArg World.config hu :)
  have hcode : u.code r = w.code r := (congrArg (World.code · r) hu :)
  have harrays : u.arrays = w.arrays.push args.toArray := (congrArg World.arrays hu :)
  have hcaches : u.caches = w.caches := (congrArg World.caches hu :)
  have hroom := h.depth
  rw [← hdepth, ← hconfig] at hroom
  have hargs : [receiver, .symbol selector, .array w.arrays.next].length = (u.code r).argCount := by
    rw [hcode, harity]
    rfl
  obtain ⟨callee, v, hstart⟩ := Activation.start_of_room (w := u) (r := r) hroom hargs none
  obtain ⟨-, hv, -⟩ := (Activation.start_creates _ _ _ u).of_ok hstart
  refine ⟨⟨.run ⟨callee, []⟩, [], { v with reentry := v.reentry + 1 }⟩,
    ⟨⟨callee, u, v, hu, hstart, rfl⟩, ?_, ?_⟩, ?_, fun waiting => ?_⟩
  · rw [hv]
    exact harrays
  · rw [hv]
    exact hcaches
  · rw [hv]
  have hloop : ¬u.config.maxReentryDepth ≤ u.reentry := by
    rw [hconfig, hreentry]
    exact Nat.not_le.mpr h.reentry
  simp only [call, execute, RunLoop.start, Action.bind_apply, Action.get_apply, if_neg hloop, hstart]
  rfl

/-- From some step on a machine does what another one does on its own, while others wait. -/
def Becomes (m : Machine) (n : Nat) (own : Machine) (waiting : List Waiting) : Prop :=
  ∀ k, (∀ j < k, (own.after j).outcome? = none) → m.after (n + k) = (own.after k).on waiting

theorem Becomes.of_after {m : Machine} {n : Nat} {waiting : List Waiting}
    (h : m.after n = own.on waiting) : m.Becomes n own waiting := by
  intro k hk
  rw [after_add, h, after_on hk]

/-- A send in the code that runs finds no method for this receiver. -/
inductive Misses (m : Machine) (loop : RunLoop) (receiver : Value) (selector : Symbol) : Prop where
  | send {l : UInt8} (hnext : m.next? = some (loop, .send l))
      (hselector : m.world.symbolLiteral loop.current.method l.toNat = .ok selector)
      (hnone : m.world.method? (m.world.classOf receiver) selector = none)
  | superSend {l : UInt8} {c : ClassRef} (hnext : m.next? = some (loop, .superSend l))
      (hselector : m.world.symbolLiteral loop.current.method l.toNat = .ok selector)
      (hholder : m.world.holder? (.compiled loop.current.method) = some c)
      (hnone : m.world.inherited? c selector = none)

variable {m : Machine} {loop : RunLoop} {left : List Value}

theorem Misses.running (h : m.Misses loop receiver selector) : m.control = .run loop := by
  cases h with
  | send hnext | superSend hnext => exact (next?_eq_some.mp hnext).1

theorem Misses.step (h : m.Misses loop receiver selector) (hm : m.snapshot.Held)
    (hfinds : m.world.Finds)
    (hcached : m.world.Cached fun c selector _ => (m.world.method? c selector).isSome)
    (hops : (loop.current.handle.frame m.world).operands = left ++ receiver :: args)
    (harity : args.length + 1 = selector.arity) :
    ∃ v, m.world.Unseen v ∧ loop.current.step m.world =
      Activation.enter { loop.current with offset := loop.current.offset + 2 } none selector v := by
  have hcontrol := h.running
  obtain ⟨control, waiting, w⟩ := m
  cases hcontrol
  cases h with
  | send hnext hselector hnone =>
    have hfetch := (next?_eq_some.mp hnext).2
    obtain ⟨handle, v, hpop, -⟩ := FrameHandle.popN_of_operands (hm loop.current List.mem_cons_self) hops
    rw [List.length_cons, harity] at hpop
    obtain ⟨f, hf⟩ := (FrameHandle.popN_eq_ok hpop).1
    refine Activation.step_send_fails hfinds hfetch hselector (Frame.peek_of_popN hf) ?_ hnone
    rw [Option.eq_none_iff_forall_ne_some]
    intro x hx
    have hat : w.selectorAt? loop.current.method loop.current.offset = some selector := by
      simp only [World.selectorAt?, Activation.fetch_eq_ok hfetch]
      exact congrArg Except.toOption hselector
    have hsome := hcached.find? hat hx
    rw [hnone] at hsome
    cases hsome
  | superSend hnext hselector hholder hnone =>
    obtain ⟨v, hv, hstep⟩ :=
      Activation.step_superSend hfinds (next?_eq_some.mp hnext).2 hselector hholder
    rw [hnone] at hstep
    exact ⟨v, hv, hstep⟩

variable {sender : Activation} {suspended : List Activation} {waiting : List Waiting}

theorem Hands.outcome_of_on {l : RunLoop} {u : Use} {o : Outcome}
    (h : (own.on (.sender l u :: waiting)).Hands sender suspended waiting o w) :
    own.outcome? = some o := by
  obtain ⟨control, ws, v⟩ := own
  generalize hon : on _ _ = m at h
  cases h with
  | callee a o w =>
    have hlength := congrArg (·.waiting.length) hon
    simp only [on, List.length_append, List.length_cons] at hlength
    omega
  | call o w =>
    have hlength := congrArg (·.waiting.length) hon
    simp only [on, List.length_append, List.length_cons] at hlength
    obtain rfl := List.eq_nil_of_length_eq_zero (l := ws) (by omega)
    obtain rfl : control = .answer o := congrArg Machine.control hon
    rfl

theorem Suspends.call (hm : (own.on (.sender ⟨sender, suspended⟩ .push :: waiting)).Reached)
    (h : (own.on (.sender ⟨sender, suspended⟩ .push :: waiting)).Suspends sender suspended waiting left)
    {k : Nat} (hk : ∀ j < k, (own.after j).outcome? = none) :
    ((own.on (.sender ⟨sender, suspended⟩ .push :: waiting)).after k).Suspends
      sender suspended waiting left := by
  induction k with
  | zero => exact h
  | succ k ih =>
    have hbefore := fun j hj => hk j (Nat.lt_succ_of_lt hj)
    obtain ⟨o, w, hhands⟩ | hnext := (ih hbefore).step (hm.after k)
    · rw [after_on hbefore] at hhands
      have ho := hhands.outcome_of_on
      rw [hk k (Nat.lt_succ_self k)] at ho
      cases ho
    · rw [after_succ]
      exact hnext

theorem Suspends.call_resumed
    (hm : (own.on (.sender ⟨sender, suspended⟩ .push :: waiting)).Reached)
    (h : (own.on (.sender ⟨sender, suspended⟩ .push :: waiting)).Suspends sender suspended waiting left)
    {k : Nat} (hk : ∀ j < k, (own.after j).outcome? = none) {o : Outcome}
    (ho : (own.after k).outcome? = some o) :
    ((own.on (.sender ⟨sender, suspended⟩ .push :: waiting)).after (k + 1)).Resumed
      sender suspended waiting left o := by
  have hsuspends := Suspends.call hm h hk
  rw [after_succ]
  rw [after_on hk] at hsuspends ⊢
  generalize own.after k = n at ho hsuspends ⊢
  obtain ⟨control, ws, v⟩ := n
  cases control with
  | run | finish | call => cases ho
  | answer o' =>
    cases ws with
    | cons x ws => cases ho
    | nil =>
      cases ho
      exact hsuspends.resumed (.call o v)

/-- A failed send in the code that runs takes two steps to run the handler, and its sender resumes
with the outcome. -/
theorem Misses.runs_handler (h : m.Misses loop receiver selector) (hm : m.Reached)
    (hfinds : m.world.Finds)
    (hcached : m.world.Cached fun c selector _ => (m.world.method? c selector).isSome)
    (hhandled : m.world.Handled receiver r) (hr : (m.world.code r).argCount = 3)
    (hops : (loop.current.handle.frame m.world).operands = left ++ receiver :: args)
    (harity : args.length + 1 = selector.arity) :
    ∃ handle own,
      let sender := { loop.current with handle, offset := loop.current.offset + 2 }
      Handles m.world r receiver selector args own ∧
      m.Becomes 2 own (.sender ⟨sender, loop.suspended⟩ .push :: m.waiting) ∧
      ∀ k o, (∀ j < k, (own.after j).outcome? = none) → (own.after k).outcome? = some o →
        (m.after (2 + k + 1)).Resumed sender loop.suspended m.waiting left o := by
  obtain ⟨v, hv, hstep⟩ := h.step hm.held hfinds hcached hops harity
  have hreached := hm.after 2
  have hcontrol := h.running
  have hheld := hm.held
  obtain ⟨control, waiting, w⟩ := m
  cases hcontrol
  have hproper : (loop.current.handle.frame w).Proper :=
    (hheld loop.current List.mem_cons_self).proper
  obtain ⟨handle, u, hhandle, hleft, hcode, hu, hadvance⟩ := advance_fails (w := w)
    (hheld loop.current List.mem_cons_self) hfinds hv hstep hops harity
  obtain ⟨own, hown, hframes, hcall⟩ := call_handles hhandled hr hu selector
  have hhandler : w.method? (w.classOf receiver) w.handler = some (.compiled r) := hhandled.handler
  simp only [hhandler] at hadvance
  let sender : Activation := { loop.current with handle, offset := loop.current.offset + 2 }
  have hafter : after 2 ⟨.run loop, waiting, w⟩ =
      own.on (.sender ⟨sender, loop.suspended⟩ .push :: waiting) := by
    rw [← hcall]
    exact congrArg Machine.step (hadvance waiting)
  refine ⟨handle, own, hown, .of_after hafter, fun k o hk ho => ?_⟩
  rw [hafter] at hreached
  rw [Nat.add_assoc, after_add, hafter]
  refine Suspends.call_resumed hreached ?_ hk ho
  have habove : Above sender loop.suspended waiting
      (own.on (.sender ⟨sender, loop.suspended⟩ .push :: waiting)) := .call [] own rfl fun _ => rfl
  have hframe : handle.frame own.world = handle.frame u := handle.frame_congr hframes
  refine ⟨habove, fun _ => habove.apart hreached.descending, hhandle.congr hframes, ?_, ?_⟩
  · exact (congrArg Frame.operands hframe).trans hleft
  · -- Receiver and arguments had room, so there is room for the result.
    have hle := Frame.length_operands_le hproper
    rw [show (loop.current.handle.frame w).operands = _ from hops, List.length_append,
      List.length_cons] at hle
    change left.length < (handle.frame own.world).code.operandCapacity
    rw [hframe, hcode]
    exact Nat.lt_of_lt_of_le (Nat.lt_add_of_pos_right (Nat.succ_pos _)) hle

end Machine

/-- A message that nobody understands amounts to a call of the handler of its receiver, or fails. -/
theorem Action.dispatch_fails {w : World} (h : w.Finds) {receiver : Value} {selector : Symbol}
    (hnone : w.method? (w.classOf receiver) selector = none) (args : List Value) :
    ∃ u, w.Reifies args u ∧ dispatch receiver selector args w =
      match w.method? (w.classOf receiver) w.handler with
      | some m => .ok ⟨m, [receiver, .symbol selector, .array w.arrays.next]⟩ u
      | none => .error (.messageNotUnderstood receiver (.symbol selector)) u := by
  obtain ⟨v, hv, hlookup⟩ := lookup_finds h (w.classOf receiver) selector
  obtain ⟨u, hu, hcall⟩ := doesNotUnderstand_apply (hv.finds h) receiver selector args
  rw [hv.method?, hv.classOf, hv.handler, hv.arrays] at hcall
  have hreifies := hv.reifies rfl hu
  rw [show w.frames = u.frames by rw [hu.frames, hv.frames]] at hreifies
  refine ⟨u, hreifies, ?_⟩
  rw [hnone] at hlookup
  cases hm : w.method? (w.classOf receiver) w.handler with
  | some m | none => simp only [dispatch, bind_apply, get_apply, hlookup, hcall, hm]

namespace Machine

variable {w : World} {r : CodeRef} {receiver : Value} {selector : Symbol} {args : List Value}

theorem dispatch_runs_handler (h : w.Finds) (hhandled : w.Handled receiver r)
    (hr : (w.code r).argCount = 3) (hnone : w.method? (w.classOf receiver) selector = none)
    (args : List Value) :
    ∃ own, Handles w r receiver selector args own ∧ Machine.dispatch receiver selector args w = own := by
  obtain ⟨u, hu, hdispatch⟩ := Action.dispatch_fails h hnone args
  simp only [hhandled.handler] at hdispatch
  obtain ⟨own, hown, -, hcall⟩ := call_handles hhandled hr hu.keeps_frames selector
  refine ⟨own, hown, ?_⟩
  rw [Machine.dispatch, hdispatch]
  refine (hcall []).trans ?_
  rw [on, List.append_nil]

theorem step_perform {m : Machine} {p : PrimitiveRef} {form : PerformForm} {rest : List Value}
    (hcontrol : m.control = .call ⟨.primitive p, receiver :: .symbol selector :: rest⟩)
    (hform : (m.world.primitives.get p).operation = .perform form)
    (hargs : form.arguments m.world (.symbol selector :: rest) = .ok args)
    (harity : args.length + 1 = selector.arity) :
    m.step = match Action.dispatch receiver selector args m.world with
      | .ok c v => ⟨.call c, m.waiting, v⟩
      | .error f v => ⟨.fault f, m.waiting, v⟩ := by
  obtain ⟨control, waiting, w⟩ := m
  cases hcontrol
  have hselector : Argument.any form.selector (.symbol selector :: rest) 0 = .ok (.symbol selector) := rfl
  have hsend : form.send receiver (.symbol selector :: rest) w =
      Action.dispatch receiver selector args w := by
    simp only [PerformForm.send, Action.bind_apply, Action.get_apply, hselector, Action.lift_ok, hargs,
      if_pos harity.symm]
  simp only [Machine.step, call, hform, operate, Operation.start, Action.bind_apply, hsend]
  cases Action.dispatch receiver selector args w <;> rfl

/-- A reflective send that fails takes two steps to run the handler, for those who wait for it. -/
theorem perform_runs_handler {m : Machine} (h : m.world.Finds) (hhandled : m.world.Handled receiver r)
    (hr : (m.world.code r).argCount = 3)
    (hnone : m.world.method? (m.world.classOf receiver) selector = none)
    (harity : args.length + 1 = selector.arity) {p : PrimitiveRef} {form : PerformForm}
    {rest : List Value}
    (hcontrol : m.control = .call ⟨.primitive p, receiver :: .symbol selector :: rest⟩)
    (hform : (m.world.primitives.get p).operation = .perform form)
    (hargs : form.arguments m.world (.symbol selector :: rest) = .ok args) :
    ∃ own, Handles m.world r receiver selector args own ∧ m.Becomes 2 own m.waiting := by
  obtain ⟨control, waiting, w⟩ := m
  cases hcontrol
  obtain ⟨u, hu, hdispatch⟩ := Action.dispatch_fails h hnone args
  simp only [hhandled.handler] at hdispatch
  obtain ⟨own, hown, -, hcall⟩ := call_handles hhandled hr hu.keeps_frames selector
  refine ⟨own, hown, .of_after ?_⟩
  rw [← hcall]
  have hstep : Machine.step ⟨.call ⟨.primitive p, receiver :: .symbol selector :: rest⟩, waiting, w⟩ =
      ⟨.call ⟨.compiled r, [receiver, .symbol selector, .array w.arrays.next]⟩, waiting, u⟩ :=
    (step_perform rfl hform hargs harity).trans (by rw [hdispatch])
  exact congrArg step hstep

end Machine

theorem World.Logged.handler_argCount {w : World} {H : History} (h : w.Logged H) {c : ClassRef}
    {r : CodeRef} (hr : w.method? c w.handler = some (.compiled r)) : (w.code r).argCount = 3 := by
  have hsignature : (w.code r).signature = w.handler := (h.found hr).2.1
  have hname : w.handler.name = "doesNotUnderstand:arguments:" := SymbolTable.name_intern _ _
  rw [Code.argCount, hsignature, Symbol.arity, hname]
  decide

theorem World.Logged.intern {w : World} {H : History} (h : w.Logged H) (name : String) :
    (w.intern name).2.Logged H := ((Assembles.intern w name).prepares h.tidy.memos).logged h

/-- All failed sends are alike. Whatever a host does, whatever runs, and whether the message comes from
a send or a super send in code, from a reflective send, or from the host: if its receiver has a compiled
handler and there is room, the handler runs once, with the receiver, the selector and a new array of
the arguments, no inline cache changes, and the outcome of the handler is that of the send. A sender
in code goes on with the result in the place of receiver and arguments. -/
theorem failed_send_runs_handler {config : Config} {journal : Journal} {w₀ : World}
    (hboot : World.boot config journal = .ok w₀) {H : History} {m : Machine}
    (h : Chronicle (fun _ _ => True) w₀ H m) {receiver : Value} {selector : Symbol}
    {args : List Value} (harity : args.length + 1 = selector.arity) (r : CodeRef) :
    (m.world.Handled receiver r → ∀ (loop : RunLoop) (left : List Value),
      m.Misses loop receiver selector →
      (loop.current.handle.frame m.world).operands = left ++ receiver :: args →
      ∃ handle own,
        let sender := { loop.current with handle, offset := loop.current.offset + 2 }
        Machine.Handles m.world r receiver selector args own ∧
        m.Becomes 2 own (.sender ⟨sender, loop.suspended⟩ .push :: m.waiting) ∧
        ∀ k o, (∀ j < k, (own.after j).outcome? = none) → (own.after k).outcome? = some o →
          (m.after (2 + k + 1)).Resumed sender loop.suspended m.waiting left o) ∧
    (m.world.Handled receiver r → m.world.method? (m.world.classOf receiver) selector = none →
      (∀ p form rest, m.control = .call ⟨.primitive p, receiver :: .symbol selector :: rest⟩ →
        (m.world.primitives.get p).operation = .perform form →
        form.arguments m.world (.symbol selector :: rest) = .ok args →
        ∃ own, Machine.Handles m.world r receiver selector args own ∧ m.Becomes 2 own m.waiting) ∧
      ∃ own, Machine.Handles m.world r receiver selector args own ∧
        Machine.dispatch receiver selector args m.world = own) ∧
    ∀ name w, m.world.intern name = (selector, w) → w.Handled receiver r →
      w.method? (w.classOf receiver) selector = none →
      ∃ own, Machine.Handles w r receiver selector args own ∧
        (HostCall.send receiver name args).machine m.world = own := by
  have hlogged := h.logged (World.boot_logged hboot)
  have hcached := h.cached_isSome (World.boot_logged hboot) (World.boot_ranked hboot).2.2
  refine ⟨fun hhandled loop left hmisses hops => ?_, fun hhandled hnone => ⟨?_, ?_⟩, ?_⟩
  · have hreached : m.Reached := by
      obtain hm | ⟨o, ho⟩ := h.reached
      · exact hm
      · rw [Machine.outcome?, hmisses.running] at ho
        cases ho
    exact hmisses.runs_handler hreached hlogged.finds hcached hhandled
      (hlogged.handler_argCount hhandled.handler) hops harity
  · intro p form rest hcontrol hform hargs
    exact Machine.perform_runs_handler hlogged.finds hhandled
      (hlogged.handler_argCount hhandled.handler) hnone harity hcontrol hform hargs
  · exact Machine.dispatch_runs_handler hlogged.finds hhandled
      (hlogged.handler_argCount hhandled.handler) hnone args
  · intro name w hintern hhandled hnone
    have hw : w.Logged (H ++ CoreLibrary.history config journal) := by
      have := hlogged.intern name
      rwa [hintern] at this
    obtain ⟨own, hown, hdispatch⟩ := Machine.dispatch_runs_handler hw.finds hhandled
      (hw.handler_argCount hhandled.handler) hnone args
    refine ⟨own, hown, ?_⟩
    simp only [HostCall.machine, hintern, if_pos harity, hdispatch]

namespace World

/-- A class whose instances answer the arguments of what they do not understand, and with a method that
sends them such a message. -/
def answering : List Alteration :=
  [.define "Proxy" CoreClass.object.ref [],
   .source ⟨38⟩ (.method "doesNotUnderstand:arguments:" [.pushSlot .arguments 2 0, .returnLocal]),
   .source ⟨38⟩ (.method "ask"
    [.pushSlot .arguments 0 0, .pushConstant .nil, .send "foo:", .returnLocal])]

end World

/-- An instance was asked, and the message that it does not understand is about to be sent. -/
def Machine.asking : Machine :=
  let (proxy, w) := (World.standard.alterAll World.answering).newInstance ⟨38⟩
  ((Request.host (.send proxy "ask" [])).machine w).after 2

set_option maxRecDepth 100000 in
theorem failed_send_runs_handler_asking :
    ∃ (H : History) (loop : RunLoop) (selector : Symbol),
      World.boot .standard .off = .ok World.standard ∧
      Chronicle (fun _ _ => True) World.standard H .asking ∧
      [Value.nil].length + 1 = selector.arity ∧ Machine.asking.world.Handled (.object ⟨1⟩) ⟨20⟩ ∧
      Machine.asking.Misses loop (.object ⟨1⟩) selector ∧
      (loop.current.handle.frame Machine.asking.world).operands = [.object ⟨1⟩, .nil] ∧
      (∃ handle own,
        let sender := { loop.current with handle, offset := loop.current.offset + 2 }
        Machine.Handles Machine.asking.world ⟨20⟩ (.object ⟨1⟩) selector [.nil] own ∧
        Machine.asking.Becomes 2 own (.sender ⟨sender, loop.suspended⟩ .push :: Machine.asking.waiting)) ∧
      ∃ own, Machine.Handles Machine.asking.world ⟨20⟩ (.object ⟨1⟩) selector [.nil] own ∧
        Machine.dispatch (.object ⟨1⟩) selector [.nil] Machine.asking.world = own := by
  have hevaluated : World.standard.Allows World.answering ∧
      (Machine.asking.next?.any fun next =>
        decide (next.2 = .send 1) && decide ((next.1.current.handle.frame Machine.asking.world).operands =
          [.object ⟨1⟩, .nil]) &&
        (Machine.asking.world.symbolLiteral next.1.current.method 1).toOption.any fun selector =>
          decide (Machine.asking.world.method? (Machine.asking.world.classOf (.object ⟨1⟩)) selector = none) &&
          decide (selector.arity = 2)) = true ∧
      Machine.asking.world.method? (Machine.asking.world.classOf (.object ⟨1⟩)) Machine.asking.world.handler =
        some (.compiled ⟨20⟩) ∧
      Machine.asking.world.depth < Machine.asking.world.config.maxCallDepth ∧
      Machine.asking.world.reentry < Machine.asking.world.config.maxReentryDepth := by
    decide +kernel
  obtain ⟨hallows, hruns, hhandler, hdepth, hreentry⟩ := hevaluated
  have hhandled : Machine.asking.world.Handled (.object ⟨1⟩) ⟨20⟩ := ⟨hhandler, hdepth, hreentry⟩
  have hchronicle : Chronicle (fun _ _ => True) World.standard _ .asking :=
    (((Chronicle.all .boot hallows fun _ _ _ => trivial).newInstance ⟨38⟩).request _).after 2
  simp only [Option.any_eq_true, Bool.and_eq_true, decide_eq_true_eq] at hruns
  obtain ⟨⟨loop, i⟩, hnext, ⟨hi, hops⟩, selector, hselector, hnone, harity⟩ := hruns
  subst hi
  have hmisses : Machine.asking.Misses loop (.object ⟨1⟩) selector :=
    .send hnext (eq_ok_of_toOption hselector) hnone
  obtain ⟨hsends, hothers, -⟩ := @failed_send_runs_handler _ _ _ World.boot_standard _ _ hchronicle
    (.object ⟨1⟩) selector [.nil] harity.symm ⟨20⟩
  obtain ⟨handle, own, hown, hbecomes, -⟩ := hsends hhandled loop [] hmisses hops
  exact ⟨_, loop, selector, World.boot_standard, hchronicle, harity.symm, hhandled, hmisses, hops,
    ⟨handle, own, hown, hbecomes⟩, (hothers hhandled hnone).2⟩

end MessageMachine
