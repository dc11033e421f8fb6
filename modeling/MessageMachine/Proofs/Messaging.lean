import MessageMachine.Proofs.Sending
import MessageMachine.Proofs.Sparing

namespace MessageMachine

namespace World

variable {w w' w'' : World}

namespace EqualUpToTraces

theorem trans (h : w.EqualUpToTraces w') (h' : w'.EqualUpToTraces w'') : w.EqualUpToTraces w'' := by
  unfold EqualUpToTraces
  rw [h', h]

theorem frames (h : w.EqualUpToTraces w') : w'.frames = w.frames := (congrArg World.frames h :)

end EqualUpToTraces

theorem Unseen.equalUpToTraces (h : w.Unseen w') : w.EqualUpToTraces w' := by
  unfold EqualUpToTraces
  rw [h.same]

end World

namespace Action

variable {w : World} {method : CodeRef} {offset : Nat} {c : ClassRef} {selector : Symbol}

theorem offer_apply (w : World) (method : CodeRef) (offset : Nat) (c : ClassRef) (m : Method) :
    ∃ w', w.EqualUpToTraces w' ∧ offer method offset c m w = .ok (some m) w' := by
  have noted (v : World) (e : Event) (hv : w.EqualUpToTraces v) : w.EqualUpToTraces (v.note e) := by
    obtain ⟨journal, hnote⟩ := v.note_eq e
    rw [hnote]
    exact hv.trans rfl
  simp only [offer, bind_apply, get_apply]
  split
  all_goals
    refine ⟨_, noted _ _ ?_, rfl⟩
    rfl

theorem resolve_finds (h : w.Finds)
    (hsite : ∀ x, (w.cacheAt method offset).find? c = some x → w.method? c selector = some x) :
    ∃ w', w.EqualUpToTraces w' ∧
      resolve method offset c selector w = .ok (w.method? c selector) w' := by
  cases hfind : (w.cacheAt method offset).find? c with
  | some x =>
    rw [resolve_hit hfind, hsite x hfind]
    exact ⟨hit w, (rfl : w.EqualUpToTraces (hit w)), rfl⟩
  | none =>
    have hv : (missed w).Finds := World.Lasting.count h _
    obtain ⟨memos, heq, -⟩ := World.lookup_eq hv.ordered hv.memos c selector
    rw [World.method?_congr (w := w) (v := missed w) rfl] at heq
    rw [resolve_of_miss hfind, heq]
    have hsame : w.EqualUpToTraces { missed w with memos } := rfl
    cases w.method? c selector with
    | none => exact ⟨_, hsame, rfl⟩
    | some x =>
      obtain ⟨w', hw', hoffer⟩ := offer_apply { missed w with memos } method offset c x
      exact ⟨w', hsame.trans hw', hoffer⟩

end Action

theorem Activation.step_send_finds {a : Activation} {w : World} {l : UInt8} {selector : Symbol}
    {receiver : Value} (h : w.Finds) (hfetch : a.fetch w = .ok (.send l))
    (hselector : w.symbolLiteral a.method l.toNat = .ok selector)
    (hreceiver : (a.handle.frame w).peek (selector.arity - 1) = .ok receiver)
    (hsite : ∀ x, (w.cacheAt a.method a.offset).find? (w.classOf receiver) = some x →
      w.method? (w.classOf receiver) selector = some x) :
    ∃ w', w.EqualUpToTraces w' ∧ a.step w =
      enter { a with offset := a.offset + 2 } (w.method? (w.classOf receiver) selector) selector w' := by
  obtain ⟨journal, hstep⟩ := step_resolves hfetch hselector hreceiver
  have hv : World.Finds { w with journal } :=
    ⟨h.ordered.congr rfl, World.MemosValid.congr (w := w) rfl rfl h.memos⟩
  have hmethod := World.method?_congr (w := w) (v := { w with journal }) rfl (w.classOf receiver) selector
  obtain ⟨w', hw', hresolve⟩ := Action.resolve_finds (w := { w with journal }) hv
    fun x hx => hmethod.trans (hsite x hx)
  rw [hmethod] at hresolve
  refine ⟨w', World.EqualUpToTraces.trans (rfl : w.EqualUpToTraces { w with journal }) hw', ?_⟩
  rw [hstep, Action.bind_apply, hresolve]

/-- The method that was found for a message runs this body, over this captured frame: it is compiled, or
evaluates the receiver. -/
inductive World.Runs (w : World) (receiver : Value) : Method → CodeRef → Option FrameRef → Prop where
  | compiled (r : CodeRef) : Runs w receiver (.compiled r) r none
  | block {p : PrimitiveRef} {b : Block} (hblock : receiver = .block b)
      (hevaluates : (w.primitives.get p).evaluatesBlock)
      (hop : (w.primitives.get p).operation = .evaluate) :
      Runs w receiver (.primitive p) b.code (some b.context)

/-- An activation of this body was just started, over this captured frame and with these arguments.
Apart from that nothing that a program can see has changed. -/
structure World.Activates (w : World) (r : CodeRef) (args : List Value) (outer : Option FrameRef)
    (callee : Activation) (w' : World) : Prop where
  starts : ∃ u, w.EqualUpToTraces u ∧ Activation.start r args outer u = .ok callee w'
  arity : args.length = (w.code r).argCount
  frame : ∃ f : Frame, callee = ⟨.own f, r, w.markers.next, 0⟩ ∧ f.Proper ∧ f.code = w.code r ∧
    f.outer = outer ∧ f.operands = [] ∧
    f.bindings = args ++ List.replicate (w.code r).localCount .nil
  world : w.EqualUpToTraces { w' with markers := w.markers, depth := w.depth }
  markers : w'.markers = w.markers.push true
  depth : w'.depth = w.depth + 1

theorem World.Activates.of_start {w u w' : World} {r : CodeRef} {args : List Value}
    {outer : Option FrameRef} {callee : Activation} (hu : w.EqualUpToTraces u)
    (hstart : Activation.start r args outer u = .ok callee w') :
    w.Activates r args outer callee w' := by
  obtain ⟨-, hworld, f, hf, rfl⟩ := (Activation.start_creates r args outer u).of_ok hstart
  have hmarkers : u.markers = w.markers := (congrArg World.markers hu :)
  have hdepth : u.depth = w.depth := (congrArg World.depth hu :)
  have hcode : u.code r = w.code r := (congrArg (World.code · r) hu :)
  obtain ⟨hlen, hproper, hops, -, hc, -, houter, hbindings⟩ := Frame.create_eq_ok hf
  refine ⟨⟨u, hu, hstart⟩, hlen.trans (by rw [hcode]), ⟨f, ?_, hproper, hc.trans hcode, houter, hops, ?_⟩, ?_, ?_, ?_⟩
  · rw [hmarkers]
  · rw [hbindings, hcode]
  · refine hu.trans ?_
    unfold EqualUpToTraces
    rw [hworld, hmarkers, hdepth]
  · rw [hworld, hmarkers]
  · rw [hworld, hdepth]

namespace Footing

/-- Those who wait for a call that is made on the footing. -/
def awaiting : Footing → List Waiting
  | call waiting => waiting
  | send sender suspended waiting => .sender ⟨sender, suspended⟩ .push :: waiting

/-- The activations that wait in the loop of one that runs on the footing. -/
def below : Footing → List Activation
  | call _ => []
  | send sender suspended _ => sender :: suspended

/-- Those who wait for the loop of one that runs on the footing. -/
def waiting : Footing → List Waiting
  | call waiting => waiting
  | send _ _ waiting => waiting

/-- Whoever is called from outside any loop opens one. -/
def opened (b : Footing) (w : World) : World :=
  match b with
  | call _ => { w with reentry := w.reentry + 1 }
  | send _ _ _ => w

/-- An activation that was just started is about to run on the footing. -/
def start (b : Footing) (a : Activation) (w : World) : Machine :=
  ⟨.run ⟨a, b.below⟩, b.waiting, b.opened w⟩

/-- An activation can be started on the footing. -/
def HasRoom (b : Footing) (w : World) : Prop :=
  w.depth < w.config.maxCallDepth ∧
    match b with
    | call _ => w.reentry < w.config.maxReentryDepth
    | send _ _ _ => True

def Receives (b : Footing) (w : World) (o : Outcome) (m : Machine) : Prop :=
  match b with
  | call waiting => m = ⟨.answer o, waiting, w⟩
  | send sender suspended waiting => m.Resumes sender suspended waiting w o

theorem receives_resume (b : Footing) (o : Outcome) (w : World) : b.Receives w o (b.resume o w) := by
  cases b with
  | call waiting => rfl
  | send sender suspended waiting => exact Machine.resumes_handOver o

theorem answer_receives (b : Footing) (o : Outcome) (w : World) :
    ∃ j ≤ 1, b.Receives w o (Machine.after j ⟨.answer o, b.awaiting, w⟩) := by
  cases b with
  | call waiting => exact ⟨0, Nat.zero_le 1, rfl⟩
  | send sender suspended waiting =>
    refine ⟨1, Nat.le_refl 1, ?_⟩
    change Machine.Resumes sender suspended waiting w o
      (Machine.answer o (.sender ⟨sender, suspended⟩ .push :: waiting) w)
    rw [Machine.answer_handOver]
    exact Machine.resumes_handOver o

end Footing

/-- A message is about to be sent: by the code that runs, which takes receiver and arguments off its
stack and leaves this world, or by a reflective send. Its method starts on this footing, after so many
steps. -/
inductive Machine.Asks (m : Machine) (receiver : Value) (selector : Symbol) (args : List Value) :
    World → Footing → Nat → Prop where
  | send {loop : RunLoop} {l : UInt8} {handle : FrameHandle} {w : World}
      (hnext : m.next? = some (loop, .send l))
      (hselector : m.world.symbolLiteral loop.current.method l.toNat = .ok selector)
      (hpop : loop.current.handle.popN selector.arity m.world = .ok (receiver :: args, handle) w) :
      Asks m receiver selector args w (.send { loop.current with
        handle, offset := loop.current.offset + 2 } loop.suspended m.waiting) 1
  | perform {p : PrimitiveRef} {form : PerformForm} {rest : List Value}
      (hcontrol : m.control = .call ⟨.primitive p, receiver :: .symbol selector :: rest⟩)
      (hform : (m.world.primitives.get p).operation = .perform form)
      (harguments : form.arguments m.world (.symbol selector :: rest) = .ok args) :
      Asks m receiver selector args m.world (.call m.waiting) 2

theorem World.Runs.congr {w w' : World} {receiver : Value} {x : Method} {r : CodeRef}
    {outer : Option FrameRef} (h : w.Runs receiver x r outer) (hprimitives : w'.primitives = w.primitives) :
    w'.Runs receiver x r outer := by
  cases h with
  | compiled => exact .compiled r
  | block hblock hevaluates hop =>
    exact .block hblock (by rwa [hprimitives]) (by rwa [hprimitives])

theorem FrameHandle.popN_of_frames {a handle : FrameHandle} {n : Nat} {xs : List Value} {w u v : World}
    (h : a.popN n w = .ok (xs, handle) u) (hframes : v.frames = w.frames) :
    a.popN n v = .ok (xs, handle) { v with frames := u.frames } := by
  rw [popN, take_apply] at h ⊢
  rw [a.frame_congr hframes]
  cases hpop : (a.frame w).popN n with
  | error f =>
    rw [hpop] at h
    cases h
  | ok p =>
    rw [hpop] at h
    cases h
    cases a with
    | own f =>
      change _ = EStateM.Result.ok _ { v with frames := w.frames }
      rw [← hframes]
      rfl
    | shared r =>
      change _ = EStateM.Result.ok _ { v with frames := w.frames.set r _ }
      rw [← hframes]
      rfl

section

variable {w w' : World} {receiver : Value} {selector : Symbol} {args : List Value} {x : Method}
  {r : CodeRef} {outer : Option FrameRef} {callee : Activation}

theorem Activation.enter_runs {a : Activation} {handle : FrameHandle} {v : World}
    (hx : v.Runs receiver x r outer)
    (hpop : a.handle.popN selector.arity w = .ok (receiver :: args, handle) v)
    (hstart : start r (receiver :: args) outer v = .ok callee w') :
    a.enter (some x) selector w = .ok (.activate { a with handle } callee) w' := by
  cases hx with
  | compiled =>
    simp only [enter, Action.bind_apply, hpop, hstart]
    rfl
  | block hblock hevaluates =>
    subst hblock
    simp only [enter, Action.bind_apply, hpop, Action.get_apply, hevaluates, List.head?_cons, hstart]
    rfl

namespace Machine

theorem call_runs (hx : w.Runs receiver x r outer)
    (hstart : Activation.start r (receiver :: args) outer w = .ok callee w')
    (hroom : w.reentry < w.config.maxReentryDepth) (waiting : List Waiting) :
    Machine.call ⟨x, receiver :: args⟩ waiting w = (Footing.call waiting).start callee w' := by
  have hloop : ¬w.config.maxReentryDepth ≤ w.reentry := Nat.not_le.mpr hroom
  have hexecute : execute r (receiver :: args) outer waiting w =
      (Footing.call waiting).start callee w' := by
    simp only [execute, RunLoop.start, Action.bind_apply, Action.get_apply, if_neg hloop, hstart]
    rfl
  cases hx with
  | compiled => exact hexecute
  | block hblock hevaluates hop =>
    subst hblock
    rw [← hexecute]
    simp only [call, operate, hop]
    rfl

variable {m : Machine} {u : World} {b : Footing} {n : Nat}

theorem Asks.same (h : m.Asks receiver selector args u b n) : u = { m.world with frames := u.frames } := by
  cases h with
  | send _ _ hpop => exact (FrameHandle.popN_eq_ok hpop).2
  | perform => rfl

theorem Asks.frames_size (h : m.Asks receiver selector args u b n) :
    u.frames.size = m.world.frames.size := by
  cases h with
  | @send loop l handle _ _ _ hpop =>
    obtain ⟨⟨f, hf⟩, -⟩ := FrameHandle.popN_eq_ok hpop
    rw [FrameHandle.popN, FrameHandle.take_apply, hf] at hpop
    cases hpop
    cases loop.current.handle with
    | own => rfl
    | shared r => exact Arena.size_set _ _ _
  | perform => rfl

theorem Asks.activates (h : m.Asks receiver selector args u b n) (hfinds : m.world.Finds)
    (hcached : m.world.Cached fun c s y => c = m.world.classOf receiver → s = selector → some x = some y)
    (hx : m.world.method? (m.world.classOf receiver) selector = some x)
    (hruns : m.world.Runs receiver x r outer) (hargs : (receiver :: args).length = (m.world.code r).argCount)
    (harity : args.length + 1 = selector.arity) (hroom : b.HasRoom m.world) :
    ∃ callee w', u.Activates r (receiver :: args) outer callee w' ∧ m.after n = b.start callee w' := by
  obtain ⟨control, waiting, w⟩ := m
  cases h with
  | @send loop l handle _ hnext hselector hpop =>
    obtain ⟨hcontrol, hfetch⟩ := next?_eq_some.mp hnext
    cases hcontrol
    obtain ⟨⟨f, hf⟩, hu⟩ := FrameHandle.popN_eq_ok hpop
    have hat : w.selectorAt? loop.current.method loop.current.offset = some selector := by
      simp only [World.selectorAt?, Activation.fetch_eq_ok hfetch]
      exact congrArg Except.toOption hselector
    obtain ⟨v, hv, hstep⟩ := Activation.step_send_finds hfinds hfetch hselector (Frame.peek_of_popN hf)
      fun y hy => hx.trans (hcached.find? hat hy rfl rfl)
    let v' : World := { v with frames := u.frames }
    have hv' : u.EqualUpToTraces v' := by
      rw [hu]
      exact (congrArg (fun x : World => { x with frames := u.frames }) hv :)
    have hdepth : v'.depth < v'.config.maxCallDepth := by
      rw [show v'.depth = w.depth from (congrArg World.depth hv :),
        show v'.config = w.config from (congrArg World.config hv :)]
      exact hroom.1
    have hcode : v'.code r = w.code r := (congrArg (World.code · r) hv :)
    obtain ⟨callee, w', hstart⟩ := Activation.start_of_room hdepth (hargs.trans (by rw [hcode])) outer
    refine ⟨callee, w', .of_start hv' hstart, ?_⟩
    have hruns' : v'.Runs receiver x r outer := hruns.congr (congrArg World.primitives hv :)
    have henter := Activation.enter_runs (a := { loop.current with offset := loop.current.offset + 2 })
      hruns' (FrameHandle.popN_of_frames hpop hv.frames) hstart
    change advance loop waiting w = _
    rw [hx] at hstep
    simp only [advance, hstep, henter]
    rfl
  | @perform p form rest hcontrol hform harguments =>
    obtain ⟨v, hv, hlookup⟩ := Action.lookup_finds hfinds (w.classOf receiver) selector
    rw [hx] at hlookup
    have hdispatch : Action.dispatch receiver selector args w = .ok ⟨x, receiver :: args⟩ v := by
      simp only [Action.dispatch, Action.bind_apply, Action.get_apply, hlookup, Action.pure_apply]
    have hstep := step_perform hcontrol hform harguments harity
    simp only [hdispatch] at hstep
    have hsame := hv.equalUpToTraces
    have hconfig : v.config = w.config := (congrArg World.config hsame :)
    have hdepth : v.depth < v.config.maxCallDepth := by
      rw [hconfig, show v.depth = w.depth from (congrArg World.depth hsame :)]
      exact hroom.1
    have hreentry : v.reentry < v.config.maxReentryDepth := by
      rw [hconfig, show v.reentry = w.reentry from (congrArg World.reentry hsame :)]
      exact hroom.2
    have hcode : v.code r = w.code r := (congrArg (World.code · r) hsame :)
    obtain ⟨callee, w', hstart⟩ := Activation.start_of_room hdepth (hargs.trans (by rw [hcode])) outer
    refine ⟨callee, w', .of_start hsame hstart, ?_⟩
    change Machine.step (Machine.step _) = _
    rw [hstep]
    exact call_runs (hruns.congr (congrArg World.primitives hsame :)) hstart hreentry waiting

/-- Without a method, the handler of failed sends is called on the same footing, or what is below gets
the failure. -/
theorem Asks.reified (h : m.Asks receiver selector args u b n) (hfinds : m.world.Finds)
    (hcached : m.world.Cached fun c s _ => (m.world.method? c s).isSome)
    (hnone : m.world.method? (m.world.classOf receiver) selector = none)
    (harity : args.length + 1 = selector.arity) :
    ∃ w', u.Reifies args w' ∧
      match m.world.method? (m.world.classOf receiver) m.world.handler with
      | some x => m.step =
          ⟨.call ⟨x, [receiver, .symbol selector, .array m.world.arrays.next]⟩, b.awaiting, w'⟩
      | none =>
          b.Receives w' (.error (.fault (.messageNotUnderstood receiver (.symbol selector)))) m.step := by
  obtain ⟨control, waiting, w⟩ := m
  cases h with
  | @send loop l handle _ hnext hselector hpop =>
    obtain ⟨hcontrol, hfetch⟩ := next?_eq_some.mp hnext
    cases hcontrol
    obtain ⟨⟨f, hf⟩, hu⟩ := FrameHandle.popN_eq_ok hpop
    have hat : w.selectorAt? loop.current.method loop.current.offset = some selector := by
      simp only [World.selectorAt?, Activation.fetch_eq_ok hfetch]
      exact congrArg Except.toOption hselector
    have hsite : (w.cacheAt loop.current.method loop.current.offset).find? (w.classOf receiver) = none := by
      rw [Option.eq_none_iff_forall_ne_some]
      intro x hx
      have hsome := hcached.find? hat hx
      rw [hnone] at hsome
      cases hsome
    obtain ⟨v, hv, hstep⟩ :=
      Activation.step_send_fails hfinds hfetch hselector (Frame.peek_of_popN hf) hsite hnone
    have hpop' := FrameHandle.popN_of_frames hpop hv.frames
    obtain ⟨w', hw', henter⟩ := Activation.enter_fails
      (a := { loop.current with offset := loop.current.offset + 2 }) (hv.finds hfinds) hpop' rfl
    rw [hv.method?, hv.classOf, hv.handler, hv.arrays] at henter
    have hreifies : u.Reifies args w' := by
      unfold World.Reifies
      rw [hw', hu, hv.same]
      rfl
    refine ⟨w', hreifies, ?_⟩
    change match w.method? (w.classOf receiver) w.handler with
      | some x => advance loop waiting w = _
      | none => Footing.Receives _ _ _ (advance loop waiting w)
    simp only [advance, hstep, henter]
    cases w.method? (w.classOf receiver) w.handler with
    | some x => rfl
    | none => exact .abrupt _ rfl rfl
  | @perform p form rest hcontrol hform harguments =>
    obtain ⟨u, hu, hdispatch⟩ := Action.dispatch_fails hfinds hnone args
    refine ⟨u, hu, ?_⟩
    rw [step_perform hcontrol hform harguments harity, hdispatch]
    change match w.method? (w.classOf receiver) w.handler with
      | some x => _
      | none => _
    cases w.method? (w.classOf receiver) w.handler <;> rfl

end Machine

end

end MessageMachine
