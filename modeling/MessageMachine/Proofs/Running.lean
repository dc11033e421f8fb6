import MessageMachine.Proofs.Stack

namespace MessageMachine

/-- Which faults may end a run, and how many operands an activation has at the offsets of a body. -/
structure Contract (D : Discipline) where
  faults : Fault → Prop
  counts : World → CodeRef → Nat → Nat → Prop
  program : ∀ f, f.isProgramFault → faults f
  guards : D.guarded ∨ ∀ f, faults f
  mono : ∀ {w w' r offset n}, w.Extends w' → r.index < w.codes.size → counts w r offset n →
    counts w' r offset n
  start : ∀ {w r}, ((w.code r).isBlock = false → D.root w r) →
    ((w.code r).isBlock → ∃ b, D.fits w b ∧ b.code = r) → counts w r 0 0
  room : (∀ f, f.Raised → faults f) ∨
    ∀ {w r offset n}, counts w r offset n → n ≤ (w.code r).operandCapacity

variable {D : Discipline} {C : Contract D} {held : List Grant} {w w' : World} {a b callee : Activation}

namespace Activation

def Counts (C : Contract D) (a : Activation) (w : World) : Prop :=
  C.counts w a.method a.offset (a.handle.frame w).operands.length

/-- An activation that goes on once it is given one more operand. -/
def Due (C : Contract D) (a : Activation) (w : World) : Prop :=
  C.counts w a.method a.offset ((a.handle.frame w).operands.length + 1)

theorem Due.mono (h : a.Due C w) (hp : a.handle.Placed D a.marker a.method w)
    (he : w.Extends w') (ho : (a.handle.frame w').operands = (a.handle.frame w).operands) :
    a.Due C w' := by
  unfold Due
  rw [ho]
  refine C.mono he ?_ h
  rw [← hp.method]
  exact hp.sound.method_lt

/-- An activation that can take one more operand. -/
def HasRoom (a : Activation) (w : World) : Prop :=
  (a.handle.frame w).operands.length < (w.code a.method).operandCapacity

theorem HasRoom.mono (h : a.HasRoom w) (hp : a.handle.Placed D a.marker a.method w)
    (he : w.Extends w') (ho : (a.handle.frame w').operands = (a.handle.frame w).operands) :
    a.HasRoom w' := by
  have hlt : a.method.index < w.codes.size := by
    rw [← hp.method]
    exact hp.sound.method_lt
  unfold HasRoom
  rw [ho, he.code a.method hlt]
  exact h

/-- The next instruction is ready, and leaves the operands that are due after it. -/
structure Keeps (C : Contract D) (a : Activation) (w : World) : Prop where
  fetches : (∀ f, f.Raised → C.faults f) ∨ ∃ i, a.fetch w = .ok i
  ready : ∀ i, a.fetch w = .ok i → (∀ f, f.Raised → C.faults f) ∨ a.Ready w i
  spares : D.guarded → ∀ i, a.fetch w = .ok i → a.Spares w i
  nests : ∀ i, a.fetch w = .ok i → a.Nests D w i
  counts : ∀ i, a.fetch w = .ok i → i.ends = false →
    a.takes w i ≤ (a.handle.frame w).operands.length →
    C.counts w a.method (a.offset + i.length)
      ((a.handle.frame w).operands.length - a.takes w i + i.gives)

end Activation

/-- Activations that are suspended below others in the loops of those who wait, innermost first. -/
def Waiting.suspended : Waiting → List Activation
  | sender loop _ => loop.suspended
  | iteration _ => []

/-- Activations that will be given a value by those who wait, innermost first. -/
def Waiting.due : Waiting → List Activation
  | sender loop .push => loop.current :: loop.suspended
  | sender loop .complete => loop.suspended
  | iteration _ => []

theorem Waiting.mem_of_suspended {x : Waiting} (h : a ∈ x.suspended) : a ∈ x.activations := by
  match x with
  | sender loop use => exact List.mem_cons_of_mem _ h
  | iteration i => exact h

theorem Waiting.mem_activations {x : Waiting} (h : a ∈ x.due) : a ∈ x.activations := by
  match x with
  | sender loop .push => exact h
  | sender loop .complete => exact List.mem_cons_of_mem _ h
  | iteration i => exact h

/-- The stack of a machine in order: the activation that runs, if there is one, those suspended in
its loop, and those that wait outside it. All but the first go on once they are given a value, and
those suspended in a loop have room for it. What a host was given stays valid. -/
structure World.Waits (C : Contract D) (held : List Grant) (w : World)
    (running suspended : List Activation) (waiting : List Waiting) : Prop where
  held : ∀ g ∈ held, D.Grants w g
  stack : w.Stacked D (running ++ (suspended ++ waiting.flatMap (·.activations)))
  due : ∀ a ∈ suspended ++ waiting.flatMap (·.due), a.Due C w
  room : ∀ a ∈ suspended ++ waiting.flatMap (·.suspended), a.HasRoom w
  iterations : ∀ i, .iteration i ∈ waiting → i.Holds (D.Valid w)

/-- An outcome that the contract allows, with some activations left to take it. If blocks are guarded,
one of these takes a return to it. -/
def Outcome.Sound (C : Contract D) (w : World) (as : List Activation) : Outcome → Prop
  | .ok v => D.Valid w v
  | .error (.fault f) => C.faults f
  | .error (.nonLocalReturn v target) => D.Valid w v ∧
      (D.guarded → ∃ a ∈ as, a.marker = target ∧ (w.code a.method).isBlock = false)

theorem Outcome.Sound.marked {o : Outcome} {as : List Activation} (h : o.Sound C w as)
    (hm : w.Marked w') : o.Sound C w' as := by
  match o with
  | .ok v => exact Discipline.Valid.mono hm.extended h
  | .error (.fault f) => exact h
  | .error (.nonLocalReturn v target) =>
    refine ⟨h.1.mono hm.extended, fun hg => ?_⟩
    obtain ⟨b, hb, htarget, hroot⟩ := h.2 hg
    refine ⟨b, hb, htarget, ?_⟩
    rw [World.code, hm.codes]
    exact hroot

def Machine.Sound (C : Contract D) (held : List Grant) (m : Machine) : Prop :=
  match m.control with
  | .run loop =>
    m.world.Waits C held [loop.current] loop.suspended m.waiting ∧ loop.current.Counts C m.world
  | .finish loop o =>
    m.world.Waits C held [loop.current] loop.suspended m.waiting ∧
      o.Sound C m.world
        (loop.current :: (loop.suspended ++ m.waiting.flatMap (·.activations)))
  | .call c => m.world.Waits C held [] [] m.waiting ∧ c.Holds (D.Valid m.world) (D.Known m.world)
  | .answer o =>
    m.world.Waits C held [] [] m.waiting ∧ o.Sound C m.world (m.waiting.flatMap (·.activations))

theorem Activation.Started.counts (h : callee.Started D w w') : callee.Counts C w' := by
  obtain ⟨f, hown, hops⟩ := h.own
  have hsound := h.placed.sound
  have hcode := h.placed.code
  have hlen : (callee.handle.frame w').operands.length = 0 := by
    rw [hown, FrameHandle.frame, hops, List.length_nil]
  unfold Activation.Counts
  rw [h.offset, hlen]
  refine C.start (fun hb => ?_) fun hb => ?_
  · rw [← hcode] at hb
    rw [← h.placed.method]
    exact (hsound.root hb).1
  · rw [← hcode] at hb
    obtain ⟨b, hfits, hbc, -⟩ := hsound.self hb
    exact ⟨b, hfits, hbc.trans h.placed.method⟩

theorem Activation.Continued.hasRoom {takes : Nat} (h : a.Continued D w takes 0 b w')
    (hp : a.handle.Placed D a.marker a.method w) (hm : w.Moved a.marker a.method w')
    (htakes : 0 < takes) : b.HasRoom w' := by
  obtain ⟨new, hnew, ho⟩ := h.operands
  have hle := Frame.length_operands_le hp.sound.proper
  have hlen := h.takes_le
  unfold HasRoom
  rw [h.method, World.code, hm.codes, ← World.code, ho, List.length_append, hnew,
    List.length_take_of_le (Nat.sub_le ..), ← hp.code]
  omega

/-- What an instruction leaves on the stack, with what is still due to it, is what the contract counts
at the next instruction. -/
theorem Activation.Keeps.counted {i : Instruction} {gives : Nat} (h : a.Keeps C w)
    (hp : a.handle.Placed D a.marker a.method w) (hi : a.fetch w = .ok i) (hends : i.ends = false)
    (hb : Continued D { a with offset := a.offset + i.length } w (a.takes w i) gives b w')
    (hm : w.Moved a.marker a.method w') (n : Nat) (hn : gives + n = i.gives) :
    C.counts w' b.method b.offset ((b.handle.frame w').operands.length + n) := by
  have hlt : a.method.index < w.codes.size := by
    rw [← hp.method]
    exact hp.sound.method_lt
  have hkept := C.mono hm.extended hlt (h.counts i hi hends hb.takes_le)
  obtain ⟨new, hnew, ho⟩ := hb.operands
  rw [hb.method, hb.offset, ho, List.length_append, hnew, List.length_take_of_le (Nat.sub_le ..),
    Nat.add_assoc, hn]
  exact hkept

theorem Iteration.Holds.mono {i : Iteration} (h : i.Holds (D.Valid w)) (he : w.Extends w') :
    i.Holds (D.Valid w') := by
  cases i with
  | testing t b sense => exact ⟨h.1.mono he, h.2.mono he⟩
  | repeating t b sense => exact ⟨h.1.mono he, h.2.mono he⟩
  | counting b start current limit => exact Discipline.Valid.mono he h

theorem Reply.Holds.mono {r : Reply} (h : r.Holds (D.Valid w) (D.Known w)) (he : w.Extends w') :
    r.Holds (D.Valid w') (D.Known w') := by
  cases r with
  | answer v => exact Discipline.Valid.mono he h
  | call c => exact ⟨h.1.mono he, fun v hv => (h.2 v hv).mono he⟩
  | evaluate b params i =>
    obtain ⟨hb, hparams, hi⟩ := h
    exact ⟨hb.mono he, fun v hv => (hparams v hv).mono he, fun j hj => (hi j hj).mono he⟩

namespace World.Waits

variable {running suspended : List Activation} {waiting : List Waiting}

/-- The world may change as long as the stack stays in order and the operands of all that wait
stay. -/
theorem kept (h : w.Waits C held running suspended waiting) {running' : List Activation}
    (hstack : w'.Stacked D (running' ++ (suspended ++ waiting.flatMap (·.activations))))
    (he : w.Extends w')
    (ho : ∀ a ∈ suspended ++ waiting.flatMap (·.activations),
      (a.handle.frame w').operands = (a.handle.frame w).operands) :
    w'.Waits C held running' suspended waiting where
  held := fun g hg => (h.held g hg).mono he
  stack := hstack
  due := fun a ha => by
    have hmem : a ∈ suspended ++ waiting.flatMap (·.activations) := by
      rw [List.mem_append, List.mem_flatMap] at ha ⊢
      exact ha.imp_right fun ⟨x, hx, hax⟩ => ⟨x, hx, Waiting.mem_activations hax⟩
    exact (h.due a ha).mono (h.stack.placed a (List.mem_append_right _ hmem)) he (ho a hmem)
  room := fun a ha => by
    have hmem : a ∈ suspended ++ waiting.flatMap (·.activations) := by
      rw [List.mem_append, List.mem_flatMap] at ha ⊢
      exact ha.imp_right fun ⟨x, hx, hax⟩ => ⟨x, hx, Waiting.mem_of_suspended hax⟩
    exact (h.room a ha).mono (h.stack.placed a (List.mem_append_right _ hmem)) he (ho a hmem)
  iterations := fun i hi => (h.iterations i hi).mono he

theorem moved (h : w.Waits C held [a] suspended waiting) (hm : w.Moved a.marker a.method w')
    (hs : w'.Sound D) (hmarker : b.marker = a.marker) (hmethod : b.method = a.method)
    (hb : b.handle.Placed D a.marker a.method w') : w'.Waits C held [b] suspended waiting :=
  h.kept (h.stack.moved hm hs hmarker hmethod hb) hm.extended
    fun _ hc => World.Stacked.operands h.stack hm hc

theorem still (h : w.Waits C held [] [] waiting) (hstill : w.Still w') (hs : w'.Sound D) :
    w'.Waits C held [] [] waiting := by
  have hm (k : MarkerRef) (c : CodeRef) : w.Moved k c w' := .of_still hstill
  refine h.kept ⟨hs, fun c hc => ?_, h.stack.descending, fun k => ?_, fun r hr c hc => ?_⟩
    (hm default default).extended fun c _ => ?_
  · exact (h.stack.placed c hc).still hstill
  · rw [isLive, hstill.markers, ← isLive, h.stack.live k]
  · rw [hstill.frames] at hr ⊢
    exact h.stack.owned r hr c hc
  · rw [c.handle.frame_congr hstill.frames]

theorem started (h : w.Waits C held [] suspended waiting) (hc : callee.Started D w w') :
    w'.Waits C held [callee] suspended waiting :=
  h.kept (h.stack.started hc) hc.marked.extended fun c _ => by
    rw [c.handle.frame_congr hc.marked.frames]

theorem retired (h : w.Waits C held [a] suspended waiting) (hm : w.Marked w')
    (hmarkers : w'.markers = w.markers.set a.marker false) : w'.Waits C held [] suspended waiting :=
  h.kept (World.Stacked.retired h.stack hm hmarkers) hm.extended fun c _ => by
    rw [c.handle.frame_congr hm.frames]

theorem suspend (h : w.Waits C held [a] suspended waiting) (ha : a.Due C w) (hroom : a.HasRoom w) :
    w.Waits C held [] (a :: suspended) waiting :=
  ⟨h.held, h.stack, List.forall_mem_cons.mpr ⟨ha, h.due⟩,
    List.forall_mem_cons.mpr ⟨hroom, h.room⟩, h.iterations⟩

theorem resume (h : w.Waits C held [] (a :: suspended) waiting) :
    w.Waits C held [a] suspended waiting ∧ a.Due C w :=
  ⟨⟨h.held, h.stack, fun c hc => h.due c (List.mem_cons_of_mem a hc),
    fun c hc => h.room c (List.mem_cons_of_mem a hc), h.iterations⟩, h.due a List.mem_cons_self⟩

theorem wait {use : Use} (h : w.Waits C held [a] suspended waiting) (ha : use = .push → a.Due C w) :
    w.Waits C held [] [] (.sender ⟨a, suspended⟩ use :: waiting) := by
  refine ⟨h.held, ?_, ?_, h.room, fun i hi => h.iterations i (by simpa using hi)⟩
  · simpa only [List.nil_append, List.flatMap_cons, Waiting.activations, List.cons_append] using
      h.stack
  · cases use with
    | push => exact List.forall_mem_cons.mpr ⟨ha rfl, h.due⟩
    | complete => exact h.due

theorem wake {loop : RunLoop} {use : Use} (h : w.Waits C held [] [] (.sender loop use :: waiting)) :
    w.Waits C held [loop.current] loop.suspended waiting ∧ (use = .push → loop.current.Due C w) := by
  have hiterations (i : Iteration) (hi : .iteration i ∈ waiting) : i.Holds (D.Valid w) :=
    h.iterations i (List.mem_cons_of_mem _ hi)
  cases use with
  | push =>
    exact ⟨⟨h.held, h.stack, fun c hc => h.due c (List.mem_cons_of_mem _ hc), h.room, hiterations⟩,
      fun _ => h.due _ List.mem_cons_self⟩
  | complete => exact ⟨⟨h.held, h.stack, h.due, h.room, hiterations⟩, nofun⟩

theorem iterate {i : Iteration} (h : w.Waits C held [] [] waiting) (hi : i.Holds (D.Valid w)) :
    w.Waits C held [] [] (.iteration i :: waiting) :=
  ⟨h.held, h.stack, h.due, h.room, fun j hj => by
    rcases List.mem_cons.mp hj with heq | hj
    · cases heq
      exact hi
    · exact h.iterations j hj⟩

theorem iterated {i : Iteration} (h : w.Waits C held [] [] (.iteration i :: waiting)) :
    w.Waits C held [] [] waiting ∧ i.Holds (D.Valid w) :=
  ⟨⟨h.held, h.stack, h.due, h.room, fun j hj => h.iterations j (List.mem_cons_of_mem _ hj)⟩,
    h.iterations i List.mem_cons_self⟩

end World.Waits

namespace Machine

variable {suspended : List Activation} {waiting : List Waiting}

theorem fault_sound {f : Fault} (h : w.Waits C held [] [] waiting) (hf : C.faults f) :
    Machine.Sound C held ⟨.fault f, waiting, w⟩ := ⟨h, hf⟩

theorem execute_sound (h : w.Waits C held [] [] waiting) {r : CodeRef} {args : List Value}
    {outer : Option FrameRef} (hs : Activation.Startable D w r args outer) :
    (execute r args outer waiting w).Sound C held := by
  have hstart : (RunLoop.start r args outer).Ensures w
      (fun loop w' => loop.suspended = [] ∧ loop.current.Started D w w')
      (fun f w' => C.faults f ∧ w' = w) := by
    refine .bind (Q := fun v w' => v = w ∧ w' = w) ⟨rfl, rfl⟩ ?_
    rintro _ _ ⟨rfl, rfl⟩
    split
    · exact ⟨C.program _ rfl, rfl⟩
    refine .bind (Activation.start_ensures C.program h.stack.sound hs) fun callee w' hc => ?_
    refine .bind (Q := fun _ v => v = { w' with reentry := w'.reentry + 1 }) rfl ?_
    rintro _ _ rfl
    exact ⟨rfl, hc.2.later ⟨rfl, Nat.le_refl _⟩ rfl⟩
  unfold execute
  cases hrun : RunLoop.start r args outer w with
  | ok loop w' =>
    obtain ⟨hsuspended, hc⟩ := hstart.of_ok hrun
    have hw := h.started hc
    obtain ⟨callee, suspended⟩ := loop
    cases hsuspended
    exact ⟨hw, hc.counts⟩
  | error f w' =>
    obtain ⟨hf, rfl⟩ := hstart.of_error hrun
    exact fault_sound h hf

theorem evaluate_sound (h : w.Waits C held [] [] waiting) {b : Block} {params : List Value}
    (hb : D.Valid w (.block b)) (hparams : ∀ v ∈ params, D.Valid w v) :
    (evaluate b params waiting w).Sound C held := by
  have hfits := D.valid_block.mp hb
  refine execute_sound h ⟨D.fits_lt hfits, ?_, fun hroot => ?_, fun _ => ⟨b, rfl, rfl, rfl⟩⟩
  · exact List.forall_mem_cons.mpr ⟨hb, hparams⟩
  · rw [D.isBlock hfits] at hroot
    cases hroot

theorem reply_sound (h : w.Waits C held [] [] waiting) {r : Reply}
    (hr : r.Holds (D.Valid w) (D.Known w)) : (reply r waiting w).Sound C held := by
  match r with
  | .answer v => exact ⟨h, hr⟩
  | .call c => exact ⟨h, hr⟩
  | .evaluate b params none => exact evaluate_sound h hr.1 hr.2.1
  | .evaluate b params (some i) => exact evaluate_sound (h.iterate (hr.2.2 i rfl)) hr.1 hr.2.1

theorem operate_sound (h : w.Waits C held [] [] waiting) (op : Operation) {receiver : Value}
    {args : List Value} (hr : D.Valid w receiver) (ha : ∀ v ∈ args, D.Valid w v) :
    (operate op receiver args waiting w).Sound C held := by
  have hquiet : Action.Quiet (D.Valid w) (D.Known w) (op.start receiver args) _ :=
    op.start_quiet (fun _ => D.valid_of_no_block) hr ha
  have hstart := hquiet w h.stack.sound.holds
  unfold operate
  cases hrun : op.start receiver args w with
  | ok r w' =>
    obtain ⟨hr, hstill, hholds⟩ := hstart.of_ok hrun
    have he : w.Extends w' := .of_eq hstill.codes hstill.frames
    exact reply_sound (h.still hstill (h.stack.sound.of_still hstill hholds)) (hr.mono he)
  | error f w' =>
    obtain ⟨hf, hstill, hholds⟩ := hstart.of_error hrun
    exact fault_sound (h.still hstill (h.stack.sound.of_still hstill hholds)) (C.program f hf)

theorem call_sound (h : w.Waits C held [] [] waiting) {c : Call}
    (hc : c.Holds (D.Valid w) (D.Known w)) : (call c waiting w).Sound C held := by
  obtain ⟨m, args⟩ := c
  obtain ⟨hknown, hargs⟩ := hc
  match m, args with
  | .compiled r, args =>
    have hroot := hknown r rfl
    refine execute_sound h ⟨D.root_lt hroot, hargs, fun _ => ⟨hroot, rfl⟩, fun hb => ?_⟩
    rw [D.not_isBlock hroot] at hb
    cases hb
  | .primitive p, receiver :: args =>
    obtain ⟨hr, ha⟩ := List.forall_mem_cons.mp hargs
    exact operate_sound h _ hr ha
  | .primitive p, [] => exact fault_sound h (C.program _ rfl)

theorem deliver_sound {loop : RunLoop} (h : w.Waits C held [loop.current] loop.suspended waiting)
    (hdue : loop.current.Due C w) {v : Value} (hv : D.Valid w v) :
    (deliver loop v waiting w).Sound C held := by
  have hp := h.stack.placed loop.current List.mem_cons_self
  have hpush := FrameHandle.push_works (F := C.faults) h.stack.sound hp hv
    (C.room.imp_right fun hroom => hroom hdue)
  unfold deliver RunLoop.push
  rw [Action.bind_apply]
  cases hrun : loop.current.handle.push v w with
  | ok handle w' =>
    obtain ⟨⟨hp', ho⟩, hm, hs⟩ := hpush.of_ok hrun
    refine ⟨h.moved hm hs rfl rfl hp', ?_⟩
    change C.counts w' loop.current.method loop.current.offset (handle.frame w').operands.length
    rw [ho, List.length_append]
    refine C.mono hm.extended ?_ hdue
    rw [← hp.method]
    exact hp.sound.method_lt
  | error f w' =>
    obtain ⟨hf, hm, hs⟩ := hpush.of_error hrun
    exact ⟨h.moved hm hs rfl rfl (hp.moved hs hm), hf⟩

theorem left_marked (a : Activation) (w : World) : w.Marked (a.left w) :=
  ⟨rfl, Nat.le_of_eq (Arena.size_set _ _ _).symm⟩

theorem retire_marked (a : Activation) (o : Outcome) (w : World) :
    w.Marked (a.retire o w).2 ∧ (a.retire o w).2.markers = w.markers.set a.marker false := by
  have hleft := left_marked a w
  rcases a.retire_cases o w with ⟨v, -, -, h⟩ | ⟨-, h⟩
  · rw [h]
    simp only [World.note]
    split
    · exact ⟨hleft.trans ⟨rfl, Nat.le_refl _⟩, rfl⟩
    · exact ⟨hleft, rfl⟩
  · rw [h]
    exact ⟨hleft, rfl⟩

theorem retire_sound {o : Outcome} {as : List Activation} (ho : o.Sound C w (a :: as)) :
    (a.retire o w).1.Sound C (a.retire o w).2 as := by
  have hm := (retire_marked a o w).1
  rcases a.retire_cases o w with ⟨v, rfl, -, h⟩ | ⟨hpass, h⟩
  · rw [congrArg Prod.fst h]
    exact Discipline.Valid.mono hm.extended ho.1
  · rw [congrArg Prod.fst h]
    refine Outcome.Sound.marked ?_ hm
    match o with
    | .ok v => exact ho
    | .error (.fault f) => exact ho
    | .error (.nonLocalReturn v target) =>
      refine ⟨ho.1, fun hg => ?_⟩
      obtain ⟨b, hb, htarget, hroot⟩ := ho.2 hg
      refine ⟨b, (List.mem_cons.mp hb).resolve_left fun heq => ?_, htarget, hroot⟩
      subst heq
      have hblock := hpass v (by rw [htarget])
      rw [hroot] at hblock
      cases hblock

theorem handOver_sound {loop : RunLoop} {o : Outcome}
    (h : w.Waits C held [loop.current] loop.suspended waiting) (hdue : loop.current.Due C w)
    (ho : o.Sound C w (loop.current :: (loop.suspended ++ waiting.flatMap (·.activations)))) :
    (handOver loop o waiting w).Sound C held := by
  cases o with
  | ok v => exact deliver_sound h hdue ho
  | error u => exact ⟨h, ho⟩

theorem finish_sound {loop : RunLoop} {o : Outcome}
    (h : w.Waits C held [loop.current] loop.suspended waiting)
    (ho : o.Sound C w (loop.current :: (loop.suspended ++ waiting.flatMap (·.activations)))) :
    (finish loop o waiting w).Sound C held := by
  obtain ⟨hm, hmarkers⟩ := retire_marked loop.current o w
  have ho := retire_sound ho
  rw [Footing.finish_eq]
  obtain ⟨current, suspended⟩ := loop
  cases suspended with
  | nil =>
    have hleft : w.Marked { (current.retire o w).2 with
        reentry := (current.retire o w).2.reentry - 1 } := hm.trans ⟨rfl, Nat.le_refl _⟩
    exact ⟨h.retired hleft hmarkers, ho.marked ⟨rfl, Nat.le_refl _⟩⟩
  | cons sender rest =>
    obtain ⟨hw, hdue⟩ := (h.retired hm hmarkers).resume
    exact handOver_sound hw hdue ho

theorem answer_sound {o : Outcome} (h : w.Waits C held [] [] waiting)
    (ho : o.Sound C w (waiting.flatMap (·.activations))) : (answer o waiting w).Sound C held := by
  match waiting, o with
  | [], o => exact ⟨h, ho⟩
  | .sender loop .push :: rest, .ok v =>
    obtain ⟨hw, hdue⟩ := h.wake
    exact deliver_sound hw (hdue rfl) ho
  | .sender loop .push :: rest, .error u => exact ⟨h.wake.1, ho⟩
  | .sender loop .complete :: rest, o => exact ⟨h.wake.1, ho⟩
  | .iteration i :: rest, .ok v =>
    obtain ⟨hw, hi⟩ := h.iterated
    have hnext : Answers (·.Holds (D.Valid w) (D.Known w)) (i.next v) :=
      i.next_answers (fun _ => D.valid_of_no_block) hi v
    simp only [answer]
    cases hrun : i.next v with
    | ok r =>
      rw [hrun] at hnext
      exact reply_sound hw hnext
    | error f =>
      rw [hrun] at hnext
      exact fault_sound hw (C.program f (Fault.isProgramFault_of_primitiveFailure hnext))
  | .iteration i :: rest, .error u => exact ⟨h.iterated.1, ho⟩

theorem advance_sound {loop : RunLoop} (h : w.Waits C held [loop.current] loop.suspended waiting)
    (hkeeps : loop.current.Keeps C w) : (advance loop waiting w).Sound C held := by
  obtain ⟨a, suspended⟩ := loop
  have hs := h.stack.sound
  have hp := h.stack.placed a List.mem_cons_self
  cases hfetch : a.fetch w with
  | error f =>
    have hstep : a.step w = .error f w := by
      unfold Activation.step
      rw [Action.bind_apply, Action.get_apply]
      simp only [hfetch]
      rfl
    simp only [advance, hstep]
    refine ⟨h, ?_⟩
    rcases hkeeps.fetches with hF | ⟨i, hi⟩
    · exact hF f (Activation.ordinary_of_fetch hfetch).1
    · rw [hfetch] at hi
      cases hi
  | ok i =>
    have hsteps := Activation.step_steps hs hp C.program C.guards hfetch (hkeeps.ready i hfetch)
      (fun hg => hkeeps.spares hg i hfetch) (hkeeps.nests i hfetch)
    cases hstep : a.step w with
    | error f v =>
      obtain ⟨hf, hm, hv⟩ := hsteps.of_error hstep
      simp only [advance, hstep]
      exact ⟨h.moved hm hv rfl rfl (hp.moved hv hm), hf⟩
    | ok e v =>
      have he := hsteps.of_ok hstep
      simp only [advance, hstep]
      cases e with
      | resume b =>
        obtain ⟨hm, hv, hends, hb⟩ := he
        exact ⟨h.moved hm hv hb.marker hb.method hb.placed, hkeeps.counted hp hfetch hends hb hm 0 rfl⟩
      | activate sender callee =>
        obtain ⟨w₁, hm, hv, hgives, htakes, hb, hc⟩ := he
        have hw₁ := h.moved hm hv hb.marker hb.method hb.placed
        have hdue := hkeeps.counted hp hfetch (Instruction.ends_of_gives hgives) hb hm 1 hgives.symm
        exact ⟨(hw₁.suspend hdue (hb.hasRoom hp hm htakes)).started hc, hc.counts⟩
      | callOut sender c use =>
        obtain ⟨hm, hv, hgives, hb, hc⟩ := he
        have hw₁ := h.moved hm hv hb.marker hb.method hb.placed
        refine ⟨hw₁.wait fun huse => ?_, hc⟩
        exact hkeeps.counted hp hfetch (Instruction.ends_of_gives (hgives huse)) hb hm 1 (hgives huse).symm
      | complete x =>
        obtain ⟨hm, hv, hx⟩ := he
        exact ⟨h.moved hm hv rfl rfl (hp.moved hv hm), hx⟩
      | unwind x target =>
        obtain ⟨hm, hv, hx, hlive, hhome⟩ := he
        have hw₁ := h.moved hm hv (b := a) rfl rfl (hp.moved hv hm)
        refine ⟨hw₁, hx, fun hg => ?_⟩
        obtain ⟨r, hr, hmarker, hroot⟩ := hhome hg
        -- The target is live, so it is on the stack, and its captured frame is that of a method.
        obtain ⟨b, hb, htarget⟩ := (hw₁.stack.live target).mp hlive
        refine ⟨b, hb, htarget, ?_⟩
        rw [← hw₁.stack.owned r hr b hb (hmarker.trans htarget.symm), ← (hv.frames r hr).code]
        exact hroot

theorem Sound.step {m : Machine} (hm : m.Sound C held)
    (hkeeps : ∀ loop, m.control = .run loop → loop.current.Counts C m.world →
      loop.current.handle.Placed D loop.current.marker loop.current.method m.world →
      loop.current.Keeps C m.world) : m.step.Sound C held := by
  obtain ⟨control, waiting, w⟩ := m
  cases control with
  | run loop =>
    exact advance_sound hm.1 (hkeeps loop rfl hm.2 (hm.1.stack.placed _ List.mem_cons_self))
  | finish loop o => exact finish_sound hm.1 hm.2
  | call c => exact call_sound hm.1 hm.2
  | answer o => exact answer_sound hm.1 hm.2

end Machine

end MessageMachine
