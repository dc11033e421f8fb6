import MessageMachine.Proofs.AgreeingStep

namespace MessageMachine

variable {held : List Grant} {waiting : List Waiting} {w w' : World} {n m : Nat}

theorem Value.Before.iteration_mono {i : Iteration} (h : i.Holds (Value.Before n)) (hle : n ≤ m) :
    i.Holds (Value.Before m) := by
  cases i with
  | testing | repeating => exact ⟨h.1.mono hle, h.2.mono hle⟩
  | counting => exact Value.Before.mono h hle

/-- Any value made over captured frames, or a fault that is meant to be raised. -/
def Outcome.Layered (n : Nat) : Outcome → Prop
  | .ok v | .error (.nonLocalReturn v _) => v.Before n
  | .error (.fault f) => f.Meant

def RunLoop.Layered (n : Nat) (loop : RunLoop) : Prop := ∀ a ∈ loop.activations, a.handle.Layered n

def Waiting.Layered (n : Nat) : Waiting → Prop
  | sender loop _ => loop.Layered n
  | iteration i => i.Holds (·.Before n)

def Control.Layered (n : Nat) : Control → Prop
  | run loop => loop.Layered n
  | finish loop o => loop.Layered n ∧ o.Layered n
  | call c => ∀ v ∈ c.args, v.Before n
  | answer o => o.Layered n

theorem Outcome.Layered.mono {o : Outcome} (h : o.Layered n) (hle : n ≤ m) : o.Layered m := by
  match o with
  | .ok v | .error (.nonLocalReturn v _) => exact Value.Before.mono h hle
  | .error (.fault f) => exact h

theorem RunLoop.Layered.mono {loop : RunLoop} (h : loop.Layered n) (hle : n ≤ m) :
    loop.Layered m := fun a ha => (h a ha).mono hle

theorem Waiting.Layered.mono {x : Waiting} (h : x.Layered n) (hle : n ≤ m) : x.Layered m := by
  cases x with
  | sender loop use => exact RunLoop.Layered.mono h hle
  | iteration i => exact Value.Before.iteration_mono h hle

theorem Outcome.Layered.retire {a : Activation} {o : Outcome} (h : o.Layered n) :
    (a.retire o w).1.Layered n := by
  rcases a.retire_cases o w with ⟨v, rfl, -, hr⟩ | ⟨-, hr⟩
  · rw [hr]
    exact h
  · rw [hr]
    exact h

/-- A world in layers with those who wait in it, and what its host was given. -/
structure World.Carries (held : List Grant) (waiting : List Waiting) (w : World) : Prop where
  layered : w.Layered
  held : ∀ v, .value v ∈ held → v.Before w.frames.size
  waits : ∀ x ∈ waiting, x.Layered w.frames.size

namespace World.Carries

theorem usable (h : w.Carries held waiting) {v : Value} (hv : Usable held v) :
    v.Before w.frames.size :=
  fun b hb => h.held v (hv (by rw [hb, Option.isSome_some])) b hb

theorem stores (h : w.Carries held waiting) {v : Value} (hv : w.Stores v) :
    v.Before w.frames.size := by
  cases hv with
  | field r hv => exact h.layered.holds.fields r v hv
  | element r hv => exact h.layered.holds.elements r v hv
  | global name hv => exact h.layered.holds.globals name v hv

theorem hold (h : w.Carries held waiting) {g : Grant}
    (hg : ∀ v, g = .value v → v.Before w.frames.size) : w.Carries (g :: held) waiting :=
  ⟨h.layered, fun v hv => (List.mem_cons.mp hv).elim (fun heq => hg v heq.symm) (h.held v), h.waits⟩

theorem ages (h : w.Carries held waiting) (hages : w.Ages w') : w'.Carries held waiting where
  layered := hages.layered
  held := fun v hv => (h.held v hv).mono hages.size_le
  waits := fun x hx => (h.waits x hx).mono hages.size_le

theorem wait (h : w.Carries held waiting) {x : Waiting} (hx : x.Layered w.frames.size) :
    w.Carries held (x :: waiting) :=
  ⟨h.layered, h.held, List.forall_mem_cons.mpr ⟨hx, h.waits⟩⟩

theorem wake {x : Waiting} (h : w.Carries held (x :: waiting)) :
    x.Layered w.frames.size ∧ w.Carries held waiting :=
  let ⟨hx, hrest⟩ := List.forall_mem_cons.mp h.waits
  ⟨hx, h.layered, h.held, hrest⟩

end World.Carries

namespace Machine

def Layered (held : List Grant) (m : Machine) : Prop :=
  m.world.Carries held m.waiting ∧ m.control.Layered m.world.frames.size

def Passes (held : List Grant) (x : Except Defect StrictMachine) (m : Machine) : Prop :=
  x = .ok m.strict ∧ m.Layered held

section

variable (h : w.Carries held waiting)
include h

theorem fault_passes {f : Fault} (hf : f.Meant) :
    Passes held (StrictMachine.fail (.of f) (⟨.answer ·, waiting.map (·.strict), w⟩))
      ⟨.fault f, waiting, w⟩ := by
  rw [Trouble.of_meant hf]
  exact ⟨rfl, h, hf⟩

theorem execute_passes (r : CodeRef) {args : List Value} {outer : Option FrameRef}
    (hargs : ∀ v ∈ args, v.Before w.frames.size)
    (houter : ∀ s, outer = some s → s.index < w.frames.size) :
    Passes held (StrictMachine.execute (waiting.map (·.strict)) w r args outer)
      (execute r args outer waiting w) := by
  have hstart : (RunLoop.start r args outer).Ensures w
      (fun loop w' => w.Ages w' ∧ loop.Layered w'.frames.size) fun f w' => w.Ages w' ∧ f.Meant := by
    refine .get_bind ?_
    split
    · exact ⟨h.layered.refl, nofun⟩
    refine .bind (Activation.start_ages h.layered r hargs houter) fun callee w₁ ⟨hages, hcallee⟩ => ?_
    have hcount : w₁.Ages { w₁ with reentry := w₁.reentry + 1 } :=
      hages.layered.marked ⟨rfl, Nat.le_refl _⟩
    exact ⟨hages.trans hcount, List.forall_mem_singleton.mpr hcallee⟩
  unfold execute StrictMachine.execute
  cases hrun : RunLoop.start r args outer w with
  | ok loop w' =>
    obtain ⟨hages, hloop⟩ := hstart.of_ok hrun
    exact ⟨rfl, h.ages hages, hloop⟩
  | error f w' =>
    obtain ⟨hages, hf⟩ := hstart.of_error hrun
    exact fault_passes (h.ages hages) hf

theorem evaluate_passes {b : Block} {params : List Value} (hb : Value.Before w.frames.size (.block b))
    (hparams : ∀ v ∈ params, v.Before w.frames.size) :
    Passes held (StrictMachine.evaluate (waiting.map (·.strict)) w b params)
      (evaluate b params waiting w) := by
  refine execute_passes h b.code (List.forall_mem_cons.mpr ⟨hb, hparams⟩) ?_
  rintro _ ⟨⟩
  exact Value.before_block.mp hb

theorem reply_passes {r : Reply} (hr : r.Holds (·.Before w.frames.size) fun _ => True) :
    Passes held (StrictMachine.reply (waiting.map (·.strict)) w r) (reply r waiting w) := by
  match r with
  | .answer v => exact ⟨rfl, h, hr⟩
  | .call c => exact ⟨rfl, h, hr.2⟩
  | .evaluate b params none => exact evaluate_passes h hr.1 hr.2.1
  | .evaluate b params (some i) =>
    exact evaluate_passes (h.wait (x := .iteration i) (hr.2.2 i rfl)) hr.1 hr.2.1

theorem operate_passes (op : Operation) {receiver : Value} {args : List Value}
    (hr : receiver.Before w.frames.size) (hargs : ∀ v ∈ args, v.Before w.frames.size) :
    Passes held (StrictMachine.operate (waiting.map (·.strict)) w op receiver args)
      (operate op receiver args waiting w) := by
  have hquiet : Action.Quiet (·.Before w.frames.size) (fun _ => True) (op.start receiver args) _ :=
    op.start_quiet (fun _ => Value.before_of_no_block) hr hargs
  have hquiet := hquiet w h.layered.holds
  unfold operate StrictMachine.operate
  cases hrun : op.start receiver args w with
  | ok r w' =>
    obtain ⟨hreply, hstill, hholds⟩ := hquiet.of_ok hrun
    refine reply_passes (h.ages (h.layered.of_still hstill hholds)) ?_
    rw [hstill.frames]
    exact hreply
  | error f w' =>
    obtain ⟨hf, hstill, hholds⟩ := hquiet.of_error hrun
    exact fault_passes (h.ages (h.layered.of_still hstill hholds)) (Fault.meant_of_program hf)

theorem call_passes {c : Call} (hargs : ∀ v ∈ c.args, v.Before w.frames.size) :
    Passes held (StrictMachine.call (waiting.map (·.strict)) w c) (call c waiting w) := by
  obtain ⟨method, args⟩ := c
  match method, args with
  | .compiled r, args => exact execute_passes h r hargs nofun
  | .primitive p, receiver :: args =>
    obtain ⟨hr, hargs⟩ := List.forall_mem_cons.mp hargs
    exact operate_passes h _ hr hargs
  | .primitive p, [] =>
    have hmeant : (Fault.arityMismatch (.method (.primitive p)) (w.argCount (.primitive p)) 0).Meant :=
      nofun
    exact fault_passes h hmeant

theorem deliver_passes {loop : RunLoop} (hloop : loop.Layered w.frames.size) {v : Value}
    (hv : v.Before w.frames.size) :
    Passes held (StrictMachine.deliver (waiting.map (·.strict)) w loop.activations v)
      (deliver loop v waiting w) := by
  obtain ⟨ha, hrest⟩ := List.forall_mem_cons.mp hloop
  have hpush := Strict.Agrees.within (a := loop.current.handle)
    (FrameHandle.push_agrees h.layered ha hv)
  unfold deliver RunLoop.push StrictMachine.deliver RunLoop.activations
  rw [Action.bind_apply]
  dsimp only
  cases hrun : loop.current.handle.push v w with
  | ok handle w' =>
    obtain ⟨hstrict, hages, hhandle, -⟩ := Action.Ensures.of_ok hpush hrun
    rw [hstrict]
    refine ⟨rfl, h.ages hages, List.forall_mem_cons.mpr ⟨hhandle, fun b hb => ?_⟩⟩
    exact (hrest b hb).mono hages.size_le
  | error f w' =>
    obtain ⟨hstrict, hages, hf⟩ := Action.Ensures.of_error hpush hrun
    rw [hstrict]
    exact ⟨rfl, h.ages hages, hloop.mono hages.size_le, hf⟩

theorem advance_passes {loop : RunLoop} (hloop : loop.Layered w.frames.size) :
    Passes held (StrictMachine.advance (waiting.map (·.strict)) w loop.activations)
      (advance loop waiting w) := by
  obtain ⟨ha, hrest⟩ := List.forall_mem_cons.mp hloop
  have hstep := Activation.strictStep_yields h.layered ha
  unfold advance StrictMachine.advance RunLoop.activations
  dsimp only
  cases hrun : loop.current.step w with
  | error f w' =>
    obtain ⟨hstrict, hages, hf⟩ := Action.Ensures.of_error hstep hrun
    rw [hstrict]
    exact ⟨rfl, h.ages hages, hloop.mono hages.size_le, hf⟩
  | ok e w' =>
    obtain ⟨hstrict, hages, he⟩ := Action.Ensures.of_ok hstep hrun
    rw [hstrict]
    have hw := h.ages hages
    have hrest (b : Activation) (hb : b ∈ loop.suspended) : b.handle.Layered w'.frames.size :=
      (hrest b hb).mono hages.size_le
    cases e with
    | resume a => exact ⟨rfl, hw, List.forall_mem_cons.mpr ⟨he, hrest⟩⟩
    | activate sender callee =>
      exact ⟨rfl, hw, List.forall_mem_cons.mpr ⟨he.2, List.forall_mem_cons.mpr ⟨he.1, hrest⟩⟩⟩
    | callOut sender c use =>
      exact ⟨rfl, hw.wait (x := .sender _ use) (List.forall_mem_cons.mpr ⟨he.1, hrest⟩), he.2⟩
    | complete v | unwind v target => exact ⟨rfl, hw, hloop.mono hages.size_le, he⟩

/-- An activation is retired while it is counted, and its loop is left while that is counted. -/
theorem finish_passes {loop : RunLoop} (hloop : loop.Layered w.frames.size) {o : Outcome}
    (ho : o.Layered w.frames.size) (hdepth : 0 < w.depth) (hreentry : 0 < w.reentry) :
    Passes held (StrictMachine.finish (waiting.map (·.strict)) w loop.activations o)
      (finish loop o waiting w) := by
  obtain ⟨current, suspended⟩ := loop
  obtain ⟨-, hrest⟩ := List.forall_mem_cons.mp hloop
  have hages := h.layered.marked (retire_marked current o w).1
  have hretired := ho.retire (a := current) (w := w)
  have hkept : (current.retire o w).2.reentry = w.reentry := (current.retire_still o w).reentry
  unfold finish StrictMachine.finish RunLoop.activations
  simp only [if_neg (Nat.ne_of_gt hdepth)]
  rcases hr : current.retire o w with ⟨o', w'⟩
  rw [hr] at hages hretired hkept
  have hw := h.ages hages
  have hretired := hretired.mono hages.size_le
  cases suspended with
  | nil =>
    have hopen : w'.reentry ≠ 0 := by
      rw [hkept]
      exact Nat.ne_of_gt hreentry
    simp only [if_neg hopen]
    exact ⟨rfl, hw.ages (hages.layered.marked ⟨rfl, Nat.le_refl _⟩), hretired⟩
  | cons sender rest =>
    have hrest : RunLoop.Layered w'.frames.size ⟨sender, rest⟩ :=
      fun b hb => (hrest b hb).mono hages.size_le
    cases o' with
    | ok v => exact deliver_passes hw hrest hretired
    | error u => exact ⟨rfl, hw, hrest, hretired⟩

theorem answer_passes {o : Outcome} (ho : o.Layered w.frames.size) :
    Passes held (StrictMachine.answer o (waiting.map (·.strict)) w) (answer o waiting w) := by
  match waiting, o with
  | [], o => exact ⟨rfl, h, ho⟩
  | .sender loop .push :: rest, .ok v =>
    obtain ⟨hloop, hrest⟩ := h.wake
    exact deliver_passes hrest hloop ho
  | .sender loop .push :: rest, .error u =>
    obtain ⟨hloop, hrest⟩ := h.wake
    exact ⟨rfl, hrest, hloop, ho⟩
  | .sender loop .complete :: rest, o =>
    obtain ⟨hloop, hrest⟩ := h.wake
    exact ⟨rfl, hrest, hloop, ho⟩
  | .iteration i :: rest, .ok v =>
    obtain ⟨hi, hrest⟩ := h.wake
    have hnext : Answers (·.Holds (·.Before w.frames.size) fun _ => True) (i.next v) :=
      Iteration.next_answers (fun _ => Value.before_of_no_block) hi v
    simp only [answer, StrictMachine.answer, List.map_cons, Waiting.strict]
    cases hr : i.next v with
    | ok r =>
      rw [hr] at hnext
      exact reply_passes hrest hnext
    | error f =>
      rw [hr] at hnext
      have hfault : f.isProgramFault := Fault.isProgramFault_of_primitiveFailure hnext
      exact fault_passes hrest (Fault.meant_of_program hfault)
  | .iteration i :: rest, .error u =>
    obtain ⟨-, hrest⟩ := h.wake
    exact ⟨rfl, hrest, ho⟩

end

theorem step_passes {m : Machine} (h : m.Layered held)
    (hcounts : ∀ loop o, m.control = .finish loop o → 0 < m.world.depth ∧ 0 < m.world.reentry) :
    Passes held m.strict.step m.step := by
  obtain ⟨control, waiting, w⟩ := m
  obtain ⟨hw, hcontrol⟩ := h
  cases control with
  | run loop => exact advance_passes hw hcontrol
  | finish loop o =>
    obtain ⟨hdepth, hreentry⟩ := hcounts loop o rfl
    exact finish_passes hw hcontrol.1 hcontrol.2 hdepth hreentry
  | call c => exact call_passes hw hcontrol
  | answer o => exact answer_passes hw hcontrol

theorem Layered.outcome {m : Machine} (h : m.Layered held) {o : Outcome} (ho : m.outcome? = some o) :
    o.Layered m.world.frames.size := by
  obtain ⟨control, waiting, w⟩ := m
  cases control with
  | answer o' =>
    cases waiting with
    | nil =>
      cases ho
      exact h.2
    | cons x rest => cases ho
  | run | finish | call => cases ho

theorem Layered.proper {m : Machine} (h : m.Layered held) {f : Frame} (hf : m.HasFrame f) :
    f.Proper := by
  obtain ⟨hw, hcontrol⟩ := h
  cases hf with
  | captured hr => exact (hw.layered.frames _ hr).proper
  | @active a ha =>
    refine (hw.layered.frame (a := a.handle) ?_).proper
    obtain ⟨loop, hloop, hmem⟩ := List.mem_flatMap.mp ha
    rcases List.mem_append.mp hloop with hloop | hloop
    · obtain ⟨control, waiting, w⟩ := m
      cases control with
      | run current =>
        cases Option.mem_toList.mp hloop
        exact hcontrol a hmem
      | finish current o =>
        cases Option.mem_toList.mp hloop
        exact hcontrol.1 a hmem
      | call | answer => cases hloop
    · obtain ⟨x, hx, hloop⟩ := List.mem_filterMap.mp hloop
      have hwaits := hw.waits x hx
      cases x with
      | sender loop use =>
        cases hloop
        exact hwaits a hmem
      | iteration i => cases hloop

end Machine

structure Snapshot.Counted (s : Snapshot) : Prop where
  depth : s.activations.length ≤ s.world.depth
  reentry : s.loops ≤ s.world.reentry

namespace Snapshot

theorem counted_preserved : Preserved Counted where
  retire := by
    rintro ⟨_ | a, going, n, v⟩ - h
    · exact h
    · exact ⟨Nat.le_sub_one_of_lt h.depth, h.reentry⟩
  change := by
    intro worker s s' _ hc h
    cases hc with
    | works _ hb =>
      have hm := hb.leads.moved
      exact ⟨hm.depth ▸ h.depth, hm.reentry ▸ h.reentry⟩
    | ends _ hm => exact ⟨hm.depth ▸ h.depth, hm.reentry ▸ h.reentry⟩
    | still hs => exact ⟨hs.depth ▸ h.depth, hs.reentry ▸ h.reentry⟩
    | starts hb =>
      rw [hb.world]
      exact ⟨Nat.succ_le_succ h.depth, h.reentry⟩
    | opens => exact ⟨h.depth, Nat.succ_le_succ h.reentry⟩
    | closes => exact ⟨h.depth, Nat.le_sub_one_of_lt h.reentry⟩

theorem Counted.finish {m : Machine} (h : m.snapshot.Counted) {loop : RunLoop} {o : Outcome}
    (ho : m.control = .finish loop o) : 0 < m.world.depth ∧ 0 < m.world.reentry := by
  obtain ⟨control, waiting, w⟩ := m
  cases ho
  exact ⟨Nat.lt_of_lt_of_le (Nat.succ_pos _) h.depth, Nat.lt_of_lt_of_le (Nat.succ_pos _) h.reentry⟩

theorem counted_idle (w : World) : (Machine.idle [] w).Counted := ⟨Nat.zero_le _, Nat.zero_le _⟩

end Snapshot

theorem Session.counted {P : Policy} {m : Machine} (h : Session P m held) :
    m.snapshot.Held ∧ m.snapshot.Counted := by
  have hidle (w : World) : (Machine.idle [] w).Held ∧ (Machine.idle [] w).Counted :=
    ⟨fun _ ha => absurd ha List.not_mem_nil, Snapshot.counted_idle w⟩
  induction h with
  | boot | change | add => exact hidle _
  | @request _ w _ _ c =>
    exact Snapshot.counted_preserved.changes (hidle w).1 (hidle w).2
      (Machine.request_changes w (.host c))
  | step _ _ ih => exact Snapshot.counted_preserved.step ih.1 ih.2
  | result _ ih | see _ _ ih | find _ _ ih => exact ih

/-- A host may add any bodies, install and call any of them, and run any machine. -/
def Policy.free : Policy where
  adds held w w' := Adds held w w' ∨ ∃ c r, w' = w.installCode c r
  calls _ _ _ := True
  runs _ := True

namespace Machine

theorem dispatch_layered (h : w.Carries held []) (selector : Symbol) {receiver : Value}
    {args : List Value} (hr : receiver.Before w.frames.size)
    (hargs : ∀ v ∈ args, v.Before w.frames.size) :
    (dispatch receiver selector args w).Layered held := by
  have hquiet : Action.Quiet (·.Before w.frames.size) (fun _ => True)
      (Action.dispatch receiver selector args) _ :=
    Action.dispatch_quiet (fun _ => Value.before_of_no_block) selector hr hargs
  have hquiet := hquiet w h.layered.holds
  unfold dispatch
  cases hrun : Action.dispatch receiver selector args w with
  | ok c w' =>
    obtain ⟨hc, hstill, hholds⟩ := hquiet.of_ok hrun
    refine (call_passes (h.ages (h.layered.of_still hstill hholds)) ?_).2
    rw [hstill.frames]
    exact hc.2
  | error f w' =>
    obtain ⟨hf, hstill, hholds⟩ := hquiet.of_error hrun
    exact ⟨h.ages (h.layered.of_still hstill hholds), Fault.meant_of_program hf⟩

end Machine

theorem HostCall.machine_layered {P : Policy} (h : w.Carries held []) {c : HostCall}
    (hc : c.Allowed P held w) : (c.machine w).Layered held := by
  have hvalues {args : List Value} (hargs : ∀ v ∈ args, Usable held v) :
      ∀ v ∈ args, v.Before w.frames.size := fun v hv => h.usable (hargs v hv)
  cases c with
  | invoke m receiver args =>
    obtain ⟨-, hr, hargs⟩ := hc
    dsimp only [machine]
    split
    · exact (Machine.call_passes h
        (List.forall_mem_cons.mpr ⟨h.usable hr, hvalues hargs⟩)).2
    · exact ⟨h, nofun⟩
  | send receiver selector args =>
    obtain ⟨hr, hargs⟩ := hc
    have hages : w.Ages (w.intern selector).2 :=
      h.layered.of_codes rfl rfl (h.layered.holds.congr rfl rfl rfl rfl rfl rfl)
    dsimp only [machine]
    split
    · exact Machine.dispatch_layered (h.ages hages) _ (h.usable hr) (hvalues hargs)
    · exact ⟨h.ages hages, nofun⟩
  | dispatch receiver selector args =>
    exact Machine.dispatch_layered h selector (h.usable hc.1) (hvalues hc.2)
  | call m args => exact (Machine.call_passes h (hvalues hc.2)).2
  | evaluate b params =>
    exact (Machine.evaluate_passes h (h.held _ hc.1) (hvalues hc.2)).2
  | execute r args outer => exact hc.elim

theorem Session.layered {m : Machine} (h : Session .free m held) : m.Layered held := by
  -- By induction on what the host did, as for every discipline of code.
  induction h with
  | boot h => exact ⟨⟨World.boot_layered h, nofun, nofun⟩, Value.before_of_no_block rfl⟩
  | change _ hc ih =>
    have hages := ih.1.layered.change hc ih.1.held
    exact ⟨ih.1.ages hages, ih.2.mono hages.size_le⟩
  | @add o w w' held _ ha ih =>
    have hages : w.Ages w' := by
      obtain ha | ⟨c, r, rfl⟩ := ha
      · obtain hb | ⟨c, r, -, -, rfl⟩ := ha.cases
        · exact ih.1.layered.build hb fun v hv => ih.1.usable (of_decide_eq_true hv)
        · exact ih.1.layered.installCode c r
      · exact ih.1.layered.installCode c r
    exact ⟨ih.1.ages hages, ih.2.mono hages.size_le⟩
  | request _ hc ih => exact HostCall.machine_layered ih.1 hc
  | step h _ ih => exact (Machine.step_passes ih fun _ _ => h.counted.2.finish).2
  | result _ ih =>
    refine ⟨ih.1.hold ?_, ih.2⟩
    rintro _ ⟨⟩
    exact ih.2
  | see _ hv ih =>
    refine ⟨ih.1.hold ?_, ih.2⟩
    rintro _ ⟨⟩
    exact ih.1.stores hv
  | find _ _ ih => exact ⟨ih.1.hold nofun, ih.2⟩

/-- Runs this many steps, as long as all checks hold. -/
def StrictMachine.after : Nat → StrictMachine → Except Defect StrictMachine
  | 0, m => .ok m
  | n + 1, m => m.step >>= after n

theorem Session.strict_after {m : Machine} (h : Session .free m held) (n : Nat) :
    m.strict.after n = .ok (m.after n).strict := by
  induction n generalizing m with
  | zero => rfl
  | succ n ih =>
    have hstep := (Machine.step_passes h.layered fun _ _ => h.counted.2.finish).1
    rw [StrictMachine.after, hstep]
    exact ih (.step h trivial)

/-- Whatever bodies a host adds, installs and calls, with whatever values it was given: no check of
the strict machine ever fails, and it goes through the same states. At all times every frame has its
operands between its baseline and its end, and no call ends with a misplaced stack pointer. -/
theorem Session.free_of_traps {m : Machine} (h : Session .free m held) (n : Nat) :
    m.strict.after n = .ok (m.after n).strict ∧
    (∀ f, (m.after n).HasFrame f → f.baseline ≤ f.top ∧ f.top ≤ f.slots.size) ∧
    ∀ o, (m.after n).outcome? = some o → o.settle ≠ .error (.internal .stackPointerOutside) := by
  have hlayered := (h.after fun _ _ => trivial : Session .free (m.after n) held).layered
  refine ⟨h.strict_after n, fun f hf => ?_, fun o ho => ?_⟩
  · exact ⟨(hlayered.proper hf).baseline_le, (hlayered.proper hf).top_le⟩
  · have houtcome := hlayered.outcome ho
    match o with
    | .ok v => nofun
    | .error (.fault f) => exact fun heq => houtcome (Except.error.inj heq)
    | .error (.nonLocalReturn v target) => nofun

def unruly : Source :=
  .method "unruly" [.pushBlock (.block 0 [.pushBlock (.block 0 [.halt]), .pop, .pop]), .send "value",
    .returnLocal]

set_option maxRecDepth 100000 in
theorem Session.free_of_traps_unruly :
    ∃ (m : Machine) (r : CodeRef), Session .free m [] ∧
      (m.after 9).outcome? = some (.error (.fault (.stackUnderflow r))) ∧
      m.strict.after 9 = .ok (m.after 9).strict ∧
      (∀ f, (m.after 9).HasFrame f → f.baseline ≤ f.top ∧ f.top ≤ f.slots.size) ∧
      ∀ o, (m.after 9).outcome? = some o → o.settle ≠ .error (.internal .stackPointerOutside) := by
  let c : HostCall := .invoke (.compiled unruly.standard.1) .nil []
  let r : CodeRef := ⟨unruly.standard.1.index - 1⟩
  have hrun : (unruly.standalone && ((c.machine unruly.standard.2).after 9).outcome? =
      some (.error (.fault (.stackUnderflow r)))) = true := by decide +kernel
  obtain ⟨hstandalone, houtcome⟩ := Bool.and_eq_true_iff.mp hrun
  have hadds : Adds [] World.standard unruly.standard.2 :=
    .source (Bool.and_eq_true_iff.mp hstandalone).1 (Source.standalone_compile hstandalone).1
  have hsession : Session .free (c.machine unruly.standard.2) [] :=
    .request (.add (.boot World.boot_standard) (Or.inl hadds)) (HostCall.invoke_allowed trivial)
  exact ⟨_, r, hsession, of_decide_eq_true houtcome, hsession.free_of_traps 9⟩

end MessageMachine
