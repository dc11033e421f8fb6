import MessageMachine.Proofs.Counting

namespace MessageMachine

open MessageMachine.Action

variable {w w' : World} {a : Activation}

/-- The body leads to more operands than it has room for. -/
def Code.Overflows (c : Code) : Prop := ∃ offset n, c.Reaches offset n ∧ c.operandCapacity < n

/-- If this is a want of room, some body is to blame. -/
def Fault.Accounted (f : Fault) (w : World) : Prop :=
  ∀ r, f.overflowed? = some r → (w.code r).Overflows

theorem Fault.Accounted.of_program {f : Fault} (h : f.isProgramFault) : f.Accounted w := by
  intro r hr
  rw [f.overflowed?_of_program h] at hr
  cases hr

theorem Fault.Accounted.congr {f : Fault} (h : f.Accounted w) (hcodes : w'.codes = w.codes) :
    f.Accounted w' := by
  intro r hr
  rw [World.code, hcodes]
  exact h r hr

namespace Activation

theorem Counted.congr {n : Nat} (h : a.Counted w n) (hcodes : w'.codes = w.codes)
    (hcode : (a.handle.frame w').code = (a.handle.frame w).code)
    (hops : (a.handle.frame w').operands = (a.handle.frame w).operands) : a.Counted w' n := by
  unfold Counted World.code at h ⊢
  rwa [hcodes, hcode, hops]

theorem Counted.leaves {n : Nat} (h : a.Counted w n) (ha : a.handle.Held a.marker a.method w)
    (hl : w.Leaves a.marker w') (hcodes : w'.codes = w.codes) : a.Counted w' n := by
  obtain ⟨-, hops, hcode⟩ := hl a.method a.handle ha
  exact h.congr hcodes hcode hops

end Activation

def Effect.Counted : Effect → World → Prop
  | .resume b, w' => b.Counted w' 0
  | .activate sender callee, w' => sender.Counted w' 1 ∧ callee.Counted w' 0
  | .callOut sender _ use, w' => use = .push → sender.Counted w' 1
  | .complete _, _ | .unwind _ _, _ => True

namespace Activation

/-- After an instruction that is not the last one, an activation stands where its body leads to. -/
theorem Counted.next {b : Activation} {i : Instruction} {n : Nat} (h : a.Counted w 0)
    (hi : a.fetch w = .ok i) (hends : i.ends = false)
    (htakes : a.takes w i ≤ (a.handle.frame w).operands.length) (hcodes : w'.codes = w.codes)
    (hcode : (b.handle.frame w').code = (a.handle.frame w).code) (hmethod : b.method = a.method)
    (hoffset : b.offset = a.offset + i.length)
    (hcount : (b.handle.frame w').operands.length + n =
      (a.handle.frame w).operands.length - a.takes w i + i.gives) : b.Counted w' n := by
  have hsame : w'.code a.method = w.code a.method := by rw [World.code, hcodes, World.code]
  unfold Counted
  rw [hcode, hmethod, hoffset, hcount, hsame]
  exact ⟨h.1, .next h.2 (fetch_eq_ok hi) hends htakes⟩

theorem step_counts (ha : a.handle.Held a.marker a.method w) (h : a.Counted w 0) :
    a.step.Ensures w Effect.Counted Fault.Accounted := by
  have hbrings := a.step_brings ha
  have hleaves := a.step_recalls w
  unfold Ensures at hleaves ⊢
  unfold Yields Ensures at hbrings
  cases hrun : a.step w with
  | ok e w' =>
    rw [hrun] at hbrings hleaves
    obtain ⟨-, i, hi, hat⟩ := hleaves
    have htallies := (step_tallies ha hi).of_ok hrun
    have next {b : Activation} {v : World} {n : Nat} (hb : a.Goes w b v) (hv : w'.codes = v.codes)
        (hframe : b.handle.frame w' = b.handle.frame v) (hoffset : b.offset = a.offset + i.length)
        (hends : i.ends = false) (htakes : a.takes w i ≤ (a.handle.frame w).operands.length)
        (hcount : (b.handle.frame w').operands.length + n =
          (a.handle.frame w).operands.length - a.takes w i + i.gives) : b.Counted w' n :=
      h.next hi hends htakes (hv.trans hb.leads.moved.codes)
        ((congrArg Frame.code hframe).trans hb.leads.code) hb.method hoffset hcount
    cases e with
    | resume b =>
      obtain ⟨hends, htakes, hcount⟩ := htallies
      exact next hbrings rfl rfl hat hends htakes hcount
    | activate sender callee =>
      obtain ⟨v, hsender, hcallee⟩ := hbrings
      obtain ⟨hgives, htakes, hcount, hcounted⟩ := htallies
      refine ⟨next hsender ?_ ?_ hat.1 (Instruction.ends_of_gives hgives) htakes ?_, hcounted⟩
      · rw [hcallee.world]
      · exact sender.handle.frame_congr (by rw [hcallee.world])
      · rw [hcount, hgives]
    | callOut sender c use =>
      intro huse
      obtain ⟨hgives, htakes, hcount⟩ := htallies huse
      refine next hbrings rfl rfl hat (Instruction.ends_of_gives hgives) htakes ?_
      rw [hcount, hgives]
    | complete | unwind => exact trivial
  | error f w' =>
    rw [hrun] at hbrings
    intro r hr
    cases hi : a.fetch w with
    | error e =>
      simp only [step, Action.bind_apply, Action.get_apply, hi, Action.lift_error] at hrun
      cases hrun
      rw [overflowed?_fetch hi] at hr
      cases hr
    | ok i =>
      obtain ⟨rfl, hends, htakes, hlt⟩ := (step_tallies ha hi).of_error hrun r hr
      rw [h.1] at hlt
      have hsame : w'.code a.method = w.code a.method := by
        rw [World.code, hbrings.codes, World.code]
      rw [hsame]
      exact ⟨_, _, .next h.2 (fetch_eq_ok hi) hends htakes, hlt⟩

theorem push_counts (ha : a.handle.Held a.marker a.method w) (h : a.Counted w 1) (v : Value) :
    (a.handle.push v).Ensures w (fun handle w' => { a with handle }.Counted w' 0)
      Fault.Accounted := by
  have hpush := FrameHandle.push_moves ha v
  unfold Ensures
  unfold Moves Ensures at hpush
  cases hrun : a.handle.push v w with
  | ok handle w' =>
    rw [hrun] at hpush
    obtain ⟨-, hl, hops⟩ := hpush
    have hsame : w'.code a.method = w.code a.method := by
      rw [World.code, hl.moved.codes, World.code]
    refine ⟨hl.code.trans (h.1.trans hsame.symm), ?_⟩
    rw [hsame, hops, List.length_append]
    exact h.2
  | error e w' =>
    intro r hr
    rw [FrameHandle.push, FrameHandle.modify_apply] at hrun
    cases hf : (a.handle.frame w).push v with
    | ok f =>
      rw [hf] at hrun
      cases hrun
    | error e' =>
      rw [hf] at hrun
      cases hrun
      obtain ⟨rfl, hle⟩ := Frame.le_of_overflow ha.proper hf hr
      rw [ha.method]
      refine ⟨_, _, h.2, ?_⟩
      rw [← h.1]
      exact Nat.lt_succ_of_le hle

end Activation

namespace Machine

/-- The activations that wait for a result, innermost first. -/
def due (m : Machine) : List Activation :=
  (m.control.loop?.map (·.suspended)).getD [] ++ m.waiting.flatMap (·.due)

/-- All is counted but those below, who wait for a result. -/
structure Counts (below : List Activation) (m : Machine) : Prop where
  running : ∀ loop, m.control = .run loop → loop.current.Counted m.world 0
  due : ∀ a ∈ m.due, a ∈ below ∨ a.Counted m.world 1
  fault : ∀ f, m.Failing f → f.Accounted m.world

section

variable (waiting : List Waiting) (w : World)

theorem fault_counts {f : Fault} (h : f.Accounted w) :
    Counts (waiting.flatMap (·.due)) ⟨.fault f, waiting, w⟩ := by
  refine ⟨nofun, fun a ha => .inl ha, fun g hg => ?_⟩
  obtain hg | ⟨loop, hg⟩ := hg
  · cases hg
    exact h
  · cases hg

theorem execute_counts (method : CodeRef) (args : List Value) (outer : Option FrameRef) :
    Counts (waiting.flatMap (·.due)) (execute method args outer waiting w) := by
  unfold execute RunLoop.start
  simp only [Action.bind_apply, Action.get_apply]
  by_cases hr : w.config.maxReentryDepth ≤ w.reentry
  · rw [if_pos hr]
    exact fault_counts waiting w (.of_program rfl)
  rw [if_neg hr, Action.bind_apply]
  have hstart := Activation.start_counted method args outer w
  have hfails := Activation.start_creates method args outer w
  cases hrun : Activation.start method args outer w with
  | error f w' => exact fault_counts waiting w' (.of_program (hfails.of_error hrun).1)
  | ok callee w' =>
    refine ⟨fun loop hloop => ?_, fun a ha => .inl ha, fun f hf => ?_⟩
    · cases hloop
      exact (hstart.of_ok hrun).congr rfl (congrArg Frame.code (FrameHandle.frame_congr rfl _))
        (congrArg Frame.operands (FrameHandle.frame_congr rfl _))
    · obtain hf | ⟨loop, hf⟩ := hf <;> cases hf

theorem reply_counts (r : Reply) :
    Counts (waiting.flatMap (·.due)) (reply r waiting w) := by
  match r with
  | .answer v =>
    refine ⟨nofun, fun a ha => .inl ha, fun f hf => ?_⟩
    obtain hf | ⟨loop, hf⟩ := hf <;> cases hf
  | .call c =>
    refine ⟨nofun, fun a ha => .inl ha, fun f hf => ?_⟩
    obtain hf | ⟨loop, hf⟩ := hf <;> cases hf
  | .evaluate b params none => exact execute_counts waiting w _ _ _
  | .evaluate b params (some i) => exact execute_counts (.iteration i :: waiting) w _ _ _

theorem operate_counts (op : Operation) (receiver : Value) (args : List Value) :
    Counts (waiting.flatMap (·.due)) (operate op receiver args waiting w) := by
  have hquiet : Quiet (fun _ => True) (fun _ => True) (op.start receiver args) _ :=
    op.start_quiet (fun _ _ => trivial) trivial fun _ _ => trivial
  unfold operate
  cases hrun : op.start receiver args w with
  | ok r w' => exact reply_counts waiting w' r
  | error f w' => exact fault_counts waiting w' (.of_program ((hquiet w w.holds_true).of_error hrun).1)

theorem call_counts (c : Call) : Counts (waiting.flatMap (·.due)) (call c waiting w) := by
  obtain ⟨method, args⟩ := c
  match method, args with
  | .compiled r, args => exact execute_counts waiting w r args none
  | .primitive p, receiver :: args => exact operate_counts waiting w _ receiver args
  | .primitive p, [] => exact fault_counts waiting w (.of_program rfl)

theorem dispatch_counts (receiver : Value) (selector : Symbol) (args : List Value) :
    Counts [] (dispatch receiver selector args w) := by
  have hquiet : Quiet (fun _ => True) (fun _ => True) (Action.dispatch receiver selector args) _ :=
    Action.dispatch_quiet (fun _ _ => trivial) selector trivial fun _ _ => trivial
  unfold dispatch
  cases hrun : Action.dispatch receiver selector args w with
  | ok c w' => exact call_counts [] w' c
  | error f w' => exact fault_counts [] w' (.of_program ((hquiet w w.holds_true).of_error hrun).1)

theorem request_counts (r : Request) : Counts [] (r.machine w) := by
  match r with
  | .primitive op receiver args => exact operate_counts [] w op receiver args
  | .host (.invoke m receiver args) =>
    simp only [Request.machine, HostCall.machine]
    split
    · exact call_counts [] w _
    · exact fault_counts [] w (.of_program rfl)
  | .host (.send receiver selector args) =>
    simp only [Request.machine, HostCall.machine]
    split
    · exact dispatch_counts _ receiver _ args
    · exact fault_counts [] _ (.of_program rfl)
  | .host (.dispatch receiver selector args) => exact dispatch_counts w receiver selector args
  | .host (.call m args) => exact call_counts [] w _
  | .host (.evaluate b params) => exact execute_counts [] w _ _ _
  | .host (.execute method args outer) => exact execute_counts [] w method args outer

variable {waiting w}

theorem finish_counts (loop : RunLoop) {o : Outcome} (h : ∀ f, o = .error (.fault f) → f.Accounted w) :
    Counts (loop.suspended ++ waiting.flatMap (·.due)) ⟨.finish loop o, waiting, w⟩ := by
  refine ⟨nofun, fun a ha => .inl ha, fun f hf => ?_⟩
  obtain hf | ⟨l, hf⟩ := hf
  · cases hf
  · cases hf
    exact h f rfl

theorem run_counts {loop : RunLoop} {below : List Activation} (hloop : loop.current.Counted w 0)
    (hdue : ∀ a ∈ loop.suspended ++ waiting.flatMap (·.due), a ∈ below ∨ a.Counted w 1) :
    Counts below ⟨.run loop, waiting, w⟩ := by
  refine ⟨fun l hl => ?_, hdue, fun f hf => ?_⟩
  · cases hl
    exact hloop
  · obtain hf | ⟨l, hf⟩ := hf <;> cases hf

theorem handOver_counts (loop : RunLoop)
    (hheld : loop.current.handle.Held loop.current.marker loop.current.method w)
    (h : loop.current.Counted w 1) {o : Outcome} (ho : ∀ f, o = .error (.fault f) → f.Accounted w) :
    Counts (loop.suspended ++ waiting.flatMap (·.due)) (handOver loop o waiting w) := by
  cases o with
  | error u => exact finish_counts loop ho
  | ok v =>
    have hpush := Activation.push_counts hheld h v
    unfold handOver deliver RunLoop.push
    simp only [Action.bind_apply]
    cases hrun : loop.current.handle.push v w with
    | ok handle w' => exact run_counts (hpush.of_ok hrun) fun a ha => .inl ha
    | error f w' =>
      refine finish_counts loop fun g hg => ?_
      cases hg
      exact hpush.of_error hrun

theorem advance_counts {loop : RunLoop}
    (hheld : loop.current.handle.Held loop.current.marker loop.current.method w)
    (h : loop.current.Counted w 0) :
    Counts (loop.suspended ++ waiting.flatMap (·.due)) (advance loop waiting w) := by
  have hstep := Activation.step_counts hheld h
  unfold advance
  cases hrun : loop.current.step w with
  | error f w' =>
    refine finish_counts loop fun g hg => ?_
    cases hg
    exact hstep.of_error hrun
  | ok e w' =>
    have he := hstep.of_ok hrun
    cases e with
    | resume a => exact run_counts he fun b hb => .inl hb
    | activate sender callee =>
      refine run_counts he.2 (List.forall_mem_cons.mpr ⟨.inr he.1, fun b hb => .inl hb⟩)
    | callOut sender c use =>
      refine ⟨nofun, fun b hb => ?_, fun f hf => ?_⟩
      · cases use with
        | push =>
          obtain rfl | hb := List.mem_cons.mp hb
          · exact .inr (he rfl)
          · exact .inl hb
        | complete => exact .inl hb
      · obtain hf | ⟨l, hf⟩ := hf <;> cases hf
    | complete | unwind =>
      refine finish_counts loop fun g hg => ?_
      cases hg

end

def Counted (m : Machine) : Prop := m.Counts []

theorem Counts.counted {below : List Activation} {m : Machine} (h : m.Counts below)
    (hbelow : ∀ a ∈ below, a.Counted m.world 1) : m.Counted :=
  ⟨h.running, fun a ha => .inr ((h.due a ha).elim (hbelow a) id), h.fault⟩

theorem Reached.codes_step {m : Machine} (h : m.Reached) : m.step.world.codes = m.world.codes := by
  obtain ⟨r, w, n, rfl⟩ := h
  have hcodes (n : Nat) := (r.fixed w n).codes
  simp only [world_snapshot] at hcodes
  rw [← after_succ, hcodes, hcodes]

theorem mem_activations_of_due {waiting : List Waiting} {a : Activation} (h : a ∈ waiting.flatMap (·.due)) :
    a ∈ waiting.flatMap (·.activations) := by
  obtain ⟨x, hx, ha⟩ := List.mem_flatMap.mp h
  exact List.mem_flatMap.mpr ⟨x, hx, Waiting.mem_activations ha⟩

theorem Reached.awaits {m : Machine} (hm : m.Reached) {a : Activation} (ha : a ∈ m.snapshot.going)
    (hworker : m.worker? ≠ some a.marker) (h : a.Counted m.world 1) : a.Counted m.step.world 1 := by
  have hheld := hm.held a ha
  rw [world_snapshot] at hheld
  exact h.leaves hheld (step_leaves hm.held hworker) hm.codes_step

theorem Counted.awaits {m : Machine} (h : m.Counted) (hm : m.Reached) {a : Activation} (ha : a ∈ m.due)
    (hgoing : a ∈ m.snapshot.going) (hworker : m.worker? ≠ some a.marker) :
    a.Counted m.step.world 1 :=
  hm.awaits hgoing hworker ((h.due a ha).resolve_left List.not_mem_nil)

theorem Counted.run_step {loop : RunLoop} {waiting : List Waiting} {w : World}
    (h : Counted ⟨.run loop, waiting, w⟩) (hm : Reached ⟨.run loop, waiting, w⟩) :
    (advance loop waiting w).Counted := by
  refine (advance_counts (hm.held _ List.mem_cons_self) (h.running loop rfl)).counted fun a ha => ?_
  have hmem : a ∈ loop.suspended ++ waiting.flatMap (·.activations) :=
    List.mem_append.mpr ((List.mem_append.mp ha).imp_right mem_activations_of_due)
  exact h.awaits hm ha (List.mem_cons_of_mem _ hmem) (marker_ne [] hm.descending hmem)

theorem Counted.finish_step {loop : RunLoop} {o : Outcome} {waiting : List Waiting} {w : World}
    (h : Counted ⟨.finish loop o, waiting, w⟩) (hm : Reached ⟨.finish loop o, waiting, w⟩) :
    (finish loop o waiting w).Counted := by
  have hretire := loop.current.retire_still o w
  have houtcome (f : Fault) (hf : (loop.current.retire o w).1 = .error (.fault f)) :
      f.Accounted (loop.current.retire o w).2 := by
    refine (h.fault f (.inr ⟨loop, ?_⟩)).congr hretire.codes
    obtain ⟨v, rfl, -, hr⟩ | ⟨-, hr⟩ := loop.current.retire_cases o w <;> rw [hr] at hf
    · cases hf
    · exact congrArg (Control.finish loop) hf
  have awaits {a : Activation} := h.awaits hm (a := a)
  have hstep : Machine.step ⟨.finish loop o, waiting, w⟩ = finish loop o waiting w := rfl
  obtain ⟨current, suspended⟩ := loop
  rw [hstep, Footing.finish_eq] at awaits
  rw [Footing.finish_eq]
  cases suspended with
  | nil =>
    have hidle : Counts (waiting.flatMap (·.due)) ⟨.answer (current.retire o w).1, waiting,
        { (current.retire o w).2 with reentry := (current.retire o w).2.reentry - 1 }⟩ := by
      refine ⟨nofun, fun a ha => .inl ha, fun f hf => ?_⟩
      obtain hf | ⟨l, hf⟩ := hf
      · exact (houtcome f (Control.answer.inj hf)).congr rfl
      · cases hf
    exact hidle.counted fun a ha => awaits ha (mem_activations_of_due ha) nofun
  | cons sender rest =>
    have hsender := (h.due sender List.mem_cons_self).resolve_left List.not_mem_nil
    have hframe := sender.handle.frame_congr hretire.frames
    refine (handOver_counts ⟨sender, rest⟩
      ((hm.held sender List.mem_cons_self).congr hretire.frames)
      (hsender.congr hretire.codes (congrArg Frame.code hframe) (congrArg Frame.operands hframe))
      houtcome).counted fun a ha => ?_
    have hmem : a ∈ rest ++ waiting.flatMap (·.activations) :=
      List.mem_append.mpr ((List.mem_append.mp ha).imp_right mem_activations_of_due)
    exact awaits (List.mem_cons_of_mem _ ha) (List.mem_cons_of_mem _ hmem)
      (marker_ne [current] hm.descending hmem)

theorem Counted.deliver_step {o : Outcome} {loop : RunLoop} {rest : List Waiting} {w : World}
    (h : Counted ⟨.answer o, .sender loop .push :: rest, w⟩)
    (hm : Reached ⟨.answer o, .sender loop .push :: rest, w⟩) :
    (handOver loop o rest w).Counted := by
  have hsender := (h.due loop.current List.mem_cons_self).resolve_left List.not_mem_nil
  have awaits {a : Activation} := h.awaits hm (a := a)
  have hstep : Machine.step ⟨.answer o, .sender loop .push :: rest, w⟩ = handOver loop o rest w :=
    answer_handOver loop o rest w
  rw [hstep] at awaits
  refine (handOver_counts loop (hm.held _ List.mem_cons_self) hsender
    fun f hf => ?_).counted fun a ha => ?_
  · exact h.fault f (.inl (congrArg Control.answer hf))
  have hmem : a ∈ loop.suspended ++ rest.flatMap (·.activations) :=
    List.mem_append.mpr ((List.mem_append.mp ha).imp_right mem_activations_of_due)
  exact awaits (List.mem_cons_of_mem _ ha) (List.mem_cons_of_mem _ hmem)
    (marker_ne [] hm.descending hmem)

theorem Counted.complete_step {o : Outcome} {loop : RunLoop} {rest : List Waiting} {w : World}
    (h : Counted ⟨.answer o, .sender loop .complete :: rest, w⟩)
    (hm : Reached ⟨.answer o, .sender loop .complete :: rest, w⟩) :
    (answer o (.sender loop .complete :: rest) w).Counted := by
  have hfinish : Counts (loop.suspended ++ rest.flatMap (·.due)) ⟨.finish loop o, rest, w⟩ :=
    finish_counts loop fun f hf => h.fault f (.inl (congrArg Control.answer hf))
  have hstep : answer o (.sender loop .complete :: rest) w = ⟨.finish loop o, rest, w⟩ := by
    cases o <;> rfl
  rw [hstep]
  refine hfinish.counted fun a ha => ?_
  have hmem : a ∈ loop.suspended ++ rest.flatMap (·.activations) :=
    List.mem_append.mpr ((List.mem_append.mp ha).imp_right mem_activations_of_due)
  have hawaits := h.awaits hm ha (List.mem_cons_of_mem _ hmem) (marker_ne [] hm.descending hmem)
  exact hstep ▸ hawaits

theorem Counted.iterate_step {i : Iteration} {o : Outcome} {rest : List Waiting} {w : World}
    (h : Counted ⟨.answer o, .iteration i :: rest, w⟩)
    (hm : Reached ⟨.answer o, .iteration i :: rest, w⟩) :
    (answer o (.iteration i :: rest) w).Counted := by
  cases o with
  | error u =>
    refine ⟨nofun, h.due, fun f hf => ?_⟩
    obtain hf | ⟨l, hf⟩ := hf
    · exact h.fault f (.inl hf)
    · cases hf
  | ok v =>
    have hholds : i.Holds fun _ => True := by
      cases i with
      | testing | repeating => exact ⟨trivial, trivial⟩
      | counting => trivial
    have hanswers : Answers (·.Holds (fun _ => True) fun _ => True) (i.next v) :=
      Iteration.next_answers (fun _ _ => trivial) hholds v
    have awaits {a : Activation} := h.awaits hm (a := a)
    have hstep : Machine.step ⟨.answer (.ok v), .iteration i :: rest, w⟩ =
      answer (.ok v) (.iteration i :: rest) w := rfl
    rw [hstep, answer] at awaits
    rw [answer]
    have idle {k : MarkerRef} : worker? ⟨.answer (.ok v), .iteration i :: rest, w⟩ ≠ some k := by
      intro h
      cases h
    cases hnext : i.next v with
    | ok r =>
      rw [hnext] at awaits
      exact (reply_counts rest w r).counted fun a ha => awaits ha (mem_activations_of_due ha) idle
    | error f =>
      rw [hnext] at awaits hanswers
      have hfault : f.isProgramFault := Fault.isProgramFault_of_primitiveFailure hanswers
      exact (fault_counts rest w (.of_program hfault)).counted fun a ha =>
        awaits ha (mem_activations_of_due ha) idle

theorem Counted.step {m : Machine} (h : m.Counted) (hm : m.Reached) : m.step.Counted := by
  obtain ⟨control, waiting, w⟩ := m
  cases control with
  | run loop => exact h.run_step hm
  | finish loop o => exact h.finish_step hm
  | call c =>
    exact (call_counts waiting w c).counted fun a ha =>
      h.awaits hm ha (mem_activations_of_due ha) nofun
  | answer o =>
    cases waiting with
    | nil => exact h
    | cons x rest =>
      cases x with
      | iteration i => exact h.iterate_step hm
      | sender loop use =>
        cases use with
        | push =>
          have hstep : Machine.step ⟨.answer o, .sender loop .push :: rest, w⟩ =
            handOver loop o rest w := answer_handOver loop o rest w
          rw [hstep]
          exact h.deliver_step hm
        | complete => exact h.complete_step hm

theorem counted_request (r : Request) (w : World) (n : Nat) :
    ((r.machine w).after n).Counted := by
  induction n with
  | zero => exact request_counts w r
  | succ n ih =>
    rw [after_succ]
    exact ih.step ⟨r, w, n, rfl⟩

end Machine

end MessageMachine
