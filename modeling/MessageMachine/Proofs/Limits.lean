import MessageMachine.Proofs.Effects
import MessageMachine.Proofs.Leveling
import MessageMachine.Proofs.Sending
import MessageMachine.Proofs.Steady

namespace MessageMachine

namespace RunLoop

theorem start_steady (method : CodeRef) (args : List Value) (outer : Option FrameRef) :
    Steady (start method args outer) := by
  refine .below ?_ (fun _ _ hl => hl.2) (fun _ _ => rfl) fun _ => rfl
  exact .bind (Activation.start_steady _ _ _) fun a => .bind (.modify fun _ _ => rfl) fun _ => .pure _

theorem push_steady (loop : RunLoop) (v : Value) : Steady (loop.push v) :=
  .bind (loop.current.handle.push_steady v) fun _ => .pure _

end RunLoop

theorem Activation.retire_within (a : Activation) (o : Outcome) (w : World) (l : Limits) :
    a.retire o (w.within l) = ((a.retire o w).1, (a.retire o w).2.within l) := by
  match o with
  | .ok v | .error (.fault f) => rfl
  | .error (.nonLocalReturn v target) =>
    change (if !(w.code a.method).isBlock && target = a.marker then _ else _ : Outcome × World) =
      ((if !(w.code a.method).isBlock && target = a.marker then _ else _ : Outcome × World).1,
        (if !(w.code a.method).isBlock && target = a.marker then _ else _ : Outcome × World).2.within l)
    split
    · exact congrArg (Prod.mk _) (World.note_within (a.left w) l (.homeCompleted a.method v))
    · rfl

namespace Machine

/-- The same machine with other limits. -/
def within (m : Machine) (l : Limits) : Machine := { m with world := m.world.within l }

/-- Two machines after a step: they are the same but for the limits, or the first one fails at one. -/
def Tracks (l : Limits) (m m' : Machine) : Prop :=
  (∃ f, m.Failing f ∧ f.isLimit) ∨ m' = m.within l

variable {w : World} {l : Limits} (waiting : List Waiting)

theorem execute_tracks (hl : w.limits ≤ l) (method : CodeRef) (args : List Value)
    (outer : Option FrameRef) :
    Tracks l (execute method args outer waiting w) (execute method args outer waiting (w.within l)) := by
  unfold execute
  obtain ⟨f, v, hf, hlimit⟩ | hw := RunLoop.start_steady method args outer w l hl
  · rw [hf]
    exact .inl ⟨f, .inl rfl, hlimit⟩
  · rw [hw]
    cases RunLoop.start method args outer w <;> exact .inr rfl

theorem reply_tracks (hl : w.limits ≤ l) (r : Reply) :
    Tracks l (reply r waiting w) (reply r waiting (w.within l)) := by
  match r with
  | .answer v | .call c => exact .inr rfl
  | .evaluate b params none => exact execute_tracks waiting hl _ _ _
  | .evaluate b params (some i) => exact execute_tracks (.iteration i :: waiting) hl _ _ _

theorem operate_tracks (hl : w.limits ≤ l) (op : Operation) (receiver : Value) (args : List Value) :
    Tracks l (operate op receiver args waiting w) (operate op receiver args waiting (w.within l)) := by
  unfold operate
  obtain ⟨f, v, hf, hlimit⟩ | hw := op.start_steady receiver args w l hl
  · rw [hf]
    exact .inl ⟨f, .inl rfl, hlimit⟩
  · rw [hw]
    cases hr : op.start receiver args w with
    | ok r v => exact reply_tracks waiting ((op.start_steady receiver args).limits_eq hr ▸ hl) r
    | error f v => exact .inr rfl

theorem call_tracks (hl : w.limits ≤ l) (c : Call) :
    Tracks l (call c waiting w) (call c waiting (w.within l)) := by
  obtain ⟨method, args⟩ := c
  match method, args with
  | .compiled r, args => exact execute_tracks waiting hl r args none
  | .primitive p, receiver :: args => exact operate_tracks waiting hl _ receiver args
  | .primitive p, [] => exact .inr rfl

theorem deliver_tracks (hl : w.limits ≤ l) (loop : RunLoop) (v : Value) :
    Tracks l (deliver loop v waiting w) (deliver loop v waiting (w.within l)) := by
  unfold deliver
  obtain ⟨f, u, hf, hlimit⟩ | hw := loop.push_steady v w l hl
  · rw [hf]
    exact .inl ⟨f, .inr ⟨loop, rfl⟩, hlimit⟩
  · rw [hw]
    cases loop.push v w <;> exact .inr rfl

theorem advance_tracks (hl : w.limits ≤ l) (loop : RunLoop) :
    Tracks l (advance loop waiting w) (advance loop waiting (w.within l)) := by
  unfold advance
  obtain ⟨f, v, hf, hlimit⟩ | hw := loop.current.step_steady w l hl
  · rw [hf]
    exact .inl ⟨f, .inr ⟨loop, rfl⟩, hlimit⟩
  · rw [hw]
    cases loop.current.step w with
    | ok e v => cases e <;> exact .inr rfl
    | error f v => exact .inr rfl

theorem handOver_tracks (hl : w.limits ≤ l) (loop : RunLoop) (o : Outcome) :
    Tracks l (handOver loop o waiting w) (handOver loop o waiting (w.within l)) := by
  cases o with
  | ok v => exact deliver_tracks waiting hl loop v
  | error u => exact .inr rfl

theorem finish_tracks (hl : w.limits ≤ l) (loop : RunLoop) (o : Outcome) :
    Tracks l (finish loop o waiting w) (finish loop o waiting (w.within l)) := by
  rw [Footing.finish_eq, Footing.finish_eq, loop.current.retire_within]
  have hretired : (loop.current.retire o w).2.limits = w.limits :=
    congrArg (fun p => p.2.limits) (loop.current.retire_within o w w.limits)
  cases loop.suspended with
  | nil => exact .inr rfl
  | cons sender rest => exact handOver_tracks waiting (hretired ▸ hl) _ _

theorem answer_tracks (hl : w.limits ≤ l) (o : Outcome) :
    Tracks l (answer o waiting w) (answer o waiting (w.within l)) := by
  match waiting, o with
  | [], o => exact .inr rfl
  | .sender loop .push :: rest, .ok v => exact deliver_tracks rest hl loop v
  | .sender loop .push :: rest, .error u => exact .inr rfl
  | .sender loop .complete :: rest, o => exact .inr rfl
  | .iteration i :: rest, .ok v =>
    simp only [answer]
    cases i.next v with
    | ok r => exact reply_tracks rest hl r
    | error f => exact .inr rfl
  | .iteration i :: rest, .error u => exact .inr rfl

theorem step_tracks {m : Machine} (hl : m.world.limits ≤ l) : Tracks l m.step (m.within l).step := by
  obtain ⟨control, waiting, w⟩ := m
  cases control with
  | run loop => exact advance_tracks waiting hl loop
  | finish loop o => exact finish_tracks waiting hl loop o
  | call c => exact call_tracks waiting hl c
  | answer o => exact answer_tracks waiting hl o

def Unlimited (m : Machine) : Prop :=
  ∀ fuel f w, f.isLimit → m.run fuel ≠ some (.error (.fault f), w)

theorem Unlimited.not_failing {m : Machine} (h : m.Unlimited) {f : Fault} (hlimit : f.isLimit) :
    ¬ m.Failing f := by
  intro hf
  obtain ⟨fuel, ⟨o, w⟩, hr⟩ := hf.ends
  obtain rfl := hf.outcome hr
  exact h fuel f w hlimit hr

theorem Unlimited.step {m : Machine} (h : m.Unlimited) (ho : m.outcome? = none) :
    m.step.Unlimited := by
  intro fuel f w hlimit hr
  exact h (fuel + 1) f w hlimit (by rw [run_succ ho, hr])

theorem Tracks.eq {m m' : Machine} (h : Tracks l m m') (hm : m.Unlimited) : m' = m.within l := by
  obtain ⟨f, hf, hlimit⟩ | h := h
  · exact absurd hf (hm.not_failing hlimit)
  · exact h

theorem Unlimited.limits_step {m : Machine} (h : m.step.Unlimited) :
    m.step.world.limits = m.world.limits := by
  have hm := (step_tracks (m := m) m.world.limits.le_refl).eq h
  exact congrArg (fun m => m.world.limits) hm

theorem Unlimited.run_within {m : Machine} (h : m.Unlimited) (hl : m.world.limits ≤ l)
    (fuel : Nat) : (m.within l).run fuel = (m.run fuel).map (Prod.map id (·.within l)) := by
  induction fuel generalizing m with
  | zero =>
    change (m.outcome?.map _) = _
    simp only [run, Option.map_map]
    rfl
  | succ fuel ih =>
    cases ho : m.outcome? with
    | some o => rw [run_of_outcome? ho, run_of_outcome? (m := m.within l) ho]; rfl
    | none =>
      have hs := h.step ho
      rw [run_succ ho, run_succ (m := m.within l) ho, (step_tracks hl).eq hs]
      exact ih hs (hs.limits_step ▸ hl)

theorem dispatch_tracks (hl : w.limits ≤ l) (receiver : Value) (selector : Symbol)
    (args : List Value) :
    Tracks l (dispatch receiver selector args w) (dispatch receiver selector args (w.within l)) := by
  have hs := Action.dispatch_steady receiver selector args
  unfold dispatch
  obtain ⟨f, v, hf, hlimit⟩ | hw := hs w l hl
  · rw [hf]
    exact .inl ⟨f, .inl rfl, hlimit⟩
  · rw [hw]
    cases hr : Action.dispatch receiver selector args w with
    | ok c v => exact call_tracks [] (hs.limits_eq hr ▸ hl) c
    | error f v => exact .inr rfl

end Machine

open Machine in
theorem HostCall.machine_tracks {w : World} {l : Limits} (hl : w.limits ≤ l) (c : HostCall) :
    Tracks l (c.machine w) (c.machine (w.within l)) := by
  cases c with
  | invoke m receiver args =>
    change Tracks l (if args.length + 1 = w.argCount m then _ else _)
      (if args.length + 1 = w.argCount m then _ else _)
    split
    · exact call_tracks [] hl _
    · exact .inr rfl
  | send receiver selector args =>
    change Tracks l (if args.length + 1 = (w.intern selector).1.arity then _ else _)
      (if args.length + 1 = (w.intern selector).1.arity then _ else _)
    split
    · exact dispatch_tracks (w := (w.intern selector).2) hl receiver _ args
    · exact .inr rfl
  | dispatch receiver selector args => exact dispatch_tracks hl receiver selector args
  | call m args => exact call_tracks [] hl _
  | evaluate b params => exact execute_tracks [] hl _ _ _
  | execute r args outer => exact execute_tracks [] hl _ _ _

theorem Request.machine_tracks {w : World} {l : Limits} (hl : w.limits ≤ l) (r : Request) :
    Machine.Tracks l (r.machine w) (r.machine (w.within l)) := by
  cases r with
  | host c => exact c.machine_tracks hl
  | primitive op receiver args => exact Machine.operate_tracks [] hl op receiver args

/-- Whatever a host asks for, if the run does not end with a fault raised at a limit, it is the same
run within any higher limits: it ends after as many steps, with the same answer and in the same
world but for the limits, or goes on as long. -/
theorem Request.run_within_limits (r : Request) {w : World} {l : Limits} (hl : w.limits ≤ l)
    (h : ∀ fuel a w' f, r.run fuel w = some (a, w') → f.isLimit → a.settle ≠ .error f)
    (fuel : Nat) : r.run fuel (w.within l) = (r.run fuel w).map (Prod.map id (·.within l)) := by
  have hm : (r.machine w).Unlimited := by
    intro fuel f w' hlimit hr
    refine h fuel (r.answer (.error (.fault f))) w' f ?_ hlimit (r.settle_answer _)
    rw [run_eq, hr]
    rfl
  have hlimits : (r.machine w).world.limits = w.limits := by
    have hown := (r.machine_tracks w.limits.le_refl).eq hm
    exact congrArg (fun m => m.world.limits) hown
  rw [run_eq, run_eq, (r.machine_tracks hl).eq hm, hm.run_within (hlimits ▸ hl), Option.map_map,
    Option.map_map]
  rfl

set_option maxRecDepth 100000 in
theorem Request.comparing_within_limits :
    ∃ (w w' : World) (l : Limits), w.limits = ⟨2, 1⟩ ∧ l = ⟨1000, 100⟩ ∧ w.limits ≤ l ∧
      (∀ fuel a v f, Request.run fuel w (.host (.send (.boolean true) "~=" [.nil])) = some (a, v) →
        f.isLimit → a.settle ≠ .error f) ∧
      Request.run 60 (w.within l) (.host (.send (.boolean true) "~=" [.nil])) =
        some (.settled (.ok (.boolean true)), w'.within l) := by
  let w := World.standard.within ⟨2, 1⟩
  let r : Request := .host (.send (.boolean true) "~=" [.nil])
  have hrun : ((r.run 60 w).any fun r => r.1 = .settled (.ok (.boolean true))) = true := by
    decide +kernel
  obtain ⟨⟨a, w'⟩, hw, ha⟩ := Option.any_eq_true _ _ |>.mp hrun
  obtain rfl : a = .settled (.ok (.boolean true)) := of_decide_eq_true ha
  have hl : w.limits ≤ ⟨1000, 100⟩ := ⟨by decide, by decide⟩
  have hends : ∀ fuel a v f, r.run fuel w = some (a, v) → f.isLimit → a.settle ≠ .error f := by
    intro fuel a v f hr _ hf
    cases run_unique hr hw
    cases hf
  refine ⟨w, w', ⟨1000, 100⟩, rfl, rfl, hl, hends, ?_⟩
  rw [r.run_within_limits hl hends, hw]
  rfl

end MessageMachine
