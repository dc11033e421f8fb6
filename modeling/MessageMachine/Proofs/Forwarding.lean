import MessageMachine.Proofs.Answering
import MessageMachine.Proofs.Carrying
import MessageMachine.Proofs.Targets

namespace MessageMachine

/-- The body supplies a value, sends it this message, and returns what comes back. -/
structure Code.Forwards (c : Code) (selector : Symbol) (i : Instruction) : Prop where
  first : fetch c.bytecodes 0 = .ok i
  second : fetch c.bytecodes i.length = .ok (.send 0)
  third : fetch c.bytecodes (i.length + 2) = .ok .returnLocal
  literal : c.literals[0]? = some (.symbol selector)
  capacity : 0 < c.operandCapacity

theorem Frame.popN_all {f : Frame} (hf : f.Proper) :
    ∃ f', f.popN f.operands.length = .ok (f.operands, f') ∧ f.Continues f' ∧ f'.operands = [] := by
  obtain ⟨xs, f', hpop⟩ := Frame.popN_of_le hf (Nat.le_refl _)
  obtain ⟨hcontinues, hops, hlen, -⟩ := Frame.popN_eq_ok hpop
  have hsplit : [] ++ f.operands = f'.operands ++ xs := hops hf
  obtain ⟨hnil, hxs⟩ := List.append_inj' hsplit (hlen hf).symm
  exact ⟨f', by rw [hpop, hxs], hcontinues, hnil.symm⟩

namespace Footing

variable {f : Frame} {r : CodeRef} {offset : Nat} {w : World} {x : Value}

theorem start_asks {l : UInt8} {selector : Symbol} (k : MarkerRef) (hf : f.Proper) (hops : f.operands = [x])
    (hfetch : fetch (w.code r).bytecodes offset = .ok (.send l))
    (hselector : w.symbolLiteral r l.toNat = .ok selector) (harity : selector.arity = 1) (b : Footing) :
    ∃ f' : Frame, f'.Proper ∧ f'.code = f.code ∧ f'.operands = [] ∧
      (b.start ⟨.own f, r, k, offset⟩ w).Asks x selector [] (b.opened w)
        (.send ⟨.own f', r, k, offset + 2⟩ b.below b.waiting) 1 := by
  obtain ⟨f', hpop, hcontinues, hnil⟩ := Frame.popN_all hf
  rw [hops] at hpop
  refine ⟨f', hcontinues.proper hf, hcontinues.code, hnil, ?_⟩
  let a : Activation := ⟨.own f, r, k, offset⟩
  have hnext : (b.start a w).next? = some (⟨a, b.below⟩, .send l) := by
    refine Machine.next?_eq_some.mpr ⟨rfl, Activation.fetch_of_code ?_ _ k⟩
    change fetch ((b.opened w).code r).bytecodes offset = _
    rw [opened_code]
    exact hfetch
  have hliteral : (b.start a w).world.symbolLiteral a.method l.toNat = .ok selector := by
    cases b <;> exact hselector
  have hrun : a.handle.popN selector.arity (b.opened w) = .ok ([x], .own f') (b.opened w) := by
    rw [harity]
    simp only [a, FrameHandle.popN, FrameHandle.take]
    rw [show f.popN 1 = .ok ([x], f') from hpop]
  exact .send hnext hliteral hrun

/-- An activation that waits to return what it is given passes on whatever comes to it, but for a return
to itself. -/
theorem resume_passes (k : MarkerRef) (hf : f.Proper) (hops : f.operands = [])
    (hcapacity : 0 < f.code.operandCapacity)
    (hfetch : fetch (w.code r).bytecodes offset = .ok .returnLocal) {o : Outcome}
    (ho : ∀ x, o ≠ .error (.nonLocalReturn x k)) (b : Footing) :
    ∃ j ≤ 2, ∃ journal, b.Receives ({ w with journal, depth := w.depth - 1 }.deactivate k) o
      (((send ⟨.own f, r, k, offset⟩ b.below b.waiting).resume o (b.opened w)).after j) := by
  cases o with
  | ok x =>
    obtain ⟨f', hpush⟩ := Frame.push_of_lt hf (by rw [hops]; exact hcapacity) x
    obtain ⟨hcontinues, hpushed, -⟩ := Frame.push_eq_ok hpush
    have hdeliver : (send ⟨.own f, r, k, offset⟩ b.below b.waiting).resume (.ok x) (b.opened w) =
        b.start ⟨.own f', r, k, offset⟩ w := by
      simp only [resume, Machine.handOver, Machine.deliver, RunLoop.push, Action.bind_apply,
        FrameHandle.push, FrameHandle.modify, hpush]
      rfl
    rw [hdeliver]
    have hops' : f'.operands = [x] := by
      rw [hpushed hf, hops]
      rfl
    obtain ⟨journal, hreceives⟩ := start_returns k (hcontinues.proper hf) hops' hfetch b
    exact ⟨2, Nat.le_refl 2, journal, hreceives⟩
  | error u =>
    refine ⟨1, by decide, w.journal, ?_⟩
    let a : Activation := ⟨.own f, r, k, offset⟩
    have hfinish := finish_passes (b := b) (w := w) a fun x hx => absurd hx (ho x)
    change b.Receives _ _ (Machine.finish ⟨a, b.below⟩ (.error u) b.waiting (b.opened w))
    rw [hfinish]
    exact b.receives_resume _ _

end Footing

theorem Activation.start_of_create {w : World} {r : CodeRef} {args : List Value} {outer : Option FrameRef}
    {f : Frame} (hdepth : w.depth < w.config.maxCallDepth)
    (hf : Frame.create r (w.code r) args w.markers.next outer = .ok f) :
    start r args outer w = .ok ⟨.own f, r, w.markers.next, 0⟩ { w with
      markers := w.markers.push true, depth := w.depth + 1
      counters := { w.counters with frames := w.counters.frames + 1 } } := by
  obtain ⟨-, -, -, -, -, hmarker, -, -⟩ := Frame.create_eq_ok hf
  simp only [start, Action.bind_apply, Action.get_apply, if_neg (Nat.not_le.mpr hdepth),
    Action.makeFrame, hf]
  rw [← hmarker]
  rfl

/-- What starts in the loop of its sender can start in a loop of its own, where there is room for one. -/
theorem World.Activates.alone {w w' : World} {r : CodeRef} {args : List Value} {outer : Option FrameRef}
    {callee : Activation} (h : w.Activates r args outer callee w') (hopen : 0 < w.reentry)
    (hroom : w.reentry ≤ w.config.maxReentryDepth) :
    ∃ u, w.EqualUpToTraces { u with reentry := u.reentry + 1 } ∧
      Machine.execute r args outer [] u = ⟨.run ⟨callee, []⟩, [], w'⟩ := by
  obtain ⟨v, hv, hstart⟩ := h.starts
  obtain ⟨hdepth, -, f, hf, rfl⟩ := (Activation.start_creates r args outer v).of_ok hstart
  rw [Activation.start_of_create hdepth hf] at hstart
  cases hstart
  have hreentry : w.reentry - 1 + 1 = v.reentry := by
    rw [Nat.sub_add_cancel hopen]
    exact (congrArg World.reentry hv :).symm
  let u : World := { v with reentry := w.reentry - 1 }
  have hstart : Activation.start r args outer u = .ok _ _ := Activation.start_of_create (w := u) hdepth hf
  have hloop : ¬ u.config.maxReentryDepth ≤ u.reentry := by
    have hconfig : u.config = w.config := (congrArg World.config hv :)
    have hlt : w.reentry - 1 < w.reentry := Nat.sub_lt hopen Nat.one_pos
    rw [hconfig]
    exact Nat.not_le.mpr (Nat.lt_of_lt_of_le hlt hroom)
  refine ⟨u, ?_, ?_⟩
  · have hsame : ({ u with reentry := u.reentry + 1 } : World) = v := by
      simp only [u, hreentry]
    rw [hsame]
    exact hv
  · simp only [Machine.execute, RunLoop.start, Action.bind_apply, Action.get_apply, if_neg hloop, hstart]
    simp only [Action.modify_apply, u, hreentry]
    rfl

/-- From here on the machine evaluates what `own` evaluates on its own, above a sender that passes on
what comes of it. In the end the marker of the sender is dead, and that is all it leaves behind. -/
structure Machine.Delegates (m own : Machine) (sender : Activation) (b : Footing) (reentry : Nat) :
    Prop where
  carries : ∀ k, (∀ j ≤ k, (own.after j).outcome? = none) →
    (Footing.send sender b.below b.waiting).Carries (own.after k) (m.after k)
  passes : ∀ k o, (∀ j < k, (own.after j).outcome? = none) → (own.after k).outcome? = some o →
    ∃ j ≤ 2, ∃ journal, b.Receives
      ({ (own.after k).world with
        journal, reentry, depth := (own.after k).world.depth - 1 }.deactivate sender.marker)
      o (m.after (k + j))

theorem Machine.unwinding_of_outcome {m : Machine} {x : Value} {k : MarkerRef}
    (h : m.outcome? = some (.error (.nonLocalReturn x k))) : m.Unwinding x k := by
  obtain ⟨control, waiting, w⟩ := m
  cases control with
  | run | finish | call => cases h
  | answer o =>
    cases waiting with
    | nil => exact Option.some.inj h
    | cons y rest => cases h

/-- What was started above a sender that returns what it is given is delegated, as long as the frame of
the sender is not captured. -/
theorem World.Activates.delegates {w w' : World} {r r' : CodeRef} {args : List Value}
    {outer : Option FrameRef} {callee : Activation} {f : Frame} {k : MarkerRef} {offset : Nat} {b : Footing}
    (h : (b.opened w).Activates r' args outer callee w') (hopen : 0 < (b.opened w).reentry)
    (hreentry : (b.opened w).reentry ≤ w.config.maxReentryDepth) (hdepth : w.depth ≤ w.config.maxCallDepth)
    (hf : f.Proper) (hops : f.operands = []) (hcapacity : 0 < f.code.operandCapacity)
    (hfetch : fetch (w.code r).bytecodes offset = .ok .returnLocal) (hk : k.index < w.markers.size)
    (hw : w.Uncaptured k) :
    let sender : Activation := ⟨.own f, r, k, offset⟩
    ∃ u, (b.opened w).EqualUpToTraces { u with reentry := u.reentry + 1 } ∧
      ((Footing.send sender b.below b.waiting).start callee w').Delegates
        (Machine.execute r' args outer [] u) sender b w.reentry := by
  intro sender
  have hconfig : (b.opened w).config = w.config := by cases b <;> rfl
  obtain ⟨u, hu, hown⟩ := h.alone hopen (by rw [hconfig]; exact hreentry)
  -- But for its loops the world is the one that the sender was suspended in.
  have hsame : u.config = w.config ∧ u.depth = w.depth ∧ u.markers = w.markers ∧ u.frames = w.frames ∧
      u.code r = w.code r ∧ u.reentry + 1 = (b.opened w).reentry := by
    cases b <;> exact ⟨(congrArg World.config hu :), (congrArg World.depth hu :),
      (congrArg World.markers hu :), (congrArg World.frames hu :), (congrArg (World.code · r) hu :),
      (congrArg World.reentry hu :)⟩
  obtain ⟨huconfig, hudepth, humarkers, huframes, hucode, hureentry⟩ := hsame
  let req : Request := .host (.execute r' args outer)
  have hcarries : (Footing.send sender b.below b.waiting).Carries (req.machine u)
      ((Footing.send sender b.below b.waiting).start callee w') := by
    rw [show req.machine u = _ from hown]
    exact .run (.base ⟨callee, []⟩)
  obtain ⟨hgoes, hlands⟩ := req.carried (by rw [hudepth, huconfig]; exact hdepth)
    (by rw [huconfig]; exact Nat.le_of_succ_le (Nat.le_trans (Nat.le_of_eq hureentry) hreentry)) hcarries
  refine ⟨u, hu, hgoes, fun n o hnone ho => ?_⟩
  have hother (x : Value) : o ≠ .error (.nonLocalReturn x k) := by
    rintro rfl
    exact req.never_unwinds (humarkers ▸ hk) (hw.congr huframes) n x (Machine.unwinding_of_outcome ho)
  let v : World := { ((req.machine u).after n).world with reentry := w.reentry }
  have hlast : ({ ((req.machine u).after n).world with reentry := u.reentry + 1 } : World) = b.opened v := by
    rw [hureentry]
    cases b <;> rfl
  have hreturns : fetch (v.code r).bytecodes offset = .ok .returnLocal := by
    change fetch (((req.machine u).after n).world.code r).bytecodes offset = _
    rw [req.code_after, hucode]
    exact hfetch
  obtain ⟨j, hj, journal, hreceives⟩ := Footing.resume_passes k hf hops hcapacity hreturns hother b
  refine ⟨j, hj, journal, ?_⟩
  rw [Machine.after_add, hlands n o hnone ho]
  change b.Receives _ o (((Footing.send sender b.below b.waiting).resume o
    { ((req.machine u).after n).world with reentry := u.reentry + 1 }).after j)
  rw [hlast]
  exact hreceives

end MessageMachine
