import MessageMachine.Proofs.Liveness

namespace MessageMachine

open Relation

def World.Leaves (k : MarkerRef) (w w' : World) : Prop :=
  ∀ c (a : FrameHandle), a.Held k c w → a.Held k c w' ∧
    (a.frame w').operands = (a.frame w).operands ∧ (a.frame w').code = (a.frame w).code

namespace World.Leaves

variable {k k' : MarkerRef} {c : CodeRef} {w w' w'' : World}

theorem trans (h : w.Leaves k w') (h' : w'.Leaves k w'') : w.Leaves k w'' := by
  intro c a ha
  obtain ⟨ha', hops, hcode⟩ := h c a ha
  obtain ⟨ha'', hops', hcode'⟩ := h' c a ha'
  exact ⟨ha'', hops'.trans hops, hcode'.trans hcode⟩

theorem of_frames (h : w'.frames = w.frames) : w.Leaves k w' := by
  intro c a ha
  rw [a.frame_congr h]
  exact ⟨ha.congr h, rfl, rfl⟩

theorem of_moved (h : w.Moved k' c w') (hk : k ≠ k') : w.Leaves k w' :=
  fun _ _ ha => ⟨ha.moved h, ha.operands h hk, ha.code_moved h⟩

end World.Leaves

theorem Snapshot.retire_leaves (s : Snapshot) (k : MarkerRef) :
    s.world.Leaves k s.retire.world := by
  obtain ⟨_ | a, going, n, w⟩ := s <;> exact .of_frames rfl

theorem Change.leaves {worker : Option MarkerRef} {s s' : Snapshot} (hc : Change worker s s')
    {k : MarkerRef} (hk : worker ≠ some k) : s.world.Leaves k s'.world := by
  have other {a : Activation} (hworker : worker = some a.marker) : k ≠ a.marker := by
    rintro rfl
    exact hk hworker
  cases hc with
  | works hworker hb => exact .of_moved hb.leads.moved (other hworker)
  | ends hworker hm => exact .of_moved hm (other hworker)
  | starts hb => exact .of_frames (by rw [hb.world])
  | opens | closes => exact .of_frames rfl
  | still hs => exact .of_frames hs.frames

namespace Machine

theorem step_leaves {m : Machine} (hheld : m.snapshot.Held) {k : MarkerRef}
    (hk : m.worker? ≠ some k) : m.world.Leaves k m.step.world := by
  have changes {s s' : Snapshot} (hc : ReflTransGen (Change m.worker?) s s') :
      s.world.Leaves k s'.world := by
    induction hc with
    | refl => exact .of_frames rfl
    | tail _ hc ih => exact ih.trans (hc.leaves hk)
  rw [← world_snapshot, ← world_snapshot]
  exact (m.snapshot.retire_leaves k).trans (changes (step_changes hheld))

variable {sender : Activation} {suspended : List Activation} {waiting : List Waiting}

/-- The sender is suspended, under activations in its own loop or under a call. -/
inductive Above (sender : Activation) (suspended : List Activation) (waiting : List Waiting) :
    Machine → Prop where
  | loop {control : Control} {loop : RunLoop} {w : World} (above : List Activation)
      (hcontrol : control.loop? = some loop) (hloop : loop.suspended = above ++ sender :: suspended) :
      Above sender suspended waiting ⟨control, waiting, w⟩
  | call {loop : RunLoop} {use : Use} (above : List Activation) (m : Machine)
      (hloop : loop.activations = above ++ sender :: suspended) (huse : above = [] → use = .push) :
      Above sender suspended waiting (m.on (.sender loop use :: waiting))

/-- The next step hands this outcome to the sender, in this world. -/
inductive Hands (sender : Activation) (suspended : List Activation) (waiting : List Waiting) :
    Outcome → World → Machine → Prop where
  | callee (a : Activation) (o : Outcome) (w : World) :
      Hands sender suspended waiting (a.retire o w).1 (a.retire o w).2
        ⟨.finish ⟨a, sender :: suspended⟩ o, waiting, w⟩
  | call (o : Outcome) (w : World) :
      Hands sender suspended waiting o w
        ⟨.answer o, .sender ⟨sender, suspended⟩ .push :: waiting, w⟩

theorem Hands.step {o : Outcome} {w : World} {m : Machine}
    (h : m.Hands sender suspended waiting o w) :
    m.step = handOver ⟨sender, suspended⟩ o waiting w := by
  cases h with
  | callee a o w => exact Footing.finish_eq _ o waiting w
  | call o w => exact answer_handOver _ o waiting w

theorem handOver_above (a : Activation) (above : List Activation) (o : Outcome) (w : World) :
    (handOver ⟨a, above ++ sender :: suspended⟩ o waiting w).Above sender suspended waiting := by
  cases o with
  | error u => exact .loop _ rfl rfl
  | ok v =>
    simp only [handOver, deliver, RunLoop.push, Action.bind_apply]
    cases a.handle.push v w <;> exact .loop _ rfl rfl

theorem advance_above {loop : RunLoop} {above : List Activation} (w : World)
    (hloop : loop.suspended = above ++ sender :: suspended) :
    (advance loop waiting w).Above sender suspended waiting := by
  unfold advance
  cases loop.current.step w with
  | error f w' => exact .loop _ rfl hloop
  | ok e w' =>
    cases e with
    | resume a => exact .loop _ rfl hloop
    | activate s callee =>
      exact .loop (s :: above) rfl (congrArg (s :: ·) hloop)
    | callOut s c use =>
      exact .call (s :: above) ⟨.call c, [], w'⟩ (congrArg (s :: ·) hloop) nofun
    | complete v => exact .loop _ rfl hloop
    | unwind v target => exact .loop _ rfl hloop

theorem marker_ne (before : List Activation) {after : List Activation} {a : Activation}
    (h : (before ++ a :: after).Pairwise fun a b => b.marker.index < a.marker.index)
    (hs : sender ∈ after) : some a.marker ≠ some sender.marker := by
  have hless := List.rel_of_pairwise_cons (List.pairwise_append.mp h).2.1 hs
  intro heq
  rw [Option.some.inj heq] at hless
  exact Nat.lt_irrefl _ hless

theorem answer_above (current : Activation) (above : List Activation) (use : Use) (o : Outcome) (w : World) :
    (answer o (.sender ⟨current, above ++ sender :: suspended⟩ use :: waiting) w).Above
      sender suspended waiting := by
  cases use with
  | push =>
    rw [answer_handOver]
    exact handOver_above current above o w
  | complete => cases o <;> exact .loop _ rfl rfl

theorem worker_on_ne {loop : RunLoop} {use : Use} {m : Machine} (ho : m.outcome? = none)
    (hsender : sender ∈ loop.activations)
    (hdistinct : (m.on (.sender loop use :: waiting)).snapshot.activations.Pairwise
      fun a b => b.marker.index < a.marker.index) :
    (m.on (.sender loop use :: waiting)).worker? ≠ some sender.marker := by
  have hmem (ws : List Waiting) :
      sender ∈ (ws ++ .sender loop use :: waiting).flatMap (·.activations) :=
    List.mem_flatMap.mpr ⟨.sender loop use, by simp, hsender⟩
  obtain ⟨control, ws, w⟩ := m
  cases control with
  | run l => exact marker_ne [] hdistinct (List.mem_append_right _ (hmem ws))
  | finish l o =>
    obtain ⟨current, rest⟩ := l
    cases rest with
    | nil => exact nofun
    | cons a rest => exact marker_ne [current] hdistinct (List.mem_append_right _ (hmem ws))
  | call c => exact nofun
  | answer o =>
    cases ws with
    | nil => cases ho
    | cons x ws =>
      cases x with
      | iteration i => exact nofun
      | sender l u => exact marker_ne [] hdistinct (List.mem_append_right _ (hmem ws))

/-- A suspended sender stays suspended and does not work, unless it is handed an outcome. -/
theorem Above.step {m : Machine} (h : m.Above sender suspended waiting)
    (hdistinct : m.snapshot.activations.Pairwise fun a b => b.marker.index < a.marker.index) :
    (∃ o w, m.Hands sender suspended waiting o w) ∨
      (m.step.Above sender suspended waiting ∧ m.worker? ≠ some sender.marker) := by
  cases h with
  | @loop control loop w above hcontrol hloop =>
    cases control with
    | run l =>
      cases hcontrol
      -- The activation that works is above the sender, so it has a later marker.
      refine .inr ⟨advance_above w hloop, marker_ne [] hdistinct ?_⟩
      rw [hloop]
      simp
    | finish l o =>
      cases hcontrol
      obtain ⟨callee, rest⟩ := loop
      cases hloop
      cases above with
      -- The callee that ends is the one right above the sender.
      | nil => exact .inl ⟨_, _, .callee callee o w⟩
      | cons a above =>
        refine .inr ⟨?_, marker_ne [callee] hdistinct (by simp)⟩
        change (Machine.finish _ o waiting w).Above sender suspended waiting
        rw [Footing.finish_eq]
        exact handOver_above a above _ _
    | call c => cases hcontrol
    | answer o => cases hcontrol
  | @call loop use above m hloop huse =>
    -- The call is a machine of its own; it steps alone until it has an outcome.
    cases ho : m.outcome? with
    | none =>
      have hsender : sender ∈ loop.activations := by
        rw [hloop]
        simp
      rw [step_on ho]
      exact .inr ⟨.call _ m.step hloop huse, worker_on_ne ho hsender hdistinct⟩
    | some o =>
      obtain ⟨control, ws, w⟩ := m
      cases control with
      | run | finish | call => cases ho
      | answer o =>
        cases ws with
        | cons x ws => cases ho
        | nil =>
          obtain ⟨current, rest⟩ := loop
          cases above with
          | nil =>
            cases hloop
            cases huse rfl
            exact .inl ⟨o, w, .call o w⟩
          | cons a above =>
            cases hloop
            exact .inr ⟨answer_above current above use o w, marker_ne [] hdistinct (by simp)⟩

theorem Above.apart {m : Machine} (h : m.Above sender suspended waiting)
    (hdistinct : m.snapshot.activations.Pairwise fun a b => b.marker.index < a.marker.index)
    {loop : RunLoop} (hrun : m.control = .run loop) : loop.current.marker ≠ sender.marker := by
  obtain ⟨o, w, hhands⟩ | ⟨-, hworker⟩ := h.step hdistinct
  · cases hhands <;> cases hrun
  · intro heq
    refine hworker ?_
    rw [worker?, hrun, ← heq]

/-- Machines that come up when something is asked for. -/
def Reached (m : Machine) : Prop :=
  ∃ (r : Request) (w : World) (n : Nat), (r.machine w).after n = m

theorem Reached.after {m : Machine} (h : m.Reached) (n : Nat) : (m.after n).Reached := by
  obtain ⟨r, w, i, rfl⟩ := h
  exact ⟨r, w, i + n, after_add _ i n⟩

theorem Reached.held {m : Machine} (h : m.Reached) : m.snapshot.Held := by
  obtain ⟨r, w, n, rfl⟩ := h
  exact (living_request r w n).1

theorem Reached.descending {m : Machine} (h : m.Reached) :
    m.snapshot.activations.Pairwise fun a b => b.marker.index < a.marker.index := by
  obtain ⟨r, w, n, rfl⟩ := h
  exact (living_request r w n).2.descending

/-- The sender is suspended with these operands, and has room for one more. -/
structure Suspends (sender : Activation) (suspended : List Activation) (waiting : List Waiting)
    (left : List Value) (m : Machine) : Prop where
  above : m.Above sender suspended waiting
  apart : ∀ loop, m.control = .run loop → loop.current.marker ≠ sender.marker
  held : sender.handle.Held sender.marker sender.method m.world
  operands : (sender.handle.frame m.world).operands = left
  room : left.length < (sender.handle.frame m.world).code.operandCapacity

/-- The sender goes on with the result that it is handed on top of its operands, or ends with
anything else. -/
def Resumed (sender : Activation) (suspended : List Activation) (waiting : List Waiting)
    (operands : List Value) (m : Machine) : Outcome → Prop
  | .ok v => ∃ b w, m = ⟨.run ⟨b, suspended⟩, waiting, w⟩ ∧ b.marker = sender.marker ∧
      b.method = sender.method ∧ b.offset = sender.offset ∧
      (b.handle.frame w).operands = operands ++ [v]
  | .error u => ∃ w, m = ⟨.finish ⟨sender, suspended⟩ (.error u), waiting, w⟩

/-- However far the machine runs, the sender stays suspended all the way, or else up to a point where
it is handed an outcome and resumes. -/
def Awaits (sender : Activation) (suspended : List Activation) (waiting : List Waiting)
    (operands : List Value) (m : Machine) : Prop :=
  ∀ n, (∀ j ≤ n, (m.after j).Suspends sender suspended waiting operands) ∨
    ∃ k < n, (∀ j ≤ k, (m.after j).Suspends sender suspended waiting operands) ∧
      ∃ o w, (m.after k).Hands sender suspended waiting o w ∧
        (m.after (k + 1)).Resumed sender suspended waiting operands o

variable {operands : List Value} {m : Machine}

theorem Hands.frames {o : Outcome} {w : World} (h : m.Hands sender suspended waiting o w) :
    w.frames = m.world.frames := by
  cases h with
  | callee a o w => exact (a.retire_still o w).frames
  | call o w => rfl

theorem handOver_resumed {w : World} (hheld : sender.handle.Held sender.marker sender.method w)
    (hroom : (sender.handle.frame w).operands.length <
      (sender.handle.frame w).code.operandCapacity) (v : Value) :
    (handOver ⟨sender, suspended⟩ (.ok v) waiting w).Resumed sender suspended waiting
      (sender.handle.frame w).operands (.ok v) := by
  obtain ⟨f, hf⟩ := Frame.push_of_lt hheld.proper hroom v
  have hrun : sender.handle.push v w =
      .ok (sender.handle.put f w).1 (sender.handle.put f w).2 := by
    rw [FrameHandle.push, FrameHandle.modify_apply, hf]
  have hops := ((FrameHandle.push_moves hheld v).of_ok hrun).2.2
  refine ⟨{ sender with handle := (sender.handle.put f w).1 }, _, ?_, rfl, rfl, rfl, hops⟩
  simp only [handOver, deliver, RunLoop.push, Action.bind_apply, hrun, Action.pure_apply]

theorem Suspends.resumed (h : m.Suspends sender suspended waiting operands) {o : Outcome}
    {w : World} (hhands : m.Hands sender suspended waiting o w) :
    m.step.Resumed sender suspended waiting operands o := by
  rw [hhands.step]
  cases o with
  | error u => exact ⟨w, rfl⟩
  | ok v =>
    have hframe := sender.handle.frame_congr hhands.frames
    have hroom := h.room
    rw [← h.operands, ← hframe] at hroom ⊢
    exact handOver_resumed (h.held.congr hhands.frames) hroom v

theorem Suspends.step (hm : m.Reached) (h : m.Suspends sender suspended waiting operands) :
    (∃ o w, m.Hands sender suspended waiting o w) ∨
      m.step.Suspends sender suspended waiting operands := by
  obtain hhands | ⟨habove, hworker⟩ := h.above.step hm.descending
  · exact .inl hhands
  obtain ⟨hheld, hops, hcode⟩ := step_leaves hm.held hworker _ _ h.held
  have hdescending := (hm.after 1).descending
  exact .inr ⟨habove, fun _ => habove.apart hdescending, hheld, hops.trans h.operands, by
    rw [hcode]
    exact h.room⟩

theorem Suspends.awaits (hm : m.Reached) (h : m.Suspends sender suspended waiting operands) :
    m.Awaits sender suspended waiting operands := by
  intro n
  -- Once the sender was handed an outcome, there is nothing left to say about later steps.
  induction n with
  | zero =>
    refine .inl fun j hj => ?_
    cases Nat.le_zero.mp hj
    exact h
  | succ n ih =>
    obtain hall | ⟨k, hk, hresumed⟩ := ih
    · obtain ⟨o, w, hhands⟩ | hnext := (hall n (Nat.le_refl n)).step (hm.after n)
      · refine .inr ⟨n, Nat.lt_succ_self n, hall, o, w, hhands, ?_⟩
        rw [after_succ]
        exact (hall n (Nat.le_refl n)).resumed hhands
      · refine .inl fun j hj => ?_
        obtain hj | rfl := Nat.lt_or_eq_of_le hj
        · exact hall j (Nat.le_of_lt_succ hj)
        · rw [after_succ]
          exact hnext
    · exact .inr ⟨k, Nat.lt_succ_of_lt hk, hresumed⟩

theorem Suspends.of_sends {a : Activation} {w v : World} {count : Nat}
    (ha : a.handle.Held a.marker a.method w) (hs : a.Sends w count sender v) (hcount : 0 < count)
    (hm : m.Reached) (hframes : m.world.frames = v.frames)
    (habove : m.Above sender suspended waiting) :
    ∃ left args, args.length = count ∧ (a.handle.frame w).operands = left ++ args ∧
      m.Suspends sender suspended waiting left := by
  obtain ⟨args, hlen, hops⟩ := hs.operands
  have hframe := sender.handle.frame_congr hframes
  have hle := Frame.length_operands_le ha.proper
  rw [hops, List.length_append, ← hs.leads.code] at hle
  refine ⟨_, args, hlen, hops, habove, fun _ => habove.apart hm.descending, ?_, ?_, ?_⟩
  · rw [hs.marker, hs.method]
    exact hs.leads.held.congr hframes
  · rw [hframe]
  · rw [hframe]
    omega

/-- A send either fails before anything is called, or takes receiver and arguments off the stack of
the sender and suspends it. Whatever then runs, the sender keeps exactly the operands that are left,
until it goes on with them and the result on top; pushing the result never fails. -/
theorem send_spares_operands (hm : m.Reached) {a : Activation} {suspended : List Activation}
    (hrun : m.control = .run ⟨a, suspended⟩) {selector : Symbol}
    (hsend : a.Sending m.world selector) :
    (∃ f, m.step.control = .finish ⟨a, suspended⟩ (.error (.fault f)) ∧
      m.step.waiting = m.waiting) ∨
    ∃ sender left args, sender.marker = a.marker ∧ sender.method = a.method ∧
      sender.offset = a.offset + 2 ∧ args.length = selector.arity ∧
      (a.handle.frame m.world).operands = left ++ args ∧
      m.step.Awaits sender suspended m.waiting left := by
  have hnext : m.step.Reached := hm.after 1
  obtain ⟨control, waiting, w⟩ := m
  cases hrun
  have hheld := hm.held a List.mem_cons_self
  have hsteps := hsend.step hheld
  have awaits {sender : Activation} {v : World} {m : Machine} (hm : m.Reached)
      (hs : { a with offset := a.offset + 2 }.Sends w selector.arity sender v)
      (hframes : m.world.frames = v.frames) (habove : m.Above sender suspended waiting) :
      ∃ sender left args, sender.marker = a.marker ∧ sender.method = a.method ∧
        sender.offset = a.offset + 2 ∧ args.length = selector.arity ∧
        (a.handle.frame w).operands = left ++ args ∧ m.Awaits sender suspended waiting left := by
    obtain ⟨left, args, hlen, hops, hsuspends⟩ :=
      Suspends.of_sends (a := { a with offset := a.offset + 2 }) hheld hs selector.arity_pos hm
        hframes habove
    exact ⟨sender, left, args, hs.marker, hs.method, hs.offset, hlen, hops, hsuspends.awaits hm⟩
  simp only [step, advance] at hnext ⊢
  cases hstep : a.step w with
  | error f w' => exact .inl ⟨f, rfl, rfl⟩
  | ok e w' =>
    rw [hstep] at hnext
    have he := hsteps.of_ok hstep
    cases e with
    | activate sender callee =>
      obtain ⟨v, hs, hcallee⟩ := he
      exact .inr (awaits hnext hs (by rw [hcallee.world]) (.loop [] rfl rfl))
    | callOut sender c use =>
      obtain ⟨rfl, hs⟩ := he
      exact .inr (awaits hnext hs rfl (.call [] ⟨.call c, [], w'⟩ rfl fun _ => rfl))
    | resume | complete | unwind => exact he.elim

set_option maxRecDepth 100000 in
theorem send_spares_operands_comparing :
    ∃ m a suspended selector, Reached m ∧ m.control = .run ⟨a, suspended⟩ ∧
      a.Sending m.world selector ∧
      ((∃ f, m.step.control = .finish ⟨a, suspended⟩ (.error (.fault f)) ∧
        m.step.waiting = m.waiting) ∨
      ∃ sender left args, sender.marker = a.marker ∧ sender.method = a.method ∧
        sender.offset = a.offset + 2 ∧ args.length = selector.arity ∧
        (a.handle.frame m.world).operands = left ++ args ∧
        m.step.Awaits sender suspended m.waiting left) := by
  let r : Request := .host (.send (.boolean true) "~=" [.nil])
  let m := (r.machine World.standard).after 2
  have hreached : m.Reached := ⟨r, World.standard, 2, rfl⟩
  have hsends : m.next?.any (fun p => p.2 = .send 0 &&
      (m.world.symbolLiteral p.1.current.method 0).toBool) = true := by decide +kernel
  obtain ⟨⟨loop, i⟩, hnext, hsends⟩ := Option.any_eq_true _ _ |>.mp hsends
  obtain ⟨hrun, hfetch⟩ := next?_eq_some.mp hnext
  obtain ⟨hi, hliteral⟩ := Bool.and_eq_true_iff.mp hsends
  obtain rfl : i = .send 0 := of_decide_eq_true hi
  cases hl : m.world.symbolLiteral loop.current.method 0 with
  | error f =>
    rw [hl] at hliteral
    cases hliteral
  | ok selector =>
    have hsend : loop.current.Sending m.world selector := ⟨0, .inl hfetch, hl⟩
    exact ⟨m, loop.current, loop.suspended, selector, hreached, hrun, hsend,
      send_spares_operands hreached hrun hsend⟩

end Machine

end MessageMachine
