import MessageMachine.Machine
import MessageMachine.Proofs.UniformStep

namespace MessageMachine

/-- What is below a run of the machine. -/
inductive Footing where
  | call (waiting : List Waiting)
  | send (sender : Activation) (suspended : List Activation) (waiting : List Waiting)

/-- The loop with further activations suspended below its own. -/
def RunLoop.over (loop : RunLoop) (sender : Activation) (suspended : List Activation) : RunLoop :=
  { loop with suspended := loop.suspended ++ sender :: suspended }

/-- Activations that are suspended by those who wait, innermost first. -/
def Waiting.activations : Waiting → List Activation
  | sender loop _ => loop.current :: loop.suspended
  | iteration _ => []

/-- Hands an outcome to the current activation of a loop, which goes on with a result and ends with
anything else. -/
def Machine.handOver (loop : RunLoop) (o : Outcome) (waiting : List Waiting) (w : World) :
    Machine :=
  match o with
  | .ok v => deliver loop v waiting w
  | .error u => ⟨.finish loop (.error u), waiting, w⟩

theorem Machine.answer_handOver (loop : RunLoop) (o : Outcome) (waiting : List Waiting) (w : World) :
    answer o (.sender loop .push :: waiting) w = handOver loop o waiting w := by
  cases o <;> rfl

namespace Footing

/-- Run loops that a run opens and the same run on this footing does not. -/
def loops : Footing → Nat
  | call _ => 0
  | send _ _ _ => 1

/-- Gives the outcome of a run to what is below it. -/
def resume (b : Footing) (o : Outcome) (w : World) : Machine :=
  match b with
  | call waiting => ⟨.answer o, waiting, w⟩
  | send sender suspended waiting => .handOver ⟨sender, suspended⟩ o waiting w

/-- Who waits in a run, and who waits in the same run on a footing, where `n` loops wait above what
is below. -/
inductive Rests : Footing → Nat → List Waiting → List Waiting → Prop where
  | call {below : List Waiting} : Rests (.call below) 0 [] below
  | send {sender : Activation} {suspended : List Activation} {below : List Waiting}
      (loop : RunLoop) (use : Use) :
      Rests (.send sender suspended below) 0 [.sender loop use]
        (.sender (loop.over sender suspended) use :: below)
  | sender {b : Footing} {n : Nat} {ws vs : List Waiting} (loop : RunLoop) (use : Use) :
      Rests b n ws vs → Rests b (n + 1) (.sender loop use :: ws) (.sender loop use :: vs)
  | iteration {b : Footing} {n : Nat} {ws vs : List Waiting} (i : Iteration) :
      Rests b n ws vs → Rests b n (.iteration i :: ws) (.iteration i :: vs)

/-- The loop that runs, and who waits for it. -/
inductive Hosts : Footing → Nat → RunLoop → RunLoop → List Waiting → List Waiting → Prop where
  | above {b : Footing} {n : Nat} {ws vs : List Waiting} (loop : RunLoop) :
      Rests b n ws vs → Hosts b (n + 1) loop loop ws vs
  | base {sender : Activation} {suspended : List Activation} {below : List Waiting}
      (loop : RunLoop) :
      Hosts (.send sender suspended below) 0 loop (loop.over sender suspended) [] below

namespace Hosts

variable {b : Footing} {n : Nat} {loop loop' : RunLoop} {ws vs : List Waiting}

theorem current (h : Hosts b n loop loop' ws vs) : loop'.current = loop.current := by
  cases h <;> rfl

theorem waits (h : Hosts b n loop loop' ws vs) (use : Use) :
    Rests b n (.sender loop use :: ws) (.sender loop' use :: vs) := by
  cases h with
  | above loop h => exact .sender loop use h
  | base loop => exact .send loop use

theorem withCurrent (h : Hosts b n loop loop' ws vs) (a : Activation) :
    Hosts b n { loop with current := a } { loop' with current := a } ws vs := by
  cases h with
  | above loop h => exact .above _ h
  | base loop => exact .base _

theorem activate (h : Hosts b n loop loop' ws vs) (sender callee : Activation) :
    Hosts b n ⟨callee, sender :: loop.suspended⟩ ⟨callee, sender :: loop'.suspended⟩ ws vs := by
  cases h with
  | above loop h => exact .above _ h
  | base loop => exact .base ⟨callee, sender :: loop.suspended⟩

end Hosts

/-- A machine and the same machine on a footing, whose run loops are nested `k` deep. -/
inductive Grafted (b : Footing) (k : Nat) : Machine → Machine → Prop where
  | run {n : Nat} {loop loop' : RunLoop} {ws vs : List Waiting} {w v : World} :
      Hosts b n loop loop' ws vs → n ≤ k → Alike k (k + b.loops) w v →
      Grafted b k ⟨.run loop, ws, v⟩ ⟨.run loop', vs, w⟩
  | finish {n : Nat} {loop loop' : RunLoop} {ws vs : List Waiting} {w v : World} (o : Outcome) :
      Hosts b n loop loop' ws vs → n ≤ k → Alike k (k + b.loops) w v →
      Grafted b k ⟨.finish loop o, ws, v⟩ ⟨.finish loop' o, vs, w⟩
  | call {n : Nat} {ws vs : List Waiting} {w v : World} (c : Call) :
      Rests b n ws vs → n ≤ k → Alike k (k + b.loops) w v →
      Grafted b k ⟨.call c, ws, v⟩ ⟨.call c, vs, w⟩
  | answer {n : Nat} {ws vs : List Waiting} {w v : World} (o : Outcome) :
      Rests b n ws vs → n ≤ k → Alike k (k + b.loops) w v →
      Grafted b k ⟨.answer o, ws, v⟩ ⟨.answer o, vs, w⟩

/-- Two machines after a step: the first is still the second without its footing, or it has an
outcome that the second has handed to what is below, or it fails because it has opened one more
loop. -/
inductive Follows (b : Footing) (m m' : Machine) : Prop where
  | grafted {k : Nat} : Grafted b k m m' → Follows b m m'
  | landed {k : Nat} {o : Outcome} {w v : World} : m = ⟨.answer o, [], v⟩ → m' = b.resume o w →
      Alike k k w v → Follows b m m'
  | exceeded {limit : Nat} : b.loops ≠ 0 →
      m.control = .fault (.reentryDepthExceeded limit) → Follows b m m'

variable {b : Footing} {k n : Nat} {ws vs : List Waiting} {w v : World}

theorem start_alike (h : Alike k (k + b.loops) w v) (method : CodeRef) (args : List Value)
    (outer : Option FrameRef) :
    (∃ loop w' v', RunLoop.start method args outer w = .ok loop w' ∧
        RunLoop.start method args outer v = .ok loop v' ∧ Alike (k + 1) (k + 1 + b.loops) w' v') ∨
      (∃ f w' v', RunLoop.start method args outer w = .error f w' ∧
        RunLoop.start method args outer v = .error f v' ∧ Alike k (k + b.loops) w' v') ∨
      (b.loops ≠ 0 ∧ ∃ limit v',
        RunLoop.start method args outer v = .error (.reentryDepthExceeded limit) v') := by
  have hconfig : v.config = w.config := by rw [h.same]; rfl
  simp only [RunLoop.start, Action.bind_apply, Action.get_apply, hconfig]
  rw [h.left_reentry, h.right_reentry]
  by_cases hv : w.config.maxReentryDepth ≤ k + b.loops
  · by_cases hw : w.config.maxReentryDepth ≤ k
    · rw [if_pos hv, if_pos hw]
      exact .inr (.inl ⟨_, w, v, rfl, rfl, h⟩)
    · rw [if_pos hv]
      exact .inr (.inr ⟨by omega, _, v, rfl⟩)
  · rw [if_neg hv, if_neg (by omega)]
    have ht := Activation.start_uniform method args outer w v h
    simp only [Action.bind_apply]
    cases hsw : Activation.start method args outer w <;>
      cases hsv : Activation.start method args outer v <;> rw [hsw, hsv] at ht
    · obtain ⟨rfl, ha⟩ := ht
      refine .inl ⟨_, _, _, rfl, rfl, ?_, ?_, ?_, ?_, ?_⟩
      · rw [ha.same]
        rfl
      · exact congrArg (· + 1) ha.left_reentry
      · exact (congrArg (· + 1) ha.right_reentry).trans (by omega)
      · exact ha.left.congr rfl rfl rfl rfl
      · exact ha.right.congr rfl rfl rfl rfl
    · exact ht.elim
    · exact ht.elim
    · obtain ⟨rfl, ha⟩ := ht
      exact .inr (.inl ⟨_, _, _, rfl, rfl, ha⟩)

theorem execute_follows (hr : Rests b n ws vs) (hn : n ≤ k) (h : Alike k (k + b.loops) w v)
    (method : CodeRef) (args : List Value) (outer : Option FrameRef) :
    Follows b (.execute method args outer ws v) (.execute method args outer vs w) := by
  unfold Machine.execute
  obtain ⟨loop, w', v', hw, hv, ha⟩ | ⟨f, w', v', hw, hv, ha⟩ | ⟨hb, limit, v', hv⟩ :=
    start_alike h method args outer
  · rw [hw, hv]
    exact .grafted (.run (.above loop hr) (Nat.succ_le_succ hn) ha)
  · rw [hw, hv]
    exact .grafted (.answer _ hr hn ha)
  · rw [hv]
    exact .exceeded hb rfl

theorem reply_follows (hr : Rests b n ws vs) (hn : n ≤ k) (h : Alike k (k + b.loops) w v)
    (r : Reply) : Follows b (.reply r ws v) (.reply r vs w) := by
  match r with
  | .answer x => exact .grafted (.answer _ hr hn h)
  | .call c => exact .grafted (.call c hr hn h)
  | .evaluate block params none => exact execute_follows hr hn h _ _ _
  | .evaluate block params (some i) => exact execute_follows (.iteration i hr) hn h _ _ _

theorem operate_follows (hr : Rests b n ws vs) (hn : n ≤ k) (h : Alike k (k + b.loops) w v)
    (op : Operation) (receiver : Value) (args : List Value) :
    Follows b (.operate op receiver args ws v) (.operate op receiver args vs w) := by
  unfold Machine.operate
  have ht := op.start_uniform receiver args w v h
  cases hw : op.start receiver args w <;> cases hv : op.start receiver args v <;> rw [hw, hv] at ht
  · obtain ⟨rfl, ha⟩ := ht
    exact reply_follows hr hn ha _
  · exact ht.elim
  · exact ht.elim
  · obtain ⟨rfl, ha⟩ := ht
    exact .grafted (.answer _ hr hn ha)

theorem call_follows (hr : Rests b n ws vs) (hn : n ≤ k) (h : Alike k (k + b.loops) w v)
    (c : Call) : Follows b (.call c ws v) (.call c vs w) := by
  have hprimitives : v.primitives = w.primitives := by rw [h.same]; rfl
  obtain ⟨method, args⟩ := c
  match method, args with
  | .compiled r, args => exact execute_follows hr hn h r args none
  | .primitive p, receiver :: args =>
    simp only [Machine.call, hprimitives]
    exact operate_follows hr hn h _ _ _
  | .primitive p, [] =>
    have hcount : v.argCount (.primitive p) = w.argCount (.primitive p) := by
      simp only [World.argCount, World.signature, hprimitives]
    simp only [Machine.call, hcount]
    exact .grafted (.answer _ hr hn h)

theorem deliver_follows {loop loop' : RunLoop} (hh : Hosts b n loop loop' ws vs) (hn : n ≤ k)
    (h : Alike k (k + b.loops) w v) (x : Value) :
    Follows b (.deliver loop x ws v) (.deliver loop' x vs w) := by
  simp only [Machine.deliver, RunLoop.push, Action.bind_apply, hh.current]
  have ht := loop.current.handle.push_uniform x w v h
  cases hw : loop.current.handle.push x w <;> cases hv : loop.current.handle.push x v <;>
    rw [hw, hv] at ht
  · obtain ⟨rfl, ha⟩ := ht
    exact .grafted (.run (hh.withCurrent _) hn ha)
  · exact ht.elim
  · exact ht.elim
  · obtain ⟨rfl, ha⟩ := ht
    exact .grafted (.finish _ hh hn ha)

theorem handOver_follows {loop loop' : RunLoop} (hh : Hosts b n loop loop' ws vs) (hn : n ≤ k)
    (h : Alike k (k + b.loops) w v) (o : Outcome) :
    Follows b (.handOver loop o ws v) (.handOver loop' o vs w) := by
  cases o with
  | ok x => exact deliver_follows hh hn h x
  | error u => exact .grafted (.finish _ hh hn h)

theorem advance_follows {loop loop' : RunLoop} (hh : Hosts b n loop loop' ws vs) (hn : n ≤ k)
    (h : Alike k (k + b.loops) w v) :
    Follows b (.advance loop ws v) (.advance loop' vs w) := by
  unfold Machine.advance
  rw [hh.current]
  have ht := loop.current.step_tied h
  cases hw : loop.current.step w with
  | error f w' =>
    cases hv : loop.current.step v with
    | ok _ _ =>
      rw [hw, hv] at ht
      exact ht.elim
    | error g v' =>
      rw [hw, hv] at ht
      obtain ⟨rfl, ha⟩ := ht
      exact .grafted (.finish _ hh hn ha)
  | ok e w' =>
    cases hv : loop.current.step v with
    | error _ _ =>
      rw [hw, hv] at ht
      exact ht.elim
    | ok e' v' =>
      rw [hw, hv] at ht
      obtain ⟨rfl, ha⟩ := ht
      cases e with
      | resume a => exact .grafted (.run (hh.withCurrent a) hn ha)
      | activate sender callee => exact .grafted (.run (hh.activate sender callee) hn ha)
      | callOut sender c use => exact .grafted (.call c ((hh.withCurrent sender).waits use) hn ha)
      | complete x => exact .grafted (.finish _ hh hn ha)
      | unwind x target => exact .grafted (.finish _ hh hn ha)

theorem retire_alike {l : Nat} (h : Alike k l w v) (a : Activation) (o : Outcome) :
    (a.retire o v).1 = (a.retire o w).1 ∧ Alike k l (a.retire o w).2 (a.retire o v).2 := by
  have hdead : Alike k l ({ w with depth := w.depth - 1 }.deactivate a.marker)
      ({ v with depth := v.depth - 1 }.deactivate a.marker) := by
    refine ((⟨?_, fun _ => rfl, fun _ => rfl, fun _ => rfl⟩ : Plain fun w =>
      ((), { w with depth := w.depth - 1 }.deactivate a.marker)).alike h).2
    exact fun _ _ => rfl
  have hcode : v.code a.method = w.code a.method := by rw [h.same]; rfl
  unfold Activation.retire
  match o with
  | .ok x => exact ⟨rfl, hdead⟩
  | .error (.fault f) => exact ⟨rfl, hdead⟩
  | .error (.nonLocalReturn x target) =>
    change (if !(v.code a.method).isBlock && target = a.marker then _ else _ : Outcome × World).1 =
      (if !(w.code a.method).isBlock && target = a.marker then _ else _ : Outcome × World).1 ∧
      Alike k l (if !(w.code a.method).isBlock && target = a.marker then _ else _ : Outcome × World).2
        (if !(v.code a.method).isBlock && target = a.marker then _ else _ : Outcome × World).2
    rw [hcode]
    split
    · exact ⟨rfl, hdead.retrace (.note hdead.left _) (.note hdead.right _)⟩
    · exact ⟨rfl, hdead⟩

theorem finish_eq (loop : RunLoop) (o : Outcome) (waiting : List Waiting) (w : World) :
    Machine.finish loop o waiting w =
      match loop.suspended with
      | [] =>
        ⟨.answer (loop.current.retire o w).1, waiting,
          { (loop.current.retire o w).2 with reentry := (loop.current.retire o w).2.reentry - 1 }⟩
      | sender :: rest =>
        .handOver ⟨sender, rest⟩ (loop.current.retire o w).1 waiting (loop.current.retire o w).2 := by
  unfold Machine.finish
  cases loop.suspended with
  | nil => rfl
  | cons sender rest => rcases loop.current.retire o w with ⟨_ | _, _⟩ <;> rfl

theorem leave_alike {l : Nat} (h : Alike (k + 1) (l + 1) w v) :
    Alike k l { w with reentry := w.reentry - 1 } { v with reentry := v.reentry - 1 } where
  same := by
    rw [h.same]
    rfl
  left_reentry := by simp [h.left_reentry]
  right_reentry := by simp [h.right_reentry]
  left := h.left.congr rfl rfl rfl rfl
  right := h.right.congr rfl rfl rfl rfl

theorem leave_alike_right (h : Alike k (k + 1) w v) :
    Alike k k w { v with reentry := v.reentry - 1 } where
  same := by
    rw [h.same]
    rfl
  left_reentry := h.left_reentry
  right_reentry := by simp [h.right_reentry]
  left := h.left
  right := h.right.congr rfl rfl rfl rfl

theorem finish_follows {loop loop' : RunLoop} (hh : Hosts b n loop loop' ws vs) (hn : n ≤ k)
    (h : Alike k (k + b.loops) w v) (o : Outcome) :
    Follows b (.finish loop o ws v) (.finish loop' o vs w) := by
  obtain ⟨ho, ha⟩ := retire_alike h loop.current o
  rw [finish_eq, finish_eq, hh.current, ho]
  obtain ⟨current, suspended⟩ := loop
  cases hh with
  | above _ hr =>
    cases suspended with
    | nil =>
      obtain ⟨k, rfl⟩ : ∃ j, k = j + 1 := ⟨k - 1, by omega⟩
      rw [Nat.add_right_comm] at ha
      exact .grafted (.answer _ hr (Nat.le_of_succ_le_succ hn) (leave_alike ha))
    | cons sender rest => exact handOver_follows (.above _ hr) hn ha _
  | base _ =>
    cases suspended with
    | nil => exact .landed rfl rfl (leave_alike_right ha)
    | cons sender rest => exact handOver_follows (.base ⟨sender, rest⟩) hn ha _

theorem answer_follows (hr : Rests b n ws vs) (hn : n ≤ k) (h : Alike k (k + b.loops) w v)
    (hne : ws ≠ []) (o : Outcome) : Follows b (.answer o ws v) (.answer o vs w) := by
  have sender {n : Nat} {loop loop' : RunLoop} {ws vs : List Waiting}
      (hh : Hosts b n loop loop' ws vs) (hn : n ≤ k) (use : Use) :
      Follows b (.answer o (.sender loop use :: ws) v) (.answer o (.sender loop' use :: vs) w) := by
    match use, o with
    | .push, .ok x => exact deliver_follows hh hn h x
    | .push, .error u => exact .grafted (.finish _ hh hn h)
    | .complete, .ok x => exact .grafted (.finish _ hh hn h)
    | .complete, .error u => exact .grafted (.finish _ hh hn h)
  cases hr with
  | call => exact absurd rfl hne
  | send loop use => exact sender (.base loop) hn use
  | sender loop use hr => exact sender (.above loop hr) hn use
  | iteration i hr =>
    cases o with
    | error u => exact .grafted (.answer _ hr hn h)
    | ok x =>
      simp only [Machine.answer]
      cases i.next x with
      | ok r => exact reply_follows hr hn h r
      | error f => exact .grafted (.answer _ hr hn h)

theorem step_follows {m m' : Machine} (h : Grafted b k m m') (ho : m.outcome? = none) :
    Follows b m.step m'.step := by
  cases h with
  | run hh hn h => exact advance_follows hh hn h
  | finish o hh hn h => exact finish_follows hh hn h o
  | call c hr hn h => exact call_follows hr hn h c
  | answer o hr hn h =>
    refine answer_follows hr hn h (fun hnil => ?_) o
    subst hnil
    cases ho

end Footing

namespace Machine

def after : Nat → Machine → Machine
  | 0, m => m
  | n + 1, m => after n m.step

theorem after_succ (n : Nat) (m : Machine) : m.after (n + 1) = (m.after n).step := by
  induction n generalizing m with
  | zero => rfl
  | succ n ih => exact ih m.step

theorem after_add (m : Machine) (n j : Nat) : m.after (n + j) = (m.after n).after j := by
  induction j with
  | zero => rfl
  | succ j ih => rw [← Nat.add_assoc, after_succ, after_succ, ih]

/-- The outcome so far of a machine that is failing. -/
def Failing (f : Fault) (m : Machine) : Prop :=
  m.control = .fault f ∨ ∃ loop, m.control = .finish loop (.error (.fault f))

theorem Failing.step {f : Fault} {m : Machine} (h : m.Failing f) : m.step.Failing f := by
  obtain ⟨control, waiting, w⟩ := m
  obtain rfl | ⟨loop, rfl⟩ := h
  · match waiting with
    | [] => exact .inl rfl
    | .sender loop .push :: rest => exact .inr ⟨loop, rfl⟩
    | .sender loop .complete :: rest => exact .inr ⟨loop, rfl⟩
    | .iteration i :: rest => exact .inl rfl
  · change (Machine.finish loop _ waiting w).Failing f
    obtain ⟨current, suspended⟩ := loop
    cases suspended with
    | nil => exact .inl rfl
    | cons sender rest => exact .inr ⟨⟨sender, rest⟩, rfl⟩

theorem Failing.outcome {f : Fault} {m : Machine} (h : m.Failing f) {fuel : Nat} {o : Outcome}
    {w : World} (hr : m.run fuel = some (o, w)) : o = .error (.fault f) := by
  have now {m : Machine} {o : Outcome} (h : m.Failing f) (ho : m.outcome? = some o) :
      o = .error (.fault f) := by
    obtain ⟨control, waiting, w⟩ := m
    obtain rfl | ⟨loop, rfl⟩ := h
    · cases waiting with
      | nil => exact (Option.some.inj ho).symm
      | cons x rest => cases ho
    · cases ho
  induction fuel generalizing m with
  | zero =>
    simp only [run, Option.map_eq_some_iff, Prod.mk.injEq] at hr
    obtain ⟨o', ho, rfl, -⟩ := hr
    exact now h ho
  | succ fuel ih =>
    cases ho : m.outcome? with
    | some o' =>
      rw [run_of_outcome? ho] at hr
      cases hr
      exact now h ho
    | none =>
      rw [run_succ ho] at hr
      exact ih h.step hr

end Machine

namespace Footing

variable {b : Footing} {k : Nat} {m m' : Machine}

/-- A run hands its outcome to what is below it on any footing, unless it fails because it opens one
more loop. -/
theorem run_lands (h : Grafted b k m m') {fuel : Nat} {o : Outcome} {v : World}
    (hr : m.run fuel = some (o, v))
    (hlimit : ∀ limit, o ≠ .error (.fault (.reentryDepthExceeded limit))) :
    ∃ n l w, m'.after n = b.resume o w ∧ Alike l l w v := by
  have now {k : Nat} {m m' : Machine} (h : Grafted b k m m') (ho : m.outcome? = some o)
      (hv : m.world = v) : ∃ n l w, m'.after n = b.resume o w ∧ Alike l l w v := by
    cases h with
    | run | finish | call => cases ho
    | answer _ hr _ ha =>
      cases hr with
      | send | sender | iteration => cases ho
      | call =>
        cases ho
        cases hv
        exact ⟨0, k, _, rfl, ha⟩
  induction fuel generalizing k m m' with
  | zero =>
    simp only [Machine.run, Option.map_eq_some_iff, Prod.mk.injEq] at hr
    obtain ⟨_, ho, rfl, hv⟩ := hr
    exact now h ho hv
  | succ fuel ih =>
    cases ho : m.outcome? with
    | some _ =>
      rw [Machine.run_of_outcome? ho] at hr
      cases hr
      exact now h ho rfl
    | none =>
      rw [Machine.run_succ ho] at hr
      cases step_follows h ho with
      | grafted h =>
        obtain ⟨n, l, w, hn, ha⟩ := ih h hr
        exact ⟨n + 1, l, w, hn, ha⟩
      | landed hm hm' ha =>
        rw [hm, Machine.run_of_outcome? (by rfl)] at hr
        cases hr
        exact ⟨1, _, _, hm', ha⟩
      | exceeded _ hf =>
        exact absurd (Machine.Failing.outcome (.inl hf) hr) (hlimit _)

end Footing

end MessageMachine
