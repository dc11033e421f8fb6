import MessageMachine.Proofs.Depth

namespace MessageMachine

namespace Footing

/-- A machine that nobody waits for, and the same machine on a footing, in the same world. -/
inductive Carries (b : Footing) : Machine → Machine → Prop where
  | run {n : Nat} {loop loop' : RunLoop} {ws vs : List Waiting} {w : World}
      (h : Hosts b n loop loop' ws vs) : Carries b ⟨.run loop, ws, w⟩ ⟨.run loop', vs, w⟩
  | finish {n : Nat} {loop loop' : RunLoop} {ws vs : List Waiting} {w : World} (o : Outcome)
      (h : Hosts b n loop loop' ws vs) : Carries b ⟨.finish loop o, ws, w⟩ ⟨.finish loop' o, vs, w⟩
  | call {n : Nat} {ws vs : List Waiting} {w : World} (c : Call) (h : Rests b n ws vs) :
      Carries b ⟨.call c, ws, w⟩ ⟨.call c, vs, w⟩
  | answer {n : Nat} {ws vs : List Waiting} {w : World} (o : Outcome) (h : Rests b n ws vs) :
      Carries b ⟨.answer o, ws, w⟩ ⟨.answer o, vs, w⟩

variable {b : Footing} {n : Nat} {ws vs : List Waiting} {w : World} {m m' : Machine}

/-- The first machine has an outcome, and the other has given it to what is below. The loop of the first
one is closed by then. -/
def Lands (b : Footing) (m m' : Machine) : Prop :=
  ∃ o, m.outcome? = some o ∧
    m' = b.resume o { m.world with reentry := m.world.reentry + b.loops }

theorem execute_carries (hr : Rests b n ws vs) (r : CodeRef) (args : List Value)
    (outer : Option FrameRef) : b.Carries (.execute r args outer ws w) (.execute r args outer vs w) := by
  unfold Machine.execute
  cases RunLoop.start r args outer w with
  | ok loop w' => exact .run (.above loop hr)
  | error f w' => exact .answer _ hr

theorem reply_carries (hr : Rests b n ws vs) (r : Reply) :
    b.Carries (.reply r ws w) (.reply r vs w) := by
  match r with
  | .answer x => exact .answer _ hr
  | .call c => exact .call c hr
  | .evaluate block params none => exact execute_carries hr _ _ _
  | .evaluate block params (some i) => exact execute_carries (.iteration i hr) _ _ _

theorem operate_carries (hr : Rests b n ws vs) (op : Operation) (receiver : Value)
    (args : List Value) : b.Carries (.operate op receiver args ws w) (.operate op receiver args vs w) := by
  unfold Machine.operate
  cases op.start receiver args w with
  | ok r w' => exact reply_carries hr r
  | error f w' => exact .answer _ hr

theorem call_carries (hr : Rests b n ws vs) (c : Call) : b.Carries (.call c ws w) (.call c vs w) := by
  obtain ⟨method, args⟩ := c
  match method, args with
  | .compiled r, args => exact execute_carries hr r args none
  | .primitive p, receiver :: args => exact operate_carries hr _ receiver args
  | .primitive p, [] => exact .answer _ hr

section

variable {loop loop' : RunLoop} (hh : Hosts b n loop loop' ws vs)
include hh

theorem deliver_carries (x : Value) : b.Carries (.deliver loop x ws w) (.deliver loop' x vs w) := by
  simp only [Machine.deliver, RunLoop.push, Action.bind_apply, hh.current]
  cases loop.current.handle.push x w with
  | ok handle w' => exact .run (hh.withCurrent _)
  | error f w' => exact .finish _ hh

theorem handOver_carries (o : Outcome) : b.Carries (.handOver loop o ws w) (.handOver loop' o vs w) := by
  cases o with
  | ok x => exact deliver_carries hh x
  | error u => exact .finish _ hh

theorem advance_carries : b.Carries (.advance loop ws w) (.advance loop' vs w) := by
  unfold Machine.advance
  rw [hh.current]
  cases loop.current.step w with
  | error f w' => exact .finish _ hh
  | ok e w' =>
    cases e with
    | resume a => exact .run (hh.withCurrent a)
    | activate sender callee => exact .run (hh.activate sender callee)
    | callOut sender c use => exact .call c ((hh.withCurrent sender).waits use)
    | complete x | unwind x target => exact .finish _ hh

end

theorem finish_carries {loop loop' : RunLoop} (hh : Hosts b n loop loop' ws vs) (hopen : 0 < w.reentry)
    (o : Outcome) : b.Carries (.finish loop o ws w) (.finish loop' o vs w) ∨
      b.Lands (.finish loop o ws w) (.finish loop' o vs w) := by
  rw [finish_eq, finish_eq, hh.current]
  obtain ⟨current, suspended⟩ := loop
  cases hh with
  | above _ hr =>
    cases suspended with
    | nil => exact .inl (.answer _ hr)
    | cons sender rest => exact .inl (handOver_carries (.above _ hr) _)
  | base _ =>
    cases suspended with
    | nil =>
      refine .inr ⟨_, rfl, ?_⟩
      have hreentry : 0 < (current.retire o w).2.reentry := by
        rw [(current.retire_still o w).reentry]
        exact hopen
      change Machine.handOver _ _ _ _ = Machine.handOver _ _ _ { (current.retire o w).2 with
        reentry := (current.retire o w).2.reentry - 1 + 1 }
      rw [Nat.sub_add_cancel hreentry]
    | cons sender rest => exact .inl (handOver_carries (.base ⟨sender, rest⟩) _)

theorem answer_carries (hr : Rests b n ws vs) (hne : ws ≠ []) (o : Outcome) :
    b.Carries (.answer o ws w) (.answer o vs w) := by
  have sender {n : Nat} {loop loop' : RunLoop} {ws vs : List Waiting}
      (hh : Hosts b n loop loop' ws vs) (use : Use) :
      b.Carries (.answer o (.sender loop use :: ws) w) (.answer o (.sender loop' use :: vs) w) := by
    match use, o with
    | .push, o =>
      rw [Machine.answer_handOver, Machine.answer_handOver]
      exact handOver_carries hh o
    | .complete, .ok x => exact .finish _ hh
    | .complete, .error u => exact .finish _ hh
  cases hr with
  | call => exact absurd rfl hne
  | send loop use => exact sender (.base loop) use
  | sender loop use hr => exact sender (.above loop hr) use
  | iteration i hr =>
    cases o with
    | error u => exact .answer _ hr
    | ok x =>
      simp only [Machine.answer]
      cases i.next x with
      | ok r => exact reply_carries hr r
      | error f => exact .answer _ hr

theorem Carries.step (h : b.Carries m m') (ho : m.outcome? = none)
    (hopen : ∀ loop o, m.control = .finish loop o → 0 < m.world.reentry) :
    b.Carries m.step m'.step ∨ b.Lands m.step m'.step := by
  cases h with
  | run hh => exact .inl (advance_carries hh)
  | finish o hh => exact finish_carries hh (hopen _ _ rfl) o
  | call c hr => exact .inl (call_carries hr c)
  | answer o hr =>
    refine .inl (answer_carries hr (fun hnil => ?_) o)
    subst hnil
    cases ho

theorem Carries.lands (h : b.Carries m m') {o : Outcome} (ho : m.outcome? = some o) : b.Lands m m' := by
  cases h with
  | run | finish | call => cases ho
  | answer _ hr =>
    cases hr with
    | call => exact ⟨o, ho, by cases ho; rfl⟩
    | send | sender | iteration => cases ho

/-- A run goes on on any footing for as long as it has no outcome, and once it has one it has landed. -/
theorem Carries.after (h : b.Carries m m')
    (hopen : ∀ n loop o, (m.after n).control = .finish loop o → 0 < (m.after n).world.reentry) {n : Nat}
    (hnone : ∀ j < n, (m.after j).outcome? = none) :
    b.Carries (m.after n) (m'.after n) ∨ b.Lands (m.after n) (m'.after n) := by
  induction n with
  | zero => exact .inl h
  | succ n ih =>
    rw [Machine.after_succ, Machine.after_succ]
    have ho := hnone n (Nat.lt_succ_self n)
    obtain hcarries | ⟨o, hsome, -⟩ := ih fun j hj => hnone j (Nat.lt_succ_of_lt hj)
    · exact hcarries.step ho (hopen n)
    · rw [ho] at hsome
      cases hsome

end Footing

/-- Whatever is asked for in a world within its limits runs on any footing as it does on its own. What is
below waits while it has no outcome, and gets its first one in the same step. -/
theorem Request.carried (r : Request) {w : World} (hdepth : w.depth ≤ w.config.maxCallDepth)
    (hreentry : w.reentry ≤ w.config.maxReentryDepth) {b : Footing} {m : Machine}
    (h : b.Carries (r.machine w) m) :
    (∀ n, (∀ j ≤ n, ((r.machine w).after j).outcome? = none) →
      b.Carries ((r.machine w).after n) (m.after n)) ∧
    ∀ n o, (∀ j < n, ((r.machine w).after j).outcome? = none) →
      ((r.machine w).after n).outcome? = some o →
      m.after n = b.resume o { ((r.machine w).after n).world with reentry := w.reentry + b.loops } := by
  have hcounters := (r.counters_balance w hdepth hreentry).1
  have hafter {n : Nat} := h.after (n := n) fun n loop o hf => ((hcounters n).2.2.2.2.2.1 loop o hf).2
  refine ⟨fun n hnone => ?_, fun n o hnone ho => ?_⟩
  · obtain hcarries | ⟨o, ho, -⟩ := hafter fun j hj => hnone j (Nat.le_of_lt hj)
    · exact hcarries
    · rw [hnone n (Nat.le_refl n)] at ho
      cases ho
  · have hlands : b.Lands ((r.machine w).after n) (m.after n) :=
      (hafter hnone).elim (fun hcarries => hcarries.lands ho) id
    obtain ⟨o', ho', hm⟩ := hlands
    cases ho.symm.trans ho'
    rw [hm, ((hcounters n).2.2.2.2.2.2 o ho).2]

end MessageMachine
