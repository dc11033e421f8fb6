import MessageMachine.Proofs.Changing
import MessageMachine.Proofs.Sending

namespace MessageMachine

/-- Following the reply in `w` raises `f` and leaves `v`. -/
inductive Reply.Raises (w : World) (f : Fault) : Reply → World → Prop
  | evaluate {b : Block} {params : List Value} {i : Option Iteration} {v : World}
      (h : RunLoop.start b.code (.block b :: params) (some b.context) w = .error f v) :
      Raises w f (.evaluate b params i) v

inductive Operation.Raises (op : Operation) (receiver : Value) (args : List Value) (w : World)
    (f : Fault) : World → Prop
  | start {v : World} (h : op.start receiver args w = .error f v) : Raises op receiver args w f v
  | reply {r : Reply} {u v : World} (h : op.start receiver args w = .ok r u) (hr : r.Raises u f v) :
      Raises op receiver args w f v

inductive Call.Raises (w : World) : Fault → Call → World → Prop
  | compiled {f : Fault} {r : CodeRef} {args : List Value} {v : World}
      (h : RunLoop.start r args none w = .error f v) : Raises w f ⟨.compiled r, args⟩ v
  | primitive {f : Fault} {p : PrimitiveRef} {receiver : Value} {args : List Value} {v : World}
      (h : (w.primitives.get p).operation.Raises receiver args w f v) :
      Raises w f ⟨.primitive p, receiver :: args⟩ v
  | noReceiver {p : PrimitiveRef} :
      Raises w (.arityMismatch (.method (.primitive p)) (w.argCount (.primitive p)) 0)
        ⟨.primitive p, []⟩ w

/-- The next step raises `f` and leaves the world `v`. -/
inductive Machine.Raises (f : Fault) : Machine → World → Prop
  | instruction {loop : RunLoop} {waiting : List Waiting} {w v : World}
      (h : loop.current.step w = .error f v) : Raises f ⟨.run loop, waiting, w⟩ v
  | result {current sender : Activation} {suspended : List Activation} {o : Outcome}
      {waiting : List Waiting} {x : Value} {w u v : World}
      (hretire : current.retire o w = (.ok x, u))
      (h : RunLoop.push ⟨sender, suspended⟩ x u = .error f v) :
      Raises f ⟨.finish ⟨current, sender :: suspended⟩ o, waiting, w⟩ v
  | call {c : Call} {waiting : List Waiting} {w v : World} (h : c.Raises w f v) :
      Raises f ⟨.call c, waiting, w⟩ v
  | delivery {loop : RunLoop} {rest : List Waiting} {x : Value} {w v : World}
      (h : loop.push x w = .error f v) :
      Raises f ⟨.answer (.ok x), .sender loop .push :: rest, w⟩ v
  | iteration {i : Iteration} {rest : List Waiting} {x : Value} {w : World}
      (h : i.next x = .error f) : Raises f ⟨.answer (.ok x), .iteration i :: rest, w⟩ w
  | again {i : Iteration} {rest : List Waiting} {x : Value} {r : Reply} {w v : World}
      (h : i.next x = .ok r) (hr : r.Raises w f v) :
      Raises f ⟨.answer (.ok x), .iteration i :: rest, w⟩ v

/-- The first `n` steps of a request end with `f` being raised, and leave the world `v`. -/
inductive Request.Raises (r : Request) (w : World) (f : Fault) : Nat → World → Prop
  | atOnce (h : (r.machine w).Failing f) : Raises r w f 0 (r.machine w).world
  | later {n : Nat} {v : World} (h : ((r.machine w).after n).Raises f v) : Raises r w f (n + 1) v

namespace Machine

variable {f : Fault} {waiting : List Waiting} {w v : World} {m m' m'' : Machine}

def FailsIn (f : Fault) (v : World) (m : Machine) : Prop := m.Failing f ∧ m.world = v

def fault? (m : Machine) : Option Fault :=
  match m.control with
  | .answer (.error (.fault f)) | .finish _ (.error (.fault f)) => some f
  | _ => none

theorem failing_iff : m.Failing f ↔ m.fault? = some f := by
  obtain ⟨control, waiting, w⟩ := m
  constructor
  · rintro (rfl | ⟨loop, rfl⟩) <;> rfl
  · intro h
    unfold fault? at h
    split at h
    · next hc =>
      cases h
      exact .inl hc
    · next hc =>
      cases h
      exact .inr ⟨_, hc⟩
    · cases h

instance (f : Fault) (m : Machine) : Decidable (m.Failing f) := decidable_of_iff' _ failing_iff

theorem not_failing {c : Control} (ha : c ≠ .fault f)
    (hf : ∀ loop, c ≠ .finish loop (.error (.fault f))) : ¬Failing f ⟨c, waiting, w⟩ := by
  rintro (h | ⟨loop, h⟩)
  · exact ha h
  · exact hf loop h

theorem failsIn_fault {g : Fault} : FailsIn f v ⟨.fault g, waiting, w⟩ ↔ g = f ∧ w = v := by
  constructor
  · rintro ⟨h | ⟨_, h⟩, hw⟩
    · cases h
      exact ⟨rfl, hw⟩
    · cases h
  · rintro ⟨rfl, rfl⟩
    exact ⟨.inl rfl, rfl⟩

theorem failsIn_finish {g : Fault} {loop : RunLoop} :
    FailsIn f v ⟨.finish loop (.error (.fault g)), waiting, w⟩ ↔ g = f ∧ w = v := by
  constructor
  · rintro ⟨h | ⟨_, h⟩, hw⟩
    · cases h
    · cases h
      exact ⟨rfl, hw⟩
  · rintro ⟨rfl, rfl⟩
    exact ⟨.inr ⟨loop, rfl⟩, rfl⟩

theorem execute_failsIn {r : CodeRef} {args : List Value} {outer : Option FrameRef} :
    (execute r args outer waiting w).FailsIn f v ↔ RunLoop.start r args outer w = .error f v := by
  unfold execute
  cases RunLoop.start r args outer w with
  | ok loop u => exact ⟨fun h => absurd h.1 (not_failing nofun nofun), nofun⟩
  | error g u => simp [failsIn_fault]

theorem reply_failsIn {r : Reply} : (reply r waiting w).FailsIn f v ↔ r.Raises w f v := by
  match r with
  | .answer x | .call c =>
    exact ⟨fun h => absurd h.1 (not_failing nofun nofun), nofun⟩
  | .evaluate b params none | .evaluate b params (some i) =>
    exact execute_failsIn.trans ⟨.evaluate, fun | .evaluate h => h⟩

theorem operate_failsIn {op : Operation} {receiver : Value} {args : List Value} :
    (operate op receiver args waiting w).FailsIn f v ↔ op.Raises receiver args w f v := by
  unfold operate
  cases hs : op.start receiver args w with
  | ok r u =>
    refine reply_failsIn.trans ⟨.reply hs, fun h => ?_⟩
    cases h with
    | start h => cases hs.symm.trans h
    | reply h hr =>
      cases hs.symm.trans h
      exact hr
  | error g u =>
    refine failsIn_fault.trans ⟨fun ⟨hf, hv⟩ => .start (hf ▸ hv ▸ hs), fun h => ?_⟩
    cases h with
    | start h =>
      cases hs.symm.trans h
      exact ⟨rfl, rfl⟩
    | reply h => cases hs.symm.trans h

theorem call_failsIn {c : Call} : (call c waiting w).FailsIn f v ↔ c.Raises w f v := by
  obtain ⟨method, args⟩ := c
  match method, args with
  | .compiled r, args => exact execute_failsIn.trans ⟨.compiled, fun | .compiled h => h⟩
  | .primitive p, receiver :: args => exact operate_failsIn.trans ⟨.primitive, fun | .primitive h => h⟩
  | .primitive p, [] =>
    refine failsIn_fault.trans ⟨?_, fun | .noReceiver => ⟨rfl, rfl⟩⟩
    rintro ⟨rfl, rfl⟩
    exact .noReceiver

theorem deliver_failsIn {loop : RunLoop} {x : Value} :
    (deliver loop x waiting w).FailsIn f v ↔ loop.push x w = .error f v := by
  unfold deliver
  cases loop.push x w with
  | ok loop u => exact ⟨fun h => absurd h.1 (not_failing nofun nofun), nofun⟩
  | error g u => simp [failsIn_finish]

theorem advance_failsIn {loop : RunLoop} :
    (advance loop waiting w).FailsIn f v ↔ loop.current.step w = .error f v := by
  unfold advance
  cases loop.current.step w with
  | ok e u =>
    cases e <;> exact ⟨fun h => absurd h.1 (not_failing nofun nofun), nofun⟩
  | error g u => simp [failsIn_finish]

theorem finish_failsIn {loop : RunLoop} {o : Outcome} (ho : o ≠ .error (.fault f)) :
    (finish loop o waiting w).FailsIn f v ↔ Raises f ⟨.finish loop o, waiting, w⟩ v := by
  obtain ⟨current, suspended⟩ := loop
  have hkept : (current.retire o w).1 ≠ .error (.fault f) := by
    match o with
    | .ok x => nofun
    | .error (.fault g) => exact ho
    | .error (.nonLocalReturn x k) =>
      unfold Activation.retire
      dsimp only
      split <;> nofun
  rw [Footing.finish_eq]
  cases suspended with
  | nil =>
    exact ⟨fun h => absurd h.1 (not_failing (fun h => hkept (Control.answer.inj h)) nofun), nofun⟩
  | cons sender rest =>
    cases hr : current.retire o w with
    | mk o' u =>
      cases o' with
      | ok x =>
        refine deliver_failsIn.trans ⟨.result hr, fun h => ?_⟩
        cases h with
        | result hretire h =>
          cases hr.symm.trans hretire
          exact h
      | error a =>
        rw [hr] at hkept
        refine ⟨fun h => ?_, fun h => ?_⟩
        · exact absurd h.1 (not_failing nofun fun loop h => hkept (Control.finish.inj h).2)
        · cases h with
          | result hretire h => cases hr.symm.trans hretire

theorem iterate_failsIn {i : Iteration} {x : Value} :
    (answer (.ok x) (.iteration i :: waiting) w).FailsIn f v ↔
      Raises f ⟨.answer (.ok x), .iteration i :: waiting, w⟩ v := by
  unfold answer
  dsimp only
  cases hn : i.next x with
  | ok r =>
    refine reply_failsIn.trans ⟨.again hn, fun h => ?_⟩
    cases h with
    | iteration h => cases hn.symm.trans h
    | again h hr =>
      cases hn.symm.trans h
      exact hr
  | error g =>
    refine failsIn_fault.trans ⟨?_, fun h => ?_⟩
    · rintro ⟨rfl, rfl⟩
      exact .iteration hn
    · cases h with
      | iteration h =>
        cases hn.symm.trans h
        exact ⟨rfl, rfl⟩
      | again h => cases hn.symm.trans h

theorem answer_failsIn {o : Outcome} (ho : o ≠ .error (.fault f)) :
    (answer o waiting w).FailsIn f v ↔ Raises f ⟨.answer o, waiting, w⟩ v := by
  match waiting, o with
  | [], o =>
    exact ⟨fun h => absurd h.1 (not_failing (fun h => ho (Control.answer.inj h)) nofun), nofun⟩
  | .sender loop .push :: rest, .ok x =>
    exact deliver_failsIn.trans ⟨.delivery, fun | .delivery h => h⟩
  | .sender loop .complete :: rest, .ok x =>
    exact ⟨fun h => absurd h.1 (not_failing nofun nofun), nofun⟩
  | .sender loop .push :: rest, .error a | .sender loop .complete :: rest, .error a =>
    refine ⟨fun h => absurd h.1 (not_failing nofun fun loop h => ?_), nofun⟩
    exact ho (Control.finish.inj h).2
  | .iteration i :: rest, .error a =>
    exact ⟨fun h => absurd h.1 (not_failing (fun h => ho (Control.answer.inj h)) nofun), nofun⟩
  | .iteration i :: rest, .ok x => exact iterate_failsIn

/-- These are all the steps after which a machine is failing that was not failing before. -/
theorem raises_iff : m.Raises f v ↔ ¬m.Failing f ∧ m.step.FailsIn f v := by
  constructor
  · intro h
    refine ⟨?_, ?_⟩
    · cases h with
      | instruction | call | delivery | iteration | again => exact not_failing nofun nofun
      | result hretire =>
        refine not_failing nofun fun loop h => ?_
        cases h
        cases hretire
    · have h' := h
      cases h with
      | instruction h => exact advance_failsIn.mpr h
      | result hretire =>
        refine (finish_failsIn fun ho => ?_).mpr h'
        subst ho
        cases hretire
      | call h => exact call_failsIn.mpr h
      | delivery | iteration | again =>
        refine (answer_failsIn ?_).mpr h'
        nofun
  · rintro ⟨hnot, h⟩
    obtain ⟨control, waiting, w⟩ := m
    cases control with
    | run loop => exact .instruction (advance_failsIn.mp h)
    | finish loop o =>
      exact (finish_failsIn fun ho => hnot (.inr ⟨loop, congrArg _ ho⟩)).mp h
    | call c => exact .call (call_failsIn.mp h)
    | answer o => exact (answer_failsIn fun ho => hnot (.inl (congrArg Control.answer ho))).mp h

/-- Activations and calls were dropped, and no more is done to the world than that takes. -/
structure Sheds (m m' : Machine) : Prop where
  activations : m'.activations <:+ m.activations
  waiting : m'.waiting <:+ m.waiting
  world : m'.world = { m.world with
    markers := m'.world.markers, depth := m'.world.depth, reentry := m'.world.reentry }

theorem Sheds.refl (m : Machine) : m.Sheds m :=
  ⟨List.suffix_refl _, List.suffix_refl _, rfl⟩

theorem Sheds.trans (h : m.Sheds m') (h' : m'.Sheds m'') : m.Sheds m'' where
  activations := h'.activations.trans h.activations
  waiting := h'.waiting.trans h.waiting
  world := by rw [h'.world, h.world]

/-- The activations to retire and the calls to drop. -/
def remaining (m : Machine) : Nat := m.activations.length + m.waiting.length

theorem Failing.sheds_step (h : m.Failing f) :
    m.Sheds m.step ∧ (m.remaining = 0 ∧ m.outcome? = some (.error (.fault f)) ∨
      m.remaining = m.step.remaining + 1) := by
  obtain ⟨control, waiting, w⟩ := m
  obtain rfl | ⟨⟨current, suspended⟩, rfl⟩ := h
  · match waiting with
    | [] => exact ⟨.refl _, .inl ⟨rfl, rfl⟩⟩
    | .sender loop .push :: rest | .sender loop .complete :: rest | .iteration i :: rest =>
      exact ⟨⟨List.suffix_refl _, List.suffix_cons _ _, rfl⟩, .inr rfl⟩
  · change Sheds _ (finish _ _ _ _) ∧ (_ ∨ _ = (finish _ _ _ _).remaining + 1)
    rw [Footing.finish_eq]
    cases suspended with
    | nil => exact ⟨⟨List.suffix_cons _ _, List.suffix_refl _, rfl⟩, .inr (Nat.add_right_comm _ _ _)⟩
    | cons sender rest =>
      exact ⟨⟨List.suffix_cons _ _, List.suffix_refl _, rfl⟩, .inr (Nat.add_right_comm _ _ _)⟩

theorem Failing.sheds (h : m.Failing f) (n : Nat) :
    (m.after n).Failing f ∧ m.Sheds (m.after n) := by
  induction n with
  | zero => exact ⟨h, .refl m⟩
  | succ n ih =>
    rw [after_succ]
    exact ⟨ih.1.step, ih.2.trans ih.1.sheds_step.1⟩

theorem Failing.outcome_after (h : m.Failing f) :
    (m.after m.remaining).outcome? = some (.error (.fault f)) := by
  induction hn : m.remaining generalizing m with
  | zero =>
    obtain ⟨-, ⟨-, ho⟩ | hr⟩ := h.sheds_step
    · exact ho
    · omega
  | succ n ih =>
    obtain ⟨-, ⟨hr, -⟩ | hr⟩ := h.sheds_step
    · omega
    · exact ih h.step (by omega)

theorem Failing.next?_eq_none (h : m.Failing f) : m.next? = none := by
  obtain ⟨control, waiting, w⟩ := m
  obtain rfl | ⟨loop, rfl⟩ := h <;> rfl

end Machine

namespace Request

variable {r : Request} {w v : World} {f : Fault} {n : Nat}

theorem Raises.failsIn (h : r.Raises w f n v) : ((r.machine w).after n).FailsIn f v := by
  cases h with
  | atOnce h => exact ⟨h, rfl⟩
  | later h =>
    rw [Machine.after_succ]
    exact (Machine.raises_iff.mp h).2

/-- Once a fault is raised, by an instruction, at a limit, by a primitive or by a default handler,
it is the answer to the request. Until then no instruction is executed and nothing is called; one
activation is retired or one waiting call dropped at a time. Only the markers and the depth counters
change with that: no object, array, captured frame, global or transcript, nor any count of messages,
lookups or frames. -/
theorem fault_aborts (h : r.Raises w f n v) :
    let m := (r.machine w).after n
    (∀ k, let m' := m.after k
      m'.Failing f ∧ m'.next? = none ∧ (∀ c, m'.control ≠ .call c) ∧
      m'.activations <:+ m.activations ∧ m'.waiting <:+ m.waiting ∧
      m'.world = { v with
        markers := m'.world.markers, depth := m'.world.depth, reentry := m'.world.reentry }) ∧
    (r.answer (.error (.fault f))).settle = .error f ∧
    ∃ w', w' = { v with markers := w'.markers, depth := w'.depth, reentry := w'.reentry } ∧
      ∀ fuel, n + m.remaining ≤ fuel →
        r.run fuel w = some (r.answer (.error (.fault f)), w') := by
  intro m
  obtain ⟨hfailing, rfl⟩ := h.failsIn
  have hworld (k : Nat) := (hfailing.sheds k).2.world
  refine ⟨fun k => ?_, r.settle_answer _, (m.after m.remaining).world, hworld _, fun fuel hle => ?_⟩
  · obtain ⟨hf, hs⟩ := hfailing.sheds k
    refine ⟨hf, hf.next?_eq_none, fun c hc => ?_, hs.activations, hs.waiting, hs.world⟩
    obtain hf | ⟨loop, hf⟩ := hf <;> cases hf.symm.trans hc
  · have ho : ((r.machine w).after (n + m.remaining)).outcome? = some (.error (.fault f)) := by
      rw [Machine.after_add]
      exact hfailing.outcome_after
    rw [run_eq, Machine.run_of_after ho hle, Machine.after_add]
    rfl

set_option maxRecDepth 100000 in
/-- With room for one activation only, `true ~= nil` comes to its second message, to be answered by
another, and fails. -/
theorem fault_aborts_at_limit :
    ∃ (w : World) (v : World), let r : Request := .host (.send (.boolean true) "~=" [.nil])
      r.Raises w (.callDepthExceeded 1) 6 v ∧
      ∃ w', w' = { v with markers := w'.markers, depth := w'.depth, reentry := w'.reentry } ∧
        r.run 8 w = some (.settled (.error (.callDepthExceeded 1)), w') := by
  let w := { World.standard with config := { World.standard.config with maxCallDepth := 1 } }
  let r : Request := .host (.send (.boolean true) "~=" [.nil])
  obtain ⟨hbefore, hafter, hremaining⟩ : ¬((r.machine w).after 5).Failing (.callDepthExceeded 1) ∧
      ((r.machine w).after 6).Failing (.callDepthExceeded 1) ∧ ((r.machine w).after 6).remaining = 1 := by
    decide +kernel
  have hraises : r.Raises w (.callDepthExceeded 1) 6 ((r.machine w).after 6).world := by
    refine .later (Machine.raises_iff.mpr ⟨hbefore, ?_, rfl⟩)
    rw [← Machine.after_succ]
    exact hafter
  obtain ⟨-, -, w', hw', hrun⟩ := fault_aborts hraises
  exact ⟨w, _, hraises, w', hw', hrun 8 (by rw [hremaining]; decide)⟩

end Request

end MessageMachine
