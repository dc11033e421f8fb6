import MessageMachine.Host
import MessageMachine.Proofs.Footing

namespace MessageMachine

/-- The loop that runs with the instruction that is next in it, if it can be read. -/
def Machine.next? (m : Machine) : Option (RunLoop × Instruction) :=
  match m.control with
  | .run loop => (loop.current.fetch m.world).toOption.map (loop, ·)
  | .finish _ _ | .call _ | .answer _ => none

theorem Machine.next?_eq_some {m : Machine} {loop : RunLoop} {i : Instruction} :
    m.next? = some (loop, i) ↔ m.control = .run loop ∧ loop.current.fetch m.world = .ok i := by
  obtain ⟨control, waiting, w⟩ := m
  cases control with
  | run l =>
    simp only [next?, Option.map_eq_some_iff, Prod.mk.injEq, Control.run.injEq]
    constructor
    · rintro ⟨i, hi, rfl, rfl⟩
      refine ⟨rfl, ?_⟩
      cases hf : l.current.fetch w with
      | ok j =>
        rw [hf] at hi
        cases hi
        rfl
      | error f =>
        rw [hf] at hi
        cases hi
    · rintro ⟨rfl, hi⟩
      exact ⟨i, by rw [hi]; rfl, rfl, rfl⟩
  | finish | call | answer => exact ⟨nofun, nofun⟩

/-- Sends a message, found without any inline cache. -/
def Machine.dispatch (receiver : Value) (selector : Symbol) (args : List Value) (w : World) :
    Machine :=
  match Action.dispatch receiver selector args w with
  | .ok c w => .call c [] w
  | .error f w => ⟨.fault f, [], w⟩

/-- What a host can ask a world to run. -/
inductive HostCall where
  | invoke (m : Method) (receiver : Value) (args : List Value)
  | send (receiver : Value) (selector : String) (args : List Value)
  | dispatch (receiver : Value) (selector : Symbol) (args : List Value)
  | call (m : Method) (args : List Value)
  | evaluate (b : Block) (params : List Value)
  | execute (r : CodeRef) (args : List Value) (outer : Option FrameRef)

instance (priority := high) Except.decidableEq {ε α : Type} [DecidableEq ε] [DecidableEq α] :
    DecidableEq (Except ε α)
  | .ok a, .ok b => decidable_of_iff (a = b) ⟨congrArg _, Except.ok.inj⟩
  | .error e, .error f => decidable_of_iff (e = f) ⟨congrArg _, Except.error.inj⟩
  | .ok _, .error _ | .error _, .ok _ => isFalse nofun

theorem eq_ok_of_toOption {α : Type} {e : Except Fault α} {x : α} (h : e.toOption = some x) :
    e = .ok x := by
  cases e with
  | error f => cases h
  | ok y => rw [Option.some.inj h]

deriving instance DecidableEq for Abrupt

/-- What a host is given back: calls by method or selector settle on a value or a fault, all others
pass on a non-local return too. -/
inductive HostAnswer where
  | settled (r : Except Fault Value)
  | outcome (o : Outcome)
deriving DecidableEq

/-- The answer as a host sees it that waits for no non-local return. -/
def HostAnswer.settle : HostAnswer → Except Fault Value
  | settled r => r
  | outcome o => o.settle

namespace HostCall

/-- Runs one call, each loop of the machine within `fuel` steps. -/
def run (fuel : Nat) (w : World) : HostCall → Option (HostAnswer × World)
  | invoke m receiver args => (w.invoke fuel m receiver args).map (Prod.map .settled id)
  | send receiver selector args => (w.send fuel receiver selector args).map (Prod.map .settled id)
  | dispatch receiver selector args =>
    (w.dispatch fuel receiver selector args).map (Prod.map .outcome id)
  | call m args => (w.call fuel m args).map (Prod.map .outcome id)
  | evaluate b params => (w.evaluate fuel b params).map (Prod.map .outcome id)
  | execute r args outer => (w.execute fuel r args outer).map (Prod.map .outcome id)

/-- Runs some calls, one after the other. -/
def runAll (fuel : Nat) : List HostCall → World → Option (List HostAnswer × World)
  | [], w => some ([], w)
  | c :: rest, w =>
    match c.run fuel w with
    | none => none
    | some (a, w) => (runAll fuel rest w).map (Prod.map (a :: ·) id)

def machine (w : World) : HostCall → Machine
  | invoke m receiver args =>
    if args.length + 1 = w.argCount m then .call ⟨m, receiver :: args⟩ [] w
    else ⟨.fault (.arityMismatch (.method m) (w.argCount m) (args.length + 1)), [], w⟩
  | send receiver selector args =>
    let (selector, w) := w.intern selector
    if args.length + 1 = selector.arity then .dispatch receiver selector args w
    else
      ⟨.fault (.arityMismatch (.selector selector.name) selector.arity (args.length + 1)), [], w⟩
  | dispatch receiver selector args => .dispatch receiver selector args w
  | call m args => .call ⟨m, args⟩ [] w
  | evaluate b params => .evaluate b params [] w
  | execute r args outer => .execute r args outer [] w

/-- What the outcome of a call is to the host. -/
def answer : HostCall → Outcome → HostAnswer
  | invoke _ _ _, o | send _ _ _, o => .settled o.settle
  | dispatch _ _ _, o | call _ _, o | evaluate _ _, o | execute _ _ _, o => .outcome o

theorem settle_answer (c : HostCall) (o : Outcome) : (c.answer o).settle = o.settle := by
  cases c <;> rfl

theorem dispatch_eq (w : World) (fuel : Nat) (receiver : Value) (selector : Symbol)
    (args : List Value) :
    w.dispatch fuel receiver selector args = (Machine.dispatch receiver selector args w).run fuel := by
  unfold World.dispatch Machine.dispatch
  cases Action.dispatch receiver selector args w with
  | ok c w' => rfl
  | error f w' => exact (Machine.run_of_outcome? (m := ⟨.fault f, [], w'⟩) rfl fuel).symm

theorem settled_map (r : Option (Outcome × World)) :
    (World.settled r).map (Prod.map .settled id) =
      r.map (Prod.map (HostAnswer.settled ∘ Outcome.settle) id) := by
  rw [World.settled, Option.map_map]
  rfl

theorem run_eq (fuel : Nat) (w : World) (c : HostCall) :
    c.run fuel w = ((c.machine w).run fuel).map (Prod.map c.answer id) := by
  cases c with
  | invoke m receiver args =>
    simp only [run, World.invoke, machine]
    split
    · exact settled_map _
    · rw [Machine.run_of_outcome? rfl]
      rfl
  | send receiver selector args =>
    simp only [run, World.send, machine]
    split
    · rw [dispatch_eq]
      exact settled_map _
    · rw [Machine.run_of_outcome? rfl]
      rfl
  | dispatch receiver selector args =>
    simp only [run, dispatch_eq]
    rfl
  | call | evaluate | execute => rfl

end HostCall

/-- A call, or the operation of a primitive with any arguments. -/
inductive Request where
  | host (c : HostCall)
  | primitive (op : Operation) (receiver : Value) (args : List Value)

namespace Request

def run (fuel : Nat) (w : World) : Request → Option (HostAnswer × World)
  | host c => c.run fuel w
  | primitive op receiver args => (w.operate fuel op receiver args).map (Prod.map .outcome id)

/-- The machine that a request sets off. -/
def machine (w : World) : Request → Machine
  | host c => c.machine w
  | primitive op receiver args => .operate op receiver args [] w

/-- What the outcome of a request is to the host. -/
def answer : Request → Outcome → HostAnswer
  | host c, o => c.answer o
  | primitive _ _ _, o => .outcome o

theorem settle_answer (r : Request) (o : Outcome) : (r.answer o).settle = o.settle := by
  cases r with
  | host c => exact c.settle_answer o
  | primitive => rfl

theorem run_eq (fuel : Nat) (w : World) (r : Request) :
    r.run fuel w = ((r.machine w).run fuel).map (Prod.map r.answer id) := by
  cases r with
  | host c => exact c.run_eq fuel w
  | primitive => rfl

theorem outcome_of_run {r : Request} {fuel : Nat} {w w' : World} {a : HostAnswer}
    (h : r.run fuel w = some (a, w')) : ∃ o, (r.machine w).run fuel = some (o, w') := by
  rw [run_eq, Option.map_eq_some_iff] at h
  obtain ⟨⟨o, v⟩, ho, hv⟩ := h
  cases hv
  exact ⟨o, ho⟩

theorem run_unique {r : Request} {w : World} {n k : Nat} {x y : HostAnswer × World}
    (hx : r.run n w = some x) (hy : r.run k w = some y) : x = y := by
  rw [run_eq, Option.map_eq_some_iff] at hx hy
  obtain ⟨p, hp, rfl⟩ := hx
  obtain ⟨q, hq, rfl⟩ := hy
  have hsum := Machine.run_add hp k
  rw [Nat.add_comm, Machine.run_add hq n] at hsum
  rw [Option.some.inj hsum]

end Request

namespace Machine

theorem after_of_run {m : Machine} {fuel : Nat} {o : Outcome} {w : World}
    (h : m.run fuel = some (o, w)) :
    ∃ n ≤ fuel, (m.after n).outcome? = some o ∧ (m.after n).world = w := by
  induction fuel generalizing m with
  | zero =>
    simp only [run, Option.map_eq_some_iff, Prod.mk.injEq] at h
    obtain ⟨o', ho, rfl, hw⟩ := h
    exact ⟨0, Nat.le_refl 0, ho, hw⟩
  | succ fuel ih =>
    cases ho : m.outcome? with
    | some o' =>
      rw [run_of_outcome? ho] at h
      cases h
      exact ⟨0, Nat.zero_le _, ho, rfl⟩
    | none =>
      rw [run_succ ho] at h
      obtain ⟨n, hle, hn⟩ := ih h
      exact ⟨n + 1, Nat.succ_le_succ hle, hn⟩

theorem step_of_outcome {m : Machine} {o : Outcome} (h : m.outcome? = some o) : m.step = m := by
  obtain ⟨control, waiting, w⟩ := m
  cases control with
  | answer o' =>
    cases waiting with
    | nil => rfl
    | cons x rest => cases h
  | run | finish | call => cases h

theorem after_of_outcome {m : Machine} {o : Outcome} (h : m.outcome? = some o) (n : Nat) :
    m.after n = m := by
  induction n with
  | zero => rfl
  | succ n ih => rw [after_succ, ih, step_of_outcome h]

/-- An outcome that some number of steps leads to is that of every run with fuel for them. -/
theorem run_of_after {m : Machine} {n : Nat} {o : Outcome} (h : (m.after n).outcome? = some o)
    {fuel : Nat} (hle : n ≤ fuel) : m.run fuel = some (o, (m.after n).world) := by
  induction n generalizing m fuel with
  | zero => exact run_of_outcome? h fuel
  | succ n ih =>
    cases ho : m.outcome? with
    | some o' =>
      rw [after_of_outcome ho, ho] at h
      cases h
      rw [run_of_outcome? ho, after_of_outcome ho]
    | none =>
      obtain ⟨fuel, rfl⟩ := Nat.exists_eq_add_of_le' hle
      rw [← Nat.add_assoc, run_succ ho]
      exact ih h (Nat.le_add_left n fuel)

/-- The same machine with others below, who wait for its outcome. -/
def on (m : Machine) (below : List Waiting) : Machine :=
  { m with waiting := m.waiting ++ below }

section

variable (waiting below : List Waiting) (w : World)

theorem execute_on (method : CodeRef) (args : List Value) (outer : Option FrameRef) :
    execute method args outer (waiting ++ below) w = (execute method args outer waiting w).on below := by
  unfold execute
  cases RunLoop.start method args outer w <;> rfl

theorem reply_on (r : Reply) : reply r (waiting ++ below) w = (reply r waiting w).on below := by
  match r with
  | .answer v => rfl
  | .call c => rfl
  | .evaluate b params none => exact execute_on waiting below w _ _ _
  | .evaluate b params (some i) => exact execute_on (.iteration i :: waiting) below w _ _ _

theorem operate_on (op : Operation) (receiver : Value) (args : List Value) :
    operate op receiver args (waiting ++ below) w = (operate op receiver args waiting w).on below := by
  unfold operate
  cases op.start receiver args w with
  | ok r w' => exact reply_on waiting below w' r
  | error f w' => rfl

theorem call_on (c : Call) : call c (waiting ++ below) w = (call c waiting w).on below := by
  obtain ⟨method, args⟩ := c
  match method, args with
  | .compiled r, args => exact execute_on waiting below w r args none
  | .primitive p, receiver :: args => exact operate_on waiting below w _ receiver args
  | .primitive p, [] => rfl

theorem deliver_on (loop : RunLoop) (v : Value) :
    deliver loop v (waiting ++ below) w = (deliver loop v waiting w).on below := by
  unfold deliver
  cases loop.push v w <;> rfl

theorem handOver_on (loop : RunLoop) (o : Outcome) :
    handOver loop o (waiting ++ below) w = (handOver loop o waiting w).on below := by
  cases o with
  | ok v => exact deliver_on waiting below w loop v
  | error u => rfl

theorem advance_on (loop : RunLoop) :
    advance loop (waiting ++ below) w = (advance loop waiting w).on below := by
  unfold advance
  cases loop.current.step w with
  | error f w' => rfl
  | ok e w' => cases e <;> rfl

theorem finish_on (loop : RunLoop) (o : Outcome) :
    finish loop o (waiting ++ below) w = (finish loop o waiting w).on below := by
  rw [Footing.finish_eq, Footing.finish_eq]
  cases loop.suspended with
  | nil => rfl
  | cons sender rest => exact handOver_on waiting below _ _ _

theorem answer_on (o : Outcome) (h : waiting ≠ []) :
    answer o (waiting ++ below) w = (answer o waiting w).on below := by
  match waiting, o with
  | [], _ => exact absurd rfl h
  | .sender loop .push :: rest, .ok v => exact deliver_on rest below w loop v
  | .sender loop .push :: rest, .error u => rfl
  | .sender loop .complete :: rest, o => rfl
  | .iteration i :: rest, .ok v =>
    simp only [List.cons_append, answer]
    cases i.next v with
    | ok r => exact reply_on rest below w r
    | error f => rfl
  | .iteration i :: rest, .error u => rfl

end

theorem step_on {m : Machine} (h : m.outcome? = none) (below : List Waiting) :
    (m.on below).step = m.step.on below := by
  obtain ⟨control, waiting, w⟩ := m
  cases control with
  | run loop => exact advance_on waiting below w loop
  | finish loop o => exact finish_on waiting below w loop o
  | call c => exact call_on waiting below w c
  | answer o =>
    refine answer_on waiting below w o ?_
    rintro rfl
    cases h

theorem after_on {m : Machine} {n : Nat} (h : ∀ j < n, (m.after j).outcome? = none)
    (below : List Waiting) : (m.on below).after n = (m.after n).on below := by
  induction n with
  | zero => rfl
  | succ n ih =>
    rw [after_succ, after_succ, ih fun j hj => h j (Nat.lt_succ_of_lt hj)]
    exact step_on (h n (Nat.lt_succ_self n)) below

end Machine

end MessageMachine
