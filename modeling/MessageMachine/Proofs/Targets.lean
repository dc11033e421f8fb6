import MessageMachine.Proofs.Unwinding

namespace MessageMachine

open Relation

def World.Uncaptured (k : MarkerRef) (w : World) : Prop := ∀ r, (w.frames.get r).marker ≠ k

variable {w w' : World} {k : MarkerRef}

theorem World.Uncaptured.congr (h : w.Uncaptured k) (hframes : w'.frames = w.frames) : w'.Uncaptured k := by
  intro r
  rw [hframes]
  exact h r

theorem World.Uncaptured.moved {k' : MarkerRef} {c : CodeRef} (h : w.Uncaptured k)
    (hm : w.Moved k' c w') (hk : k' ≠ k) : w'.Uncaptured k := by
  intro r
  by_cases hr : r.index < w.frames.size
  · rw [(hm.frame r hr).marker]
    exact h r
  by_cases hr' : r.index < w'.frames.size
  · rw [(hm.fresh r (Nat.le_of_not_lt hr) hr').1]
    exact hk
  · -- What is beyond the frames is the same everywhere.
    have hout := h r
    rw [Arena.get_of_le _ (Nat.le_of_not_lt hr)] at hout
    rw [Arena.get_of_le _ (Nat.le_of_not_lt hr')]
    exact hout

theorem Change.uncaptured {worker : Option MarkerRef} {s s' : Snapshot} (hc : Change worker s s')
    (hk : worker ≠ some k) (h : s.world.Uncaptured k) : s'.world.Uncaptured k := by
  have other {a : Activation} (hworker : worker = some a.marker) : a.marker ≠ k := by
    rintro rfl
    exact hk hworker
  cases hc with
  | works hworker hb => exact h.moved hb.leads.moved (other hworker)
  | ends hworker hm => exact h.moved hm (other hworker)
  | starts hb => exact h.congr (by rw [hb.world])
  | opens | closes => exact h.congr rfl
  | still hs => exact h.congr hs.frames

theorem Snapshot.frames_retire (s : Snapshot) : s.retire.world.frames = s.world.frames := by
  obtain ⟨_ | a, going, n, w⟩ := s <;> rfl

theorem Change.all_uncaptured {worker : Option MarkerRef} {s s' : Snapshot}
    (hc : ReflTransGen (Change worker) s s') (hk : worker ≠ some k) (h : s.world.Uncaptured k) :
    s'.world.Uncaptured k := by
  induction hc with
  | refl => exact h
  | tail _ hc ih => exact hc.uncaptured hk ih

/-- If this is an unwinding effect, its target has its frame captured. -/
def Effect.Captured (e : Effect) (w : World) : Prop :=
  match e with
  | .unwind _ target => ¬ w.Uncaptured target
  | .resume _ | .activate _ _ | .callOut _ _ _ | .complete _ => True

/-- However this ends, it unwinds only to where a frame is captured. -/
def Action.Captures (x : Action Effect) : Prop :=
  ∀ w, x.Ensures w (fun e w' => e.Captured w') fun _ _ => True

namespace Action.Captures

variable {α : Type}

theorem pure {e : Effect} (h : ∀ w, e.Captured w) : Captures (pure e) := fun w => h w

theorem bind {x : Action α} {f : α → Action Effect} (hf : ∀ a, Captures (f a)) :
    Captures (x >>= f) := by
  intro w
  have hx : x.Ensures w (fun _ _ => True) fun _ _ => True := by
    unfold Ensures
    cases x w <;> trivial
  exact hx.bind fun a w' _ => hf a w'

theorem get_bind {f : World → Action Effect} (hf : ∀ w, Captures (f w)) : Captures (get >>= f) :=
  fun w => .get_bind (hf w w)

end Action.Captures

namespace Activation

open MessageMachine.Action (Captures)

theorem enter_captures (a : Activation) (target : Option Method) (selector : Symbol) :
    Captures (a.enter target selector) := by
  refine .bind fun ⟨args, handle⟩ => ?_
  match target with
  | some (.compiled c) => exact .bind fun _ => .pure fun _ => trivial
  | some (.primitive p) =>
    refine .get_bind fun w => ?_
    split
    · exact .bind fun _ => .pure fun _ => trivial
    · exact .pure fun _ => trivial
  | none => exact .bind fun _ => .pure fun _ => trivial

theorem returnNonLocal_captures (a : Activation) : Captures a.returnNonLocal := by
  refine .bind fun ⟨v, handle⟩ => fun w => .get_bind ?_
  split
  · trivial
  dsimp only
  cases (handle.frame w).read .arguments 0 with
  | error f => trivial
  | ok self =>
    cases self with
    | block b =>
      change (liftM (w.outerContext (handle.frame w) b.level) >>= _ : Action Effect).Ensures w _ _
      cases w.outerContext (handle.frame w) b.level with
      | error f => trivial
      | ok home =>
        change ((if w.isLive (w.frames.get home).marker then _ else _ : Action Effect)).Ensures w _ _
        split
        · change ¬ ((w.count _).note _).Uncaptured _
          exact fun h => (h.congr (w.count _ |>.note_still _).frames.symm) home rfl
        · refine Captures.bind (fun _ => .bind fun _ => .bind fun _ => .bind fun c => ?_) w
          exact .pure fun _ => trivial
    | _ => trivial

theorem execute_captures (a : Activation) (offset : Nat) (i : Instruction) :
    Captures (a.execute offset i) := by
  have resume {x : Action FrameHandle} :
      Captures (do return Effect.resume { a with handle := ← x }) :=
    .bind fun _ => .pure fun _ => trivial
  cases i with
  | dup | pushSlot | pushField | pushConstant | pop | popSlot | popField => exact resume
  | halt | pushBlock | returnLocal => exact .bind fun _ => .pure fun _ => trivial
  | pushGlobal l =>
    refine .bind fun name => .get_bind fun w => ?_
    cases w.global? name with
    | some x => exact .bind fun _ => .pure fun _ => trivial
    | none => exact .bind fun _ => .bind fun _ => .pure fun _ => trivial
  | send l => exact .bind fun _ => .bind fun _ => .get_bind fun w => .bind fun _ => a.enter_captures _ _
  | superSend l => exact .bind fun _ => .bind fun _ => a.enter_captures _ _
  | returnNonLocal => exact a.returnNonLocal_captures

theorem step_captures (a : Activation) : Captures a.step := by
  refine .get_bind fun w => .bind fun i => ?_
  split
  · exact .bind fun _ => execute_captures _ _ i
  · exact execute_captures _ _ i

end Activation

namespace Machine

variable {v : Value} {waiting : List Waiting}

theorem fault_calm (f : Fault) (waiting : List Waiting) (w : World) :
    ¬ Unwinding v k ⟨.fault f, waiting, w⟩ := nofun

theorem execute_calm (r : CodeRef) (args : List Value) (outer : Option FrameRef) :
    ¬ (execute r args outer waiting w).Unwinding v k := by
  unfold execute
  cases RunLoop.start r args outer w <;> exact nofun

theorem reply_calm (r : Reply) : ¬ (reply r waiting w).Unwinding v k := by
  match r with
  | .answer x | .call c => exact nofun
  | .evaluate b params none | .evaluate b params (some i) => exact execute_calm _ _ _

theorem operate_calm (op : Operation) (receiver : Value) (args : List Value) :
    ¬ (operate op receiver args waiting w).Unwinding v k := by
  unfold operate
  cases op.start receiver args w with
  | ok r u => exact reply_calm r
  | error f u => exact fault_calm f waiting u

theorem call_calm (c : Call) : ¬ (call c waiting w).Unwinding v k := by
  obtain ⟨method, args⟩ := c
  match method, args with
  | .compiled r, args => exact execute_calm r args none
  | .primitive p, receiver :: args => exact operate_calm _ receiver args
  | .primitive p, [] => exact nofun

theorem deliver_calm (loop : RunLoop) (x : Value) : ¬ (deliver loop x waiting w).Unwinding v k := by
  unfold deliver
  cases loop.push x w <;> exact nofun

theorem request_calm (r : Request) : ¬ (r.machine w).Unwinding v k := by
  have dispatched {w : World} (receiver : Value) (selector : Symbol) (args : List Value) :
      ¬ (dispatch receiver selector args w).Unwinding v k := by
    unfold dispatch
    cases Action.dispatch receiver selector args w with
    | ok c u => exact call_calm c
    | error f u => exact fault_calm f [] u
  match r with
  | .primitive op receiver args => exact operate_calm op receiver args
  | .host (.invoke m receiver args) =>
    simp only [Request.machine, HostCall.machine]
    split
    · exact call_calm _
    · exact fault_calm _ [] _
  | .host (.send receiver selector args) =>
    simp only [Request.machine, HostCall.machine]
    split
    · exact dispatched receiver _ args
    · exact fault_calm _ [] _
  | .host (.dispatch receiver selector args) => exact dispatched receiver selector args
  | .host (.call m args) => exact call_calm _
  | .host (.evaluate b params) => exact execute_calm _ _ _
  | .host (.execute r args outer) => exact execute_calm r args outer

theorem handOver_unwinding {loop : RunLoop} {o : Outcome}
    (h : (handOver loop o waiting w).Unwinding v k) : o = .error (.nonLocalReturn v k) := by
  cases o with
  | ok x => exact absurd h (deliver_calm loop x)
  | error u => exact h

theorem step_unwinding {m : Machine} (h : m.step.Unwinding v k) :
    m.Unwinding v k ∨ ¬ m.step.world.Uncaptured k := by
  obtain ⟨control, waiting, w⟩ := m
  cases control with
  | run loop =>
    have hcaptures := loop.current.step_captures w
    change (advance loop waiting w).Unwinding v k at h
    change _ ∨ ¬ (advance loop waiting w).world.Uncaptured k
    unfold advance at h ⊢
    cases hstep : loop.current.step w with
    | error f u =>
      rw [hstep] at h
      cases h
    | ok e u =>
      rw [hstep] at h
      cases e with
      | resume | activate | callOut | complete => cases h
      | unwind x target =>
        cases h
        exact .inr (hcaptures.of_ok hstep)
  | finish loop o =>
    -- Whatever is handed on as an error was an error before.
    have hretired : (loop.current.retire o w).1 = .error (.nonLocalReturn v k) →
        o = .error (.nonLocalReturn v k) := by
      obtain ⟨x, -, -, heq⟩ | ⟨-, heq⟩ := loop.current.retire_cases o w
      · rw [heq]
        exact nofun
      · rw [heq]
        exact id
    change (finish loop o waiting w).Unwinding v k at h
    rw [Footing.finish_eq] at h
    refine .inl (hretired ?_)
    split at h
    · exact h
    · exact handOver_unwinding h
  | call c => exact absurd h (call_calm c)
  | answer o =>
    refine .inl ?_
    change (answer o waiting w).Unwinding v k at h
    match waiting, o with
    | [], o => exact h
    | .sender loop .push :: rest, o =>
      rw [answer_handOver] at h
      exact handOver_unwinding h
    | .sender loop .complete :: rest, .ok x => cases h
    | .sender loop .complete :: rest, .error u => exact h
    | .iteration i :: rest, .error u => exact h
    | .iteration i :: rest, .ok x =>
      simp only [answer] at h
      cases hnext : i.next x with
      | ok r =>
        rw [hnext] at h
        exact absurd h (reply_calm r)
      | error f =>
        rw [hnext] at h
        cases h

theorem mem_of_worker? {m : Machine} (h : m.worker? = some k) :
    ∃ a ∈ m.snapshot.retire.going, a.marker = k := by
  obtain ⟨control, waiting, w⟩ := m
  cases control with
  | run loop => exact ⟨loop.current, List.mem_cons_self, Option.some.inj h⟩
  | finish loop o =>
    obtain ⟨current, suspended⟩ := loop
    cases suspended with
    | nil => cases h
    | cons sender rest => exact ⟨sender, List.mem_cons_self, Option.some.inj h⟩
  | call c => cases h
  | answer o =>
    match waiting with
    | [] | .iteration i :: rest => cases h
    | .sender loop use :: rest => exact ⟨loop.current, List.mem_cons_self, Option.some.inj h⟩

end Machine

/-- Nothing that is asked for ever returns to an activation that was there before and whose frame was
not captured then. -/
theorem Request.never_unwinds (r : Request) {w : World} {k : MarkerRef} (hk : k.index < w.markers.size)
    (hw : w.Uncaptured k) (n : Nat) (v : Value) : ¬ ((r.machine w).after n).Unwinding v k := by
  have huncaptured (n : Nat) : ((r.machine w).after n).world.Uncaptured k := by
    induction n with
    | zero =>
      rw [← Machine.world_snapshot]
      exact Change.all_uncaptured (Machine.request_changes w r) nofun hw
    | succ n ih =>
      obtain ⟨hheld, hliving⟩ := Machine.living_request r w n
      rw [Machine.after_succ, ← Machine.world_snapshot]
      refine Change.all_uncaptured (Machine.step_changes hheld) (fun hworker => ?_) ?_
      · -- All that work have come up since.
        obtain ⟨a, ha, rfl⟩ := Machine.mem_of_worker? hworker
        have hrecent := (hliving.retire.recent a (List.mem_append_right _ ha)).1
        exact absurd hk (Nat.not_lt.mpr hrecent)
      · rw [← Machine.world_snapshot] at ih
        exact ih.congr (Snapshot.frames_retire _)
  induction n with
  | zero => exact Machine.request_calm r
  | succ n ih =>
    rw [Machine.after_succ]
    intro h
    obtain h | h := Machine.step_unwinding h
    · exact ih h
    · rw [← Machine.after_succ] at h
      exact h (huncaptured (n + 1))

end MessageMachine
