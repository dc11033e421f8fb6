import Mathlib.Logic.Relation
import MessageMachine.Proofs.Calls
import MessageMachine.Proofs.Effects

namespace MessageMachine

open Relation

/-- The loop that an activation runs or ends in. -/
def Control.loop? : Control → Option RunLoop
  | run loop | finish loop _ => some loop
  | call _ | answer _ => none

def Waiting.loop? : Waiting → Option RunLoop
  | sender loop _ => some loop
  | iteration _ => none

/-- The activation stack of a loop, innermost first. -/
def RunLoop.activations (loop : RunLoop) : List Activation := loop.current :: loop.suspended

/-- A machine seen from outside: the activation that has ended but is not retired yet, those that go
on, innermost first, the number of open loops, and the world. -/
structure Snapshot where
  ended : Option Activation
  going : List Activation
  loops : Nat
  world : World

inductive Change (worker : Option MarkerRef) : Snapshot → Snapshot → Prop where
  | works {a b : Activation} {rest : List Activation} {n : Nat} {w w' : World}
      (hworker : worker = some a.marker) (h : a.Goes w b w') :
      Change worker ⟨none, a :: rest, n, w⟩ ⟨none, b :: rest, n, w'⟩
  | ends {a : Activation} {rest : List Activation} {n : Nat} {w w' : World}
      (hworker : worker = some a.marker) (h : w.Moved a.marker a.method w') :
      Change worker ⟨none, a :: rest, n, w⟩ ⟨some a, rest, n, w'⟩
  | starts {callee : Activation} {going : List Activation} {n : Nat} {w w' : World}
      (h : callee.Begun w w') : Change worker ⟨none, going, n, w⟩ ⟨none, callee :: going, n, w'⟩
  | opens {going : List Activation} {n : Nat} {w : World}
      (h : w.reentry < w.config.maxReentryDepth) :
      Change worker ⟨none, going, n, w⟩
        ⟨none, going, n + 1, { w with reentry := w.reentry + 1 }⟩
  | closes {going : List Activation} {n : Nat} {w : World} :
      Change worker ⟨none, going, n + 1, w⟩
        ⟨none, going, n, { w with reentry := w.reentry - 1 }⟩
  | still {going : List Activation} {n : Nat} {w w' : World} (h : w.Still w') :
      Change worker ⟨none, going, n, w⟩ ⟨none, going, n, w'⟩

namespace Snapshot

def activations (s : Snapshot) : List Activation := s.ended.toList ++ s.going

/-- Retires the activation that has ended. -/
def retire (s : Snapshot) : Snapshot :=
  match s.ended with
  | some a => ⟨none, s.going, s.loops, a.left s.world⟩
  | none => s

/-- Every activation that goes on has its frame. -/
def Held (s : Snapshot) : Prop := ∀ a ∈ s.going, a.handle.Held a.marker a.method s.world

end Snapshot

namespace Machine

def loops (m : Machine) : List RunLoop := m.control.loop?.toList ++ m.waiting.filterMap (·.loop?)

/-- The activations of all open loops, innermost first. -/
def activations (m : Machine) : List Activation := m.loops.flatMap (·.activations)

def snapshot (m : Machine) : Snapshot :=
  let below := m.waiting.flatMap (·.activations)
  match m.control with
  | .run loop => ⟨none, loop.activations ++ below, m.loops.length, m.world⟩
  | .finish loop _ => ⟨some loop.current, loop.suspended ++ below, m.loops.length, m.world⟩
  | .call _ | .answer _ => ⟨none, below, m.loops.length, m.world⟩

def worker? (m : Machine) : Option MarkerRef :=
  match m.control, m.waiting with
  | .run loop, _ => some loop.current.marker
  | .finish loop _, _ => loop.suspended.head?.map (·.marker)
  | .answer _, .sender loop _ :: _ => some loop.current.marker
  | _, _ => none

theorem flatMap_activations (waiting : List Waiting) :
    (waiting.filterMap (·.loop?)).flatMap (·.activations) = waiting.flatMap (·.activations) := by
  induction waiting with
  | nil => rfl
  | cons x rest ih =>
    cases x with
    | sender loop use => exact congrArg (loop.activations ++ ·) ih
    | iteration i => exact ih

theorem activations_snapshot (m : Machine) : m.snapshot.activations = m.activations := by
  obtain ⟨control, waiting, w⟩ := m
  have hbelow := (flatMap_activations waiting).symm
  cases control with
  | run loop | finish loop => exact congrArg (loop.activations ++ ·) hbelow
  | call | answer => exact hbelow

theorem loops_snapshot (m : Machine) : m.snapshot.loops = m.loops.length := by
  obtain ⟨control, waiting, w⟩ := m
  cases control <;> rfl

theorem world_snapshot (m : Machine) : m.snapshot.world = m.world := by
  obtain ⟨control, waiting, w⟩ := m
  cases control <;> rfl

def idle (waiting : List Waiting) (w : World) : Snapshot :=
  ⟨none, waiting.flatMap (·.activations), (waiting.filterMap (·.loop?)).length, w⟩

def busy (loop : RunLoop) (waiting : List Waiting) (w : World) : Snapshot :=
  ⟨none, loop.activations ++ waiting.flatMap (·.activations),
    (waiting.filterMap (·.loop?)).length + 1, w⟩

variable {worker : Option MarkerRef} (waiting : List Waiting) (w : World)

theorem fault_changes (f : Fault) :
    ReflTransGen (Change worker) (idle waiting w) (snapshot ⟨.fault f, waiting, w⟩) := .refl

theorem execute_changes (method : CodeRef) (args : List Value) (outer : Option FrameRef) :
    ReflTransGen (Change worker) (idle waiting w) (execute method args outer waiting w).snapshot := by
  unfold execute RunLoop.start
  simp only [Action.bind_apply, Action.get_apply]
  by_cases hr : w.config.maxReentryDepth ≤ w.reentry
  · rw [if_pos hr]
    exact fault_changes waiting w _
  rw [if_neg hr]
  have hstart := Activation.start_begun method args outer w
  rw [Action.bind_apply]
  cases hrun : Activation.start method args outer w with
  | error f w' =>
    cases hstart.of_error hrun
    exact fault_changes waiting w f
  | ok callee w' =>
    have hbegun := hstart.of_ok hrun
    have hopen : w'.reentry < w'.config.maxReentryDepth := by
      rw [hbegun.world]
      exact Nat.lt_of_not_le hr
    exact .tail (.single (.starts hbegun)) (.opens hopen)

theorem reply_changes (r : Reply) :
    ReflTransGen (Change worker) (idle waiting w) (reply r waiting w).snapshot := by
  match r with
  | .answer v => exact .refl
  | .call c => exact .refl
  | .evaluate b params none => exact execute_changes waiting w _ _ _
  | .evaluate b params (some i) => exact execute_changes (.iteration i :: waiting) w _ _ _

theorem operate_changes (op : Operation) (receiver : Value) (args : List Value) :
    ReflTransGen (Change worker) (idle waiting w)
      (operate op receiver args waiting w).snapshot := by
  have hquiet : (op.start receiver args).Ensures w _ _ :=
    (op.start_quiet (fun _ _ => trivial) trivial fun _ _ => trivial).leaves_still w
  unfold operate
  cases hrun : op.start receiver args w with
  | ok r w' => exact .head (.still (hquiet.of_ok hrun)) (reply_changes waiting w' r)
  | error f w' => exact .head (.still (hquiet.of_error hrun)) (fault_changes waiting w' f)

theorem call_changes (c : Call) :
    ReflTransGen (Change worker) (idle waiting w) (call c waiting w).snapshot := by
  obtain ⟨method, args⟩ := c
  match method, args with
  | .compiled r, args => exact execute_changes waiting w r args none
  | .primitive p, receiver :: args => exact operate_changes waiting w _ receiver args
  | .primitive p, [] => exact fault_changes waiting w _

theorem dispatch_changes (receiver : Value) (selector : Symbol) (args : List Value) :
    ReflTransGen (Change worker) (idle [] w) (dispatch receiver selector args w).snapshot := by
  have hquiet : (Action.dispatch receiver selector args).Ensures w _ _ :=
    (Action.dispatch_quiet (fun _ _ => trivial) selector trivial fun _ _ => trivial).leaves_still w
  unfold dispatch
  cases hrun : Action.dispatch receiver selector args w with
  | ok c w' => exact .head (.still (hquiet.of_ok hrun)) (call_changes [] w' c)
  | error f w' => exact .head (.still (hquiet.of_error hrun)) (fault_changes [] w' f)

theorem request_changes (r : Request) :
    ReflTransGen (Change none) (idle [] w) (r.machine w).snapshot := by
  match r with
  | .primitive op receiver args => exact operate_changes [] w op receiver args
  | .host (.invoke m receiver args) =>
    simp only [Request.machine, HostCall.machine]
    split
    · exact call_changes [] w _
    · exact fault_changes [] w _
  | .host (.send receiver selector args) =>
    have hstill : w.Still (w.intern selector).2 := .elsewhere
    refine .head (.still hstill) ?_
    simp only [Request.machine, HostCall.machine]
    split
    · exact dispatch_changes _ receiver _ args
    · exact fault_changes [] _ _
  | .host (.dispatch receiver selector args) => exact dispatch_changes w receiver selector args
  | .host (.call m args) => exact call_changes [] w _
  | .host (.evaluate b params) => exact execute_changes [] w _ _ _
  | .host (.execute method args outer) => exact execute_changes [] w method args outer

section

variable {waiting w} {loop : RunLoop} (hworker : worker = some loop.current.marker)
  (hheld : loop.current.handle.Held loop.current.marker loop.current.method w)
include hworker

theorem ends_changes (o : Outcome) {w' : World}
    (h : w.Moved loop.current.marker loop.current.method w') :
    ReflTransGen (Change worker) (busy loop waiting w) (snapshot ⟨.finish loop o, waiting, w'⟩) :=
  .single (.ends hworker h)

include hheld

theorem deliver_changes (v : Value) :
    ReflTransGen (Change worker) (busy loop waiting w) (deliver loop v waiting w).snapshot := by
  have hpush := FrameHandle.push_moves hheld v
  unfold deliver RunLoop.push
  rw [Action.bind_apply]
  cases hrun : loop.current.handle.push v w with
  | ok handle w' => exact .single (.works hworker ⟨rfl, rfl, (hpush.of_ok hrun).2.1⟩)
  | error f w' => exact ends_changes hworker _ (hpush.of_error hrun)

theorem handOver_changes (o : Outcome) :
    ReflTransGen (Change worker) (busy loop waiting w) (handOver loop o waiting w).snapshot := by
  cases o with
  | ok v => exact deliver_changes hworker hheld v
  | error u => exact ends_changes hworker _ (.refl w)

theorem advance_changes :
    ReflTransGen (Change worker) (busy loop waiting w) (advance loop waiting w).snapshot := by
  have hstep := Activation.step_brings hheld
  unfold advance
  cases hrun : loop.current.step w with
  | error f w' => exact ends_changes hworker _ (hstep.of_error hrun)
  | ok e w' =>
    have he := hstep.of_ok hrun
    cases e with
    | resume a => exact .single (.works hworker he)
    | activate sender callee =>
      obtain ⟨v, hsender, hcallee⟩ := he
      exact .tail (.single (.works hworker hsender)) (.starts hcallee)
    | callOut sender c use => exact .single (.works hworker he)
    | complete v => exact ends_changes hworker _ he
    | unwind v target => exact ends_changes hworker _ he

end

/-- Once an activation is retired the sender goes on or ends, or else the loop is closed. -/
theorem finish_changes (loop : RunLoop) (o : Outcome)
    (hheld : (snapshot ⟨.finish loop o, waiting, w⟩).Held) :
    ReflTransGen (Change (loop.suspended.head?.map (·.marker)))
      ⟨none, loop.suspended ++ waiting.flatMap (·.activations),
        (waiting.filterMap (·.loop?)).length + 1, loop.current.left w⟩
      (finish loop o waiting w).snapshot := by
  have hstill := loop.current.retire_still o w
  rw [Footing.finish_eq]
  obtain ⟨current, suspended⟩ := loop
  cases suspended with
  | nil => exact .head (.still hstill) (.single .closes)
  | cons sender rest =>
    have hsender := ((hheld sender List.mem_cons_self).congr rfl).congr hstill.frames
    have hworker : some sender.marker = some (RunLoop.mk sender rest).current.marker := rfl
    exact .head (.still hstill) (handOver_changes hworker hsender _)

theorem answer_changes (o : Outcome)
    (hheld : (snapshot ⟨.answer o, waiting, w⟩).Held) :
    ReflTransGen (Change (worker? ⟨.answer o, waiting, w⟩)) (idle waiting w)
      (answer o waiting w).snapshot := by
  match waiting, o with
  | [], o => exact .refl
  | .sender loop .push :: rest, o =>
    rw [answer_handOver]
    exact handOver_changes rfl (hheld loop.current List.mem_cons_self) o
  | .sender loop .complete :: rest, o => exact ends_changes rfl _ (.refl w)
  | .iteration i :: rest, .ok v =>
    simp only [answer]
    cases i.next v with
    | ok r => exact reply_changes rest w r
    | error f => exact .refl
  | .iteration _ :: rest, .error u => exact .refl

theorem step_changes {m : Machine} (hheld : m.snapshot.Held) :
    ReflTransGen (Change m.worker?) m.snapshot.retire m.step.snapshot := by
  obtain ⟨control, waiting, w⟩ := m
  cases control with
  | run loop => exact advance_changes rfl (hheld loop.current List.mem_cons_self)
  | finish loop o => exact finish_changes waiting w loop o hheld
  | call c => exact call_changes waiting w c
  | answer o => exact answer_changes waiting w o hheld

end Machine

namespace Snapshot

/-- Retiring and every change preserve this, as long as every activation has its frame. -/
structure Preserved (I : Snapshot → Prop) : Prop where
  retire : ∀ s, s.Held → I s → I s.retire
  change : ∀ {worker s s'}, s.Held → Change worker s s' → I s → I s'

theorem Held.retire {s : Snapshot} (h : s.Held) : s.retire.Held := by
  obtain ⟨_ | a, going, n, w⟩ := s
  · exact h
  · exact fun b hb => (h b hb).congr rfl

theorem Held.change {worker : Option MarkerRef} {s s' : Snapshot} (h : s.Held)
    (hc : Change worker s s') : s'.Held := by
  cases hc with
  | works _ hb =>
    obtain ⟨-, hrest⟩ := List.forall_mem_cons.mp h
    refine List.forall_mem_cons.mpr ⟨?_, fun c hc => (hrest c hc).moved hb.leads.moved⟩
    rw [hb.marker, hb.method]
    exact hb.leads.held
  | ends _ hm => exact fun c hc => (h c (List.mem_cons_of_mem _ hc)).moved hm
  | starts hb =>
    refine List.forall_mem_cons.mpr ⟨hb.held, fun c hc => (h c hc).congr ?_⟩
    rw [hb.world]
  | opens | closes => exact fun c hc => (h c hc).congr rfl
  | still hs => exact fun c hc => (h c hc).congr hs.frames

theorem Preserved.changes {I : Snapshot → Prop} (hI : Preserved I) {worker : Option MarkerRef}
    {s s' : Snapshot} (hheld : s.Held) (h : I s) (hc : ReflTransGen (Change worker) s s') :
    s'.Held ∧ I s' := by
  induction hc with
  | refl => exact ⟨hheld, h⟩
  | tail _ hc ih => exact ⟨ih.1.change hc, hI.change ih.1 hc ih.2⟩

theorem Preserved.step {I : Snapshot → Prop} (hI : Preserved I) {m : Machine}
    (hheld : m.snapshot.Held) (h : I m.snapshot) : m.step.snapshot.Held ∧ I m.step.snapshot :=
  hI.changes hheld.retire (hI.retire _ hheld h) (Machine.step_changes hheld)

theorem Preserved.after {I : Snapshot → Prop} (hI : Preserved I) {m : Machine}
    (hheld : m.snapshot.Held) (h : I m.snapshot) (n : Nat) :
    (m.after n).snapshot.Held ∧ I (m.after n).snapshot := by
  induction n with
  | zero => exact ⟨hheld, h⟩
  | succ n ih =>
    rw [Machine.after_succ]
    exact hI.step ih.1 ih.2

theorem Preserved.request {I : Snapshot → Prop} (hI : Preserved I) {w : World}
    (h : I (Machine.idle [] w)) (r : Request) (n : Nat) :
    ((r.machine w).after n).snapshot.Held ∧ I ((r.machine w).after n).snapshot := by
  obtain ⟨hheld, hI'⟩ := hI.changes (fun _ ha => absurd ha List.not_mem_nil) h
    (Machine.request_changes w r)
  exact hI.after hheld hI' n

structure Fixed (w : World) (s : Snapshot) : Prop where
  config : s.world.config = w.config
  classes : s.world.classes = w.classes
  codes : s.world.codes = w.codes
  primitives : s.world.primitives = w.primitives

theorem fixed_preserved (w : World) : Preserved (Fixed w) where
  retire := fun s _ h => by
    obtain ⟨_ | a, going, n, v⟩ := s <;> exact ⟨h.config, h.classes, h.codes, h.primitives⟩
  change := fun {worker s s'} _ hc h => by
    cases hc with
    | works _ hb =>
      have hm := hb.leads.moved
      exact ⟨hm.config.trans h.config, hm.classes.trans h.classes, hm.codes.trans h.codes,
        hm.primitives.trans h.primitives⟩
    | ends _ hm =>
      exact ⟨hm.config.trans h.config, hm.classes.trans h.classes, hm.codes.trans h.codes,
        hm.primitives.trans h.primitives⟩
    | still hs =>
      exact ⟨hs.config.trans h.config, hs.classes.trans h.classes, hs.codes.trans h.codes,
        hs.primitives.trans h.primitives⟩
    | starts hb =>
      obtain ⟨hconfig, hclasses, hcodes, hprimitives⟩ := h
      refine ⟨?_, ?_, ?_, ?_⟩ <;> rw [hb.world] <;> assumption
    | opens | closes => exact ⟨h.config, h.classes, h.codes, h.primitives⟩

end Snapshot

theorem Request.fixed (r : Request) (w : World) (n : Nat) :
    ((r.machine w).after n).snapshot.Fixed w :=
  ((Snapshot.fixed_preserved w).request ⟨rfl, rfl, rfl, rfl⟩ r n).2

theorem Request.code_after (r : Request) (w : World) (n : Nat) (c : CodeRef) :
    ((r.machine w).after n).world.code c = w.code c := by
  have hcodes := (r.fixed w n).codes
  rw [Machine.world_snapshot] at hcodes
  rw [World.code, hcodes, World.code]

end MessageMachine
