import Mathlib.Algebra.Order.BigOperators.Group.List
import Mathlib.Algebra.Order.Group.Nat
import Mathlib.Data.List.Nodup
import Mathlib.Tactic.ByContra
import MessageMachine.Proofs.Agenda
import MessageMachine.Proofs.Liveness

namespace MessageMachine

namespace Agenda

/-- Sizes of bodies, a number beyond these and the evaluations of any loop, and how many activations
there may be. -/
structure Bounds where
  size : CodeRef → Nat
  radix : Nat
  room : Nat
  size_le : ∀ r, size r + 5 ≤ radix
  left_le : Int64.size + 5 ≤ radix

namespace Bounds

variable (b : Bounds)

def unit (depth : Nat) : Nat := b.radix ^ (2 * (b.room - depth))

def weigh : List Task → Nat
  | [] => 0
  | .activation _ r o :: below => (b.size r - o + 3) * b.unit (markers below).length + weigh below
  | .iteration left :: below => (left + 1) * (b.radix * b.unit (markers below).length) + weigh below

def heft (depth : Nat) : Stage → Nat
  | .running => b.unit depth
  | .ended => 0
  | .answered => 2 * b.unit depth
  | .calling rank => (Int64.size + 2 + rank) * (b.radix * b.unit depth)

def weight (a : Agenda) : Nat := b.heft (markers a.tasks).length a.stage + b.weigh a.tasks

variable {b} {n : Nat} {next : MarkerRef} {below tasks : List Task} {a a' : Agenda}

theorem radix_pos : 0 < b.radix := by
  have hleft := b.left_le
  omega

theorem unit_pos (n : Nat) : 0 < b.unit n := Nat.pow_pos radix_pos

theorem unit_eq (h : n < b.room) : b.unit n = b.radix * (b.radix * b.unit (n + 1)) := by
  have hroom : 2 * (b.room - n) = 2 * (b.room - (n + 1)) + 1 + 1 := by omega
  rw [unit, unit, hroom, Nat.pow_succ', Nat.pow_succ']

theorem unit_succ_le (n : Nat) : b.unit (n + 1) ≤ b.unit n :=
  Nat.pow_le_pow_right radix_pos (Nat.mul_le_mul_left 2 (Nat.sub_le_sub_left (Nat.le_succ n) _))

theorem weigh_reads {r : CodeRef} {o n : Nat} (hn : 0 < n) (hle : o + n ≤ b.size r)
    (k : MarkerRef) (below : List Task) :
    b.weigh (.activation k r (o + n) :: below) + b.unit (markers below).length ≤
      b.weigh (.activation k r o :: below) := by
  have hcount : b.size r - (o + n) + 3 + 1 ≤ b.size r - o + 3 := by omega
  have hunits := Nat.mul_le_mul_right (b.unit (markers below).length) hcount
  rw [Nat.add_mul _ 1, Nat.one_mul] at hunits
  simp only [weigh]
  omega

theorem two_unit_le (n : Nat) : 2 * b.unit n ≤ b.radix * b.unit n := by
  have hleft := b.left_le
  exact Nat.mul_le_mul_right _ (by omega)

theorem weight_of_begins (h : Begins next below a) :
    b.weight a ≤ b.radix * b.unit (markers below).length + b.weigh below := by
  cases h with
  | started r =>
    have hdeeper := b.unit_succ_le (markers below).length
    have hsize : b.size r + 3 + 1 ≤ b.radix := Nat.le_of_succ_le (b.size_le r)
    have hunits := Nat.mul_le_mul_right (b.unit (markers below).length) hsize
    rw [Nat.add_mul _ 1, Nat.one_mul] at hunits
    simp only [weight, heft, weigh, markers_activation, List.length_cons, Nat.sub_zero]
    omega
  | failed => exact Nat.add_le_add_right (two_unit_le _) _

theorem weight_of_resumes (h : Resumes tasks a) :
    b.weight a ≤ b.unit (markers tasks).length + b.weigh tasks := by
  cases h with
  | running => exact Nat.le_refl _
  | ended => exact Nat.add_le_add_right (Nat.zero_le _) _

theorem call_pos (n : Nat) : 0 < b.radix * b.unit n := Nat.mul_pos radix_pos (unit_pos n)

theorem weight_lt_of_begins (h : Begins next below a) (rank : Nat) :
    b.weight a < b.weight ⟨.calling rank, below⟩ := by
  refine Nat.lt_of_le_of_lt (weight_of_begins h) (Nat.add_lt_add_right ?_ _)
  exact (Nat.lt_mul_iff_one_lt_left (call_pos _)).mpr (by omega)

theorem weight_lt_of_calls {k : MarkerRef} {r : CodeRef} {o n rank : Nat} (hn : 0 < n)
    (hle : o + n ≤ b.size r) (hrank : rank ≤ 3)
    (hroom : (markers (.activation k r o :: below)).length ≤ b.room) :
    b.weight ⟨.calling rank, .activation k r (o + n) :: below⟩ <
      b.weight ⟨.running, .activation k r o :: below⟩ := by
  have hreads := weigh_reads hn hle k below
  have hcall : (Int64.size + 2 + rank) * (b.radix * b.unit ((markers below).length + 1)) ≤
      b.unit (markers below).length := by
    have hleft := b.left_le
    have hdepth : (markers below).length < b.room := hroom
    rw [unit_eq hdepth]
    exact Nat.mul_le_mul_right _ (by omega)
  have hunit := b.unit_pos ((markers below).length + 1)
  simp only [weight, heft, markers_activation, List.length_cons]
  omega

theorem weight_lt (h : Step b.size next a a') (hroom : (markers a.tasks).length ≤ b.room) :
    b.weight a' < b.weight a := by
  cases h with
  | @reads k r o n below hn hle =>
    have hreads := weigh_reads hn hle k below
    have hunit := b.unit_pos (markers below).length
    simp only [weight, heft, markers_activation, List.length_cons]
    omega
  | activates hn hle callee =>
    exact (weight_lt_of_begins (.started callee) 0).trans
      (weight_lt_of_calls hn hle (Nat.zero_le 3) hroom)
  | calls hn hle hrank => exact weight_lt_of_calls hn hle hrank hroom
  | ends => exact Nat.add_lt_add_right (unit_pos _) _
  | @returns k r o below _ h =>
    refine Nat.lt_of_le_of_lt (weight_of_resumes h) ?_
    have hunit := b.unit_pos (markers below).length
    simp only [weight, heft, weigh, Nat.add_mul]
    omega
  | @leaves k r o below =>
    have hunit := b.unit_pos (markers below).length
    simp only [weight, heft, weigh, Nat.add_mul]
    omega
  | performs h =>
    refine Nat.add_lt_add_right ?_ _
    exact Nat.mul_lt_mul_of_pos_right (Nat.add_lt_add_left h _) (call_pos _)
  | begins h => exact weight_lt_of_begins h _
  | @loops rank left below _ hleft h =>
    refine Nat.lt_of_le_of_lt (weight_of_begins h) ?_
    have hloop : left + 2 < Int64.size + 2 + rank := by omega
    have hcalls := Nat.mul_lt_mul_of_pos_right hloop (b.call_pos (markers below).length)
    simp only [weight, heft, weigh, markers_iteration, Nat.add_mul] at hcalls ⊢
    omega
  | takes h =>
    refine Nat.lt_of_le_of_lt (weight_of_resumes h) (Nat.add_lt_add_right ?_ _)
    exact (Nat.lt_mul_iff_one_lt_left (unit_pos _)).mpr Nat.one_lt_two
  | @repeats left left' below _ hleft h =>
    refine Nat.lt_of_le_of_lt (weight_of_begins h) ?_
    have hunit := b.unit_pos (markers below).length
    have hcalls := Nat.mul_le_mul_right (b.radix * b.unit (markers below).length)
      (Nat.succ_le_of_lt hleft)
    simp only [weight, heft, weigh, markers_iteration, Nat.succ_eq_add_one, Nat.add_mul]
      at hcalls ⊢
    omega
  | drops =>
    refine Nat.add_lt_add_left (Nat.lt_add_of_pos_left ?_) _
    exact Nat.mul_pos (Nat.succ_pos _) (call_pos _)

end Bounds

end Agenda

theorem World.bodySize_le (w : World) : ∃ n, ∀ r, w.bodySize r ≤ n := by
  refine ⟨(w.codes.refs.map w.bodySize).sum, fun r => ?_⟩
  by_cases hr : r.index < w.codes.size
  · refine List.single_le_sum (fun _ _ => Nat.zero_le _) _ (List.mem_map_of_mem ?_)
    exact List.mem_map.mpr ⟨r.index, List.mem_range.mpr hr, rfl⟩
  · rw [World.bodySize, World.code, Arena.get_of_le _ (Nat.le_of_not_lt hr)]
    exact Nat.zero_le _

namespace Snapshot

structure Roomy (w : World) (s : Snapshot) : Prop extends s.Fixed w where
  depth : s.world.depth = w.depth + s.activations.length
  room : s.activations.length ≤ w.config.maxCallDepth

theorem Roomy.retire {w : World} {s : Snapshot} (hheld : s.Held) (h : s.Roomy w) :
    s.retire.Roomy w := by
  refine ⟨(fixed_preserved w).retire s hheld h.toFixed, ?_, ?_⟩
  all_goals obtain ⟨_ | a, going, n, v⟩ := s
  · exact h.depth
  · have hdepth : v.depth = w.depth + (going.length + 1) := h.depth
    change v.depth - 1 = w.depth + going.length
    omega
  · exact h.room
  · exact Nat.le_of_succ_le h.room

theorem Roomy.change {w : World} {worker : Option MarkerRef} {s s' : Snapshot} (hheld : s.Held)
    (hc : Change worker s s') (h : s.Roomy w) : s'.Roomy w := by
  suffices s'.world.depth = w.depth + s'.activations.length ∧
      s'.activations.length ≤ w.config.maxCallDepth from
    ⟨(fixed_preserved w).change hheld hc h.toFixed, this.1, this.2⟩
  cases hc with
  | works _ hb => exact ⟨hb.leads.moved.depth.trans h.depth, h.room⟩
  | ends _ hm => exact ⟨hm.depth.trans h.depth, h.room⟩
  | still hs => exact ⟨hs.depth.trans h.depth, h.room⟩
  | @starts _ going _ v _ hb =>
    have hroom : v.depth < w.config.maxCallDepth := h.config ▸ hb.room
    have hdepth : v.depth = w.depth + going.length := h.depth
    have hlength : going.length + 1 ≤ w.config.maxCallDepth := by omega
    rw [hb.world]
    exact ⟨congrArg (· + 1) h.depth, hlength⟩
  | opens | closes => exact ⟨h.depth, h.room⟩

theorem roomy_preserved (w : World) : Preserved (Roomy w) :=
  ⟨fun _ => Roomy.retire, Roomy.change⟩

theorem marked_preserved (k : MarkerRef) :
    Preserved fun s => k.index < s.world.markers.size where
  retire := by
    rintro ⟨_ | a, going, n, v⟩ - h
    · exact h
    · exact Nat.lt_of_lt_of_eq h (Arena.size_set _ _ _).symm
  change := fun _ hc h => (isLive_change hc h).1

end Snapshot

namespace Machine

/-- The next step executes an instruction of the activation with this marker. -/
def executes (m : Machine) (k : MarkerRef) : Bool := m.next?.any fun p => p.1.current.marker = k

/-- How many instructions the activation with this marker executes in the first `n` steps. -/
def executed (m : Machine) (k : MarkerRef) (n : Nat) : Nat :=
  (List.range n).countP fun j => (m.after j).executes k

variable {m : Machine} {k : MarkerRef} {n : Nat}

theorem executes_iff :
    m.executes k ↔ ∃ loop i, m.next? = some (loop, i) ∧ loop.current.marker = k := by
  simp only [executes, Option.any_eq_true, decide_eq_true_eq, Prod.exists]

theorem executed_succ (m : Machine) (k : MarkerRef) (n : Nat) :
    m.executed k (n + 1) = m.executed k n + if (m.after n).executes k then 1 else 0 := by
  rw [executed, List.range_succ, List.countP_append, List.countP_singleton]
  rfl

theorem executes_task (h : m.executes k) : ∃ (loop : RunLoop) (below : List Task),
    loop.current.marker = k ∧ m.agenda = ⟨.running, loop.current.task :: below⟩ := by
  obtain ⟨loop, i, hnext, hk⟩ := executes_iff.mp h
  obtain ⟨control, waiting, w⟩ := m
  obtain ⟨rfl, -⟩ := next?_eq_some.mp hnext
  exact ⟨loop, _, hk, rfl⟩

theorem not_executes_of_outcome {o : Outcome} (h : m.outcome? = some o) (k : MarkerRef) :
    m.executes k = false := by
  obtain ⟨control, waiting, w⟩ := m
  cases control with
  | answer => rfl
  | run | finish | call => cases h

variable {w : World}

theorem task_marked {c : CodeRef} {o : Nat} (hl : m.snapshot.Living w)
    (h : .activation k c o ∈ m.agenda.tasks) : k.index < m.snapshot.world.markers.size := by
  obtain ⟨a, ha, htask⟩ := mem_agenda.mp h
  cases htask
  rw [← activations_snapshot] at ha
  exact (hl.recent a ha).2

theorem markers_nodup (hl : m.snapshot.Living w) : (m.activations.map (·.marker)).Nodup := by
  rw [← activations_snapshot]
  refine List.pairwise_map.mpr (hl.descending.imp ?_)
  rintro a b hless heq
  rw [heq] at hless
  exact Nat.lt_irrefl _ hless

theorem task_unique {c c' : CodeRef} {o o' : Nat} (hl : m.snapshot.Living w)
    (h : .activation k c o ∈ m.agenda.tasks) (h' : .activation k c' o' ∈ m.agenda.tasks) :
    c' = c := by
  obtain ⟨a, ha, htask⟩ := mem_agenda.mp h
  obtain ⟨a', ha', htask'⟩ := mem_agenda.mp h'
  cases htask
  injection htask' with hmarker hmethod
  rw [← hmethod, List.inj_on_of_nodup_map (markers_nodup hl) ha' ha hmarker]

theorem executes_marked (h : m.executes k) (hl : m.snapshot.Living w) :
    k.index < m.snapshot.world.markers.size := by
  obtain ⟨loop, below, rfl, hagenda⟩ := executes_task h
  refine task_marked (c := loop.current.method) (o := loop.current.offset) hl ?_
  rw [hagenda]
  exact List.mem_cons_self

theorem not_executes_of_behind {c : CodeRef} {o : Nat} (hl : m.snapshot.Living w)
    (h : .activation k c o ∈ m.agenda.behind) : m.executes k = false := by
  rw [Bool.eq_false_iff]
  intro hexecutes
  obtain ⟨loop, below, rfl, hagenda⟩ := executes_task hexecutes
  have hnodup := markers_nodup hl
  rw [← markers_agenda, hagenda] at hnodup
  rw [hagenda] at h
  exact (List.nodup_cons.mp hnodup).1 (List.mem_filterMap.mpr ⟨_, h, rfl⟩)

end Machine

namespace Request

variable {r : Request} {w : World} {n : Nat}

theorem machine_recalls (r : Request) (w : World) : w.Recalls (r.machine w).world :=
  r.machine_lasts (.refl w)

theorem roomy (r : Request) (w : World) (n : Nat) : ((r.machine w).after n).snapshot.Roomy w :=
  ((Snapshot.roomy_preserved w).request ⟨⟨rfl, rfl, rfl, rfl⟩, rfl, Nat.zero_le _⟩ r n).2

section

variable (hw : w.Stock) (ht : ∀ n, ((r.machine w).after n).Tame)
include hw ht

theorem step_keeps (ho : ((r.machine w).after n).outcome? = none)
    (h : w.Recalls ((r.machine w).after n).world) :
    let m := (r.machine w).after n
    m.step.Keeps m.world (Agenda.Step w.bodySize m.world.markers.next m.agenda) := by
  have hprimitives := (r.fixed w n).primitives
  rw [Machine.world_snapshot] at hprimitives
  have hsize : ((r.machine w).after n).world.bodySize = w.bodySize := by
    funext c
    rw [World.bodySize, r.code_after, World.bodySize]
  rw [← hsize]
  exact Machine.step_keeps ho (Machine.living_request r w n).1 (h.stock hprimitives hw) (ht n)

theorem after_recalls (n : Nat) : w.Recalls ((r.machine w).after n).world := by
  induction n with
  | zero => exact r.machine_recalls w
  | succ n ih =>
    rw [Machine.after_succ]
    cases ho : ((r.machine w).after n).outcome? with
    | some o => rwa [Machine.step_of_outcome ho]
    | none => exact ih.trans (step_keeps hw ht ho ih).1

theorem after_step (ho : ((r.machine w).after n).outcome? = none) :
    Agenda.Step w.bodySize ((r.machine w).after n).world.markers.next
      ((r.machine w).after n).agenda ((r.machine w).after (n + 1)).agenda := by
  rw [Machine.after_succ]
  exact (step_keeps hw ht ho (after_recalls hw ht n)).2

theorem exists_outcome : ∃ n o, ((r.machine w).after n).outcome? = some o := by
  obtain ⟨size, hsize⟩ := w.bodySize_le
  let b : Agenda.Bounds :=
    { size := w.bodySize
      radix := size + (Int64.size + 5)
      room := w.config.maxCallDepth
      size_le := fun r => Nat.add_le_add (hsize r) (by decide)
      left_le := Nat.le_add_left _ _ }
  let weight (n : Nat) : Nat := b.weight ((r.machine w).after n).agenda
  by_contra hnone
  have hlighter (n : Nat) : weight (n + 1) < weight n := by
    have ho : ((r.machine w).after n).outcome? = none :=
      Option.eq_none_iff_forall_ne_some.mpr fun o ho => hnone ⟨n, o, ho⟩
    have hroom := (r.roomy w n).room
    refine Agenda.Bounds.weight_lt (b := b) (after_step hw ht ho) ?_
    rwa [Machine.markers_agenda, List.length_map, ← Machine.activations_snapshot]
  have hspent (n : Nat) : weight n + n ≤ weight 0 := by
    induction n with
    | zero => exact Nat.le_refl _
    | succ n ih =>
      have hless := hlighter n
      omega
  have hall := hspent (weight 0 + 1)
  omega

end

theorem executed_marked {k : MarkerRef} (h : (r.machine w).executed k n ≠ 0) :
    k.index < ((r.machine w).after n).snapshot.world.markers.size := by
  induction n with
  | zero => exact absurd rfl h
  | succ n ih =>
    obtain ⟨hheld, hl⟩ := Machine.living_request r w n
    rw [Machine.after_succ]
    refine ((Snapshot.marked_preserved k).step hheld ?_).2
    rw [Machine.executed_succ] at h
    cases hk : ((r.machine w).after n).executes k with
    | true => exact Machine.executes_marked hk hl
    | false =>
      rw [hk] at h
      exact ih h

theorem executed_le (hw : w.Stock) (ht : ∀ n, ((r.machine w).after n).Tame) {k : MarkerRef}
    {c : CodeRef} {o : Nat} (h : .activation k c o ∈ ((r.machine w).after n).agenda.going) :
    (r.machine w).executed k n ≤ o := by
  induction n generalizing o with
  | zero => exact Nat.zero_le _
  | succ n ih =>
    have hl := (Machine.living_request r w n).2
    rw [Machine.executed_succ]
    cases ho : ((r.machine w).after n).outcome? with
    | some x =>
      rw [Machine.after_succ, Machine.step_of_outcome ho] at h
      rw [Machine.not_executes_of_outcome ho]
      exact ih h
    | none =>
      obtain rfl | ⟨o', below, hlt, hagenda⟩ | hbehind := (after_step hw ht ho).origin h
      -- A new marker is one that no activation had before.
      · have hnew : ¬((r.machine w).after n).world.markers.next.index <
            ((r.machine w).after n).snapshot.world.markers.size := by
          rw [Machine.world_snapshot]
          exact Nat.lt_irrefl _
        have hnone := Decidable.not_not.mp (mt executed_marked hnew)
        rw [hnone, if_neg fun hk => hnew (Machine.executes_marked hk hl)]
        exact Nat.zero_le _
      · have hle : (r.machine w).executed k n ≤ o' := by
          refine ih ?_
          rw [hagenda]
          exact List.mem_cons_self
        split <;> omega
      · rw [Machine.not_executes_of_behind hl hbehind, if_neg Bool.false_ne_true]
        exact ih (Agenda.going_of_behind hbehind)

/-- An activation that executes an instruction has not executed more of them than its body has bytes. -/
theorem executed_of_executes (hw : w.Stock) (ht : ∀ n, ((r.machine w).after n).Tame) {k : MarkerRef}
    (h : ((r.machine w).after n).executes k) :
    ∃ c o, .activation k c o ∈ ((r.machine w).after n).agenda.tasks ∧
      (r.machine w).executed k (n + 1) ≤ w.bodySize c := by
  obtain ⟨loop, i, hnext, rfl⟩ := Machine.executes_iff.mp h
  obtain ⟨hcontrol, hfetch⟩ := Machine.next?_eq_some.mp hnext
  obtain ⟨hlength, hle⟩ := Activation.fetch_le hfetch
  rw [World.bodySize, r.code_after, ← World.bodySize] at hle
  have htask : loop.current.task ∈ ((r.machine w).after n).agenda.going := by
    rw [Machine.agenda, hcontrol]
    exact List.mem_cons_self
  have hread := executed_le hw ht htask
  refine ⟨loop.current.method, loop.current.offset, ?_, ?_⟩
  · rw [Machine.agenda, hcontrol]
    exact List.mem_cons_self
  · rw [Machine.executed_succ, if_pos h]
    omega

theorem method_unique (hw : w.Stock) (ht : ∀ n, ((r.machine w).after n).Tame) {k : MarkerRef}
    {c c' : CodeRef} {o o' i j : Nat} (hij : i ≤ j)
    (hi : .activation k c o ∈ ((r.machine w).after i).agenda.tasks)
    (hj : .activation k c' o' ∈ ((r.machine w).after j).agenda.tasks) : c' = c := by
  obtain ⟨hheld, hl⟩ := Machine.living_request r w i
  obtain ⟨n, rfl⟩ := Nat.exists_eq_add_of_le hij
  induction n generalizing o' with
  | zero => exact Machine.task_unique hl hi hj
  | succ n ih =>
    cases ho : ((r.machine w).after (i + n)).outcome? with
    | some x =>
      rw [← Nat.add_assoc, Machine.after_succ, Machine.step_of_outcome ho] at hj
      exact ih (Nat.le_add_right i n) hj
    | none =>
      obtain rfl | ⟨o'', hbefore⟩ := (after_step hw ht ho).before hj
      -- The marker has been there for long.
      · have hmarked := ((Snapshot.marked_preserved _).after hheld (Machine.task_marked hl hi) n).2
        rw [← Machine.after_add, Machine.world_snapshot] at hmarked
        exact absurd hmarked (Nat.lt_irrefl _)
      · exact ih (Nat.le_add_right i n) hbefore

/-- In a world whose lookups find no primitives but those of the core library, each for its own
selector, whatever code there is, a request comes to an outcome within some number of steps if no
loop over a condition is ever under way and no reflective send performs itself. However long that
takes, no activation executes more instructions than its body has bytes. -/
theorem terminates (r : Request) (w : World) (hw : w.Stock)
    (ht : ∀ n, ((r.machine w).after n).Tame) :
    (∃ steps o w', ∀ fuel, steps ≤ fuel → r.run fuel w = some (r.answer o, w')) ∧
    ∀ n, ∀ a ∈ ((r.machine w).after n).activations, ∀ steps,
      (r.machine w).executed a.marker steps ≤ w.bodySize a.method := by
  refine ⟨?_, fun n a ha steps => ?_⟩
  · obtain ⟨n, o, ho⟩ := exists_outcome hw ht
    refine ⟨n, o, ((r.machine w).after n).world, fun fuel hle => ?_⟩
    rw [run_eq, Machine.run_of_after ho hle]
    rfl
  · have hmem := Machine.mem_agenda.mpr ⟨a, ha, rfl⟩
    induction steps with
    | zero => exact Nat.zero_le _
    | succ steps ih =>
      cases hk : ((r.machine w).after steps).executes a.marker with
      | false =>
        rw [Machine.executed_succ, hk]
        exact ih
      | true =>
        obtain ⟨c, o, htask, hle⟩ := executed_of_executes hw ht hk
        have hsame : c = a.method := by
          obtain hsteps | hsteps := Nat.le_total n steps
          · exact method_unique hw ht hsteps hmem htask
          · exact (method_unique hw ht hsteps htask hmem).symm
        exact hsame ▸ hle

end Request

/-- `^1 to: 3 do: [:i | i perform: #asString]`. -/
def counting : Source :=
  let body := .block 1 [.pushSlot .arguments 1 0, .pushSymbol "asString", .send "perform:",
    .returnLocal]
  .method "counting" [.pushConstant (.integer 1), .pushConstant (.integer 3), .pushBlock body,
    .send "to:do:", .returnLocal]

set_option maxRecDepth 100000 in
theorem Request.terminates_counting : ∃ (r : Request) (w : World), w.Stock ∧
    (∀ n, ((r.machine w).after n).Tame) ∧
    (∃ steps o w', ∀ fuel, steps ≤ fuel → r.run fuel w = some (r.answer o, w')) ∧
    ∀ n, ∀ a ∈ ((r.machine w).after n).activations, ∀ steps,
      (r.machine w).executed a.marker steps ≤ w.bodySize a.method := by
  let request (c : CodeRef) : Request := .host (.invoke (.compiled c) .nil [])
  have hrun : (Action.result? counting.compile World.standard).any (fun p =>
      let m := (request p.1).machine p.2
      (List.range 36).all (fun n => (m.after n).Tame) && (m.after 35).outcome?.isSome) = true := by
    decide +kernel
  obtain ⟨⟨c, w⟩, hcompile, hcheck⟩ := Option.any_eq_true _ _ |>.mp hrun
  obtain ⟨hall, houtcome⟩ := Bool.and_eq_true_iff.mp hcheck
  obtain ⟨o, ho⟩ := Option.isSome_iff_exists.mp houtcome
  have hcompiles : World.standard.Compiles w :=
    (counting.build_compiles counting.ownLevel _).of_ok (Action.result?_eq_some.mp hcompile)
  have hw : w.Stock := (World.boot_stock World.boot_standard).compiles hcompiles
  have ht (n : Nat) : (((request c).machine w).after n).Tame := by
    by_cases hn : n < 36
    · exact of_decide_eq_true (List.all_eq_true.mp hall n (List.mem_range.mpr hn))
    · obtain ⟨j, rfl⟩ := Nat.exists_eq_add_of_le (Nat.le_of_not_lt fun h => hn (Nat.lt_succ_of_lt h))
      rw [Machine.after_add, Machine.after_of_outcome ho]
      exact of_decide_eq_true (List.all_eq_true.mp hall 35 (List.mem_range.mpr (by decide)))
  exact ⟨request c, w, hw, ht, terminates (request c) w hw ht⟩

end MessageMachine
