import MessageMachine.Proofs.Stock

namespace MessageMachine

/-- A loop over integers. All others go on for as long as a condition holds. -/
def Iteration.isCounting : Iteration → Bool
  | counting _ _ _ _ => true
  | testing _ _ _ | repeating _ _ _ => false

def Waiting.isBounded : Waiting → Bool
  | sender _ _ => true
  | iteration i => i.isCounting

/-- The next step lets a reflective send perform itself. -/
def Machine.performsItself (m : Machine) : Bool :=
  match m.control, m.step.control with
  | .call ⟨.primitive p, _ :: .symbol s :: _⟩, .call _ =>
    (m.world.primitives.get p).operation = .perform .argumentArray ∧
      s.name = PerformForm.argumentArray.selector
  | _, _ => false

/-- Nothing is under way that could go on forever. -/
structure Machine.Tame (m : Machine) : Prop where
  bounded : ∀ x ∈ m.waiting, x.isBounded
  performs : m.performsItself = false

instance (m : Machine) : Decidable m.Tame :=
  decidable_of_iff ((∀ x ∈ m.waiting, x.isBounded) ∧ m.performsItself = false)
    ⟨fun h => ⟨h.1, h.2⟩, fun h => ⟨h.1, h.2⟩⟩

/-- Who is not done: an activation, or a loop over integers with this many left to it. -/
inductive Task where
  | activation (marker : MarkerRef) (method : CodeRef) (offset : Nat)
  | iteration (left : Nat)

def Task.marker? : Task → Option MarkerRef
  | activation k _ _ => some k
  | iteration _ => none

/-- What the next step is about: the innermost activation is running or has ended, a call was
answered, or one is about to be made that leads to this many reflective sends. -/
inductive Stage where
  | running | ended | answered | calling (rank : Nat)

/-- The tasks, innermost first. -/
structure Agenda where
  stage : Stage
  tasks : List Task

def Activation.task (a : Activation) : Task := .activation a.marker a.method a.offset

def Iteration.left : Iteration → Nat
  | counting _ _ current limit => (limit.toInt - current.toInt).toNat
  | testing _ _ _ | repeating _ _ _ => 0

def RunLoop.tasks (loop : RunLoop) : List Task := loop.activations.map (·.task)

def Waiting.tasks : Waiting → List Task
  | sender loop _ => loop.tasks
  | iteration i => [.iteration i.left]

def Machine.agenda (m : Machine) : Agenda :=
  let below := m.waiting.flatMap (·.tasks)
  match m.control with
  | .run loop => ⟨.running, loop.tasks ++ below⟩
  | .finish loop _ => ⟨.ended, loop.tasks ++ below⟩
  | .call c => ⟨.calling (m.world.rank c), below⟩
  | .answer _ => ⟨.answered, below⟩

namespace Agenda

/-- The markers of the activations among some tasks. -/
def markers (tasks : List Task) : List MarkerRef := tasks.filterMap (·.marker?)

@[simp] theorem markers_activation (k : MarkerRef) (r : CodeRef) (o : Nat) (below : List Task) :
    markers (.activation k r o :: below) = k :: markers below := rfl

@[simp] theorem markers_iteration (left : Nat) (below : List Task) :
    markers (.iteration left :: below) = markers below := rfl

/-- A body was to run on top of some tasks: it has started, or its call was answered at once. -/
inductive Begins (next : MarkerRef) (below : List Task) : Agenda → Prop where
  | started (r : CodeRef) : Begins next below ⟨.running, .activation next r 0 :: below⟩
  | failed : Begins next below ⟨.answered, below⟩

/-- The innermost task was given a result: it goes on or has ended. -/
inductive Resumes (tasks : List Task) : Agenda → Prop where
  | running : Resumes tasks ⟨.running, tasks⟩
  | ended : Resumes tasks ⟨.ended, tasks⟩

/-- What a step does to the agenda, with bodies of this size, where the next marker is this one. -/
inductive Step (size : CodeRef → Nat) (next : MarkerRef) : Agenda → Agenda → Prop where
  | reads {k : MarkerRef} {r : CodeRef} {o n : Nat} {below : List Task} (hn : 0 < n)
      (hle : o + n ≤ size r) :
      Step size next ⟨.running, .activation k r o :: below⟩
        ⟨.running, .activation k r (o + n) :: below⟩
  | activates {k : MarkerRef} {r : CodeRef} {o n : Nat} {below : List Task} (hn : 0 < n)
      (hle : o + n ≤ size r) (callee : CodeRef) :
      Step size next ⟨.running, .activation k r o :: below⟩
        ⟨.running, .activation next callee 0 :: .activation k r (o + n) :: below⟩
  | calls {k : MarkerRef} {r : CodeRef} {o n : Nat} {below : List Task} (hn : 0 < n)
      (hle : o + n ≤ size r) {rank : Nat} (hrank : rank ≤ 3) :
      Step size next ⟨.running, .activation k r o :: below⟩
        ⟨.calling rank, .activation k r (o + n) :: below⟩
  | ends {tasks : List Task} : Step size next ⟨.running, tasks⟩ ⟨.ended, tasks⟩
  | returns {k : MarkerRef} {r : CodeRef} {o : Nat} {below : List Task} {a : Agenda}
      (h : Resumes below a) : Step size next ⟨.ended, .activation k r o :: below⟩ a
  | leaves {k : MarkerRef} {r : CodeRef} {o : Nat} {below : List Task} :
      Step size next ⟨.ended, .activation k r o :: below⟩ ⟨.answered, below⟩
  | performs {rank rank' : Nat} {below : List Task} (h : rank' < rank) :
      Step size next ⟨.calling rank, below⟩ ⟨.calling rank', below⟩
  | begins {rank : Nat} {below : List Task} {a : Agenda} (h : Begins next below a) :
      Step size next ⟨.calling rank, below⟩ a
  | loops {rank left : Nat} {below : List Task} {a : Agenda} (hleft : left < Int64.size)
      (h : Begins next (.iteration left :: below) a) : Step size next ⟨.calling rank, below⟩ a
  | takes {tasks : List Task} {a : Agenda} (h : Resumes tasks a) :
      Step size next ⟨.answered, tasks⟩ a
  | repeats {left left' : Nat} {below : List Task} {a : Agenda} (hleft : left' < left)
      (h : Begins next (.iteration left' :: below) a) :
      Step size next ⟨.answered, .iteration left :: below⟩ a
  | drops {left : Nat} {below : List Task} :
      Step size next ⟨.answered, .iteration left :: below⟩ ⟨.answered, below⟩

/-- The tasks that go on: all but an activation that has ended. -/
def going (a : Agenda) : List Task :=
  match a.stage with
  | .ended => a.tasks.tail
  | .running | .answered | .calling _ => a.tasks

def behind (a : Agenda) : List Task :=
  match a.stage with
  | .running | .ended => a.tasks.tail
  | .answered | .calling _ => a.tasks

variable {size : CodeRef → Nat} {next k : MarkerRef} {c : CodeRef} {o : Nat} {t : Task}
  {below tasks : List Task} {a a' : Agenda}

theorem going_of_behind (h : t ∈ a.behind) : t ∈ a.going := by
  obtain ⟨stage, tasks⟩ := a
  cases stage with
  | running => exact List.mem_of_mem_tail h
  | ended | answered | calling => exact h

theorem Begins.origin (h : Begins next below a) (ht : .activation k c o ∈ a.going) :
    k = next ∨ .activation k c o ∈ below := by
  cases h with
  | started r =>
    obtain heq | ht := List.mem_cons.mp ht
    · cases heq
      exact .inl rfl
    · exact .inr ht
  | failed => exact .inr ht

theorem Resumes.origin (h : Resumes tasks a) (ht : t ∈ a.going) : t ∈ tasks := by
  cases h with
  | running => exact ht
  | ended => exact List.mem_of_mem_tail ht

theorem mem_of_mem_iteration {left : Nat} (h : .activation k c o ∈ .iteration left :: below) :
    .activation k c o ∈ below := by
  obtain heq | h := List.mem_cons.mp h
  · cases heq
  · exact h

/-- An activation that goes on after a step is new, has read on, or waited all the while. -/
theorem Step.origin (h : Step size next a a') (ht : .activation k c o ∈ a'.going) :
    k = next ∨ (∃ o' below, o' < o ∧ a = ⟨.running, .activation k c o' :: below⟩) ∨
      .activation k c o ∈ a.behind := by
  cases h with
  | reads hn | calls hn =>
    obtain heq | ht := List.mem_cons.mp ht
    · cases heq
      exact .inr (.inl ⟨_, _, Nat.lt_add_of_pos_right hn, rfl⟩)
    · exact .inr (.inr ht)
  | activates hn hle callee =>
    obtain hnext | ht := (Begins.started callee).origin ht
    · exact .inl hnext
    obtain heq | ht := List.mem_cons.mp ht
    · cases heq
      exact .inr (.inl ⟨_, _, Nat.lt_add_of_pos_right hn, rfl⟩)
    · exact .inr (.inr ht)
  | ends | leaves | performs => exact .inr (.inr ht)
  | returns h | takes h => exact .inr (.inr (h.origin ht))
  | begins h => exact (h.origin ht).imp_right .inr
  | loops _ h => exact (h.origin ht).imp_right fun ht => .inr (mem_of_mem_iteration ht)
  | repeats _ h =>
    refine (h.origin ht).imp_right fun ht => .inr ?_
    exact List.mem_cons_of_mem _ (mem_of_mem_iteration ht)
  | drops => exact .inr (.inr (List.mem_cons_of_mem _ ht))

theorem mem_of_behind (h : t ∈ a.behind) : t ∈ a.tasks := by
  obtain ⟨stage, tasks⟩ := a
  cases stage with
  | running | ended => exact List.mem_of_mem_tail h
  | answered | calling => exact h

theorem Step.before (h : Step size next a a') (ht : .activation k c o ∈ a'.tasks) :
    k = next ∨ ∃ o', .activation k c o' ∈ a.tasks := by
  have of_going (ht : .activation k c o ∈ a'.going) :
      k = next ∨ ∃ o', .activation k c o' ∈ a.tasks := by
    obtain hnext | ⟨o', below, -, rfl⟩ | hbehind := h.origin ht
    · exact .inl hnext
    · exact .inr ⟨o', List.mem_cons_self⟩
    · exact .inr ⟨o, mem_of_behind hbehind⟩
  cases h with
  | ends => exact .inr ⟨o, ht⟩
  | returns h =>
    cases h with
    | running => exact of_going ht
    | ended => exact .inr ⟨o, List.mem_cons_of_mem _ ht⟩
  | takes h =>
    cases h with
    | running => exact of_going ht
    | ended => exact .inr ⟨o, ht⟩
  | begins h | loops _ h | repeats _ h => cases h <;> exact of_going ht
  | reads | activates | calls | leaves | performs | drops => exact of_going ht

end Agenda

namespace Machine

theorem activations_agenda (m : Machine) :
    m.agenda.tasks.filter (·.marker?.isSome) = m.activations.map (·.task) := by
  have of_loop (loop : RunLoop) : loop.tasks.filter (·.marker?.isSome) = loop.tasks := by
    refine List.filter_eq_self.mpr fun t ht => ?_
    obtain ⟨a, -, rfl⟩ := List.mem_map.mp ht
    rfl
  have below (waiting : List Waiting) : (waiting.flatMap (·.tasks)).filter (·.marker?.isSome) =
      (waiting.flatMap (·.activations)).map (·.task) := by
    rw [List.filter_flatMap, List.map_flatMap]
    refine congrArg (waiting.flatMap ·) (funext fun x => ?_)
    cases x with
    | sender loop use => exact of_loop loop
    | iteration i => rfl
  rw [← activations_snapshot]
  obtain ⟨control, waiting, w⟩ := m
  cases control with
  | run loop | finish loop =>
    change (loop.tasks ++ _).filter _ = (loop.activations ++ _).map _
    rw [List.filter_append, of_loop, below, List.map_append]
    rfl
  | call | answer => exact below waiting

theorem mem_agenda {m : Machine} {k : MarkerRef} {c : CodeRef} {o : Nat} :
    .activation k c o ∈ m.agenda.tasks ↔ ∃ a ∈ m.activations, a.task = .activation k c o := by
  rw [← List.mem_map, ← activations_agenda, List.mem_filter]
  exact (and_iff_left rfl).symm

theorem markers_agenda (m : Machine) :
    Agenda.markers m.agenda.tasks = m.activations.map (·.marker) := by
  have hfilter (tasks : List Task) : (tasks.filter (·.marker?.isSome)).filterMap (·.marker?) =
      Agenda.markers tasks := by
    rw [List.filterMap_filter, Agenda.markers]
    refine congrArg (List.filterMap · tasks) (funext fun t => ?_)
    cases t <;> rfl
  rw [← hfilter, activations_agenda, List.filterMap_map]
  exact congrFun List.filterMap_eq_map _

end Machine

theorem Iteration.left_lt (i : Iteration) : i.left < Int64.size := by
  cases i with
  | counting body start current limit =>
    have hlimit := limit.toInt_lt
    have hcurrent := current.le_toInt
    simp only [left, Int64.size]
    omega
  | testing | repeating => exact Nat.zero_lt_succ _

theorem Iteration.left_succ {body : Block} {start current limit : Int64} (h : current < limit) :
    (counting body start (current + 1) limit).left < (counting body start current limit).left := by
  have hlt := Int64.lt_iff_toInt_lt.mp h
  simp only [left, toInt_succ h]
  omega

def World.bodySize (w : World) (r : CodeRef) : Nat := (w.code r).bytecodes.size

theorem Activation.fetch_le {a : Activation} {w : World} {i : Instruction} (h : a.fetch w = .ok i) :
    0 < i.length ∧ a.offset + i.length ≤ w.bodySize a.method :=
  MessageMachine.fetch_le (fetch_eq_ok h)

namespace Machine

variable (waiting : List Waiting) (w : World)

def Keeps (w : World) (Q : Agenda → Prop) (m : Machine) : Prop := w.Recalls m.world ∧ Q m.agenda

variable {waiting w} {v : World} {P Q : Agenda → Prop} {m : Machine}

theorem Keeps.mono (h : Keeps v P m) (hw : w.Recalls v) (hQ : ∀ a, P a → Q a) : Keeps w Q m :=
  ⟨hw.trans h.1, hQ _ h.2⟩

theorem execute_keeps (waiting : List Waiting) (w : World) (r : CodeRef) (args : List Value)
    (outer : Option FrameRef) :
    Keeps w (Agenda.Begins w.markers.next (waiting.flatMap (·.tasks)))
      (execute r args outer waiting w) := by
  have hstart := Activation.start_creates r args outer w
  unfold execute RunLoop.start
  simp only [Action.bind_apply, Action.get_apply]
  by_cases hlimit : w.config.maxReentryDepth ≤ w.reentry
  · rw [if_pos hlimit]
    exact ⟨.refl w, .failed⟩
  rw [if_neg hlimit, Action.bind_apply]
  cases hrun : Activation.start r args outer w with
  | error f w' =>
    obtain ⟨-, rfl⟩ := hstart.of_error hrun
    exact ⟨.refl _, .failed⟩
  | ok callee w' =>
    obtain ⟨-, hworld, f, -, rfl⟩ := hstart.of_ok hrun
    refine ⟨.of_eq ?_ ?_, .started r⟩
    · change w'.classes = w.classes
      rw [hworld]
    · change w'.memos = w.memos
      rw [hworld]

theorem deliver_keeps (loop : RunLoop) (x : Value) (waiting : List Waiting) (w : World) :
    Keeps w (Agenda.Resumes (loop.tasks ++ waiting.flatMap (·.tasks)))
      (deliver loop x waiting w) := by
  have hpush : Action.Recalls w _ _ := loop.current.handle.modify_lasts (·.push x)
  unfold deliver RunLoop.push
  rw [Action.bind_apply]
  cases hrun : loop.current.handle.push x w with
  | ok handle w' => exact ⟨((hpush w (.refl w)).of_ok hrun).1, .running⟩
  | error f w' => exact ⟨(hpush w (.refl w)).of_error hrun, .ended⟩

theorem handOver_keeps (loop : RunLoop) (o : Outcome) (waiting : List Waiting) (w : World) :
    Keeps w (Agenda.Resumes (loop.tasks ++ waiting.flatMap (·.tasks)))
      (handOver loop o waiting w) := by
  cases o with
  | ok x => exact deliver_keeps loop x waiting w
  | error u => exact ⟨.refl w, .ended⟩

theorem finish_keeps (loop : RunLoop) (o : Outcome) (waiting : List Waiting) (w : World) :
    Keeps w (Agenda.Step w.bodySize w.markers.next (agenda ⟨.finish loop o, waiting, w⟩))
      (finish loop o waiting w) := by
  have hretire : w.Recalls (loop.current.retire o w).2 := by
    have hleft : w.Recalls (loop.current.left w) := .of_eq rfl rfl
    obtain ⟨x, -, -, h⟩ | ⟨-, h⟩ := loop.current.retire_cases o w
    · rw [h]
      exact hleft.trans (.note _ _)
    · rw [h]
      exact hleft
  obtain ⟨current, suspended⟩ := loop
  rw [Footing.finish_eq]
  cases suspended with
  | nil => exact ⟨hretire.trans (.of_eq rfl rfl), .leaves⟩
  | cons sender rest => exact (handOver_keeps _ _ _ _).mono hretire fun _ h => .returns h

theorem advance_keeps {loop : RunLoop} {w : World}
    (hheld : loop.current.handle.Held loop.current.marker loop.current.method w)
    (waiting : List Waiting) :
    Keeps w (Agenda.Step w.bodySize w.markers.next (agenda ⟨.run loop, waiting, w⟩))
      (advance loop waiting w) := by
  have hbrings := Activation.step_brings hheld
  have hleaves := loop.current.step_recalls w
  obtain ⟨current, suspended⟩ := loop
  unfold advance
  dsimp only at hbrings hleaves ⊢
  cases hrun : current.step w with
  | error f w' => exact ⟨hleaves.of_error hrun, .ends⟩
  | ok e w' =>
    obtain ⟨hrecalls, i, hi, he⟩ := hleaves.of_ok hrun
    obtain ⟨hlength, hle⟩ := Activation.fetch_le hi
    have hb := hbrings.of_ok hrun
    have later {b : Activation} {v : World} (hb : current.Goes w b v)
        (ho : b.offset = current.offset + i.length) :
        b.task = .activation current.marker current.method (current.offset + i.length) := by
      rw [Activation.task, hb.marker, hb.method, ho]
    let below : List Task := suspended.map (·.task) ++ waiting.flatMap (·.tasks)
    cases e with
    | resume b =>
      have hagenda : agenda ⟨.run ⟨b, suspended⟩, waiting, w'⟩ = ⟨.running, b.task :: below⟩ := rfl
      refine ⟨hrecalls, ?_⟩
      rw [hagenda, later hb he]
      exact .reads hlength hle
    | activate sender callee =>
      obtain ⟨v, hsender, hcallee⟩ := hb
      have hagenda : agenda ⟨.run ⟨callee, sender :: suspended⟩, waiting, w'⟩ =
          ⟨.running, callee.task :: sender.task :: below⟩ := rfl
      have hfirst : callee.task = .activation w.markers.next callee.method 0 := by
        rw [Activation.task, hcallee.marker, hsender.leads.moved.markers, he.2]
      refine ⟨hrecalls, ?_⟩
      rw [hagenda, hfirst, later hsender he.1]
      exact .activates hlength hle callee.method
    | callOut sender c use =>
      have hagenda : agenda ⟨.call c, .sender ⟨sender, suspended⟩ use :: waiting, w'⟩ =
          ⟨.calling (w'.rank c), sender.task :: below⟩ := rfl
      refine ⟨hrecalls, ?_⟩
      rw [hagenda, later hb he]
      exact .calls hlength hle (w'.rank_le c)
    | complete x | unwind x target => exact ⟨hrecalls, .ends⟩

theorem reply_keeps {r : Reply} (hcall : ∀ c, r ≠ .call c) (waiting : List Waiting) (w : World) :
    Keeps w (fun a => Agenda.Begins w.markers.next (waiting.flatMap (·.tasks)) a ∨
        ∃ i : Iteration,
          Agenda.Begins w.markers.next (.iteration i.left :: waiting.flatMap (·.tasks)) a)
      (reply r waiting w) := by
  match r with
  | .answer x => exact ⟨.refl w, .inl .failed⟩
  | .call c => exact absurd rfl (hcall c)
  | .evaluate b params none =>
    exact (execute_keeps waiting w _ _ _).mono (.refl w) fun _ => .inl
  | .evaluate b params (some i) =>
    exact (execute_keeps (.iteration i :: waiting) w _ _ _).mono (.refl w)
      fun _ h => .inr ⟨i, h⟩

/-- An operation goes on as a call that leads to more reflective sends than any that it performs. -/
theorem operate_keeps (op : Operation) (receiver : Value) {args : List Value} {rank : Nat}
    (hrank : ∀ form c, op = .perform form → form.Performs w args c →
      (operate op receiver args waiting w).control = .call c → w.rank c < rank) :
    Keeps w (Agenda.Step w.bodySize w.markers.next ⟨.calling rank, waiting.flatMap (·.tasks)⟩)
      (operate op receiver args waiting w) := by
  have hstill : (op.start receiver args).Ensures w _ _ :=
    (op.start_quiet (fun _ _ => trivial) trivial fun _ _ => trivial).leaves_still w
  have hstart : Action.Recalls w _ _ := op.start_recalls receiver args
  have hrecalls := hstart w (.refl w)
  unfold operate at hrank ⊢
  cases hrun : op.start receiver args w with
  | error f w' => exact ⟨hrecalls.of_error hrun, .begins .failed⟩
  | ok r w' =>
    have hs := hstill.of_ok hrun
    obtain ⟨hw', hperforms⟩ := hrecalls.of_ok hrun
    by_cases hcall : ∃ c, r = .call c
    · obtain ⟨c, rfl⟩ := hcall
      obtain ⟨form, hop, hform⟩ := hperforms c rfl
      have hsame : w'.rank c = w.rank c := by rw [World.rank, World.rank, hs.primitives]
      refine ⟨hw', ?_⟩
      change Agenda.Step _ _ _ ⟨.calling (w'.rank c), _⟩
      rw [hsame]
      rw [hrun] at hrank
      exact .performs (hrank form c hop hform rfl)
    · have hreply := reply_keeps (fun c hc => hcall ⟨c, hc⟩) waiting w'
      rw [hs.markers] at hreply
      refine hreply.mono hw' ?_
      rintro a (ha | ⟨i, ha⟩)
      · exact .begins ha
      · exact .loops i.left_lt ha

theorem call_keeps {c : Call} (hw : w.Stock) (ht : Tame ⟨.call c, waiting, w⟩) :
    Keeps w (Agenda.Step w.bodySize w.markers.next (agenda ⟨.call c, waiting, w⟩))
      (call c waiting w) := by
  obtain ⟨method, args⟩ := c
  match method, args with
  | .compiled r, args => exact (execute_keeps waiting w r args none).mono (.refl w) fun _ => .begins
  | .primitive p, receiver :: args =>
    refine operate_keeps _ receiver fun form c hop hform hcall => ?_
    change w.rank c < (w.primitives.get p).operation.rank
    rw [hop]
    refine hform.rank_lt hw ?_
    rintro s rest rfl rfl hself
    have hperforms := ht.performs
    have hstep : (step ⟨.call ⟨.primitive p, receiver :: .symbol s :: rest⟩, waiting, w⟩).control =
        .call c := hcall
    simp [performsItself, hstep, hop, hself] at hperforms
  | .primitive p, [] => exact ⟨.refl w, .begins .failed⟩

theorem answer_keeps {o : Outcome} (hne : waiting ≠ []) (ht : Tame ⟨.answer o, waiting, w⟩) :
    Keeps w (Agenda.Step w.bodySize w.markers.next (agenda ⟨.answer o, waiting, w⟩))
      (answer o waiting w) := by
  match waiting, o with
  | [], o => exact absurd rfl hne
  | .sender loop .push :: rest, o =>
    rw [answer_handOver]
    exact (handOver_keeps loop o rest w).mono (.refl w) fun _ => .takes
  | .sender loop .complete :: rest, o =>
    have hanswer : answer o (.sender loop .complete :: rest) w = ⟨.finish loop o, rest, w⟩ := by
      cases o <;> rfl
    rw [hanswer]
    exact ⟨.refl w, .takes .ended⟩
  | .iteration i :: rest, .error u => exact ⟨.refl w, .drops⟩
  | .iteration i :: rest, .ok x =>
    obtain ⟨body, start, current, limit, rfl⟩ : ∃ body start current limit,
        i = .counting body start current limit := by
      have hbounded := ht.bounded (.iteration i) List.mem_cons_self
      cases i with
      | counting body start current limit => exact ⟨body, start, current, limit, rfl⟩
      | testing | repeating => cases hbounded
    simp only [answer, Iteration.next]
    by_cases hlt : current < limit
    · rw [if_pos hlt, Iteration.countFrom]
      split
      · exact (execute_keeps (.iteration (.counting body start (current + 1) limit) :: rest) w _ _
          _).mono (.refl w) fun _ => .repeats (Iteration.left_succ hlt)
      · exact ⟨.refl w, .drops⟩
    · rw [if_neg hlt]
      exact ⟨.refl w, .drops⟩

theorem step_keeps {m : Machine} (ho : m.outcome? = none) (hheld : m.snapshot.Held)
    (hw : m.world.Stock) (ht : m.Tame) :
    Keeps m.world (Agenda.Step m.world.bodySize m.world.markers.next m.agenda) m.step := by
  obtain ⟨control, waiting, w⟩ := m
  cases control with
  | run loop => exact advance_keeps (hheld loop.current List.mem_cons_self) waiting
  | finish loop o => exact finish_keeps loop o waiting w
  | call c => exact call_keeps hw ht
  | answer o =>
    refine answer_keeps ?_ ht
    rintro rfl
    cases ho

end Machine

end MessageMachine
