import MessageMachine.Proofs.Calls
import MessageMachine.Proofs.Hosting
import MessageMachine.Proofs.Running

namespace MessageMachine

/-- Values that a host may use: anything but blocks that it was not given. -/
def Usable (held : List Grant) (v : Value) : Prop := v.block?.isSome → .value v ∈ held

instance (held : List Grant) (v : Value) : Decidable (Usable held v) :=
  inferInstanceAs (Decidable (_ → _))

/-- A value that can be read off the objects, the arrays or the globals of a world. -/
inductive World.Stores (w : World) : Value → Prop where
  | field (r : ObjectRef) {v : Value} (h : v ∈ (w.objects.get r).fields) : w.Stores v
  | element (r : ArrayRef) {v : Value} (h : v ∈ w.arrays.get r) : w.Stores v
  | global (name : Symbol) {v : Value} (h : w.global? name = some v) : w.Stores v

/-- Changes that a host makes to a world by itself. -/
inductive HostChange (held : List Grant) (w : World) : World → Prop where
  | intern (name : String) : HostChange held w (w.intern name).2
  | define (name : String) (superclass : ClassRef) (fields : List String) :
      HostChange held w (w.define name superclass fields).2
  | primitive (c : ClassRef) (name : String) (op : Operation) (evaluatesBlock : Bool) :
      HostChange held w (w.installPrimitive c name op evaluatesBlock).2
  | newString (text : String) : HostChange held w (w.newString text).2
  | newInstance (c : ClassRef) : HostChange held w (w.newInstance c).2
  | newArray {elements : Array Value} (h : ∀ v ∈ elements, Usable held v) :
      HostChange held w (w.newArray elements).2
  | setField {r : ObjectRef} {index : Nat} {v : Value} {w' : World} (hv : Usable held v)
      (h : w.setField? r index v = some w') : HostChange held w w'
  | setElement (r : ArrayRef) (index : Nat) {v : Value} (hv : Usable held v) :
      HostChange held w { w with arrays := w.arrays.modify r (·.setIfInBounds index v) }
  | setGlobal (name : Symbol) {v : Value} (hv : Usable held v) :
      HostChange held w (w.setGlobal name v)
  | takeTranscript : HostChange held w w.takeTranscript.2
  | withoutCaches : HostChange held w w.withoutCaches

/-- What else a host may do: how it may add bodies, which methods it may call, and what is assumed of
the machines that it lets run. -/
structure Policy where
  adds : List Grant → World → World → Prop
  calls : List Grant → World → Method → Prop
  runs : Machine → Prop

/-- Calls under a policy: of the methods that it lets a host call, with blocks that the host was given.
There is no running of bodies by themselves. -/
def HostCall.Allowed (P : Policy) (held : List Grant) (w : World) : HostCall → Prop
  | invoke m receiver args => P.calls held w m ∧ Usable held receiver ∧ ∀ v ∈ args, Usable held v
  | send receiver _ args | dispatch receiver _ args =>
    Usable held receiver ∧ ∀ v ∈ args, Usable held v
  | call m args => P.calls held w m ∧ ∀ v ∈ args, Usable held v
  | evaluate b params => .value (.block b) ∈ held ∧ ∀ v ∈ params, Usable held v
  | execute _ _ _ => False

theorem HostCall.invoke_allowed {P : Policy} {held : List Grant} {w : World} {m : Method}
    (h : P.calls held w m) : (HostCall.invoke m .nil []).Allowed P held w :=
  ⟨h, nofun, nofun⟩

/-- The machines that a host can bring about, with the values that it was given on the way. -/
inductive Session (P : Policy) : Machine → List Grant → Prop where
  | boot {config : Config} {journal : Journal} {w : World} (h : World.boot config journal = .ok w) :
      Session P ⟨.answer (.ok .nil), [], w⟩ []
  | change {o : Outcome} {w w' : World} {held : List Grant}
      (h : Session P ⟨.answer o, [], w⟩ held) (hc : HostChange held w w') :
      Session P ⟨.answer o, [], w'⟩ held
  | add {o : Outcome} {w w' : World} {held : List Grant} (h : Session P ⟨.answer o, [], w⟩ held)
      (ha : P.adds held w w') : Session P ⟨.answer o, [], w'⟩ held
  | request {o : Outcome} {w : World} {held : List Grant} (h : Session P ⟨.answer o, [], w⟩ held)
      {c : HostCall} (hc : c.Allowed P held w) : Session P (c.machine w) held
  | step {m : Machine} {held : List Grant} (h : Session P m held) (hr : P.runs m) :
      Session P m.step held
  | result {v : Value} {w : World} {held : List Grant}
      (h : Session P ⟨.answer (.ok v), [], w⟩ held) :
      Session P ⟨.answer (.ok v), [], w⟩ (.value v :: held)
  | see {m : Machine} {held : List Grant} (h : Session P m held) {v : Value}
      (hv : m.world.Stores v) : Session P m (.value v :: held)
  | find {m : Machine} {held : List Grant} (h : Session P m held) {c : ClassRef}
      {selector : Symbol} {method : Method}
      (hm : (m.world.cls c).methods.find? selector = some method) :
      Session P m (.method method :: held)

variable {D : Discipline} {C : Contract D} {held : List Grant} {w w' : World}

theorem Usable.valid {v : Value} (h : Usable held v) (hheld : ∀ g ∈ held, D.Grants w g) :
    D.Valid w v := by
  intro b hb
  exact hheld _ (h (by rw [hb, Option.isSome_some])) b hb

theorem World.Stores.valid {v : Value} (h : w.Stores v) (hw : w.Sound D) : D.Valid w v := by
  cases h with
  | field r h => exact hw.holds.fields r v h
  | element r h => exact hw.holds.elements r v h
  | global name h => exact hw.holds.globals name v h

theorem World.intern_sound (hw : w.Sound D) (name : String) : (w.intern name).2.Sound D :=
  hw.stored rfl rfl rfl (hw.holds.compiles (.intern w name))

theorem HostChange.keeps (h : HostChange held w w') :
    w'.codes = w.codes ∧ w'.frames = w.frames ∧ w'.markers = w.markers := by
  cases h with
  | define name superclass fields => exact w.define_keeps name superclass fields
  | setField hv h =>
    obtain ⟨hstill, -⟩ := World.setField?_quiet w.holds_true trivial h
    exact ⟨hstill.codes, hstill.frames, hstill.markers⟩
  | intern | primitive | newString | newInstance | newArray | setElement | setGlobal | takeTranscript
  | withoutCaches => exact ⟨rfl, rfl, rfl⟩

/-- A host stores no values but those that it may use, and finds no methods but primitives. -/
theorem HostChange.holds {good : Value → Prop} {known : Method → Prop} (h : HostChange held w w')
    (hw : w.Holds good known) (husable : ∀ v, Usable held v → good v)
    (hknown : ∀ p, known (.primitive p)) : w'.Holds good known := by
  have hgood (v : Value) (hv : v.block? = none) : good v := husable v fun hs => by
    rw [hv] at hs
    cases hs
  cases h with
  | intern name => exact hw.compiles (.intern w name)
  | define name superclass fields => exact hw.define hgood name superclass fields
  | primitive c name op evaluatesBlock => exact hw.installPrimitive hknown c name op evaluatesBlock
  | newString | takeTranscript => exact hw.congr rfl rfl rfl rfl rfl rfl
  | newInstance c => exact hw.newInstance c (hgood _ rfl)
  | newArray h => exact hw.newArray fun v hv => husable v (h v hv)
  | setField hv h => exact hw.setField (husable _ hv) h
  | setElement r index hv => exact hw.setElement r index (husable _ hv)
  | setGlobal name hv => exact hw.setGlobal name (husable _ hv)
  | withoutCaches => exact hw.withoutCaches

theorem HostChange.sound (h : HostChange held w w') (hw : w.Sound D)
    (hheld : ∀ g ∈ held, D.Grants w g) :
    w'.Sound D ∧ w'.codes = w.codes ∧ w'.frames = w.frames ∧ w'.markers = w.markers := by
  obtain ⟨hcodes, hframes, hmarkers⟩ := h.keeps
  refine ⟨hw.stored hcodes hframes hmarkers (h.holds hw.holds ?_ nofun), h.keeps⟩
  exact fun v hv => hv.valid hheld

structure Policy.Keeps (P : Policy) (C : Contract D) : Prop where
  boot : ∀ {config journal w}, World.boot config journal = .ok w →
    w.Sound D ∧ ∀ k, w.isLive k = false
  adds : ∀ {held w w'}, P.adds held w w' → w.Sound D → (∀ g ∈ held, D.Grants w g) →
    w'.Sound D ∧ w.Extends w' ∧ w'.markers = w.markers
  calls : ∀ {held w m}, P.calls held w m → w.Sound D → (∀ g ∈ held, D.Grants w g) → D.Known w m
  runs : ∀ {m held loop}, m.Sound C held → P.runs m → m.control = .run loop →
    loop.current.Keeps C m.world

namespace World.Waits

theorem idle (hw : w.Sound D) (hdead : ∀ k, w.isLive k = false)
    (hheld : ∀ g ∈ held, D.Grants w g) : w.Waits C held [] [] [] := by
  refine ⟨hheld, ⟨hw, nofun, .nil, fun k => ?_, fun r _ => nofun⟩, nofun, nofun, nofun⟩
  simp [hdead k]

theorem dead (h : w.Waits C held [] [] []) (k : MarkerRef) : w.isLive k = false := by
  rw [Bool.eq_false_iff]
  intro hk
  obtain ⟨a, ha, -⟩ := (h.stack.live k).mp hk
  cases ha

theorem changed (h : w.Waits C held [] [] []) (hw' : w'.Sound D) (he : w.Extends w')
    (hmarkers : w'.markers = w.markers) : w'.Waits C held [] [] [] := by
  refine idle hw' (fun k => ?_) fun g hg => (h.held g hg).mono he
  rw [isLive, hmarkers]
  exact h.dead k

theorem hold {running suspended : List Activation} {waiting : List Waiting}
    (h : w.Waits C held running suspended waiting) {g : Grant} (hg : D.Grants w g) :
    w.Waits C (g :: held) running suspended waiting :=
  ⟨List.forall_mem_cons.mpr ⟨hg, h.held⟩, h.stack, h.due, h.room, h.iterations⟩

end World.Waits

theorem Outcome.Sound.mono {o : Outcome} (h : o.Sound C w []) (he : w.Extends w') :
    o.Sound C w' [] := by
  match o with
  | .ok v => exact Discipline.Valid.mono he h
  | .error (.fault f) => exact h
  | .error (.nonLocalReturn v target) => exact ⟨h.1.mono he, fun hg => by simpa using h.2 hg⟩

theorem Machine.dispatch_sound (h : w.Waits C held [] [] []) (selector : Symbol) {receiver : Value}
    {args : List Value} (hr : D.Valid w receiver) (ha : ∀ v ∈ args, D.Valid w v) :
    (Machine.dispatch receiver selector args w).Sound C held := by
  have hquiet : Action.Quiet (D.Valid w) (D.Known w) (Action.dispatch receiver selector args) _ :=
    Action.dispatch_quiet (fun _ => D.valid_of_no_block) selector hr ha
  have hensures := hquiet w h.stack.sound.holds
  unfold Machine.dispatch
  cases hrun : Action.dispatch receiver selector args w with
  | ok c w' =>
    obtain ⟨hc, hstill, hholds⟩ := hensures.of_ok hrun
    have he : w.Extends w' := .of_eq hstill.codes hstill.frames
    exact Machine.call_sound (h.still hstill (h.stack.sound.of_still hstill hholds))
      ⟨hc.1.mono he, fun v hv => (hc.2 v hv).mono he⟩
  | error f w' =>
    obtain ⟨hf, hstill, hholds⟩ := hensures.of_error hrun
    exact Machine.fault_sound (h.still hstill (h.stack.sound.of_still hstill hholds))
      (C.program f hf)

theorem Machine.Sound.hold {m : Machine} (h : m.Sound C held) {g : Grant}
    (hg : D.Grants m.world g) : m.Sound C (g :: held) := by
  obtain ⟨control, waiting, w⟩ := m
  cases control with
  | run loop => exact ⟨h.1.hold hg, h.2⟩
  | finish loop o => exact ⟨h.1.hold hg, h.2⟩
  | call c => exact ⟨h.1.hold hg, h.2⟩
  | answer o => exact ⟨h.1.hold hg, h.2⟩

theorem Machine.Sound.world {m : Machine} (h : m.Sound C held) : m.world.Sound D := by
  obtain ⟨control, waiting, w⟩ := m
  cases control with
  | run loop => exact h.1.stack.sound
  | finish loop o => exact h.1.stack.sound
  | call c => exact h.1.stack.sound
  | answer o => exact h.1.stack.sound

theorem HostCall.machine_sound {P : Policy} (hP : P.Keeps C) (h : w.Waits C held [] [] [])
    {c : HostCall} (hc : c.Allowed P held w) : (c.machine w).Sound C held := by
  have hw := h.stack.sound
  have hvalid {args : List Value} (hargs : ∀ v ∈ args, Usable held v) : ∀ v ∈ args, D.Valid w v :=
    fun v hv => (hargs v hv).valid h.held
  cases c with
  | invoke m receiver args =>
    obtain ⟨hm, hr, hargs⟩ := hc
    dsimp only [machine]
    split
    · exact Machine.call_sound h ⟨hP.calls hm hw h.held,
        List.forall_mem_cons.mpr ⟨hr.valid h.held, hvalid hargs⟩⟩
    · exact Machine.fault_sound h (C.program _ rfl)
  | send receiver selector args =>
    obtain ⟨hr, hargs⟩ := hc
    have he : w.Extends (w.intern selector).2 := .of_eq rfl rfl
    have h' := h.changed (w.intern_sound hw selector) he rfl
    dsimp only [machine]
    split
    · exact Machine.dispatch_sound h' _ (.mono he (hr.valid h.held))
        fun v hv => (hvalid hargs v hv).mono he
    · exact Machine.fault_sound h' (C.program _ rfl)
  | dispatch receiver selector args =>
    exact Machine.dispatch_sound h selector (hc.1.valid h.held) (hvalid hc.2)
  | call m args => exact Machine.call_sound h ⟨hP.calls hc.1 hw h.held, hvalid hc.2⟩
  | evaluate b params => exact Machine.evaluate_sound h (h.held _ hc.1) (hvalid hc.2)
  | execute r args outer => exact hc.elim

theorem Session.sound {P : Policy} (hP : P.Keeps C) {m : Machine} (h : Session P m held) :
    m.Sound C held := by
  -- By induction on what the host did; only the steps of a machine need the assumption on runs.
  induction h with
  | boot h =>
    obtain ⟨hw, hdead⟩ := hP.boot h
    exact ⟨.idle hw hdead nofun, D.valid_of_no_block rfl⟩
  | change h hc ih =>
    obtain ⟨hw, hcodes, hframes, hmarkers⟩ := hc.sound ih.1.stack.sound ih.1.held
    have he := World.Extends.of_eq hcodes hframes
    exact ⟨ih.1.changed hw he hmarkers, ih.2.mono he⟩
  | add h ha ih =>
    obtain ⟨hw, he, hmarkers⟩ := hP.adds ha ih.1.stack.sound ih.1.held
    exact ⟨ih.1.changed hw he hmarkers, ih.2.mono he⟩
  | request h hc ih => exact HostCall.machine_sound hP ih.1 hc
  | step h hr ih => exact ih.step fun loop hloop _ _ => hP.runs ih hr hloop
  | result h ih => exact ⟨ih.1.hold ih.2, ih.2⟩
  | see h hv ih => exact ih.hold (hv.valid ih.world)
  | find h hm ih => exact ih.hold (ih.world.holds.methods _ _ _ hm)

theorem Session.after {P : Policy} {m : Machine} (h : Session P m held) {n : Nat}
    (hruns : ∀ j < n, P.runs (m.after j)) : Session P (m.after n) held := by
  induction n with
  | zero => exact h
  | succ n ih =>
    rw [Machine.after_succ]
    exact .step (ih fun j hj => hruns j (Nat.lt_succ_of_lt hj)) (hruns n (Nat.lt_succ_self n))

theorem Session.answered {P : Policy} {o : Outcome} (h : Session P ⟨.answer o, [], w⟩ held)
    {c : HostCall} (hc : c.Allowed P held w) {fuel : Nat} {a : HostAnswer}
    (hrun : c.run fuel w = some (a, w')) (hruns : ∀ j < fuel, P.runs ((c.machine w).after j)) :
    ∃ o', a = c.answer o' ∧ Session P ⟨.answer o', [], w'⟩ held := by
  rw [HostCall.run_eq, Option.map_eq_some_iff] at hrun
  obtain ⟨⟨o', v⟩, ho, heq⟩ := hrun
  cases heq
  obtain ⟨n, hle, hn, hv⟩ := Machine.after_of_run ho
  have hsession := (Session.request h hc).after fun j hj => hruns j (Nat.lt_of_lt_of_le hj hle)
  generalize (c.machine w).after n = m at hn hv hsession
  obtain ⟨control, waiting, u⟩ := m
  cases control with
  | run | finish | call => cases hn
  | answer o'' =>
    cases waiting with
    | cons x rest => cases hn
    | nil =>
      cases hn
      cases hv
      exact ⟨o', rfl, hsession⟩

/-- Under a policy that keeps the contract a call answers a value or fails as the contract allows. No
non-local return leaves it. -/
theorem Session.answer_cases [D.Guards] {P : Policy} (hP : P.Keeps C) {o : Outcome}
    (h : Session P ⟨.answer o, [], w⟩ held) {c : HostCall} (hc : c.Allowed P held w) {fuel : Nat}
    {a : HostAnswer} (hrun : c.run fuel w = some (a, w'))
    (hruns : ∀ j < fuel, P.runs ((c.machine w).after j)) :
    (∃ v, a.settle = .ok v) ∨ ∃ f, a.settle = .error f ∧ C.faults f := by
  obtain ⟨o', rfl, h'⟩ := h.answered hc hrun hruns
  obtain ⟨-, ho⟩ := h'.sound hP
  rw [HostCall.settle_answer]
  match o' with
  | .ok v => exact .inl ⟨v, rfl⟩
  | .error (.fault f) => exact .inr ⟨f, rfl, ho⟩
  | .error (.nonLocalReturn v target) =>
    -- A signal in order has its home on the stack, and the stack is empty.
    obtain ⟨home, hhome, -⟩ := ho.2 Discipline.Guards.guards
    cases hhome

end MessageMachine
