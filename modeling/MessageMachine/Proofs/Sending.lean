import MessageMachine.Host
import MessageMachine.Proofs.Caching

namespace MessageMachine

namespace Machine

/-- Activations that wait for the one that runs, innermost first. -/
def suspended (m : Machine) : List Activation :=
  match m.control with
  | .run loop | .finish loop _ => loop.suspended ++ m.waiting.flatMap (·.activations)
  | .call _ | .answer _ => m.waiting.flatMap (·.activations)

/-- An activation is given an outcome: it goes on with a result on its stack, and is ended by
anything else. -/
inductive Resumes (sender : Activation) (suspended : List Activation) (waiting : List Waiting)
    (w : World) : Outcome → Machine → Prop where
  | result (v : Value) :
      Resumes sender suspended waiting w (.ok v) (deliver ⟨sender, suspended⟩ v waiting w)
  | abrupt (u : Abrupt) {a : Activation} : a.method = sender.method → a.marker = sender.marker →
      Resumes sender suspended waiting w (.error u) ⟨.finish ⟨a, suspended⟩ (.error u), waiting, w⟩

variable {sender : Activation} {suspended : List Activation} {waiting : List Waiting} {w : World}

theorem resumes_handOver (o : Outcome) :
    Resumes sender suspended waiting w o (handOver ⟨sender, suspended⟩ o waiting w) := by
  cases o with
  | ok v => exact .result v
  | error u => exact .abrupt u rfl rfl

def Ends (m : Machine) : Prop := ∃ fuel r, m.run fuel = some r

theorem Ends.of_step {m : Machine} (ho : m.outcome? = none) (h : m.step.Ends) : m.Ends := by
  obtain ⟨fuel, r, hr⟩ := h
  exact ⟨fuel + 1, r, by rw [run_succ ho, hr]⟩

variable {f : Fault}

theorem ends_finish_fault (hanswer : ∀ w, Ends ⟨.fault f, waiting, w⟩) (loop : RunLoop)
    (w : World) : Ends ⟨.finish loop (.error (.fault f)), waiting, w⟩ := by
  obtain ⟨current, suspended⟩ := loop
  induction suspended generalizing current w with
  | nil => exact .of_step rfl (hanswer _)
  | cons sender rest ih => exact .of_step rfl (ih _ _)

theorem ends_answer_fault (waiting : List Waiting) (w : World) :
    Ends ⟨.fault f, waiting, w⟩ := by
  induction waiting generalizing w with
  | nil => exact ⟨0, _, rfl⟩
  | cons x rest ih =>
    match x with
    | .sender loop .push => exact .of_step rfl (ends_finish_fault ih loop w)
    | .sender loop .complete => exact .of_step rfl (ends_finish_fault ih loop w)
    | .iteration i => exact .of_step rfl (ih w)

theorem Failing.ends {m : Machine} (h : m.Failing f) : m.Ends := by
  obtain ⟨control, waiting, w⟩ := m
  obtain rfl | ⟨loop, rfl⟩ := h
  · exact ends_answer_fault waiting w
  · exact ends_finish_fault (ends_answer_fault waiting) loop w

end Machine

namespace Footing

def suspended : Footing → List Activation
  | call waiting => waiting.flatMap (·.activations)
  | send sender suspended waiting => sender :: suspended ++ waiting.flatMap (·.activations)

variable {b : Footing} {k : Nat} {m m' : Machine}

theorem Rests.suspended {n : Nat} {ws vs : List Waiting} (h : Rests b n ws vs) :
    b.suspended <:+ vs.flatMap (·.activations) := by
  induction h with
  | call => exact List.suffix_refl _
  | send loop use =>
    rw [List.flatMap_cons, Waiting.activations, RunLoop.over, Footing.suspended,
      ← List.cons_append, List.append_assoc]
    exact List.suffix_append _ _
  | sender loop use _ ih => exact ih.trans (List.suffix_append _ _)
  | iteration i _ ih => exact ih

theorem Hosts.suspended {n : Nat} {loop loop' : RunLoop} {ws vs : List Waiting}
    (h : Hosts b n loop loop' ws vs) :
    b.suspended <:+ loop'.suspended ++ vs.flatMap (·.activations) := by
  cases h with
  | above _ hr => exact hr.suspended.trans (List.suffix_append _ _)
  | base _ =>
    rw [RunLoop.over, List.append_assoc]
    exact List.suffix_append _ _

theorem Grafted.suspended (h : Grafted b k m m') : b.suspended <:+ m'.suspended := by
  cases h with
  | run hh | finish _ hh => exact hh.suspended
  | call _ hr | answer _ hr => exact hr.suspended

theorem Follows.lands (h : Follows b m m') {fuel : Nat} {o : Outcome} {v : World}
    (hr : m.run fuel = some (o, v))
    (hlimit : ∀ limit, o ≠ .error (.fault (.reentryDepthExceeded limit))) :
    ∃ n l w, m'.after n = b.resume o w ∧ Alike l l w v := by
  cases h with
  | grafted h => exact run_lands h hr hlimit
  | landed hm hm' ha =>
    rw [hm, Machine.run_of_outcome? (by rfl)] at hr
    cases hr
    exact ⟨0, _, _, hm', ha⟩
  | exceeded _ hf => exact absurd (Machine.Failing.outcome (.inl hf) hr) (hlimit _)

theorem Follows.grafted_of_none (h : Follows b m m') (hr : ∀ fuel, m.run fuel = none) :
    ∃ k, Grafted b k m m' := by
  cases h with
  | grafted h => exact ⟨_, h⟩
  | landed hm hm' ha =>
    have h := hr 0
    rw [hm, Machine.run_of_outcome? (by rfl)] at h
    cases h
  | exceeded _ hf =>
    obtain ⟨fuel, r, h⟩ := Machine.Failing.ends (.inl hf)
    rw [hr fuel] at h
    cases h

theorem Grafted.forever (h : Grafted b k m m') (hr : ∀ fuel, m.run fuel = none) (n : Nat) :
    b.suspended <:+ (m'.after n).suspended := by
  induction n generalizing k m m' with
  | zero => exact h.suspended
  | succ n ih =>
    have ho : m.outcome? = none := by simpa [Machine.run] using hr 0
    have hstep : ∀ fuel, m.step.run fuel = none := fun fuel => by
      rw [← Machine.run_succ ho]
      exact hr (fuel + 1)
    obtain ⟨_, h⟩ := (step_follows h ho).grafted_of_none hstep
    exact ih h hstep

end Footing

/-- A machine gives a suspended sender whatever some run comes to, unless that is the limit on
nested loops, and keeps the sender suspended while the run comes to nothing. -/
structure Machine.Serves (m : Machine) (sender : Activation) (suspended : List Activation)
    (waiting : List Waiting) (run : Nat → Option (Outcome × World)) : Prop where
  resumes : ∀ fuel o v, run fuel = some (o, v) →
    (∀ limit, o ≠ .error (.fault (.reentryDepthExceeded limit))) →
    ∃ n w, Resumes sender suspended waiting w o (m.after n) ∧ w.EqualUpToTraces v ∧ w.Coherent
  waits : (∀ fuel, run fuel = none) → ∀ n,
    sender :: suspended ++ waiting.flatMap (·.activations) <:+ (m.after n).suspended

namespace Machine.Serves

open Footing

variable {sender : Activation} {suspended : List Activation} {waiting : List Waiting}
  {m m' : Machine}

theorem of_follows (h : Follows (.send sender suspended waiting) m m') :
    m'.Serves sender suspended waiting (m.run ·) where
  resumes := by
    intro fuel o v hr hlimit
    obtain ⟨n, l, w, hn, ha⟩ := h.lands hr hlimit
    exact ⟨n, w, hn ▸ resumes_handOver o, ha.equalUpToTraces, ha.left⟩
  waits := by
    intro hr n
    obtain ⟨_, h⟩ := h.grafted_of_none hr
    exact h.forever hr n

theorem of_call {k : Nat} {w v : World} (h : Alike k k w v) (c : Call) :
    Serves ⟨.call c, .sender ⟨sender, suspended⟩ .push :: waiting, w⟩ sender suspended waiting
      ((Machine.call c [] v).run ·) := by
  have hg : Grafted (.call (.sender ⟨sender, suspended⟩ .push :: waiting)) k ⟨.call c, [], v⟩
      ⟨.call c, .sender ⟨sender, suspended⟩ .push :: waiting, w⟩ :=
    .call c .call (Nat.zero_le k) h
  have hrun : ∀ fuel, Machine.run (fuel + 1) ⟨.call c, [], v⟩ = (Machine.call c [] v).run fuel :=
    fun fuel => run_succ rfl fuel
  refine ⟨fun fuel o v' hr hlimit => ?_, fun hr n => ?_⟩
  · obtain ⟨n, l, w', hn, ha⟩ := run_lands hg ((hrun fuel).trans hr) hlimit
    refine ⟨n + 1, w', ?_, ha.equalUpToTraces, ha.left⟩
    rw [after_succ, hn]
    change Resumes sender suspended waiting w' o (answer o (.sender _ .push :: waiting) w')
    rw [answer_handOver]
    exact resumes_handOver o
  · refine hg.forever (fun fuel => ?_) n
    cases fuel with
    | zero => rfl
    | succ fuel => exact (hrun fuel).trans (hr fuel)

theorem of_fault {k : Nat} {w v : World} (h : Alike k k w v) {a : Activation} (f : Fault)
    (hm : a.method = sender.method) (hk : a.marker = sender.marker) :
    Serves ⟨.finish ⟨a, suspended⟩ (.error (.fault f)), waiting, w⟩ sender suspended waiting
      fun _ => some (.error (.fault f), v) := by
  refine ⟨fun fuel o v' hr _ => ?_, fun hr => ?_⟩
  · cases hr
    exact ⟨0, w, .abrupt _ hm hk, h.equalUpToTraces, h.left⟩
  · cases hr 0

theorem of_failed {k : Nat} {w v : World} (h : Alike k k w v) {a : Activation} (f : Fault)
    (hm : a.method = sender.method) (hk : a.marker = sender.marker) :
    Serves ⟨.finish ⟨a, suspended⟩ (.error (.fault f)), waiting, w⟩ sender suspended waiting
      (Machine.run · ⟨.fault f, [], v⟩) := by
  have hrun : (Machine.run · ⟨.fault f, [], v⟩) = fun _ => some (.error (.fault f), v) :=
    funext fun fuel => run_of_outcome? rfl fuel
  rw [hrun]
  exact of_fault h f hm hk

theorem of_start (sender : Activation) (suspended : List Activation) (waiting : List Waiting)
    (a : Activation) (hm : a.method = sender.method) (hk : a.marker = sender.marker) {k : Nat} {w v : World} (h : Alike k k w v) (r : CodeRef)
    (args : List Value) (outer : Option FrameRef) :
    Serves
      (match Activation.start r args outer w with
        | .ok callee w => ⟨.run ⟨callee, sender :: suspended⟩, waiting, w⟩
        | .error f w => ⟨.finish ⟨a, suspended⟩ (.error (.fault f)), waiting, w⟩)
      sender suspended waiting ((Machine.execute r args outer [] v).run ·) := by
  simp only [Machine.execute, RunLoop.start, Action.bind_apply, Action.get_apply]
  by_cases hlimit : v.config.maxReentryDepth ≤ v.reentry
  · rw [if_pos hlimit]
    have hrun (fuel : Nat) : Machine.run fuel
        ⟨.fault (.reentryDepthExceeded v.config.maxReentryDepth), [], v⟩ = some (_, v) :=
      run_of_outcome? rfl fuel
    refine ⟨fun fuel o v' hr ho => ?_, fun hr => ?_⟩
    · cases (hrun fuel).symm.trans hr
      exact absurd rfl (ho _)
    · cases (hrun 0).symm.trans (hr 0)
  · rw [if_neg hlimit]
    have ht := Activation.start_uniform r args outer w v h
    simp only [Action.bind_apply]
    cases hw : Activation.start r args outer w <;>
      cases hv : Activation.start r args outer v <;> rw [hw, hv] at ht
    · obtain ⟨rfl, ha⟩ := ht
      refine of_follows (.grafted (.run (.base ⟨_, []⟩) (Nat.zero_le k) ⟨?_, ?_, ?_, ?_, ?_⟩))
      · rw [ha.same]
        rfl
      · exact ha.left_reentry
      · exact congrArg (· + 1) ha.right_reentry
      · exact ha.left
      · exact ha.right.congr rfl rfl rfl rfl
    · exact ht.elim
    · exact ht.elim
    · obtain ⟨rfl, ha⟩ := ht
      exact of_failed ha _ hm hk

end Machine.Serves

theorem Frame.peek_of_popN {f f' : Frame} {n : Nat} {x : Value} {xs : List Value}
    (h : f.popN n = .ok (x :: xs, f')) : f.peek (n - 1) = .ok x := by
  unfold popN at h
  split at h
  · cases h
  · next hn =>
    dsimp only at h
    split at h
    · next htop =>
      simp only [Except.ok.injEq, Prod.mk.injEq] at h
      have hx : (f.slots.extract (f.top - n) f.top).toList[0]? = some x := by rw [h.1]; rfl
      have hpos : 0 < n := by
        cases n with
        | zero => simp at h
        | succ n => exact Nat.succ_pos n
      have hd : f.depth ≤ f.top := Nat.sub_le _ _
      rw [Array.getElem?_toList, Array.getElem?_extract, if_pos (by omega), Nat.add_zero] at hx
      rw [peek, if_neg (by omega), show f.top - 1 - (n - 1) = f.top - n by omega, hx]
    · cases h

namespace FrameHandle

theorem popN_eq_ok {a handle : FrameHandle} {n : Nat} {xs : List Value} {w w' : World}
    (h : a.popN n w = .ok (xs, handle) w') :
    (∃ f, (a.frame w).popN n = .ok (xs, f)) ∧ w' = { w with frames := w'.frames } := by
  unfold popN take at h
  cases a with
  | own f =>
    dsimp only at h
    split at h
    · next hop =>
      cases h
      exact ⟨⟨_, hop⟩, rfl⟩
    · cases h
  | shared r =>
    dsimp only at h
    split at h
    · next hop =>
      cases h
      exact ⟨⟨_, hop⟩, rfl⟩
    · cases h

theorem popN_own {f f' : Frame} {n : Nat} {xs : List Value} (h : f.popN n = .ok (xs, f')) (w : World) :
    (own f).popN n w = .ok (xs, own f') w := by
  simp only [popN, take, h]

end FrameHandle

namespace Activation

variable {a : Activation} {w : World} {literal : UInt8} {selector : Symbol}

theorem send_apply (hw : w.Coherent) {offset : Nat}
    (hs : w.selectorAt? a.method offset = some selector) {receiver : Value}
    (hpeek : (a.handle.frame w).peek (selector.arity - 1) = .ok receiver) :
    ∃ w', Retraced w w' ∧ a.send offset selector w =
      a.enter (w.method? (w.classOf receiver) selector) selector w' := by
  obtain ⟨w', hr, hw'⟩ := Action.resolve_apply hw hs (w.classOf receiver)
  refine ⟨w', hw', ?_⟩
  simp only [send, Action.bind_apply, FrameHandle.peek_apply, hpeek, Action.get_apply, hr]

theorem step_send (hw : w.Coherent) (hfetch : a.fetch w = .ok (.send literal))
    (hs : w.symbolLiteral a.method literal.toNat = .ok selector) {receiver : Value}
    (hpeek : (a.handle.frame w).peek (selector.arity - 1) = .ok receiver) :
    ∃ w', Retraced w w' ∧ a.step w =
      enter { a with offset := a.offset + 2 } (w.method? (w.classOf receiver) selector) selector
        w' := by
  have execute {v : World} (hv : Retraced w v) :
      ∃ w', Retraced w w' ∧
        Activation.execute { a with offset := a.offset + 2 } a.offset (.send literal) v =
          enter { a with offset := a.offset + 2 } (w.method? (w.classOf receiver) selector)
            selector w' := by
    have hsite : v.selectorAt? a.method a.offset = some selector := by
      rw [hv.selectorAt?]
      simp only [World.selectorAt?, fetch_eq_ok hfetch, hs]
      rfl
    have hliteral : v.symbolLiteral a.method literal.toNat = .ok selector := by
      rw [hv.same]
      exact hs
    have hpeek' : (a.handle.frame v).peek (selector.arity - 1) = .ok receiver := by
      rw [hv.same, World.frame_withTraces, hpeek]
    have hclass : v.classOf receiver = w.classOf receiver := by
      rw [hv.same]
      rfl
    obtain ⟨w', hw', hsend⟩ := send_apply (a := { a with offset := a.offset + 2 }) hv.coherent
      hsite hpeek'
    rw [hv.method?, hclass] at hsend
    refine ⟨w', hv.trans hw', ?_⟩
    simp only [Activation.execute, Action.bind_apply, symbolLiteral_apply, hliteral]
    exact hsend
  simp only [step, Action.bind_apply, Action.get_apply, hfetch, Action.lift_ok]
  split
  · exact execute (.note hw _)
  · exact execute (.refl hw)

end Activation

namespace Machine

variable {a : Activation} {w w₁ : World} {literal : UInt8} {selector : Symbol} {receiver : Value}
  {args : List Value} {handle : FrameHandle}

/-- A send gives its sender whatever the same message comes to when it is dispatched from outside
the loop, in the world after receiver and arguments were taken off the stack. -/
theorem send_serves_dispatch (hw : w.Coherent)
    (hblocks : ∀ p, (w.primitives.get p).evaluatesBlock →
      (w.primitives.get p).operation = .evaluate)
    (hfetch : a.fetch w = .ok (.send literal))
    (hs : w.symbolLiteral a.method literal.toNat = .ok selector)
    (hpop : a.handle.popN selector.arity w = .ok (receiver :: args, handle) w₁)
    (suspended : List Activation) (waiting : List Waiting) :
    (Machine.step ⟨.run ⟨a, suspended⟩, waiting, w⟩).Serves
      { a with handle, offset := a.offset + 2 } suspended waiting
      fun fuel => w₁.dispatch fuel receiver selector args := by
  obtain ⟨⟨f, hpopf⟩, hframes⟩ := FrameHandle.popN_eq_ok hpop
  obtain ⟨w₂, hw₂, hstep⟩ := Activation.step_send hw hfetch hs (Frame.peek_of_popN hpopf)
  have hmethod : w₁.method? (w₁.classOf receiver) selector =
      w.method? (w.classOf receiver) selector := by
    have hclass : w₁.classOf receiver = w.classOf receiver := by
      rw [hframes]
      rfl
    rw [hclass, World.method?_congr]
    rw [hframes]
  have h₂ : Alike w.reentry w.reentry w₂ w :=
    ⟨by rw [hw₂.same]; rfl, hw₂.reentry, rfl, hw₂.coherent, hw⟩
  have ht := a.handle.popN_uniform selector.arity w₂ w h₂
  rw [hpop] at ht
  cases hpop₂ : a.handle.popN selector.arity w₂ with
  | error f w₃ =>
    rw [hpop₂] at ht
    exact ht.elim
  | ok r w₃ =>
    rw [hpop₂] at ht
    obtain ⟨rfl, h₃⟩ := ht
    obtain ⟨v, hlookup, hv⟩ := Action.lookup_apply h₃.right (w₁.classOf receiver) selector
    have h := h₃.retrace (.refl h₃.left) hv
    rw [hmethod] at hlookup
    simp only [Machine.step, Machine.advance, hstep, Activation.enter, World.dispatch,
      Action.dispatch, Action.bind_apply, Action.get_apply, hpop₂, hlookup]
    cases w.method? (w.classOf receiver) selector with
    | none =>
      have ht := Action.doesNotUnderstand_uniform receiver selector args w₃ v h
      simp only [List.headD_cons, List.tail_cons, Action.bind_apply]
      cases hd : Action.doesNotUnderstand receiver selector args w₃ <;>
        cases hd' : Action.doesNotUnderstand receiver selector args v <;> rw [hd, hd'] at ht
      · obtain ⟨rfl, ha⟩ := ht
        exact .of_call ha _
      · exact ht.elim
      · exact ht.elim
      · obtain ⟨rfl, ha⟩ := ht
        exact .of_fault ha _ rfl rfl
    | some m =>
      have hstart (r : CodeRef) (outer : Option FrameRef) :=
        Serves.of_start { a with handle, offset := a.offset + 2 } suspended waiting a rfl rfl h r
          (receiver :: args) outer
      cases m with
      | compiled c =>
        have hserve := hstart c none
        simp only [Action.bind_apply]
        cases hc : Activation.start c (receiver :: args) none w₃ <;> rw [hc] at hserve <;>
          exact hserve
      | primitive p =>
        have hprimitive : v.primitives.get p = w.primitives.get p := by
          rw [hv.same, hframes]
          rfl
        have hprimitive₃ : w₃.primitives.get p = w.primitives.get p := by
          rw [← hprimitive, h.same]
          rfl
        have hcall : Serves _ { a with handle, offset := a.offset + 2 } suspended waiting _ :=
          .of_call h ⟨.primitive p, receiver :: args⟩
        simp only [Action.bind_apply, Action.get_apply, List.head?_cons, hprimitive₃]
        cases hb : (w.primitives.get p).evaluatesBlock with
        | false => exact hcall
        | true =>
          cases receiver with
          | block b =>
            have hserve := hstart b.code (some b.context)
            have hexecute : Machine.call ⟨.primitive p, .block b :: args⟩ [] v =
                Machine.execute b.code (.block b :: args) (some b.context) [] v := by
              simp only [Machine.call, hprimitive, hblocks p hb]
              rfl
            simp only [Action.pure_apply, hexecute, Action.bind_apply]
            cases hc : Activation.start b.code (.block b :: args) (some b.context) w₃ <;>
              rw [hc] at hserve <;> exact hserve
          | _ => exact hcall

/-- The activation of `true ~= nil`, about to send `=`. -/
def comparing : Activation where
  handle := .own {
    method := ⟨18⟩, code := World.standard.code ⟨18⟩, marker := ⟨0⟩, outer := none
    slots := #[.boolean true, .nil, .boolean true, .nil], top := 4 }
  method := ⟨18⟩
  marker := ⟨0⟩
  offset := 6

set_option maxRecDepth 100000 in
/-- In the standard world only `value`, `value:` and `value:with:` evaluate their receiver. -/
theorem standard_evaluatesBlock (p : PrimitiveRef) :
    (World.standard.primitives.get p).evaluatesBlock →
      (World.standard.primitives.get p).operation = .evaluate := by
  have hall : ∀ q ∈ World.standard.primitives.cells.toList,
      q.evaluatesBlock → q.operation = .evaluate := by decide +kernel
  by_cases hp : p.index < World.standard.primitives.cells.size
  · refine hall _ ?_
    rw [Arena.get, Array.getD, dif_pos hp]
    exact Array.getElem_mem_toList hp
  · rw [Arena.get_of_le _ (Nat.le_of_not_lt hp)]
    exact fun h => by cases h

set_option maxRecDepth 100000 in
theorem comparing_serves_dispatch :
    ∃ selector handle, selector.name = "=" ∧ comparing.fetch World.standard = .ok (.send 0) ∧
      comparing.handle.popN selector.arity World.standard =
        .ok ([.boolean true, .nil], handle) World.standard ∧
      (Machine.step ⟨.run ⟨comparing, []⟩, [], World.standard⟩).Serves
        { comparing with handle, offset := 8 } [] []
        fun fuel => World.standard.dispatch fuel (.boolean true) selector [.nil] := by
  obtain ⟨hfetched, hliteral, hpopped⟩ :
      (comparing.fetch World.standard).toOption = some (.send 0) ∧
      (World.standard.symbolLiteral comparing.method 0).toOption.map (·.name) = some "=" ∧
      ((comparing.handle.frame World.standard).popN 2).toOption.map (·.1) =
        some [.boolean true, .nil] := by
    decide +kernel
  have hfetch : comparing.fetch World.standard = .ok (.send 0) := eq_ok_of_toOption hfetched
  obtain ⟨selector, hsymbol, hname⟩ := Option.map_eq_some_iff.mp hliteral
  have hs : World.standard.symbolLiteral comparing.method 0 = .ok selector := eq_ok_of_toOption hsymbol
  have harity : selector.arity = 2 := by
    rw [Symbol.arity, hname]
    decide
  obtain ⟨⟨xs, f⟩, hf, rfl⟩ := Option.map_eq_some_iff.mp hpopped
  have hpop : comparing.handle.popN 2 World.standard = .ok ([.boolean true, .nil], .own f) World.standard :=
    FrameHandle.popN_own (eq_ok_of_toOption hf) World.standard
  rw [← harity] at hpop
  exact ⟨selector, .own f, hname, hfetch, hpop,
    send_serves_dispatch World.standard_coherent standard_evaluatesBlock hfetch hs hpop [] []⟩

end Machine

end MessageMachine
