import MessageMachine.Proofs.Chronicle
import MessageMachine.Proofs.Suspension

namespace MessageMachine

namespace World

variable {w w' w'' : World}

theorem note_eq (w : World) (e : Event) : ∃ journal, w.note e = { w with journal } := by
  unfold note
  split
  · exact ⟨_, rfl⟩
  · exact ⟨w.journal, rfl⟩

/-- Nothing changed but what lookups remember, which is still right, what was counted and what was
recorded. -/
structure Unseen (w w' : World) : Prop where
  same : w' = { w with memos := w'.memos, counters := w'.counters, journal := w'.journal }
  memos : w'.MemosValid

namespace Unseen

theorem refl (h : w.Finds) : w.Unseen w := ⟨rfl, h.memos⟩

theorem trans (h : w.Unseen w') (h' : w'.Unseen w'') : w.Unseen w'' where
  same := by rw [h'.same, h.same]
  memos := h'.memos

theorem classes (h : w.Unseen w') : w'.classes = w.classes := by rw [h.same]

theorem frames (h : w.Unseen w') : w'.frames = w.frames := by rw [h.same]

theorem arrays (h : w.Unseen w') : w'.arrays = w.arrays := by rw [h.same]

theorem finds (h : w.Unseen w') (hw : w.Finds) : w'.Finds := ⟨hw.ordered.congr h.classes, h.memos⟩

theorem method? (h : w.Unseen w') (c : ClassRef) (selector : Symbol) :
    w'.method? c selector = w.method? c selector := method?_congr h.classes c selector

theorem classOf (h : w.Unseen w') (v : Value) : w'.classOf v = w.classOf v := by
  rw [h.same]
  rfl

end Unseen

/-- The selector of the message that tells a receiver of another one that it did not understand. -/
def handler (w : World) : Symbol := (w.intern "doesNotUnderstand:arguments:").1

theorem Unseen.handler (h : w.Unseen w') : w'.handler = w.handler := by
  rw [h.same]
  rfl

/-- A failed send became a message: its arguments are in a new array. -/
def Reifies (args : List Value) (w w' : World) : Prop :=
  w' = { w with
    arrays := w.arrays.push args.toArray, symbols := (w.intern "doesNotUnderstand:arguments:").2.symbols
    memos := w'.memos, counters := w'.counters, journal := w'.journal }

variable {args : List Value}

theorem Reifies.frames (h : w.Reifies args w') : w'.frames = w.frames := by rw [h]

theorem Unseen.reifies {v u : World} (h : w.Unseen v) (hu : u = { v with frames := u.frames })
    (h' : u.Reifies args w') : w.Reifies args { w' with frames := w.frames } := by
  unfold Reifies
  rw [h', hu, h.same]
  rfl

theorem Reifies.keeps_frames (h : w.Reifies args w') : w.Reifies args { w' with frames := w.frames } := by
  rw [← h.frames]
  exact h

/-- What the superclass of a class finds. -/
def inherited? (w : World) (c : ClassRef) (selector : Symbol) : Option Method :=
  (w.cls c).superclass.bind (w.method? · selector)

end World

namespace Action

variable {w : World}

theorem lookup_finds (h : w.Finds) (c : ClassRef) (selector : Symbol) :
    ∃ w', w.Unseen w' ∧ lookup c selector w = .ok (w.method? c selector) w' := by
  let v : World := w.count fun n => { n with lookups := n.lookups + 1 }
  have hv : v.Finds := World.Lasting.count h _
  obtain ⟨memos, heq, hvalid⟩ := World.lookup_eq hv.ordered hv.memos c selector
  rw [World.method?_congr (w := w) (v := v) rfl] at heq
  exact ⟨{ v with memos }, ⟨rfl, hvalid⟩, by
    simp only [lookup, bind_apply, count_apply, update_apply]
    rw [heq]⟩

theorem doesNotUnderstand_apply (h : w.Finds) (receiver : Value) (selector : Symbol)
    (args : List Value) :
    ∃ w', w.Reifies args w' ∧ doesNotUnderstand receiver selector args w =
      match w.method? (w.classOf receiver) w.handler with
      | some m => .ok ⟨m, [receiver, .symbol selector, .array w.arrays.next]⟩ w'
      | none => .error (.messageNotUnderstood receiver (.symbol selector)) w' := by
  let v : World := { w with
    counters := { w.counters with doesNotUnderstand := w.counters.doesNotUnderstand + 1 }
    arrays := w.arrays.push args.toArray }
  obtain ⟨journal, hnote⟩ := v.note_eq (.notUnderstood receiver selector)
  let u : World := (World.intern { v with journal } "doesNotUnderstand:arguments:").2
  have hu : u.Finds := ⟨h.ordered.congr rfl, World.MemosValid.congr (w := w) rfl rfl h.memos⟩
  obtain ⟨w', hw', hlookup⟩ := lookup_finds hu (w.classOf receiver) w.handler
  rw [World.method?_congr (w := w) (v := u) rfl] at hlookup
  have hnoted : note (.notUnderstood receiver selector) v = .ok ⟨⟩ { v with journal } := by
    rw [← hnote]
    rfl
  let answer (found : Option Method) : Action Call :=
    match found with
    | some m => return ⟨m, [receiver, .symbol selector, .array w.arrays.next]⟩
    | none => throw (.messageNotUnderstood receiver (.symbol selector))
  have hsplit : doesNotUnderstand receiver selector args w = (do
      note (.notUnderstood receiver selector)
      let handler ← intern "doesNotUnderstand:arguments:"
      answer (← lookup ((← get).classOf receiver) handler)) v := rfl
  have happly : doesNotUnderstand receiver selector args w =
      (lookup (w.classOf receiver) w.handler >>= answer) u := by
    rw [hsplit, bind_apply, hnoted]
    rfl
  refine ⟨w', ?_, ?_⟩
  · unfold World.Reifies
    rw [hw'.same]
    rfl
  · rw [happly, bind_apply, hlookup]
    cases w.method? (w.classOf receiver) w.handler <;> rfl

/-- A send whose site does not know the class of the receiver finds no method if there is none. -/
theorem resolve_fails (h : w.Finds) {method : CodeRef} {offset : Nat} {c : ClassRef} {selector : Symbol}
    (hsite : (w.cacheAt method offset).find? c = none) (hnone : w.method? c selector = none) :
    ∃ w', w.Unseen w' ∧ resolve method offset c selector w = .ok none w' := by
  have hv : (missed w).Finds := World.Lasting.count h _
  obtain ⟨memos, heq, hvalid⟩ := World.lookup_eq hv.ordered hv.memos c selector
  rw [World.method?_congr (w := w) (v := missed w) rfl, hnone] at heq
  refine ⟨{ missed w with memos }, ⟨rfl, hvalid⟩, ?_⟩
  rw [resolve_of_miss hsite, heq]

theorem resolveSuper_finds (h : w.Finds) {method : CodeRef} {c : ClassRef}
    (hholder : w.holder? (.compiled method) = some c) (selector : Symbol) :
    ∃ w', w.Unseen w' ∧ resolveSuper method selector w = .ok (w.inherited? c selector) w' := by
  simp only [resolveSuper, bind_apply, get_apply, hholder, World.inherited?]
  cases (w.cls c).superclass with
  | none => exact ⟨w, .refl h, rfl⟩
  | some s => exact lookup_finds h s selector

end Action

namespace FrameHandle

variable {a : FrameHandle} {k : MarkerRef} {c : CodeRef} {w : World}

/-- The topmost operands can be taken off the stack. The rest of the world stays as it is. -/
theorem popN_of_operands (ha : a.Held k c w) {left xs : List Value}
    (h : (a.frame w).operands = left ++ xs) :
    ∃ handle v, a.popN xs.length w = .ok (xs, handle) v ∧ v = { w with frames := v.frames } ∧
      handle.Held k c v ∧ (handle.frame v).operands = left ∧
      (handle.frame v).code = (a.frame w).code := by
  have hle : xs.length ≤ (a.frame w).operands.length := by
    rw [h, List.length_append]
    exact Nat.le_add_left _ _
  obtain ⟨ys, f, hpop⟩ := Frame.popN_of_le ha.proper hle
  have hrun : a.popN xs.length w = .ok (ys, (a.put f w).1) (a.put f w).2 := by
    rw [popN, take_apply, hpop]
  obtain ⟨-, hl, hlen, hops⟩ := (popN_moves ha xs.length).of_ok hrun
  obtain ⟨hleft, rfl⟩ := List.append_inj' (h.symm.trans hops) hlen.symm
  exact ⟨_, _, hrun, (popN_eq_ok hrun).2, hl.held, hleft.symm, hl.code⟩

end FrameHandle

namespace Activation

variable {a : Activation} {w : World} {l : UInt8} {selector : Symbol} {receiver : Value}
  {args : List Value}

theorem enter_fails (h : w.Finds) {handle : FrameHandle} {v : World}
    (hpop : a.handle.popN selector.arity w = .ok (receiver :: args, handle) v)
    (hv : v = { w with frames := v.frames }) :
    ∃ w', v.Reifies args w' ∧ a.enter none selector w =
      match w.method? (w.classOf receiver) w.handler with
      | some m => .ok (.callOut { a with handle }
          ⟨m, [receiver, .symbol selector, .array w.arrays.next]⟩ .push) w'
      | none => .error (.messageNotUnderstood receiver (.symbol selector)) w' := by
  have hfinds : v.Finds := by
    rw [hv]
    exact ⟨h.ordered.congr rfl, World.MemosValid.congr (w := w) rfl rfl h.memos⟩
  have hmethod : v.method? (v.classOf receiver) v.handler = w.method? (w.classOf receiver) w.handler := by
    rw [hv]
    exact World.method?_congr (w := w) (by rfl) _ _
  obtain ⟨w', hw', hcall⟩ := Action.doesNotUnderstand_apply hfinds receiver selector args
  refine ⟨w', hw', ?_⟩
  have hnext : v.arrays = w.arrays := by rw [hv]
  rw [hmethod, hnext] at hcall
  simp only [enter, Action.bind_apply, hpop, List.headD_cons, List.tail_cons, hcall]
  cases w.method? (w.classOf receiver) w.handler <;> rfl

theorem step_superSend (h : w.Finds) (hfetch : a.fetch w = .ok (.superSend l))
    (hselector : w.symbolLiteral a.method l.toNat = .ok selector) {c : ClassRef}
    (hholder : w.holder? (.compiled a.method) = some c) :
    ∃ w', w.Unseen w' ∧
      a.step w = enter { a with offset := a.offset + 2 } (w.inherited? c selector) selector w' := by
  obtain ⟨journal, htraced⟩ := a.traced_eq (.superSend l) w
  have hv : World.Finds { w with journal } :=
    ⟨h.ordered.congr rfl, World.MemosValid.congr (w := w) rfl rfl h.memos⟩
  obtain ⟨w', hw', hresolve⟩ := Action.resolveSuper_finds hv hholder selector
  refine ⟨w', World.Unseen.trans (⟨rfl, hv.memos⟩ : w.Unseen { w with journal }) hw', ?_⟩
  have hs : World.symbolLiteral { w with journal } a.method l.toNat = .ok selector := hselector
  have hinherited : World.inherited? { w with journal } c selector = w.inherited? c selector := by
    unfold World.inherited?
    congr 1
    exact funext fun s => World.method?_congr (w := w) (v := { w with journal }) rfl s selector
  rw [step_eq hfetch, htraced]
  simp only [execute, superSend, Action.bind_apply, symbolLiteral_apply, hs, hresolve, hinherited]
  rfl

theorem step_send_fails (h : w.Finds) (hfetch : a.fetch w = .ok (.send l))
    (hselector : w.symbolLiteral a.method l.toNat = .ok selector)
    (hreceiver : (a.handle.frame w).peek (selector.arity - 1) = .ok receiver)
    (hsite : (w.cacheAt a.method a.offset).find? (w.classOf receiver) = none)
    (hnone : w.method? (w.classOf receiver) selector = none) :
    ∃ w', w.Unseen w' ∧ a.step w = enter { a with offset := a.offset + 2 } none selector w' := by
  obtain ⟨journal, hstep⟩ := step_resolves hfetch hselector hreceiver
  have hv : World.Finds { w with journal } :=
    ⟨h.ordered.congr rfl, World.MemosValid.congr (w := w) rfl rfl h.memos⟩
  rw [← World.method?_congr (w := w) (v := { w with journal }) rfl] at hnone
  obtain ⟨w', hw', hresolve⟩ := Action.resolve_fails hv hsite hnone
  refine ⟨w', World.Unseen.trans (⟨rfl, hv.memos⟩ : w.Unseen { w with journal }) hw', ?_⟩
  rw [hstep, Action.bind_apply, hresolve]

end Activation

/-- A send that finds nothing takes receiver and arguments off the stack and calls the handler of the
receiver, or fails if there is none. -/
theorem Machine.advance_fails {loop : RunLoop} {w v : World}
    {selector : Symbol} {receiver : Value} {left args : List Value}
    (hheld : loop.current.handle.Held loop.current.marker loop.current.method w) (hfinds : w.Finds)
    (hv : w.Unseen v) (hstep : loop.current.step w =
      Activation.enter { loop.current with offset := loop.current.offset + 2 } none selector v)
    (hops : (loop.current.handle.frame w).operands = left ++ receiver :: args)
    (harity : args.length + 1 = selector.arity) :
    ∃ handle w', handle.Held loop.current.marker loop.current.method w' ∧
      (handle.frame w').operands = left ∧
      (handle.frame w').code = (loop.current.handle.frame w).code ∧
      w.Reifies args { w' with frames := w.frames } ∧
      ∀ waiting, advance loop waiting w = match w.method? (w.classOf receiver) w.handler with
        | some x => ⟨.call ⟨x, [receiver, .symbol selector, .array w.arrays.next]⟩,
            .sender ⟨{ loop.current with handle, offset := loop.current.offset + 2 },
              loop.suspended⟩ .push :: waiting, w'⟩
        | none => ⟨.finish loop (.error (.fault (.messageNotUnderstood receiver (.symbol selector)))),
            waiting, w'⟩ := by
  have hframe := loop.current.handle.frame_congr hv.frames
  obtain ⟨handle, u, hpop, hu, hheld', hleft, hcode⟩ :=
    FrameHandle.popN_of_operands (hheld.congr hv.frames) (by rw [hframe]; exact hops)
  rw [List.length_cons, harity] at hpop
  obtain ⟨w', hw', henter⟩ := Activation.enter_fails
    (a := { loop.current with offset := loop.current.offset + 2 }) (hv.finds hfinds) hpop hu
  rw [hv.method?, hv.classOf, hv.handler, hv.arrays] at henter
  have hkept := handle.frame_congr hw'.frames
  refine ⟨handle, w', hheld'.congr hw'.frames, by rw [hkept, hleft], by rw [hkept, hcode, hframe],
    hv.reifies hu hw', fun waiting => ?_⟩
  simp only [advance, hstep, henter]
  cases w.method? (w.classOf receiver) w.handler <;> rfl

end MessageMachine
