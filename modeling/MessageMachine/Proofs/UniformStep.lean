import MessageMachine.Proofs.Uniform

namespace MessageMachine

variable {k l : Nat}

namespace World

theorem mem_entries_of_find? {cache : InlineCache} {c : ClassRef} {m : Method}
    (h : cache.find? c = some m) : ⟨c, m⟩ ∈ cache.entries := by
  simp only [InlineCache.find?, Option.map_eq_some_iff] at h
  obtain ⟨e, he, rfl⟩ := h
  have hc := List.find?_some he
  simp only [decide_eq_true_eq] at hc
  exact hc ▸ List.mem_of_find?_eq_some he

theorem Coherent.fill {w : World} (hw : w.Coherent) {method : CodeRef} {offset : Nat}
    {c : ClassRef} {selector : Symbol} {m : Method}
    (hs : w.selectorAt? method offset = some selector) (hm : w.method? c selector = some m) :
    Coherent { w with
      caches := w.caches.insert (method, offset) ((w.cacheAt method offset).fill c m).2 } := by
  refine ⟨hw.ordered.congr (by rfl), hw.memos.congr (by rfl) (by rfl), ?_⟩
  intro r o s hr e he
  change w.selectorAt? r o = some s at hr
  rw [method?_congr (w := w) (by rfl)]
  by_cases hkey : (method, offset) = (r, o)
  · cases hkey
    rw [hs] at hr
    cases hr
    simp only [cacheAt, Table.find?_insert_self, Option.getD_some, InlineCache.entries_fill] at he
    split at he
    · exact hw.sites method offset selector hs e he
    · rcases List.mem_append.mp he with he | he
      · exact hw.sites method offset selector hs e he
      · rw [List.mem_singleton.mp he]
        exact hm
  · simp only [cacheAt, Table.find?_insert, if_neg hkey] at he
    exact hw.sites r o s hr e he

end World

theorem Retraced.selectorAt? {w w' : World} (h : Retraced w w') (method : CodeRef)
    (offset : Nat) : w'.selectorAt? method offset = w.selectorAt? method offset := by
  rw [h.same]
  rfl

namespace Action

theorem resolve_apply {w : World} (hw : w.Coherent) {method : CodeRef} {offset : Nat}
    {selector : Symbol} (hs : w.selectorAt? method offset = some selector) (c : ClassRef) :
    ∃ w', resolve method offset c selector w = .ok (w.method? c selector) w' ∧ Retraced w w' := by
  have hsent := Retraced.count hw fun n => { n with sends := n.sends + 1 }
  rw [← hsent.method?]
  rw [← hsent.selectorAt?] at hs
  simp only [resolve, bind_apply, count_apply, get_apply]
  generalize (w.count fun n => { n with sends := n.sends + 1 }) = sent at hsent hs ⊢
  cases hhit : (sent.cacheAt method offset).find? c with
  | some m =>
    have hm := hsent.coherent.sites method offset selector hs _ (World.mem_entries_of_find? hhit)
    rw [hm]
    exact ⟨_, rfl, hsent.trans (.count hsent.coherent _)⟩
  | none =>
    have hmiss := Retraced.count hsent.coherent fun n => { n with cacheMisses := n.cacheMisses + 1 }
    obtain ⟨found, hfound, hlookup⟩ := lookup_apply hmiss.coherent c selector
    rw [hmiss.method?] at hfound
    have hsofar := hsent.trans (hmiss.trans hlookup)
    simp only [bind_apply, count_apply, hfound]
    cases hm : sent.method? c selector with
    | none => exact ⟨found, rfl, hsofar⟩
    | some m =>
      simp only [bind_apply, get_apply]
      split
      · have hcount := Retraced.count hlookup.coherent fun n =>
          { n with saturatedMisses := n.saturatedMisses + 1 }
        exact ⟨_, rfl, hsofar.trans (hcount.trans (.note hcount.coherent _))⟩
      · have hs' : found.selectorAt? method offset = some selector := by
          rw [(hmiss.trans hlookup).selectorAt?, hs]
        have hm' : found.method? c selector = some m := by
          rw [(hmiss.trans hlookup).method?, hm]
        have hfill : Retraced found { found with
            caches :=
              found.caches.insert (method, offset) ((found.cacheAt method offset).fill c m).2 } :=
          ⟨rfl, rfl, hlookup.coherent.fill hs' hm'⟩
        exact ⟨_, rfl, hsofar.trans (hfill.trans (.note hfill.coherent _))⟩

end Action

namespace Activation

theorem start_uniform (method : CodeRef) (args : List Value) (outer : Option FrameRef) :
    Uniform k l (start method args outer) := by
  refine .get_bind (fun _ _ => rfl) fun w => ?_
  split
  · exact .throw _
  · refine .bind (.get_bind (fun _ _ => rfl) fun w => ?_) fun f => ?_
    · refine .bind (.lift _) fun f => .bind (.discard (.update ?_)) fun _ => .pure _
      exact ⟨fun _ _ => rfl, fun _ => rfl, fun _ => rfl, fun _ => rfl⟩
    · refine .bind (.count _) fun _ => .bind (.modify ?_) fun _ => .pure _
      exact ⟨fun _ _ => rfl, fun _ => rfl, fun _ => rfl, fun _ => rfl⟩

theorem literal_uniform (a : Activation) (index : UInt8) : Uniform k l (a.literal index) :=
  .get_bind (fun _ _ => rfl) fun _ => .lift _

theorem symbolLiteral_uniform (a : Activation) (index : UInt8) :
    Uniform k l (a.symbolLiteral index) :=
  .get_bind (fun _ _ => rfl) fun _ => .lift _

theorem symbolLiteral_apply (a : Activation) (index : UInt8) (w : World) :
    a.symbolLiteral index w = match w.symbolLiteral a.method index.toNat with
      | .ok s => .ok s w
      | .error e => .error e w := by
  simp only [symbolLiteral, Action.bind_apply, Action.get_apply]
  cases w.symbolLiteral a.method index.toNat <;> rfl

theorem pushBlock_uniform (a : Activation) (literal : UInt8) : Uniform k l (a.pushBlock literal) := by
  refine .get_bind (fun _ _ => rfl) fun w => .bind (.lift _) fun body => ?_
  dsimp only
  split
  · exact .throw _
  split
  · exact .throw _
  refine .bind (.update a.handle.share_plain) fun _ => .bind (.update ?_) fun _ => ?_
  · exact ⟨fun _ _ => rfl, fun _ => rfl, fun _ => rfl, fun _ => rfl⟩
  · exact .bind (FrameHandle.push_uniform _ _) fun _ => .pure _

theorem readField_uniform (receiver : Value) (index : UInt8) :
    Uniform k l (readField receiver index) := by
  cases receiver with
  | object o =>
    refine .get_bind (fun _ _ => rfl) fun w => ?_
    cases w.field? o index.toNat with
    | none => exact .throw _
    | some v => exact .pure _
  | _ => exact .throw _

theorem writeField_apply (o : ObjectRef) (index : UInt8) (x : Value) (w : World) :
    writeField (.object o) index x w =
      if index.toNat < (w.objects.get o).fields.size then
        .ok ⟨⟩ ((w.setField? o index.toNat x).getD w)
      else .error (.fieldAccess (.object o) index.toNat) w := by
  simp only [writeField, Action.bind_apply, Action.get_apply, World.setField?]
  split <;> rfl

theorem writeField_uniform (receiver : Value) (index : UInt8) (x : Value) :
    Uniform k l (writeField receiver index x) := by
  cases receiver with
  | object o =>
    intro w v h
    have hobjects : v.objects = w.objects := by rw [h.same]; rfl
    rw [writeField_apply, writeField_apply, hobjects]
    split
    · exact ⟨rfl, ((setField_plain _ _ _).alike h).2⟩
    · exact ⟨rfl, h⟩
  | _ => exact .throw _

theorem enter_uniform (a : Activation) (target : Option Method) (selector : Symbol) :
    Uniform k l (a.enter target selector) := by
  refine .bind (a.handle.popN_uniform _) fun ⟨args, handle⟩ => ?_
  dsimp only
  match target with
  | some (.compiled c) => exact .bind (start_uniform _ _ _) fun _ => .pure _
  | some (.primitive p) =>
    refine .get_bind (fun _ _ => rfl) fun w => ?_
    split
    · exact .bind (start_uniform _ _ _) fun _ => .pure _
    · exact .pure _
  | none => exact .bind (Action.doesNotUnderstand_uniform _ _ _) fun _ => .pure _

theorem superSend_uniform (a : Activation) (selector : Symbol) :
    Uniform k l (a.superSend selector) :=
  .bind (Action.resolveSuper_uniform _ _) fun _ => enter_uniform _ _ _

theorem returnNonLocal_uniform (a : Activation) : Uniform k l a.returnNonLocal := by
  refine .bind a.handle.pop_uniform fun ⟨v, handle⟩ => ?_
  refine .get_bind (fun w t => ?_) fun w => ?_
  · simp only [World.frame_withTraces, World.outerContext_withTraces]
    rfl
  split
  · exact .pure _
  dsimp only
  refine .bind (.lift _) fun self => ?_
  split
  · refine .bind (.lift _) fun home => ?_
    split
    · exact .bind (.count _) fun _ => .bind (.note _) fun _ => .pure _
    · refine .bind (.count _) fun _ => .bind (.lift _) fun receiver => .bind (.note _) fun _ => ?_
      exact .bind (Action.escapedBlock_uniform _ _) fun _ => .pure _
  · exact .throw _

theorem send_tied (a : Activation) {offset : Nat} {selector : Symbol} {w v : World}
    (h : Alike k l w v) (hs : w.selectorAt? a.method offset = some selector) :
    Tied k l (a.send offset selector w) (a.send offset selector v) := by
  simp only [send, Action.bind_apply, FrameHandle.peek_apply, a.handle.frame_congr h.frames]
  cases (a.handle.frame w).peek (selector.arity - 1) with
  | error e => exact ⟨rfl, h⟩
  | ok receiver =>
    simp only [Action.get_apply]
    have hclass : v.classOf receiver = w.classOf receiver := by rw [h.same]; rfl
    have hsv : v.selectorAt? a.method offset = some selector := by rw [h.same]; exact hs
    have hcls : v.classes = w.classes := by rw [h.same]; rfl
    obtain ⟨w', hw, hr⟩ := Action.resolve_apply h.left hs (w.classOf receiver)
    obtain ⟨v', hv, hr'⟩ := Action.resolve_apply h.right hsv (w.classOf receiver)
    rw [hclass, hw, hv, World.method?_congr hcls]
    exact enter_uniform a _ _ _ _ (h.retrace hr hr')

theorem execute_tied (a : Activation) {offset : Nat} {i : Instruction} {w v : World}
    (h : Alike k l w v) (hi : MessageMachine.fetch (w.code a.method).bytecodes offset = .ok i) :
    Tied k l (a.execute offset i w) (a.execute offset i v) := by
  have peek := a.handle.peek_uniform (k := k) (l := l)
  have push := fun (handle : FrameHandle) (x : Value) => handle.push_uniform (k := k) (l := l) x
  cases i with
  | halt => exact Uniform.bind (peek 0) (fun _ => .pure _) w v h
  | dup => exact Uniform.bind (.bind (peek 0) fun _ => push _ _) (fun _ => .pure _) w v h
  | pushSlot area index level =>
    exact Uniform.bind (.bind (a.handle.readSlot_uniform _ _ _) fun _ => push _ _)
      (fun _ => .pure _) w v h
  | pushField index =>
    exact Uniform.bind (.bind a.handle.receiver_uniform fun _ =>
      .bind (readField_uniform _ _) fun _ => push _ _) (fun _ => .pure _) w v h
  | pushBlock literal => exact Uniform.bind (a.pushBlock_uniform _) (fun _ => .pure _) w v h
  | pushConstant literal =>
    exact Uniform.bind (.bind (a.literal_uniform _) fun _ => push _ _) (fun _ => .pure _) w v h
  | pushGlobal literal =>
    refine Uniform.bind (a.symbolLiteral_uniform _) (fun name => ?_) w v h
    refine .get_bind (fun _ _ => rfl) fun w => ?_
    cases w.global? name with
    | some x => exact .bind (push _ _) fun _ => .pure _
    | none =>
      exact .bind a.handle.receiver_uniform fun _ =>
        .bind (Action.unknownGlobal_uniform _ _) fun _ => .pure _
  | pop => exact Uniform.bind (.bind a.handle.pop_uniform fun _ => .pure _) (fun _ => .pure _) w v h
  | popSlot area index level =>
    exact Uniform.bind (.bind a.handle.pop_uniform fun _ => FrameHandle.writeSlot_uniform _ _ _ _ _)
      (fun _ => .pure _) w v h
  | popField index =>
    exact Uniform.bind (.bind a.handle.pop_uniform fun _ =>
      .bind (FrameHandle.receiver_uniform _) fun _ =>
        .bind (writeField_uniform _ _ _) fun _ => .pure _) (fun _ => .pure _) w v h
  | send literal =>
    have hliteral : v.symbolLiteral a.method literal.toNat =
        w.symbolLiteral a.method literal.toNat := by rw [h.same]; rfl
    simp only [execute, Action.bind_apply, symbolLiteral_apply, hliteral]
    cases hs : w.symbolLiteral a.method literal.toNat with
    | error e => exact ⟨rfl, h⟩
    | ok selector =>
      refine a.send_tied h ?_
      simp only [World.selectorAt?, hi, hs]
      rfl
  | superSend literal =>
    exact Uniform.bind (a.symbolLiteral_uniform _) (fun _ => a.superSend_uniform _) w v h
  | returnLocal => exact Uniform.bind a.handle.pop_uniform (fun _ => .pure _) w v h
  | returnNonLocal => exact a.returnNonLocal_uniform w v h

theorem fetch_eq_ok {a : Activation} {w : World} {i : Instruction} (h : a.fetch w = .ok i) :
    MessageMachine.fetch (w.code a.method).bytecodes a.offset = .ok i := by
  unfold fetch at h
  split at h
  · next hi => rw [hi, Except.ok.inj h]
  · cases h
  · cases h

theorem step_tied (a : Activation) {w v : World} (h : Alike k l w v) :
    Tied k l (a.step w) (a.step v) := by
  have hfetch : a.fetch v = a.fetch w := by rw [h.same]; rfl
  have hconfig : v.config = w.config := by rw [h.same]; rfl
  simp only [step, Action.bind_apply, Action.get_apply, hfetch, hconfig]
  cases hi : a.fetch w with
  | error e => exact ⟨rfl, h⟩
  | ok i =>
    simp only [Action.lift_ok]
    rw [a.handle.frame_congr h.frames]
    split
    · have hw := Retraced.note h.left
        (.executing a.method a.offset i (a.handle.frame w).stackPointer)
      refine execute_tied _ (h.retrace hw (.note h.right _)) ?_
      dsimp only
      rw [hw.same]
      exact fetch_eq_ok hi
    · exact execute_tied _ h (fetch_eq_ok hi)

end Activation

end MessageMachine
