import MessageMachine.Proofs.Holdings

namespace MessageMachine

/-- The faults that well-formed code can run into. All others say that some code is ill formed. -/
def Fault.isProgramFault : Fault → Bool
  | .primitiveFailed _ _ | .messageNotUnderstood _ _ | .unknownGlobal _ _ | .escapedBlock _
  | .fieldAccess _ _ | .callDepthExceeded _ | .reentryDepthExceeded _ | .arityMismatch _ _ _ => true
  | _ => false

def Fault.isPrimitiveFailure : Fault → Bool
  | .primitiveFailed _ _ => true
  | _ => false

theorem Fault.isProgramFault_of_primitiveFailure {f : Fault} (h : f.isPrimitiveFailure) :
    f.isProgramFault := by
  cases f with
  | primitiveFailed => rfl
  | _ => cases h

variable {α β : Type}

/-- Something with a property, or else the failure of a primitive. -/
def Answers (Q : α → Prop) : Except Fault α → Prop
  | .ok a => Q a
  | .error f => f.isPrimitiveFailure

namespace Answers

variable {Q : α → Prop} {R : β → Prop}

theorem bind {e : Except Fault α} {f : α → Except Fault β} (he : Answers Q e)
    (hf : ∀ a, Q a → Answers R (f a)) : Answers R (e >>= f) := by
  cases e with
  | ok a => exact hf a he
  | error _ => exact he

theorem any {args : List Value} {good : Value → Prop} (h : ∀ v ∈ args, good v) (selector : String)
    (position : Nat) : Answers good (Argument.any selector args position) := by
  unfold Argument.any
  split
  · next hv => exact h _ (List.mem_of_getElem? hv)
  · rfl

theorem integer (selector : String) (args : List Value) (position : Nat) :
    Answers (fun _ => True) (Argument.integer selector args position) := by
  refine bind (Q := fun _ => True) (any (fun _ _ => trivial) _ _) fun v _ => ?_
  cases v <;> first | exact trivial | rfl

theorem symbol (selector : String) (args : List Value) (position : Nat) :
    Answers (fun _ => True) (Argument.symbol selector args position) := by
  refine bind (Q := fun _ => True) (any (fun _ _ => trivial) _ _) fun v _ => ?_
  cases v <;> first | exact trivial | rfl

theorem position (selector : String) (index : Int64) (size : Nat) :
    Answers (fun i => i < size) (Argument.position selector index size) := by
  unfold Argument.position
  split
  · change _ < _
    omega
  · rfl

theorem receiverArray (selector : String) (v : Value) :
    Answers (fun _ => True) (Receiver.array selector v) := by
  cases v <;> first | exact trivial | rfl

theorem receiverClass (selector : String) (v : Value) :
    Answers (fun _ => True) (Receiver.cls selector v) := by
  cases v <;> first | exact trivial | rfl

theorem receiverInteger (selector : String) (v : Value) :
    Answers (fun _ => True) (Receiver.integer selector v) := by
  cases v <;> first | exact trivial | rfl

theorem receiverDouble (selector : String) (v : Value) :
    Answers (fun _ => True) (Receiver.double selector v) := by
  cases v <;> first | exact trivial | rfl

theorem receiverObject (selector : String) (v : Value) :
    Answers (fun _ => True) (Receiver.object selector v) := by
  cases v <;> first | exact trivial | rfl

theorem textOf (selector : String) (v : Value) :
    Answers (fun _ => True) (MessageMachine.textOf selector v) := by
  cases v <;> first | exact trivial | rfl

theorem operands (selector : String) (a b : Value) :
    Answers (fun _ => True) (Arithmetic.operands selector a b) := by
  unfold Arithmetic.operands
  split <;> first | exact trivial | rfl

variable {good : Value → Prop} (hgood : ∀ v, v.block? = none → good v)
include hgood

theorem checked (selector : String) (n : Option Int64) :
    Answers good (Arithmetic.checked selector n) := by
  cases n with
  | some n => exact hgood _ rfl
  | none => rfl

theorem arithmetic (selector : String) (integers : Int → Int → Int)
    (doubles : Double → Double → Double) (a b : Value) :
    Answers good (Arithmetic.arithmetic selector integers doubles a b) := by
  refine bind (operands _ _ _) fun o _ => ?_
  cases o with
  | integers a b => exact checked hgood _ _
  | doubles a b => exact hgood _ rfl

theorem floorDivide (a b : Value) : Answers good (Arithmetic.floorDivide a b) := by
  refine bind (operands _ _ _) fun o _ => ?_
  cases o with
  | integers a b =>
    dsimp only
    split
    · rfl
    · exact checked hgood _ _
  | doubles a b => exact hgood _ rfl

theorem divide (a b : Value) : Answers good (Arithmetic.divide a b) := by
  refine bind (operands _ _ _) fun o _ => ?_
  cases o <;> exact hgood _ rfl

theorem modulo (a b : Int64) : Answers good (Arithmetic.modulo a b) := by
  unfold Arithmetic.modulo
  split
  · rfl
  · exact checked hgood _ _

theorem compare (selector : String) (integers : Int64 → Int64 → Bool)
    (doubles : Double → Double → Bool) (a b : Value) :
    Answers good (Arithmetic.compare selector integers doubles a b) := by
  refine bind (operands _ _ _) fun o _ => ?_
  cases o <;> exact hgood _ rfl

theorem equal (a b : Value) : Answers good (Arithmetic.equal a b) := by
  unfold Arithmetic.equal
  split
  · exact compare hgood _ _ _ _ _
  · exact compare hgood _ _ _ _ _
  · exact hgood _ rfl

theorem notEqual (a b : Value) : Answers good (Arithmetic.notEqual a b) :=
  bind (equal hgood a b) fun _ _ => hgood _ rfl

theorem asInteger (x : Double) : Answers good (Arithmetic.asInteger x) := by
  unfold Arithmetic.asInteger
  split
  · exact hgood _ rfl
  · rfl

end Answers

namespace Action

/-- Keeps what a world holds, changes nothing else, and answers something with a property, or else
fails through the program. -/
def Quiet (good : Value → Prop) (known : Method → Prop) (x : Action α) (Q : α → Prop) : Prop :=
  ∀ w, w.Holds good known → x.Ensures w
    (fun a w' => Q a ∧ w.Still w' ∧ w'.Holds good known)
    (fun f w' => f.isProgramFault ∧ w.Still w' ∧ w'.Holds good known)

namespace Quiet

variable {good : Value → Prop} {known : Method → Prop} {Q : α → Prop} {R : β → Prop}

theorem pure {a : α} (h : Q a) : Quiet good known (pure a) Q := fun w hw => ⟨h, .refl w, hw⟩

theorem throw {f : Fault} (h : f.isProgramFault) : Quiet good known (throw f : Action α) Q :=
  fun w hw => ⟨h, .refl w, hw⟩

theorem bind {x : Action α} {f : α → Action β} (hx : Quiet good known x Q)
    (hf : ∀ a, Q a → Quiet good known (f a) R) : Quiet good known (x >>= f) R := by
  intro w hw
  refine (hx w hw).bind fun a w' ⟨ha, hstill, hholds⟩ => ?_
  refine (hf a ha w' hholds).mono ?_ ?_
  · exact fun b w'' ⟨hb, hstill', hholds'⟩ => ⟨hb, hstill.trans hstill', hholds'⟩
  · exact fun g w'' ⟨hg, hstill', hholds'⟩ => ⟨hg, hstill.trans hstill', hholds'⟩

theorem lift {e : Except Fault α} (h : Answers Q e) : Quiet good known (liftM e : Action α) Q := by
  cases e with
  | ok a => exact pure h
  | error f => exact throw (Fault.isProgramFault_of_primitiveFailure h)

theorem get_bind {f : World → Action β} (hf : ∀ w, w.Holds good known → Quiet good known (f w) R) :
    Quiet good known (get >>= f) R := fun w hw => hf w hw w hw

theorem update {f : World → α × World}
    (hf : ∀ w, w.Holds good known → Q (f w).1 ∧ w.Still (f w).2 ∧ (f w).2.Holds good known) :
    Quiet good known (update f) Q := hf

theorem modify {f : World → World}
    (hf : ∀ w, w.Holds good known → w.Still (f w) ∧ (f w).Holds good known) :
    Quiet good known (modify f : Action Unit) fun _ => True := fun w hw => ⟨trivial, hf w hw⟩

theorem count (f : Counters → Counters) :
    Quiet good known (Action.count f) fun _ => True := by
  refine modify fun w hw => ⟨?_, hw.congr rfl rfl rfl rfl rfl rfl⟩
  exact .elsewhere

theorem note (e : Event) : Quiet good known (Action.note e) fun _ => True :=
  modify fun w hw => ⟨w.note_still e, hw.note e⟩

theorem intern (name : String) : Quiet good known (Action.intern name) fun s => s.name = name := by
  refine update fun w hw => ⟨SymbolTable.name_intern w.symbols name, ?_, ?_⟩
  · exact .elsewhere
  · exact hw.congr rfl rfl rfl rfl rfl rfl

theorem newString (hgood : ∀ v, v.block? = none → good v) (s : String) :
    Quiet good known (Action.update (·.newString s)) good := by
  refine update fun w hw => ⟨hgood _ rfl, ?_, hw.congr rfl rfl rfl rfl rfl rfl⟩
  exact .elsewhere

theorem newArray (hgood : ∀ v, v.block? = none → good v) {elements : Array Value}
    (h : ∀ v ∈ elements, good v) : Quiet good known (Action.update (·.newArray elements)) good := by
  refine update fun w hw => ⟨hgood _ rfl, ?_, hw.newArray h⟩
  exact .elsewhere

theorem lookup (c : ClassRef) (selector : Symbol) :
    Quiet good known (Action.lookup c selector) fun m? => ∀ m, m? = some m → known m :=
  bind (count _) fun _ _ => update fun _ hw => hw.lookupWithin selector _ c

end Quiet

end Action

/-- A call of a known method with good arguments. -/
def Call.Holds (good : Value → Prop) (known : Method → Prop) (c : Call) : Prop :=
  known c.method ∧ ∀ v ∈ c.args, good v

def Iteration.Holds (good : Value → Prop) : Iteration → Prop
  | testing t b _ | repeating t b _ => good (.block t) ∧ good (.block b)
  | counting b _ _ _ => good (.block b)

def Reply.Holds (good : Value → Prop) (known : Method → Prop) : Reply → Prop
  | .answer v => good v
  | .call c => c.Holds good known
  | .evaluate b params i => good (.block b) ∧ (∀ v ∈ params, good v) ∧ ∀ j, i = some j → j.Holds good

section

variable {good : Value → Prop} {known : Method → Prop}

theorem Iteration.countFrom_holds (hgood : ∀ v, v.block? = none → good v) {body : Block}
    (hb : good (.block body)) (start current limit : Int64) :
    (countFrom body start current limit).Holds good known := by
  unfold countFrom
  split
  · refine ⟨hb, List.forall_mem_singleton.mpr (hgood _ rfl), ?_⟩
    rintro _ ⟨⟩
    exact hb
  · exact hgood _ rfl

theorem Iteration.next_answers (hgood : ∀ v, v.block? = none → good v) {i : Iteration}
    (hi : i.Holds good) (v : Value) : Answers (·.Holds good known) (i.next v) := by
  cases i with
  | testing t b sense =>
    obtain ⟨ht, hb⟩ := hi
    cases v with
    | boolean answer =>
      simp only [next]
      split
      · refine ⟨hb, nofun, ?_⟩
        rintro _ ⟨⟩
        exact ⟨ht, hb⟩
      · exact hgood _ rfl
    | _ => rfl
  | repeating t b sense =>
    refine ⟨hi.1, nofun, ?_⟩
    rintro _ ⟨⟩
    exact hi
  | counting b start current limit =>
    simp only [next]
    split
    · exact countFrom_holds hgood hi _ _ _
    · exact hgood _ rfl

theorem World.setField?_quiet {w w' : World} {r : ObjectRef} {index : Nat} {v : Value}
    (hw : w.Holds good known) (hv : good v) (h : w.setField? r index v = some w') :
    w.Still w' ∧ w'.Holds good known := by
  refine ⟨?_, hw.setField hv h⟩
  unfold World.setField? at h
  dsimp only at h
  split at h
  · cases h
    exact .elsewhere
  · cases h

variable (hgood : ∀ v, v.block? = none → good v)
include hgood

theorem AtomicOperation.run_quiet (op : AtomicOperation) {receiver : Value} {args : List Value}
    (hr : good receiver) (ha : ∀ v ∈ args, good v) :
    Action.Quiet good known (op.run receiver args) good := by
  have binary {selector : String} {f : Value → Value → Except Fault Value}
      (hf : ∀ a b, Answers good (f a b)) : Action.Quiet good known
        (liftM (do f receiver (← Argument.any selector args 0) : Except Fault Value)) good :=
    .lift (.bind (.any ha _ _) fun _ _ => hf _ _)
  cases op with
  | identical | stringEqual =>
    refine .lift (.bind (.any ha _ _) fun v _ => ?_)
    exact hgood (.boolean _) rfl
  | add | subtract | multiply => exact binary fun _ _ => .arithmetic hgood _ _ _ _ _
  | floorDivide => exact binary fun _ _ => .floorDivide hgood _ _
  | divide => exact binary fun _ _ => .divide hgood _ _
  | less | greater | lessEqual | greaterEqual =>
    exact binary fun _ _ => .compare hgood _ _ _ _ _
  | numericEqual => exact binary fun _ _ => .equal hgood _ _
  | numericNotEqual => exact binary fun _ _ => .notEqual hgood _ _
  | asInteger => exact .bind (.lift (.receiverDouble _ _)) fun _ _ => .lift (.asInteger hgood _)
  | modulo =>
    exact .bind (.lift (.receiverInteger _ _)) fun _ _ => .bind (.lift (.integer _ _ _)) fun _ _ =>
      .lift (.modulo hgood _ _)
  | failNotUnderstood | failUnknownGlobal =>
    exact .bind (.lift (.any ha _ _)) fun _ _ => .throw rfl
  | failEscapedBlock => exact .throw rfl
  | asDouble => exact .bind (.lift (.receiverInteger _ _)) fun _ _ => .pure (hgood _ rfl)
  | stringLength => exact .bind (.lift (.textOf _ _)) fun _ _ => .pure (hgood _ rfl)
  | classOf => exact .get_bind fun _ _ => .pure (hgood _ rfl)
  | describe => exact .get_bind fun _ _ => .newString hgood _
  | className =>
    exact .bind (.lift (.receiverClass _ _)) fun _ _ => .get_bind fun _ _ => .pure (hgood _ rfl)
  | superclass =>
    refine .bind (.lift (.receiverClass _ _)) fun c _ => .get_bind fun w _ => .pure ?_
    cases (w.cls c).superclass <;> exact hgood _ rfl
  | arrayLength =>
    exact .bind (.lift (.receiverArray _ _)) fun _ _ => .get_bind fun _ _ => .pure (hgood _ rfl)
  | asString => exact .bind (.lift (.textOf _ _)) fun _ _ => .newString hgood _
  | concatenate =>
    exact .bind (.lift (.textOf _ _)) fun _ _ => .bind (.lift (.any ha _ _)) fun _ _ =>
      .bind (.lift (.textOf _ _)) fun _ _ => .newString hgood _
  | asSymbol =>
    exact .bind (.lift (.textOf _ _)) fun _ _ => .bind (.intern _) fun _ _ => .pure (hgood _ rfl)
  | newInstance =>
    refine .bind (.lift (.receiverClass _ _)) fun c _ => .update fun w hw => ⟨hgood _ rfl, ?_, ?_⟩
    · exact .elsewhere
    · exact hw.newInstance c (hgood _ rfl)
  | newArray =>
    refine .bind (.lift (.integer _ _ _)) fun n _ => ?_
    split
    · exact .throw rfl
    · refine .newArray hgood fun v hv => ?_
      rw [(Array.mem_replicate.mp hv).2]
      exact hgood _ rfl
  | fieldAt =>
    refine .bind (.lift (.integer _ _ _)) fun _ _ => .bind (.lift (.receiverObject _ _)) fun r _ => ?_
    refine .get_bind fun w hw => .bind (.lift (.position _ _ _)) fun i _ => .pure ?_
    cases hv : w.field? r i with
    | none => exact hgood _ rfl
    | some v => exact hw.fields r v (Array.mem_of_getElem? hv)
  | fieldAtPut =>
    refine .bind (.lift (.integer _ _ _)) fun _ _ => .bind (.lift (.any ha _ _)) fun v hv => ?_
    refine .bind (.lift (.receiverObject _ _)) fun r _ => .get_bind fun _ _ => ?_
    refine .bind (.lift (.position _ _ _)) fun i _ => .bind (.modify fun w hw => ?_) fun _ _ => .pure hv
    cases hset : w.setField? r i v with
    | none => exact ⟨.refl w, hw⟩
    | some w' => exact World.setField?_quiet hw hv hset
  | globalAt =>
    refine .bind (.lift (.symbol _ _ _)) fun name _ => .get_bind fun w hw => .pure ?_
    cases hv : w.global? name with
    | none => exact hgood _ rfl
    | some v => exact hw.globals name v hv
  | globalAtPut =>
    refine .bind (.lift (.any ha _ _)) fun v hv => .bind (.lift (.symbol _ _ _)) fun name _ => ?_
    refine .bind (.modify fun w hw => ⟨?_, hw.setGlobal name hv⟩) fun _ _ => .pure hv
    exact .elsewhere
  | arrayAt =>
    refine .bind (.lift (.receiverArray _ _)) fun r _ => .bind (.lift (.integer _ _ _)) fun _ _ => ?_
    refine .get_bind fun w hw => .bind (.lift (.position _ _ _)) fun i hi => .pure ?_
    rw [Array.getD, dif_pos hi]
    exact hw.elements r _ (Array.getElem_mem hi)
  | arrayAtPut =>
    refine .bind (.lift (.receiverArray _ _)) fun r _ => .bind (.lift (.integer _ _ _)) fun _ _ => ?_
    refine .bind (.lift (.any ha _ _)) fun v hv => .get_bind fun _ _ => ?_
    refine .bind (.lift (.position _ _ _)) fun i _ => .bind (.modify fun w hw => ⟨?_, ?_⟩) fun _ _ => .pure hv
    · exact .elsewhere
    · exact hw.setElement r i hv
  | printText =>
    refine .bind (.lift (.any ha _ _)) fun v _ => .bind (.modify fun w hw => ⟨?_, ?_⟩) fun _ _ => .pure hr
    · exact .elsewhere
    · exact hw.congr rfl rfl rfl rfl rfl rfl
  | printNewline =>
    refine .bind (.modify fun w hw => ⟨?_, ?_⟩) fun _ _ => .pure hr
    · exact .elsewhere
    · exact hw.congr rfl rfl rfl rfl rfl rfl

namespace Action

theorem doesNotUnderstand_quiet {receiver : Value} {args : List Value} (selector : Symbol)
    (hr : good receiver) (ha : ∀ v ∈ args, good v) :
    Quiet good known (doesNotUnderstand receiver selector args) (·.Holds good known) := by
  refine .bind (.count _) fun _ _ => .bind (.newArray hgood (by simpa using ha)) fun array hr' => ?_
  refine .bind (.note _) fun _ _ => .bind (.intern _) fun handler _ => .get_bind fun w _ => ?_
  refine .bind (.lookup _ _) fun m? hm => ?_
  cases m? with
  | none => exact .throw rfl
  | some m =>
    refine .pure ⟨hm m rfl, ?_⟩
    simp only [List.mem_cons, List.not_mem_nil, or_false, forall_eq_or_imp, forall_eq]
    exact ⟨hr, hgood _ rfl, hr'⟩

theorem dispatch_quiet {receiver : Value} {args : List Value} (selector : Symbol)
    (hr : good receiver) (ha : ∀ v ∈ args, good v) :
    Quiet good known (dispatch receiver selector args) (·.Holds good known) := by
  refine .get_bind fun w _ => .bind (.lookup _ _) fun m? hm => ?_
  cases m? with
  | none => exact doesNotUnderstand_quiet hgood selector hr ha
  | some m => exact .pure ⟨hm m rfl, List.forall_mem_cons.mpr ⟨hr, ha⟩⟩

theorem unknownGlobal_quiet {receiver : Value} (name : Symbol) (hr : good receiver) :
    Quiet good known (unknownGlobal receiver name) (·.Holds good known) := by
  refine .bind (.count _) fun _ _ => .bind (.note _) fun _ _ => .bind (.intern _) fun s _ => ?_
  exact dispatch_quiet hgood s hr (List.forall_mem_singleton.mpr (hgood _ rfl))

theorem escapedBlock_quiet {receiver block : Value} (hr : good receiver) (hb : good block) :
    Quiet good known (escapedBlock receiver block) (·.Holds good known) :=
  .bind (.intern _) fun s _ => dispatch_quiet hgood s hr (List.forall_mem_singleton.mpr hb)

end Action

theorem PerformForm.send_quiet (form : PerformForm) {receiver : Value} {args : List Value}
    (hr : good receiver) (ha : ∀ v ∈ args, good v) :
    Action.Quiet good known (form.send receiver args) (·.Holds good known) := by
  refine .bind (.lift (.any ha _ _)) fun selector _ => .get_bind fun w hw => ?_
  refine .bind (Q := fun vs => ∀ v ∈ vs, good v) (.lift ?_) fun arguments hargs => ?_
  · cases form with
    | noArgument => exact fun v hv => absurd hv List.not_mem_nil
    | oneArgument => exact .bind (.any ha _ _) fun v hv => List.forall_mem_singleton.mpr hv
    | argumentArray =>
      refine .bind (.any ha _ _) fun v _ => ?_
      cases v with
      | array r => exact fun v hv => hw.elements r v (by simpa using hv)
      | _ => rfl
  · cases selector with
    | symbol s =>
      dsimp only
      split
      · exact Action.dispatch_quiet hgood s hr hargs
      · exact .throw rfl
    | _ => exact .throw rfl

end

namespace Action

variable {good : Value → Prop} {known : Method → Prop}

theorem resolve_quiet (method : CodeRef) (offset : Nat) (c : ClassRef) (selector : Symbol) :
    Quiet good known (resolve method offset c selector) fun m? => ∀ m, m? = some m → known m := by
  refine .bind (.count _) fun _ _ => .get_bind fun w hw => ?_
  cases hfind : (w.cacheAt method offset).find? c with
  | some m =>
    refine .bind (.count _) fun _ _ => .pure fun m' hm => ?_
    simp only [InlineCache.find?, Option.map_eq_some_iff] at hfind
    obtain ⟨e, he, rfl⟩ := hfind
    exact Option.some.inj hm ▸ hw.entries method offset e (List.mem_of_find?_eq_some he)
  | none =>
    refine .bind (.count _) fun _ _ => .bind (.lookup _ _) fun m? hm => ?_
    cases m? with
    | none => exact .pure nofun
    | some m =>
      have hknown := hm m rfl
      refine .get_bind fun w hw => ?_
      have hnoted (e : Event) : Quiet good known (do Action.note e; return some m)
          fun m? => ∀ m, m? = some m → known m :=
        .bind (.note e) fun _ _ => .pure fun m' hm' => Option.some.inj hm' ▸ hknown
      dsimp only
      split
      · exact .bind (.count _) fun _ _ => hnoted _
      · refine .bind (.modify fun w' hw' => ⟨?_, ?_⟩) fun _ _ => hnoted _
        · exact .elsewhere
        · exact hw'.insertCache _ (hw.entries_fill method offset c hknown)

theorem resolveSuper_of_no_holder {method : CodeRef} {w : World}
    (h : w.holder? (.compiled method) = none) (selector : Symbol) :
    resolveSuper method selector w = .error (.unresolvableClass (.holder method)) w := by
  unfold resolveSuper
  rw [bind_apply, get_apply]
  simp only [h]
  rfl

theorem resolveSuper_of_holder {method : CodeRef} {w : World} {holder : ClassRef}
    (h : w.holder? (.compiled method) = some holder) (selector : Symbol)
    (hw : w.Holds good known) :
    (resolveSuper method selector).Ensures w
      (fun m? w' => (∀ m, m? = some m → known m) ∧ w.Still w' ∧ w'.Holds good known)
      (fun f w' => f.isProgramFault ∧ w.Still w' ∧ w'.Holds good known) := by
  refine .get_bind ?_
  rw [h]
  dsimp only
  cases (w.cls holder).superclass with
  | none => exact ⟨nofun, .refl w, hw⟩
  | some s => exact Quiet.lookup s selector w hw

end Action

theorem Operation.start_quiet {good : Value → Prop} {known : Method → Prop}
    (hgood : ∀ v, v.block? = none → good v) (op : Operation) {receiver : Value} {args : List Value}
    (hr : good receiver) (ha : ∀ v ∈ args, good v) :
    Action.Quiet good known (op.start receiver args) (·.Holds good known) := by
  have blockOf {v : Value} (hv : good v) (selector : String) :
      Answers (fun b => good (.block b)) (Operation.blockOf selector v) := by
    cases v with
    | block b => exact hv
    | _ => rfl
  cases op with
  | atomic op => exact .bind (op.run_quiet hgood hr ha) fun _ hv => .pure hv
  | perform form => exact .bind (form.send_quiet hgood hr ha) fun _ hc => .pure hc
  | evaluate =>
    exact .bind (.lift (blockOf hr _)) fun _ hb => .pure ⟨hb, ha, nofun⟩
  | whileLoop sense =>
    refine .bind (.lift (blockOf hr _)) fun test ht => .bind (.lift (.any ha _ _)) fun v hv => ?_
    refine .bind (.lift (blockOf hv _)) fun body hb => .pure ⟨ht, nofun, ?_⟩
    rintro _ ⟨⟩
    exact ⟨ht, hb⟩
  | count =>
    refine .bind (.lift (.receiverInteger _ _)) fun start _ => ?_
    refine .bind (.lift (.integer _ _ _)) fun limit _ => .bind (.lift (.any ha _ _)) fun v hv => ?_
    cases v with
    | block b => exact .pure (Iteration.countFrom_holds hgood hv start start limit)
    | _ => exact .throw rfl

end MessageMachine
