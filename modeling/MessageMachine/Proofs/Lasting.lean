import MessageMachine.Proofs.Changing

namespace MessageMachine

namespace World

/-- Objects keep their class and their number of fields, and a new one has as many as its class says. -/
structure SameShapes (w w' : World) : Prop where
  size_le : w.objects.size ≤ w'.objects.size
  kept : ∀ r : ObjectRef, r.index < w.objects.size →
    (w'.objects.get r).cls = (w.objects.get r).cls ∧
      (w'.objects.get r).fields.size = (w.objects.get r).fields.size
  made : ∀ r : ObjectRef, w.objects.size ≤ r.index → r.index < w'.objects.size →
    (w'.objects.get r).fields.size = w.fieldCount (w'.objects.get r).cls

theorem SameShapes.of_objects {w w' : World} (h : w'.objects = w.objects) : w.SameShapes w' where
  size_le := Nat.le_of_eq (congrArg Arena.size h.symm)
  kept r _ := by rw [h]; exact ⟨rfl, rfl⟩
  made r hle hlt := absurd (h ▸ hlt) (Nat.not_lt.mpr hle)

theorem SameShapes.newInstance (w : World) (c : ClassRef) : w.SameShapes (w.newInstance c).2 where
  size_le := by
    simp only [World.newInstance, Arena.size_push]
    exact Nat.le_succ _
  kept r hr := by
    simp only [World.newInstance, Arena.get_push_of_lt _ _ hr, and_self]
  made r hle hlt := by
    obtain ⟨i⟩ := r
    simp only [World.newInstance, Arena.size_push] at hlt ⊢
    obtain rfl : i = w.objects.size := Nat.le_antisymm (Nat.le_of_lt_succ hlt) hle
    simp [Arena.get_push, Arena.next]

theorem SameShapes.setField (w : World) (r : ObjectRef) (index : Nat) (v : Value) :
    w.SameShapes ((w.setField? r index v).getD w) := by
  unfold setField?
  dsimp only
  split
  · refine ⟨by simp, fun s _ => ?_, fun s hle hlt => absurd hle (Nat.not_le.mpr (by simpa using hlt))⟩
    simp only [Option.getD_some, Arena.get_set]
    split
    · next h =>
      obtain ⟨rfl, -⟩ := h
      exact ⟨rfl, Array.size_setIfInBounds⟩
    · exact ⟨rfl, rfl⟩
  · exact .of_objects rfl

/-- Classes, bodies, primitives, counters and what lookups left behind are as before, and so are the
names that were known and the shapes of objects. -/
structure SameRecords (w w' : World) : Prop where
  classes : w'.classes = w.classes
  codes : w'.codes = w.codes
  primitives : w'.primitives = w.primitives
  counters : w'.counters = w.counters
  memos : w'.memos = w.memos
  caches : w'.caches = w.caches
  symbols : ∀ name s, w.symbols.get? name = some s → w'.symbols.get? name = some s
  shapes : w.SameShapes w'

theorem SameRecords.elsewhere {w : World} {config : Config} {globals : Table Symbol Value}
    {registered : List ClassRef} {arrays : Arena .arrays (Array Value)} {frames : Arena .frames Frame}
    {markers : Arena .markers Bool} {nextSerial depth reentry : Nat} {transcript : String}
    {journal : Journal} :
    w.SameRecords { w with
      config := config, globals := globals, registered := registered, arrays := arrays,
      frames := frames, markers := markers, nextSerial := nextSerial, depth := depth,
      reentry := reentry, transcript := transcript, journal := journal } :=
  ⟨rfl, rfl, rfl, rfl, rfl, rfl, fun _ _ => id, .of_objects rfl⟩

theorem SameRecords.refl (w : World) : w.SameRecords w := .elsewhere

theorem SameRecords.note (w : World) (e : Event) : w.SameRecords (w.note e) := by
  unfold World.note
  split <;> exact .elsewhere

theorem SameRecords.intern (w : World) (name : String) : w.SameRecords (w.intern name).2 :=
  ⟨rfl, rfl, rfl, rfl, rfl, rfl, fun _ _ hs => SymbolTable.get?_intern_of_get? hs name, .of_objects rfl⟩

class Kept (P : World → Prop) : Prop where
  congr : ∀ {w w' : World}, P w → w.SameRecords w' → P w'

class Lasting (P : World → Prop) : Prop extends Kept P where
  count : ∀ {w : World}, P w → ∀ f, P (w.count f)
  lookup : ∀ {w : World}, P w → ∀ c selector, P (w.lookup c selector).2

/-- In some world with this property, a lookup of the selector finds the method. -/
def Found (P : World → Prop) (selector : Symbol) (m : Method) : Prop :=
  ∃ w, P w ∧ ∃ c, (w.lookup c selector).1 = some m

end World

open World (Kept Lasting Found)

variable {P : World → Prop} {w : World} {α β : Type} {Q : α → Prop} {R : β → Prop}

def Action.Lasts (P : World → Prop) (x : Action α) (Q : α → Prop) : Prop :=
  ∀ w, P w → x.Ensures w (fun a w' => P w' ∧ Q a) fun _ w' => P w'

namespace Action

namespace Lasts

theorem pure {a : α} (h : Q a) : Lasts P (pure a) Q := fun _ hw => ⟨hw, h⟩

theorem throw (f : Fault) : Lasts P (throw f : Action α) Q := fun _ hw => hw

theorem bind {x : Action α} {f : α → Action β} (hx : Lasts P x Q)
    (hf : ∀ a, Q a → Lasts P (f a) R) : Lasts P (x >>= f) R :=
  fun w hw => Ensures.bind (hx w hw) fun a w' ⟨hw', ha⟩ => hf a ha w' hw'

theorem mono {x : Action α} {S : α → Prop} (hx : Lasts P x S) (h : ∀ a, S a → Q a) :
    Lasts P x Q :=
  fun w hw => (hx w hw).mono (fun a _ ha => ⟨ha.1, h a ha.2⟩) fun _ _ => id

theorem lift (e : Except Fault α) : Lasts P (liftM e : Action α) fun _ => True := by
  cases e with
  | ok a => exact pure trivial
  | error f => exact throw f

theorem lift_bind {e : Except Fault α} {f : α → Action β}
    (hf : ∀ a, e = .ok a → Lasts P (f a) R) : Lasts P (liftM e >>= f) R := by
  cases e with
  | ok a => exact hf a rfl
  | error f => exact throw f

theorem get_bind {f : World → Action α} (hf : ∀ w, Lasts P (f w) Q) :
    Lasts P (get >>= f) Q := fun w hw => .get_bind (hf w w hw)

section

variable [Kept P]

theorem update {f : World → α × World} (h : ∀ w : World, w.SameRecords (f w).2) :
    Lasts P (Action.update f) fun _ => True :=
  fun w hw => ⟨Kept.congr hw (h w), trivial⟩

theorem modify {f : World → World} (h : ∀ w : World, w.SameRecords (f w)) :
    Lasts P (modify f : Action Unit) fun _ => True :=
  update (f := fun w => ((), f w)) h

theorem note (e : Event) : Lasts P (Action.note e) fun _ => True :=
  fun w hw => ⟨Kept.congr hw (.note w e), trivial⟩

theorem intern (name : String) : Lasts P (Action.intern name) fun s => s.name = name :=
  fun w hw => ⟨Kept.congr hw (.intern w name), SymbolTable.name_intern w.symbols name⟩

end

variable [Lasting P]

theorem count (f : Counters → Counters) : Lasts P (Action.count f) fun _ => True :=
  fun _ hw => ⟨Lasting.count hw f, trivial⟩

theorem lookup (c : ClassRef) (selector : Symbol) :
    Lasts P (Action.lookup c selector) fun m => ∀ m', m = some m' → Found P selector m' :=
  .bind (.count _) fun _ _ w hw => ⟨Lasting.lookup hw c selector, fun _ hm => ⟨w, hw, c, hm⟩⟩

end Lasts

/-- The method of a call may be found for this selector, or for that of a failed send. -/
def Answers (P : World → Prop) (selector : Symbol) (c : Call) : Prop :=
  ∃ s, (s = selector ∨ s.name = "doesNotUnderstand:arguments:") ∧ Found P s c.method

variable [Lasting P]

theorem doesNotUnderstand_lasts (receiver : Value) (selector : Symbol) (args : List Value) :
    Lasts P (doesNotUnderstand receiver selector args) (Answers P selector) := by
  refine .bind (.count _) fun _ _ => ?_
  refine .bind (.update fun _ => .elsewhere) fun _ _ => ?_
  refine .bind (.note _) fun _ _ => .bind (.intern _) fun handler hname => .get_bind fun w => ?_
  refine .bind (.lookup _ _) fun m hm => ?_
  cases m with
  | none => exact .throw _
  | some m => exact .pure ⟨handler, .inr hname, hm m rfl⟩

theorem dispatch_lasts (receiver : Value) (selector : Symbol) (args : List Value) :
    Lasts P (dispatch receiver selector args) (Answers P selector) := by
  refine .get_bind fun w => .bind (.lookup _ _) fun m hm => ?_
  cases m with
  | none => exact doesNotUnderstand_lasts receiver selector args
  | some m => exact .pure ⟨selector, .inl rfl, hm m rfl⟩

theorem unknownGlobal_lasts (receiver : Value) (name : Symbol) :
    Lasts P (unknownGlobal receiver name) fun _ => True := by
  refine .bind (.count _) fun _ _ => .bind (.note _) fun _ _ => .bind (.intern _) fun _ _ => ?_
  exact (dispatch_lasts _ _ _).mono fun _ _ => trivial

theorem escapedBlock_lasts (receiver block : Value) :
    Lasts P (escapedBlock receiver block) fun _ => True :=
  .bind (.intern _) fun _ _ => (dispatch_lasts _ _ _).mono fun _ _ => trivial

theorem resolve_lasts {method : CodeRef} {offset : Nat}
    (hfill : ∀ {w cache}, P w → P { w with caches := w.caches.insert (method, offset) cache })
    (c : ClassRef) (selector : Symbol) :
    Lasts P (resolve method offset c selector) fun _ => True := by
  refine .bind (.count _) fun _ _ => .get_bind fun w => ?_
  cases (w.cacheAt method offset).find? c with
  | some m => exact .bind (.count _) fun _ _ => .pure trivial
  | none =>
    refine .bind (.count _) fun _ _ => .bind (.lookup _ _) fun found _ => ?_
    cases found with
    | none => exact .pure trivial
    | some m =>
      refine .get_bind fun w => ?_
      dsimp only
      split
      · exact .bind (.count _) fun _ _ => .bind (.note _) fun _ _ => .pure trivial
      · exact .bind (Q := fun _ => True) (fun w hw => ⟨hfill hw, trivial⟩) fun _ _ =>
          .bind (.note _) fun _ _ => .pure trivial

theorem resolveSuper_lasts (method : CodeRef) (selector : Symbol) :
    Lasts P (resolveSuper method selector) fun _ => True := by
  refine .get_bind fun w => ?_
  cases w.holder? (.compiled method) with
  | none => exact .throw _
  | some holder =>
    dsimp only
    cases (w.cls holder).superclass with
    | none => exact .pure trivial
    | some s => exact (Lasts.lookup _ _).mono fun _ _ => trivial

end Action

open MessageMachine.Action

section

variable [Kept P]

theorem AtomicOperation.run_lasts (op : AtomicOperation) (receiver : Value) (args : List Value) :
    Lasts P (op.run receiver args) fun _ => True := by
  have fresh (s : String) : Lasts P (Action.update (·.newString s)) fun _ => True :=
    .update fun _ => .elsewhere
  cases op with
  | identical | add | subtract | multiply | floorDivide | divide | less | greater | lessEqual
  | greaterEqual | numericEqual | numericNotEqual | stringEqual => exact .lift _
  | asInteger => exact .lift_bind fun _ _ => .lift _
  | modulo => exact .lift_bind fun _ _ => .lift_bind fun _ _ => .lift _
  | failNotUnderstood | failUnknownGlobal => exact .lift_bind fun _ _ => .throw _
  | failEscapedBlock => exact .throw _
  | asDouble | stringLength => exact .lift_bind fun _ _ => .pure trivial
  | classOf => exact .get_bind fun _ => .pure trivial
  | describe => exact .get_bind fun _ => fresh _
  | className | superclass | arrayLength =>
    exact .lift_bind fun _ _ => .get_bind fun _ => .pure trivial
  | asString => exact .lift_bind fun _ _ => fresh _
  | concatenate =>
    exact .lift_bind fun _ _ => .lift_bind fun _ _ => .lift_bind fun _ _ => fresh _
  | asSymbol =>
    exact .lift_bind fun _ _ => .bind (.update fun _ => .intern _ _) fun _ _ => .pure trivial
  | newInstance =>
    exact .lift_bind fun c _ => .update fun w =>
      ⟨rfl, rfl, rfl, rfl, rfl, rfl, fun _ _ => id, .newInstance w c⟩
  | newArray =>
    refine .lift_bind fun _ _ => ?_
    split
    · exact .throw _
    · exact .update fun _ => .elsewhere
  | fieldAt =>
    refine .lift_bind fun _ _ => .lift_bind fun _ _ => .get_bind fun _ => ?_
    exact .lift_bind fun _ _ => .pure trivial
  | globalAt => exact .lift_bind fun _ _ => .get_bind fun _ => .pure trivial
  | arrayAt =>
    refine .lift_bind fun _ _ => .lift_bind fun _ _ => .get_bind fun _ => ?_
    exact .lift_bind fun _ _ => .pure trivial
  | fieldAtPut =>
    refine .lift_bind fun _ _ => .lift_bind fun _ _ => .lift_bind fun _ _ => .get_bind fun _ => ?_
    refine .lift_bind fun _ _ => .bind (.modify fun w => ?_) fun _ _ => .pure trivial
    have hshapes := World.SameShapes.setField w
    simp only [World.getD_setField?] at hshapes ⊢
    exact ⟨rfl, rfl, rfl, rfl, rfl, rfl, fun _ _ => id, hshapes _ _ _⟩
  | arrayAtPut =>
    refine .lift_bind fun _ _ => .lift_bind fun _ _ => .lift_bind fun _ _ => .get_bind fun _ => ?_
    refine .lift_bind fun _ _ => ?_
    exact .bind (.modify fun _ => .elsewhere) fun _ _ => .pure trivial
  | globalAtPut =>
    refine .lift_bind fun _ _ => .lift_bind fun _ _ => ?_
    exact .bind (.modify fun _ => .elsewhere) fun _ _ => .pure trivial
  | printText =>
    refine .lift_bind fun _ _ => ?_
    exact .bind (.modify fun _ => .elsewhere) fun _ _ => .pure trivial
  | printNewline =>
    exact .bind (.modify fun _ => .elsewhere) fun _ _ => .pure trivial

namespace FrameHandle

theorem put_sameRecords (a : FrameHandle) (f : Frame) (w : World) :
    w.SameRecords (a.put f w).2 := by
  cases a <;> exact .elsewhere

theorem modify_lasts (a : FrameHandle) (op : Frame → Except Fault Frame) :
    Lasts P (a.modify op) fun _ => True := by
  intro w hw
  unfold Action.Ensures
  rw [modify_apply]
  cases op (a.frame w) with
  | ok f => exact ⟨Kept.congr hw (a.put_sameRecords f w), trivial⟩
  | error e => exact hw

theorem take_lasts (a : FrameHandle) (op : Frame → Except Fault (α × Frame)) :
    Lasts P (a.take op) fun _ => True := by
  intro w hw
  unfold Action.Ensures
  rw [take_apply]
  cases op (a.frame w) with
  | ok r => exact ⟨Kept.congr hw (a.put_sameRecords r.2 w), trivial⟩
  | error e => exact hw

omit [Kept P] in
theorem peek_lasts (a : FrameHandle) (offset : Nat) :
    Lasts P (a.peek offset) fun _ => True := .get_bind fun _ => .lift _

omit [Kept P] in
theorem readSlot_lasts (a : FrameHandle) (area : Area) (index : Nat) (level : UInt8) :
    Lasts P (a.readSlot area index level) fun _ => True := .get_bind fun _ => .lift _

omit [Kept P] in
theorem receiver_lasts (a : FrameHandle) : Lasts P a.receiver fun _ => True :=
  .get_bind fun _ => .lift _

theorem writeSlot_lasts (a : FrameHandle) (area : Area) (index : Nat) (level : UInt8)
    (v : Value) : Lasts P (a.writeSlot area index level v) fun _ => True := by
  by_cases hlevel : level = 0
  · simp only [writeSlot, if_pos hlevel]
    exact a.modify_lasts _
  · intro w hw
    unfold Action.Ensures
    rw [writeSlot_eq a area index hlevel]
    cases w.outerContext (a.frame w) level with
    | error e => exact hw
    | ok r =>
      dsimp only
      cases (w.frames.get r).write area index v with
      | error e => exact hw
      | ok f => exact ⟨Kept.congr hw .elsewhere, trivial⟩

end FrameHandle

namespace Activation

theorem pushBlock_lasts (a : Activation) (literal : UInt8) :
    Lasts P (a.pushBlock literal) (·.offset = a.offset) := by
  refine .get_bind fun w => .lift_bind fun body _ => ?_
  dsimp only
  split
  · exact .throw _
  split
  · exact .throw _
  refine .bind (.update fun w => ?_) fun context _ => ?_
  · cases a.handle <;> exact .elsewhere
  refine .bind (.update fun _ => .elsewhere) fun block _ => ?_
  exact .bind (FrameHandle.modify_lasts _ _) fun _ _ => .pure rfl

omit [Kept P] in
theorem readField_lasts (receiver : Value) (index : UInt8) :
    Lasts P (readField receiver index) fun _ => True := by
  cases receiver with
  | object o =>
    refine .get_bind fun w => ?_
    cases w.field? o index.toNat with
    | none => exact .throw _
    | some v => exact .pure trivial
  | _ => exact .throw _

theorem writeField_lasts (receiver : Value) (index : UInt8) (v : Value) :
    Lasts P (writeField receiver index v) fun _ => True := by
  cases receiver with
  | object o =>
    intro w hw
    unfold Action.Ensures
    rw [writeField_apply]
    by_cases hindex : index.toNat < (w.objects.get o).fields.size
    · rw [if_pos hindex]
      refine ⟨Kept.congr hw ?_, trivial⟩
      have hshapes := World.SameShapes.setField w o index.toNat v
      rw [World.getD_setField?] at hshapes ⊢
      exact ⟨rfl, rfl, rfl, rfl, rfl, rfl, fun _ _ => id, hshapes⟩
    · rw [if_neg hindex]
      exact hw
  | _ => exact .throw _

theorem traced_sameRecords (a : Activation) (i : Instruction) (w : World) :
    w.SameRecords (a.traced i w) := by
  unfold traced
  split
  · exact .note w _
  · exact .refl w

end Activation

namespace Machine

theorem deliver_lasts (hw : P w) (loop : RunLoop) (v : Value) (waiting : List Waiting) :
    P (deliver loop v waiting w).world := by
  have hpush : Lasts P (loop.push v) fun _ => True :=
    .bind (loop.current.handle.modify_lasts _) fun _ _ => .pure trivial
  unfold deliver
  cases hrun : loop.push v w with
  | ok loop w' => exact ((hpush w hw).of_ok hrun).1
  | error f w' => exact (hpush w hw).of_error hrun

theorem handOver_lasts (hw : P w) (loop : RunLoop) (o : Outcome) (waiting : List Waiting) :
    P (handOver loop o waiting w).world := by
  cases o with
  | ok v => exact deliver_lasts hw loop v waiting
  | error u => exact hw

theorem finish_lasts (hw : P w) (loop : RunLoop) (o : Outcome) (waiting : List Waiting) :
    P (finish loop o waiting w).world := by
  have hretire : P (loop.current.retire o w).2 := by
    have hleft : P (loop.current.left w) := Kept.congr hw .elsewhere
    obtain ⟨v, -, -, h⟩ | ⟨-, h⟩ := loop.current.retire_cases o w <;> rw [h]
    · exact Kept.congr hleft (.note _ _)
    · exact hleft
  obtain ⟨current, suspended⟩ := loop
  rw [Footing.finish_eq]
  cases suspended with
  | nil => exact Kept.congr hretire .elsewhere
  | cons sender rest => exact handOver_lasts hretire _ _ _

end Machine

end

variable [Lasting P]

/-- The arguments that this form of a reflective send gives a message. -/
def PerformForm.Fits (form : PerformForm) (s : Symbol) : Prop :=
  match form with
  | noArgument => s.arity = 1
  | oneArgument => s.arity = 2
  | argumentArray => True

/-- A call that may answer the message named by the first argument. -/
def PerformForm.Asks (P : World → Prop) (form : PerformForm) (args : List Value) (c : Call) : Prop :=
  ∃ s rest, args = .symbol s :: rest ∧ form.Fits s ∧ Action.Answers P s c

theorem PerformForm.send_lasts (form : PerformForm) (receiver : Value) (args : List Value) :
    Lasts P (form.send receiver args) (form.Asks P args) := by
  refine .lift_bind fun selector hselector => .get_bind fun w => .lift_bind fun arguments hargs => ?_
  obtain ⟨rest, rfl⟩ : ∃ rest, args = selector :: rest := by
    cases args with
    | nil => cases hselector
    | cons v rest =>
      cases hselector
      exact ⟨rest, rfl⟩
  cases selector with
  | symbol s =>
    dsimp only
    split
    · next harity =>
      refine (dispatch_lasts receiver s arguments).mono fun c hc => ⟨s, rest, rfl, ?_, hc⟩
      cases form with
      | noArgument =>
        cases hargs
        exact harity
      | oneArgument =>
        cases rest with
        | nil => cases hargs
        | cons v rest =>
          cases hargs
          exact harity
      | argumentArray => trivial
    · exact .throw _
  | _ => exact .throw _

/-- If a reflective send is what the operation wants next, it performs its first argument. -/
theorem Operation.start_lasts (op : Operation) (receiver : Value) (args : List Value) :
    Lasts P (op.start receiver args) fun r =>
      ∀ c, r = .call c → ∃ form, op = .perform form ∧ form.Asks P args c := by
  cases op with
  | atomic op => exact .bind (op.run_lasts _ _) fun _ _ => .pure nofun
  | perform form =>
    refine .bind (form.send_lasts receiver args) fun c hc => .pure ?_
    rintro _ ⟨⟩
    exact ⟨form, rfl, hc⟩
  | evaluate => exact .lift_bind fun _ _ => .pure nofun
  | whileLoop sense =>
    exact .lift_bind fun _ _ => .lift_bind fun _ _ => .lift_bind fun _ _ => .pure nofun
  | count =>
    refine .lift_bind fun _ _ => .lift_bind fun _ _ => .lift_bind fun body _ => ?_
    cases body with
    | block b =>
      refine .pure fun c hc => ?_
      unfold Iteration.countFrom at hc
      split at hc <;> cases hc
    | _ => exact .throw _

/-- The activation that goes on after an instruction, or waits for what it called, does so at this
offset. One that it starts begins with its first instruction. -/
def Effect.LeavesAt (offset : Nat) : Effect → Prop
  | .resume a | .callOut a _ _ => a.offset = offset
  | .activate sender callee => sender.offset = offset ∧ callee.offset = 0
  | .complete _ | .unwind _ _ => True

namespace Activation

theorem start_lasts (r : CodeRef) (args : List Value) (outer : Option FrameRef) :
    Lasts P (start r args outer) (·.offset = 0) := by
  intro w hw
  refine (start_creates r args outer w).mono ?_ ?_
  · rintro callee w' ⟨-, hworld, f, -, rfl⟩
    refine ⟨Kept.congr (Lasting.count hw fun _ => w'.counters) ?_, rfl⟩
    rw [hworld]
    exact .elsewhere
  · rintro f _ ⟨-, rfl⟩
    exact hw

theorem enter_lasts (a : Activation) (target : Option Method) (selector : Symbol) :
    Lasts P (a.enter target selector) (·.LeavesAt a.offset) := by
  refine .bind (a.handle.take_lasts _) fun ⟨args, handle⟩ _ => ?_
  dsimp only
  match target with
  | some (.compiled c) => exact .bind (start_lasts _ _ _) fun _ hc => .pure ⟨rfl, hc⟩
  | some (.primitive p) =>
    refine .get_bind fun w => ?_
    split
    · exact .bind (start_lasts _ _ _) fun _ hc => .pure ⟨rfl, hc⟩
    · exact .pure rfl
  | none => exact .bind (doesNotUnderstand_lasts _ _ _) fun _ _ => .pure rfl

theorem returnNonLocal_lasts (a : Activation) :
    Lasts P a.returnNonLocal (·.LeavesAt a.offset) := by
  refine .bind (a.handle.take_lasts _) fun ⟨v, handle⟩ _ => .get_bind fun w => ?_
  split
  · exact .pure trivial
  dsimp only
  refine .lift_bind fun self _ => ?_
  split
  · refine .lift_bind fun home _ => ?_
    split
    · exact .bind (.count _) fun _ _ => .bind (.note _) fun _ _ => .pure trivial
    · refine .bind (.count _) fun _ _ => .lift_bind fun receiver _ => .bind (.note _) fun _ _ => ?_
      exact .bind (escapedBlock_lasts _ _) fun _ _ => .pure rfl
  · exact .throw _

theorem execute_lasts {a : Activation} {offset : Nat} {i : Instruction}
    (hsend : ∀ l c selector, i = .send l →
      Lasts P (resolve a.method offset c selector) fun _ => True) :
    Lasts P (a.execute offset i) (·.LeavesAt a.offset) := by
  have push {handle : FrameHandle} {v : Value} : Lasts P (handle.push v) fun _ => True :=
    handle.modify_lasts _
  have pop : Lasts P a.handle.pop fun _ => True := a.handle.take_lasts _
  have literal {l : UInt8} : Lasts P (a.literal l) fun _ => True := .get_bind fun _ => .lift _
  have symbol {l : UInt8} : Lasts P (a.symbolLiteral l) fun _ => True :=
    .get_bind fun _ => .lift _
  have resume {x : Action FrameHandle} (hx : Lasts P x fun _ => True) :
      Lasts P (do return Effect.resume { a with handle := ← x }) (·.LeavesAt a.offset) :=
    .bind hx fun _ _ => .pure rfl
  cases i with
  | halt => exact .bind (a.handle.peek_lasts 0) fun _ _ => .pure trivial
  | dup => exact resume (.bind (a.handle.peek_lasts 0) fun _ _ => push)
  | pushSlot area index level =>
    exact resume (.bind (a.handle.readSlot_lasts _ _ _) fun _ _ => push)
  | pushField index =>
    exact resume (.bind a.handle.receiver_lasts fun _ _ =>
      .bind (readField_lasts _ _) fun _ _ => push)
  | pushBlock l => exact .bind (a.pushBlock_lasts l) fun _ hb => .pure hb
  | pushConstant l => exact resume (.bind literal fun _ _ => push)
  | pushGlobal l =>
    refine .bind symbol fun name _ => .get_bind fun w => ?_
    cases w.global? name with
    | some x => exact .bind push fun _ _ => .pure rfl
    | none =>
      refine .bind a.handle.receiver_lasts fun _ _ => ?_
      exact .bind (unknownGlobal_lasts _ _) fun _ _ => .pure rfl
  | pop => exact resume (.bind pop fun _ _ => .pure trivial)
  | popSlot area index level =>
    exact resume (.bind pop fun _ _ => FrameHandle.writeSlot_lasts _ _ _ _ _)
  | popField index =>
    exact resume (.bind pop fun _ _ => .bind (FrameHandle.receiver_lasts _) fun _ _ =>
      .bind (writeField_lasts _ _ _) fun _ _ => .pure trivial)
  | send l =>
    refine .bind symbol fun selector _ => .bind (a.handle.peek_lasts _) fun receiver _ => ?_
    refine .get_bind fun w => .bind (hsend l _ _ rfl) fun _ _ => ?_
    exact a.enter_lasts _ _
  | superSend l =>
    exact .bind symbol fun _ _ => .bind (resolveSuper_lasts _ _) fun _ _ => a.enter_lasts _ _
  | returnLocal => exact .bind pop fun _ _ => .pure trivial
  | returnNonLocal => exact a.returnNonLocal_lasts

theorem step_lasts {a : Activation} (hw : P w)
    (hsend : ∀ l c selector, a.fetch w = .ok (.send l) →
      Lasts P (resolve a.method a.offset c selector) fun _ => True) :
    a.step.Ensures w
      (fun e w' => P w' ∧ ∃ i, a.fetch w = .ok i ∧ e.LeavesAt (a.offset + i.length))
      fun _ w' => P w' := by
  cases hfetch : a.fetch w with
  | error f =>
    have hstep : a.step w = .error f w := by
      simp only [step, Action.bind_apply, Action.get_apply, hfetch, Action.lift_error]
    unfold Action.Ensures
    rw [hstep]
    exact hw
  | ok i =>
    have hexecute : Lasts P (execute { a with offset := a.offset + i.length } a.offset i)
        (·.LeavesAt (a.offset + i.length)) :=
      execute_lasts fun l c selector hi => hsend l c selector (hi ▸ hfetch)
    unfold Action.Ensures
    rw [step_eq hfetch]
    exact (hexecute _ (Kept.congr hw (a.traced_sameRecords i w))).mono
      (fun e _ h => ⟨h.1, i, rfl, h.2⟩) fun _ _ => id

end Activation

namespace Machine

theorem execute_lasts (hw : P w) (r : CodeRef) (args : List Value) (outer : Option FrameRef)
    (waiting : List Waiting) : P (execute r args outer waiting w).world := by
  have hstart : Lasts P (RunLoop.start r args outer) fun _ => True := by
    refine .get_bind fun w => ?_
    split
    · exact .throw _
    · exact .bind (Activation.start_lasts _ _ _) fun _ _ =>
        .bind (.modify fun _ => .elsewhere) fun _ _ => .pure trivial
  unfold execute
  cases hrun : RunLoop.start r args outer w with
  | ok loop w' => exact ((hstart w hw).of_ok hrun).1
  | error f w' => exact (hstart w hw).of_error hrun

theorem advance_lasts {loop : RunLoop} (hw : P w)
    (hsend : ∀ l c selector, loop.current.fetch w = .ok (.send l) →
      Lasts P (resolve loop.current.method loop.current.offset c selector) fun _ => True)
    (waiting : List Waiting) : P (advance loop waiting w).world := by
  have hstep := loop.current.step_lasts hw hsend
  unfold advance
  cases hrun : loop.current.step w with
  | error f w' => exact hstep.of_error hrun
  | ok e w' => cases e <;> exact (hstep.of_ok hrun).1

theorem reply_lasts (hw : P w) (r : Reply) (waiting : List Waiting) :
    P (reply r waiting w).world := by
  match r with
  | .answer v => exact hw
  | .call c => exact hw
  | .evaluate b params none | .evaluate b params (some i) => exact execute_lasts hw _ _ _ _

theorem operate_lasts (hw : P w) (op : Operation) (receiver : Value) (args : List Value)
    (waiting : List Waiting) : P (operate op receiver args waiting w).world := by
  have hstart := op.start_lasts receiver args w hw
  unfold operate
  cases hrun : op.start receiver args w with
  | ok r w' => exact reply_lasts (hstart.of_ok hrun).1 r waiting
  | error f w' => exact hstart.of_error hrun

theorem call_lasts (hw : P w) (c : Call) (waiting : List Waiting) : P (call c waiting w).world := by
  obtain ⟨method, args⟩ := c
  match method, args with
  | .compiled r, args => exact execute_lasts hw r args none waiting
  | .primitive p, receiver :: args => exact operate_lasts hw _ receiver args waiting
  | .primitive p, [] => exact hw

theorem answer_lasts (hw : P w) (o : Outcome) (waiting : List Waiting) :
    P (answer o waiting w).world := by
  match waiting, o with
  | [], o => exact hw
  | .sender loop .push :: rest, o =>
    rw [answer_handOver]
    exact handOver_lasts hw loop o rest
  | .sender loop .complete :: rest, .ok v => exact hw
  | .sender loop .complete :: rest, .error u => exact hw
  | .iteration i :: rest, .error u => exact hw
  | .iteration i :: rest, .ok v =>
    unfold answer
    dsimp only
    cases i.next v with
    | ok r => exact reply_lasts hw r rest
    | error f => exact hw

theorem step_lasts {m : Machine} (hw : P m.world)
    (hsend : ∀ loop l c selector, m.next? = some (loop, .send l) →
      Lasts P (resolve loop.current.method loop.current.offset c selector) fun _ => True) :
    P m.step.world := by
  obtain ⟨control, waiting, w⟩ := m
  cases control with
  | run loop =>
    exact advance_lasts hw (fun l c selector hfetch =>
      hsend loop l c selector (next?_eq_some.mpr ⟨rfl, hfetch⟩)) waiting
  | finish loop o => exact finish_lasts hw loop o waiting
  | call c => exact call_lasts hw c waiting
  | answer o => exact answer_lasts hw o waiting

end Machine

theorem Request.machine_lasts (hw : P w) (r : Request) : P (r.machine w).world := by
  have dispatched {w : World} (hw : P w) (receiver : Value) (selector : Symbol)
      (args : List Value) : P (Machine.dispatch receiver selector args w).world := by
    have hdispatch := Action.dispatch_lasts receiver selector args w hw
    unfold Machine.dispatch
    cases hrun : Action.dispatch receiver selector args w with
    | ok c w' => exact Machine.call_lasts (hdispatch.of_ok hrun).1 c []
    | error f w' => exact hdispatch.of_error hrun
  match r with
  | .primitive op receiver args => exact Machine.operate_lasts hw op receiver args []
  | .host (.invoke m receiver args) =>
    simp only [machine, HostCall.machine]
    split
    · exact Machine.call_lasts hw _ []
    · exact hw
  | .host (.send receiver selector args) =>
    have hinterned : P (w.intern selector).2 := Kept.congr hw (.intern w selector)
    simp only [machine, HostCall.machine]
    split
    · exact dispatched hinterned receiver _ args
    · exact hinterned
  | .host (.dispatch receiver selector args) => exact dispatched hw receiver selector args
  | .host (.call m args) => exact Machine.call_lasts hw _ []
  | .host (.evaluate b params) => exact Machine.execute_lasts hw _ _ _ []
  | .host (.execute method args outer) => exact Machine.execute_lasts hw method args outer []

end MessageMachine
