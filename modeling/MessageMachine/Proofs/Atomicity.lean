import MessageMachine.Machine
import MessageMachine.Proofs.Quiet
import MessageMachine.Proofs.Uniform

namespace MessageMachine

/-- What a single operation may store into. -/
inductive Place where
  | element (r : ArrayRef) (index : Nat)
  | field (r : ObjectRef) (index : Nat)
  | global (name : Symbol)
  | transcript
  | symbol (name : String)

namespace Arena

variable {kind : CellKind} {α : Type} [Inhabited α]

theorem get_modify (a : Arena kind α) (r s : Ref kind) {f : α → α} (hf : f default = default) :
    (a.modify r f).get s = if r = s then f (a.get s) else a.get s := by
  rw [get_eq_get?_getD, get_eq_get?_getD, get?_modify]
  split
  · cases a.get? s with
    | none => exact hf.symm
    | some x => rfl
  · rfl

end Arena

namespace World

/-- Whatever was there before is as it was, except for this place. There may be more arrays and
objects than before. -/
structure SameBut (p : Option Place) (w w' : World) : Prop extends Still w w' where
  memos : w'.memos = w.memos
  caches : w'.caches = w.caches
  counters : w'.counters = w.counters
  journal : w'.journal = w.journal
  arrays : w.arrays.size ≤ w'.arrays.size
  lengths : ∀ r : ArrayRef, r.index < w.arrays.size →
    (w'.arrays.get r).size = (w.arrays.get r).size
  elements : ∀ r : ArrayRef, r.index < w.arrays.size → ∀ i, p ≠ some (.element r i) →
    (w'.arrays.get r)[i]? = (w.arrays.get r)[i]?
  objects : w.objects.size ≤ w'.objects.size
  shapes : ∀ r : ObjectRef, r.index < w.objects.size →
    (w'.objects.get r).cls = (w.objects.get r).cls ∧
      (w'.objects.get r).fields.size = (w.objects.get r).fields.size
  fields : ∀ r : ObjectRef, r.index < w.objects.size → ∀ i, p ≠ some (.field r i) →
    w'.field? r i = w.field? r i
  globals : ∀ name, p ≠ some (.global name) → w'.global? name = w.global? name
  transcript : ∃ text, w'.transcript = w.transcript ++ text ∧ (p ≠ some .transcript → text = "")
  known : ∀ name s, w.symbols.get? name = some s → w'.symbols.get? name = some s
  symbols : ∀ name, p ≠ some (.symbol name) → w'.symbols.get? name = w.symbols.get? name

def setElement (w : World) (r : ArrayRef) (index : Nat) (v : Value) : World :=
  { w with arrays := w.arrays.modify r (·.setIfInBounds index v) }

theorem setField?_of_lt (w : World) {r : ObjectRef} {index : Nat} (v : Value)
    (h : index < (w.objects.get r).fields.size) :
    w.setField? r index v = some ((w.setField? r index v).getD w) := by
  simp [setField?, h]

namespace SameBut

variable {p : Option Place} (w : World)

theorem refl : w.SameBut p w where
  toStill := .refl w
  memos := rfl
  caches := rfl
  counters := rfl
  journal := rfl
  arrays := Nat.le_refl _
  lengths _ _ := rfl
  elements _ _ _ _ := rfl
  objects := Nat.le_refl _
  shapes _ _ := ⟨rfl, rfl⟩
  fields _ _ _ _ := rfl
  globals _ _ := rfl
  transcript := ⟨"", String.append_empty.symm, fun _ => rfl⟩
  known _ _ := id
  symbols _ _ := rfl

theorem newString (text : String) : w.SameBut p (w.newString text).2 :=
  { refl w with }

theorem newArray (elements : Array Value) : w.SameBut p (w.newArray elements).2 :=
  { refl w with
    arrays := by simp [World.newArray]
    lengths := fun r hr => by rw [World.newArray, Arena.get_push_of_lt _ _ hr]
    elements := fun r hr i _ => by rw [World.newArray, Arena.get_push_of_lt _ _ hr] }

theorem newInstance (c : ClassRef) : w.SameBut p (w.newInstance c).2 :=
  { refl w with
    objects := by simp [World.newInstance]
    shapes := fun r hr => by simp [World.newInstance, Arena.get_push_of_lt _ _ hr]
    fields := fun r hr i _ => by simp [World.newInstance, World.field?, Arena.get_push_of_lt _ _ hr] }

theorem setElement (r : ArrayRef) (i : Nat) (v : Value) :
    w.SameBut (some (.element r i)) (w.setElement r i v) :=
  have hget (s : ArrayRef) : (w.arrays.modify r (·.setIfInBounds i v)).get s =
      if r = s then (w.arrays.get s).setIfInBounds i v else w.arrays.get s :=
    w.arrays.get_modify r s rfl
  { refl w with
    arrays := by simp [World.setElement]
    lengths := fun s _ => by
      rw [World.setElement, hget]
      split <;> simp
    elements := fun s _ j hj => by
      rw [World.setElement, hget]
      split
      · next hrs =>
        subst hrs
        rw [Array.getElem?_setIfInBounds_ne]
        rintro rfl
        exact hj rfl
      · rfl }

theorem setField (r : ObjectRef) (i : Nat) (v : Value) :
    w.SameBut (some (.field r i)) ((w.setField? r i v).getD w) := by
  unfold World.setField?
  dsimp only
  split
  · next hlt =>
    have hget (s : ObjectRef) : (w.objects.set r { w.objects.get r with
        fields := (w.objects.get r).fields.setIfInBounds i v }).get s =
        if r = s ∧ r.index < w.objects.size then { w.objects.get r with
          fields := (w.objects.get r).fields.setIfInBounds i v } else w.objects.get s :=
      w.objects.get_set r s _
    exact
      { refl w with
        objects := by simp
        shapes := fun s _ => by
          dsimp only [Option.getD_some]
          rw [hget]
          split
          · next h => simp [h.1]
          · exact ⟨rfl, rfl⟩
        fields := fun s _ j hj => by
          dsimp only [Option.getD_some, World.field?]
          rw [hget]
          split
          · next h =>
            obtain ⟨rfl, -⟩ := h
            refine Array.getElem?_setIfInBounds_ne ?_
            rintro rfl
            exact hj rfl
          · rfl }
  · exact refl w

theorem setGlobal (name : Symbol) (v : Value) :
    w.SameBut (some (.global name)) (w.setGlobal name v) :=
  { refl w with
    globals := fun other hother => by
      rw [World.setGlobal, World.global?, Table.find?_insert, if_neg]
      · rfl
      · rintro rfl
        exact hother rfl }

theorem print (text : String) : w.SameBut (some .transcript) (w.print text) :=
  { refl w with transcript := ⟨text, rfl, fun h => absurd rfl h⟩ }

theorem intern (name : String) : w.SameBut (some (.symbol name)) (w.intern name).2 :=
  { refl w with
    known := fun _ _ hs => SymbolTable.get?_intern_of_get? hs name
    symbols := fun other hother => by
      rw [World.intern, SymbolTable.get?_intern, if_neg]
      rintro rfl
      exact hother rfl }

end SameBut

end World

namespace Argument

variable {selector : String} {args : List Value} {position : Nat}

theorem any_eq_ok {v : Value} : any selector args position = .ok v ↔ args[position]? = some v := by
  unfold any
  split
  · next hv => simp [hv]
  · next hv => simp [hv]

theorem integer_eq_ok {n : Int64} :
    integer selector args position = .ok n ↔ args[position]? = some (.integer n) := by
  rw [← @any_eq_ok selector]
  unfold integer
  cases any selector args position with
  | error f => simp [bind, Except.bind]
  | ok v => cases v <;> simp [bind, Except.bind, pure, Except.pure, throw, throwThe,
      MonadExceptOf.throw]

theorem symbol_eq_ok {s : Symbol} :
    symbol selector args position = .ok s ↔ args[position]? = some (.symbol s) := by
  rw [← @any_eq_ok selector]
  unfold symbol
  cases any selector args position with
  | error f => simp [bind, Except.bind]
  | ok v => cases v <;> simp [bind, Except.bind, pure, Except.pure, throw, throwThe,
      MonadExceptOf.throw]

theorem eq_cons {v : Value} (h : args[0]? = some v) : ∃ rest, args = v :: rest := by
  rwa [← List.head?_eq_getElem?, List.head?_eq_some_iff] at h

theorem eq_cons_cons {u v : Value} (hu : args[0]? = some u) (hv : args[1]? = some v) :
    ∃ rest, args = u :: v :: rest := by
  obtain ⟨tail, rfl⟩ := eq_cons hu
  have hhead : tail[0]? = some v := hv
  obtain ⟨rest, rfl⟩ := eq_cons hhead
  exact ⟨rest, rfl⟩

theorem position_eq_ok {index : Int64} {size i : Nat} :
    Argument.position selector index size = .ok i ↔
      (1 ≤ index.toInt ∧ index.toInt ≤ size) ∧ index.toInt.toNat - 1 = i := by
  unfold Argument.position
  split
  · next hin => simp [hin]
  · next hout => simp [hout]

end Argument

namespace Receiver

variable {selector : String} {v : Value}

theorem array_eq_ok {r : ArrayRef} : array selector v = .ok r ↔ v = .array r := by
  cases v <;> simp [array, fail]

theorem object_eq_ok {r : ObjectRef} : object selector v = .ok r ↔ v = .object r := by
  cases v <;> simp [object]

end Receiver

namespace Action

variable {α β : Type} {p : Option Place} {faults : Fault → Prop}

theorem lift_bind_eq_ok {e : Except Fault α} {f : α → Action β} {b : β} {w w' : World} :
    ((liftM e : Action α) >>= f) w = .ok b w' ↔ ∃ a, e = .ok a ∧ f a w = .ok b w' := by
  cases e with
  | ok a => simp [bind_apply]
  | error f => simp [bind_apply]

theorem get_bind_apply {f : World → Action α} (w : World) : (get >>= f) w = f w w := rfl

theorem modify_pure_eq_ok {f : World → World} {a b : α} {w w' : World} :
    (do modify f; return a : Action α) w = .ok b w' ↔ a = b ∧ f w = w' := by
  simp [bind_apply]

/-- Whatever the world, it either fails like this and leaves everything as it was, or it changes at
most this place. -/
def Atomic (p : Option Place) (faults : Fault → Prop) (x : Action α) : Prop :=
  ∀ w, x.Ensures w (fun _ w' => w.SameBut p w') fun f w' => w' = w ∧ faults f

namespace Atomic

theorem pure (a : α) : Atomic p faults (pure a) := fun w => .refl w

theorem throw {f : Fault} (h : faults f) : Atomic p faults (throw f : Action α) :=
  fun _ => ⟨rfl, h⟩

theorem get_bind {f : World → Action α} (hf : ∀ w, Atomic p faults (f w)) :
    Atomic p faults (get >>= f) := fun w => hf w w

theorem update {f : World → α × World} (hf : ∀ w : World, w.SameBut p (f w).2) :
    Atomic p faults (Action.update f) := hf

theorem modify {f : World → World} (hf : ∀ w : World, w.SameBut p (f w)) :
    Atomic p faults (modify f : Action Unit) := hf

theorem bind_pure {x : Action α} (hx : Atomic p faults x) (f : α → β) :
    Atomic p faults (x >>= fun a => Pure.pure (f a)) :=
  fun w => .bind (hx w) fun _ _ => id

variable (hfaults : ∀ f, f.isPrimitiveFailure → faults f)
include hfaults

theorem lift_bind {Q : α → Prop} {e : Except Fault α} {f : α → Action β} (he : Answers Q e)
    (hf : ∀ a, e = .ok a → Atomic p faults (f a)) : Atomic p faults (liftM e >>= f) := by
  cases e with
  | ok a => exact hf a rfl
  | error g => exact throw (hfaults g he)

theorem lift {Q : α → Prop} {e : Except Fault α} (he : Answers Q e) :
    Atomic p faults (liftM e : Action α) := by
  cases e with
  | ok a => exact pure a
  | error g => exact throw (hfaults g he)

end Atomic

end Action

namespace AtomicOperation

/-- The default handlers of what a program may handle itself. -/
def isHandler : AtomicOperation → Bool
  | failNotUnderstood | failUnknownGlobal | failEscapedBlock => true
  | _ => false

def raised? (op : AtomicOperation) (receiver : Value) (args : List Value) : Option Fault :=
  match op, args with
  | failNotUnderstood, selector :: _ => some (.messageNotUnderstood receiver selector)
  | failUnknownGlobal, name :: _ => some (.unknownGlobal receiver name)
  | failEscapedBlock, _ => some (.escapedBlock receiver)
  | _, _ => none

/-- The faults of an operation: of a default handler that was given enough arguments only its own, else
those of primitives. -/
def Raises (op : AtomicOperation) (receiver : Value) (args : List Value) (f : Fault) : Prop :=
  match op.raised? receiver args with
  | some raised => f = raised
  | none => f.isPrimitiveFailure

/-- The one place that an operation may change. -/
def place? (op : AtomicOperation) (receiver : Value) (args : List Value) : Option Place :=
  match op, receiver, args with
  | arrayAtPut, .array r, .integer n :: _ => some (.element r (n.toInt.toNat - 1))
  | fieldAtPut, .object r, .integer n :: _ => some (.field r (n.toInt.toNat - 1))
  | globalAtPut, _, .symbol name :: _ => some (.global name)
  | printText, _, _ | printNewline, _, _ => some .transcript
  | asSymbol, .string _ s, _ => some (.symbol s)
  | asSymbol, .symbol s, _ => some (.symbol s.name)
  | _, _, _ => none

theorem run_of_raised {op : AtomicOperation} {receiver : Value} {args : List Value} {f : Fault}
    (h : op.raised? receiver args = some f) (w : World) : op.run receiver args w = .error f w := by
  cases op with
  | failNotUnderstood | failUnknownGlobal =>
    cases args with
    | nil => cases h
    | cons a rest =>
      cases h
      rfl
  | failEscapedBlock =>
    cases h
    rfl
  | _ => cases h

theorem run_atomic (op : AtomicOperation) (receiver : Value) (args : List Value) :
    (op.run receiver args).Atomic (op.place? receiver args) (op.Raises receiver args) := by
  obtain ⟨raised, hraised⟩ | hraised :=
    (Option.eq_none_or_eq_some (op.raised? receiver args)).symm
  · intro w
    rw [Action.Ensures, run_of_raised hraised w]
    exact ⟨rfl, by rw [Raises, hraised]⟩
  have hfaults (f : Fault) (h : f.isPrimitiveFailure) : op.Raises receiver args f := by
    rwa [Raises, hraised]
  have hany (selector : String) (i : Nat) : Answers (fun _ => True) (Argument.any selector args i) :=
    .any (fun _ _ => trivial) selector i
  have hgood (v : Value) (_ : v.block? = none) : True := trivial
  have hbinary {selector : String} {f : Value → Value → Except Fault Value}
      (hf : ∀ a b, Answers (fun _ => True) (f a b)) :
      Action.Atomic (op.place? receiver args) (op.Raises receiver args)
        (liftM (do f receiver (← Argument.any selector args 0) : Except Fault Value)) :=
    .lift hfaults (.bind (hany _ _) fun _ _ => hf _ _)
  have fresh (s : String) : Action.Atomic (op.place? receiver args) (op.Raises receiver args)
      (Action.update (·.newString s)) := .update fun w => .newString w s
  cases op with
  | identical | stringEqual =>
    exact .lift (Q := fun _ => True) hfaults (.bind (hany _ _) fun _ _ => trivial)
  | add | subtract | multiply => exact hbinary fun _ _ => .arithmetic hgood _ _ _ _ _
  | floorDivide => exact hbinary fun _ _ => .floorDivide hgood _ _
  | divide => exact hbinary fun _ _ => .divide hgood _ _
  | less | greater | lessEqual | greaterEqual =>
    exact hbinary fun _ _ => .compare hgood _ _ _ _ _
  | numericEqual => exact hbinary fun _ _ => .equal hgood _ _
  | numericNotEqual => exact hbinary fun _ _ => .notEqual hgood _ _
  | asInteger =>
    exact .lift_bind hfaults (.receiverDouble _ _) fun _ _ => .lift hfaults (.asInteger hgood _)
  | modulo =>
    exact .lift_bind hfaults (.receiverInteger _ _) fun _ _ =>
      .lift_bind hfaults (.integer _ _ _) fun _ _ => .lift hfaults (.modulo hgood _ _)
  | failNotUnderstood | failUnknownGlobal =>
    refine .lift_bind hfaults (hany _ _) fun v hv => ?_
    cases args with
    | nil => cases hv
    | cons a rest => cases hraised
  | failEscapedBlock => cases hraised
  | asDouble => exact .lift_bind hfaults (.receiverInteger _ _) fun _ _ => .pure _
  | stringLength => exact .lift_bind hfaults (.textOf _ _) fun _ _ => .pure _
  | classOf => exact .get_bind fun _ => .pure _
  | describe => exact .get_bind fun _ => fresh _
  | className | superclass =>
    exact .lift_bind hfaults (.receiverClass _ _) fun _ _ => .get_bind fun _ => .pure _
  | arrayLength =>
    exact .lift_bind hfaults (.receiverArray _ _) fun _ _ => .get_bind fun _ => .pure _
  | asString => exact .lift_bind hfaults (.textOf _ _) fun _ _ => fresh _
  | concatenate =>
    exact .lift_bind hfaults (.textOf _ _) fun _ _ => .lift_bind hfaults (hany _ _) fun _ _ =>
      .lift_bind hfaults (.textOf _ _) fun _ _ => fresh _
  | asSymbol =>
    refine .lift_bind hfaults (.textOf _ _) fun s hs => .bind_pure (.update fun w => ?_) _
    cases receiver <;> cases hs <;> exact .intern w _
  | newInstance =>
    exact .lift_bind hfaults (.receiverClass _ _) fun c _ => .update fun w => .newInstance w c
  | newArray =>
    refine .lift_bind hfaults (.integer _ _ _) fun n _ => ?_
    split
    · exact .throw (hfaults _ rfl)
    · exact .update fun w => .newArray w _
  | fieldAt =>
    refine .lift_bind hfaults (.integer _ _ _) fun _ _ => ?_
    refine .lift_bind hfaults (.receiverObject _ _) fun _ _ => .get_bind fun _ => ?_
    exact .lift_bind hfaults (.position _ _ _) fun _ _ => .pure _
  | globalAt => exact .lift_bind hfaults (.symbol _ _ _) fun _ _ => .get_bind fun _ => .pure _
  | arrayAt =>
    refine .lift_bind hfaults (.receiverArray _ _) fun _ _ => ?_
    refine .lift_bind hfaults (.integer _ _ _) fun _ _ => .get_bind fun _ => ?_
    exact .lift_bind hfaults (.position _ _ _) fun _ _ => .pure _
  | fieldAtPut =>
    refine .lift_bind hfaults (.integer _ _ _) fun n hn => .lift_bind hfaults (hany _ _) fun v _ => ?_
    refine .lift_bind hfaults (.receiverObject _ _) fun r hr => .get_bind fun _ => ?_
    refine .lift_bind hfaults (.position _ _ _) fun i hi => .bind_pure (.modify fun w => ?_) _
    obtain ⟨-, rfl⟩ := Argument.position_eq_ok.mp hi
    cases Receiver.object_eq_ok.mp hr
    obtain ⟨rest, rfl⟩ := Argument.eq_cons (Argument.integer_eq_ok.mp hn)
    exact .setField w r _ v
  | arrayAtPut =>
    refine .lift_bind hfaults (.receiverArray _ _) fun r hr => ?_
    refine .lift_bind hfaults (.integer _ _ _) fun n hn => .lift_bind hfaults (hany _ _) fun v _ => ?_
    refine .get_bind fun _ => .lift_bind hfaults (.position _ _ _) fun i hi => ?_
    refine .bind_pure (.modify fun w => ?_) _
    obtain ⟨-, rfl⟩ := Argument.position_eq_ok.mp hi
    cases Receiver.array_eq_ok.mp hr
    obtain ⟨rest, rfl⟩ := Argument.eq_cons (Argument.integer_eq_ok.mp hn)
    exact .setElement w r _ v
  | globalAtPut =>
    refine .lift_bind hfaults (hany _ _) fun v _ => .lift_bind hfaults (.symbol _ _ _) fun name hs => ?_
    refine .bind_pure (.modify fun w => ?_) _
    obtain ⟨rest, rfl⟩ := Argument.eq_cons (Argument.symbol_eq_ok.mp hs)
    exact .setGlobal w name v
  | printText =>
    exact .lift_bind hfaults (hany _ _) fun _ _ => .bind_pure (.modify fun w => .print w _) _
  | printNewline => exact .bind_pure (.modify fun w => .print w _) _

theorem run_handler {op : AtomicOperation} (h : op.isHandler) (receiver : Value) (args : List Value)
    (w : World) : ∃ f, op.run receiver args w = .error f w := by
  have raises (selector : String) (g : Value → Fault) :
      ∃ f, (do throw (g (← Argument.any selector args 0)) : Action Value) w = .error f w := by
    cases Argument.any selector args 0 with
    | ok v => exact ⟨g v, rfl⟩
    | error f => exact ⟨f, rfl⟩
  cases op with
  | failNotUnderstood => exact raises _ (.messageNotUnderstood receiver)
  | failUnknownGlobal => exact raises _ (.unknownGlobal receiver)
  | failEscapedBlock => exact ⟨_, rfl⟩
  | _ => cases h

theorem run_arrayAtPut {receiver v : Value} {args : List Value} {w w' : World} :
    arrayAtPut.run receiver args w = .ok v w' ↔
      ∃ r n rest, receiver = .array r ∧ args = .integer n :: v :: rest ∧
        (1 ≤ n.toInt ∧ n.toInt ≤ (w.arrays.get r).size) ∧
          w.setElement r (n.toInt.toNat - 1) v = w' := by
  simp only [run, Action.lift_bind_eq_ok, Receiver.array_eq_ok, Argument.integer_eq_ok,
    Argument.any_eq_ok, Action.get_bind_apply, Argument.position_eq_ok, Action.modify_pure_eq_ok]
  constructor
  · rintro ⟨r, rfl, n, hn, v, hv, i, ⟨hin, rfl⟩, rfl, rfl⟩
    obtain ⟨rest, rfl⟩ := Argument.eq_cons_cons hn hv
    exact ⟨r, n, rest, rfl, rfl, hin, rfl⟩
  · rintro ⟨r, n, rest, rfl, rfl, hin, rfl⟩
    exact ⟨r, rfl, n, rfl, v, rfl, _, ⟨hin, rfl⟩, rfl, rfl⟩

theorem run_fieldAtPut {receiver v : Value} {args : List Value} {w w' : World} :
    fieldAtPut.run receiver args w = .ok v w' ↔
      ∃ r n rest, receiver = .object r ∧ args = .integer n :: v :: rest ∧
        (1 ≤ n.toInt ∧ n.toInt ≤ (w.objects.get r).fields.size) ∧
          w.setField? r (n.toInt.toNat - 1) v = some w' := by
  simp only [run, Action.lift_bind_eq_ok, Receiver.object_eq_ok, Argument.integer_eq_ok,
    Argument.any_eq_ok, Action.get_bind_apply, Argument.position_eq_ok, Action.modify_pure_eq_ok]
  constructor
  · rintro ⟨n, hn, v, hv, r, rfl, i, ⟨hin, rfl⟩, rfl, rfl⟩
    obtain ⟨rest, rfl⟩ := Argument.eq_cons_cons hn hv
    exact ⟨r, n, rest, rfl, rfl, hin, World.setField?_of_lt _ _ (by omega)⟩
  · rintro ⟨r, n, rest, rfl, rfl, hin, hset⟩
    exact ⟨n, rfl, v, rfl, r, rfl, _, ⟨hin, rfl⟩, rfl, by rw [hset]; rfl⟩

/-- How a call of an operation ends, and in which world. -/
def Settles (op : AtomicOperation) (receiver : Value) (args : List Value) (w : World) :
    Outcome → World → Prop
  | .ok _, w' => op.isHandler = false ∧ w.SameBut (op.place? receiver args) w'
  | .error (.fault f), w' => w' = w ∧ op.Raises receiver args f
  | .error (.nonLocalReturn _ _), _ => False

end AtomicOperation

namespace Machine

variable {receiver : Value} {args : List Value} {waiting : List Waiting} {w : World}

theorem operate_settles (op : AtomicOperation) :
    ∃ o w', operate (.atomic op) receiver args waiting w = ⟨.answer o, waiting, w'⟩ ∧
      op.Settles receiver args w o w' := by
  have hatomic := op.run_atomic receiver args w
  unfold Action.Ensures at hatomic
  unfold operate Operation.start
  dsimp only
  rw [Action.bind_apply]
  cases hrun : op.run receiver args w with
  | ok v w' =>
    rw [hrun] at hatomic
    refine ⟨.ok v, w', rfl, ?_, hatomic⟩
    rw [Bool.eq_false_iff]
    intro hhandler
    obtain ⟨f, hf⟩ := op.run_handler hhandler receiver args w
    cases hf.symm.trans hrun
  | error f w' =>
    rw [hrun] at hatomic
    exact ⟨.error (.fault f), w', rfl, hatomic⟩

theorem operate_answers {op : AtomicOperation} {v : Value} {w' : World} :
    operate (.atomic op) receiver args waiting w = ⟨.answer (.ok v), waiting, w'⟩ ↔
      op.run receiver args w = .ok v w' := by
  unfold operate Operation.start
  dsimp only
  rw [Action.bind_apply]
  cases op.run receiver args w with
  | ok u u' => simp [reply]
  | error f u' => simp [Control.fault]

/-- Operations that run no code of the language are total and atomic, on any receiver, with any
arguments and in any world. The two indexed stores fail exactly for want of the right kinds of
values or when the position is outside, and a default handler that was given enough arguments fails
with its own fault. -/
theorem atomic_operations_settle (receiver : Value) (args : List Value) (waiting : List Waiting)
    (w : World) :
    (∀ op : AtomicOperation, ∃ o w',
      operate (.atomic op) receiver args waiting w = ⟨.answer o, waiting, w'⟩ ∧
        op.Settles receiver args w o w') ∧
    (∀ v w', operate (.atomic .arrayAtPut) receiver args waiting w =
        ⟨.answer (.ok v), waiting, w'⟩ ↔
      ∃ r n rest, receiver = .array r ∧ args = .integer n :: v :: rest ∧
        (1 ≤ n.toInt ∧ n.toInt ≤ (w.arrays.get r).size) ∧
          w.setElement r (n.toInt.toNat - 1) v = w') ∧
    (∀ v w', operate (.atomic .fieldAtPut) receiver args waiting w =
        ⟨.answer (.ok v), waiting, w'⟩ ↔
      ∃ r n rest, receiver = .object r ∧ args = .integer n :: v :: rest ∧
        (1 ≤ n.toInt ∧ n.toInt ≤ (w.objects.get r).fields.size) ∧
          w.setField? r (n.toInt.toNat - 1) v = some w') :=
  ⟨operate_settles, fun _ _ => operate_answers.trans AtomicOperation.run_arrayAtPut,
    fun _ _ => operate_answers.trans AtomicOperation.run_fieldAtPut⟩

end Machine

end MessageMachine
