import MessageMachine.Assembly.Build
import MessageMachine.Proofs.Holdings

namespace MessageMachine

namespace World

/-- Bodies and names were added, and those there were kept their places; all else is as before. -/
structure Compiles (w w' : World) : Prop where
  same : w' = { w with symbols := w'.symbols, codes := w'.codes }
  size_le : w.codes.size ≤ w'.codes.size
  codes : ∀ r, r.index < w.codes.size → w'.codes.get r = w.codes.get r
  symbols : ∀ name s, w.symbols.get? name = some s → w'.symbols.get? name = some s

namespace Compiles

theorem refl (w : World) : w.Compiles w :=
  ⟨rfl, Nat.le_refl _, fun _ _ => rfl, fun _ _ => id⟩

theorem trans {w w' w'' : World} (h : w.Compiles w') (h' : w'.Compiles w'') : w.Compiles w'' where
  same := by
    rw [h'.same, h.same]
  size_le := Nat.le_trans h.size_le h'.size_le
  codes := fun r hr => (h'.codes r (Nat.lt_of_lt_of_le hr h.size_le)).trans (h.codes r hr)
  symbols := fun name s hs => h'.symbols name s (h.symbols name s hs)

theorem intern (w : World) (name : String) : w.Compiles (w.intern name).2 :=
  ⟨rfl, Nat.le_refl _, fun _ _ => rfl, fun _ _ hs => SymbolTable.get?_intern_of_get? hs name⟩

theorem newCode (w : World) (c : Code) : w.Compiles (w.newCode c).2 where
  same := rfl
  size_le := by
    simp only [World.newCode, Arena.size_push]
    exact Nat.le_succ _
  codes := fun r hr => by
    simp only [World.newCode]
    rw [Arena.get_push, if_neg]
    rintro rfl
    exact Nat.lt_irrefl _ hr
  symbols := fun _ _ => id

theorem code {w w' : World} (h : w.Compiles w') {r : CodeRef} (hr : r.index < w.codes.size) :
    w'.code r = w.code r := congrArg Compiled.code (h.codes r hr)

end Compiles

end World

namespace Action

/-- Whether it answers or fails, the action only compiles. -/
def Compiles (x : Action α) (w : World) : Prop :=
  x.Ensures w (fun _ w' => w.Compiles w') (fun _ w' => w.Compiles w')

namespace Compiles

variable {α β : Type} {w : World}

theorem pure (a : α) : Compiles (pure a) w := .refl w

theorem throw (f : Fault) : Compiles (throw f : Action α) w := .refl w

theorem bind {x : Action α} {f : α → Action β} (hx : x.Compiles w)
    (hf : ∀ a w', (f a).Compiles w') : Compiles (x >>= f) w := by
  refine Ensures.bind hx fun a w' hw => (hf a w').mono ?_ ?_
  · exact fun _ _ hw' => hw.trans hw'
  · exact fun _ _ hw' => hw.trans hw'

theorem lift (e : Except Fault α) : Compiles (liftM e : Action α) w := by
  cases e with
  | ok a => exact pure a
  | error f => exact throw f

theorem mapM {f : α → Action β} (hf : ∀ a w, (f a).Compiles w) (xs : List α) (w : World) :
    Compiles (xs.mapM f) w := by
  induction xs generalizing w with
  | nil => exact pure []
  | cons x xs ih =>
    rw [List.mapM_cons]
    exact bind (hf x w) fun _ _ => bind (ih _) fun _ _ => pure _

theorem mapM_array {f : α → Action β} (hf : ∀ a w, (f a).Compiles w) (xs : Array α) (w : World) :
    Compiles (xs.mapM f) w := by
  rw [Array.mapM_eq_mapM_toList, map_eq_pure_bind]
  exact bind (mapM hf xs.toList w) fun _ _ => pure _

end Compiles

end Action

theorem LiteralSource.value_compiles (blocks : Array CodeRef) (l : LiteralSource) (w : World) :
    (l.value blocks).Compiles w := by
  cases l with
  | constant v => exact .pure v
  | symbol name => exact .bind (.intern w name) fun _ _ => .pure _
  | block n => exact .pure _

/-- What a layout comes to. -/
inductive Layout.Judged (l : Layout) : Except Fault Code → Prop where
  | arity (h : l.argCount ≠ l.signature.arity) :
    l.Judged (.error (.arityMismatch (.selector l.signature.name) l.signature.arity l.argCount))
  | word (hargs : l.argCount = l.signature.arity) (h : ¬ l.Fits) :
    l.Judged (.error (.internal .countOverflow))
  | room (hargs : l.argCount = l.signature.arity) (hfits : l.Fits)
    (h : l.maxStack < l.argCount + l.localCount) :
    l.Judged (.error
      (.stackOverflow (.selector l.signature.name) (l.argCount + l.localCount) l.maxStack))
  | accepted (hargs : l.argCount = l.signature.arity) (hfits : l.Fits)
    (hroom : l.argCount + l.localCount ≤ l.maxStack) (fits) :
    l.Judged (.ok {
      signature := l.signature, bytecodes := l.bytecodes, literals := l.literals
      localCount := l.localCount, operandCapacity := l.maxStack - (l.argCount + l.localCount)
      level := l.level, fits })

theorem Layout.code?_judged (l : Layout) : l.Judged l.code? := by
  unfold code?
  dsimp only
  split
  · next hargs => exact .arity hargs
  next hargs =>
  have hargs := Decidable.not_not.mp hargs
  split
  · next hfits => exact .word hargs hfits
  next hfits =>
  have hfits := Decidable.not_not.mp hfits
  split
  · next hroom => exact .room hargs hfits hroom
  next hroom => exact .accepted hargs hfits (Nat.not_lt.mp hroom) _

theorem Layout.code?_eq_ok {l : Layout} {c : Code} (h : l.code? = .ok c) :
    l.argCount = l.signature.arity ∧ l.Fits ∧ l.argCount + l.localCount ≤ l.maxStack ∧
      ∃ fits, c = {
        signature := l.signature, bytecodes := l.bytecodes, literals := l.literals
        localCount := l.localCount, operandCapacity := l.maxStack - (l.argCount + l.localCount)
        level := l.level, fits } := by
  have hjudged := l.code?_judged
  rw [h] at hjudged
  cases hjudged with
  | accepted hargs hfits hroom fits => exact ⟨hargs, hfits, hroom, fits, rfl⟩

theorem Layout.compile_compiles (l : Layout) (w : World) : l.compile.Compiles w :=
  .bind (.lift _) fun c w => .newCode w c

mutual

theorem Source.build_compiles (s : Source) (outerLevel : UInt8) (w : World) :
    (s.build outerLevel).Compiles w := by
  obtain ⟨kind, signature, localCount, level?, maxStack?, code⟩ := s
  unfold Source.build
  dsimp only
  split
  · exact .throw _
  split
  · exact .throw _
  refine .bind (buildBlocks_compiles _ code w) fun blocks w => ?_
  refine .bind (.mapM_array (LiteralSource.value_compiles _) _ w) fun literals w => ?_
  exact .bind (.intern w signature) fun _ w => Layout.compile_compiles _ w

theorem buildBlocks_compiles (level : UInt8) (code : List SourceItem) (w : World) :
    (buildBlocks level code).Compiles w := by
  match code with
  | [] => exact .pure []
  | item :: rest =>
    unfold buildBlocks
    exact .bind (buildBlock_compiles level item w) fun _ w =>
      .bind (buildBlocks_compiles level rest w) fun _ _ => .pure _

theorem buildBlock_compiles (level : UInt8) (item : SourceItem) (w : World) :
    (buildBlock level item).Compiles w := by
  match item with
  | .pushBlock s =>
    unfold buildBlock
    exact .bind (Source.build_compiles s level w) fun _ _ => .pure _
  | .halt | .dup | .pop | .returnLocal | .returnNonLocal | .pushSlot .. | .popSlot .. | .pushField _
  | .popField _ | .pushConstant _ | .pushSymbol _ | .pushGlobal _ | .send _ | .superSend _ | .raw _ =>
    unfold buildBlock
    exact .pure []

end

end MessageMachine
