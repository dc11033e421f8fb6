import MessageMachine.Proofs.Altering
import MessageMachine.Proofs.Ignoring

namespace MessageMachine

namespace World

/-- The settings, the frames and markers of activations, and how many of them and of their loops there
are. -/
structure Stage where
  config : Config
  frames : Arena .frames Frame
  markers : Arena .markers Bool
  depth : Nat
  reentry : Nat

/-- The stage under the standard settings. -/
def Stage.plain (s : Stage) : Stage := { s with config := .standard }

def stage (w : World) : Stage := ⟨w.config, w.frames, w.markers, w.depth, w.reentry⟩

def restage (t : Stage → Stage) (w : World) : World :=
  { w with
    config := (t w.stage).config, frames := (t w.stage).frames, markers := (t w.stage).markers
    depth := (t w.stage).depth, reentry := (t w.stage).reentry, journal := .off }

variable {t : Stage → Stage}

theorem restage_note (w : World) (e : Event) : (w.note e).restage t = w.restage t := by
  unfold note
  split <;> rfl

theorem restage_setHolderWithin (c : ClassRef) (depth : Nat) (r : CodeRef) (w : World) :
    setHolderWithin c depth r (w.restage t) = (setHolderWithin c depth r w).restage t := by
  induction depth generalizing r w with
  | zero => rfl
  | succ depth ih =>
    symm
    refine (List.foldl_hom (restage t) fun w v => ?_).symm
    cases v with
    | method m =>
      cases m with
      | compiled nested => exact ih nested w
      | primitive p => rfl
    | _ => rfl

theorem restage_install (w : World) (c : ClassRef) (m : Method) :
    (w.restage t).install c m = (w.install c m).restage t := by
  cases m with
  | compiled r =>
    simp only [install, addMethod, setHolder, restage_setHolderWithin]
    rfl
  | primitive p => rfl

theorem restage_installCode (w : World) (c : ClassRef) (r : CodeRef) :
    (w.restage t).installCode c r = (w.installCode c r).restage t := by
  -- Installing is recorded or not, as the settings say.
  have hinstall : (w.restage t).installCode c r = (w.restage t).install c (.compiled r) := by
    unfold installCode
    split <;> rfl
  rw [hinstall]
  unfold installCode
  split
  · rw [← restage_install, restage_note]
  · exact restage_install w c _

end World

open World (Stage restage)

variable {t : Stage → Stage}

theorem LiteralSource.value_ignores (blocks : Array CodeRef) (l : LiteralSource) :
    Ignores (restage t) (l.value blocks) := by
  cases l with
  | constant v => exact .pure v
  | symbol name => exact .bind (.update fun _ => rfl) fun _ => .pure _
  | block n => exact .pure _

theorem Layout.compile_ignores (l : Layout) : Ignores (restage t) l.compile :=
  .bind (.lift _) fun _ => .update fun _ => rfl

mutual

theorem Source.build_ignores (s : Source) (level : UInt8) :
    Ignores (restage t) (s.build level) := by
  obtain ⟨kind, signature, localCount, level?, maxStack?, code⟩ := s
  unfold Source.build
  dsimp only
  split
  · exact .throw _
  split
  · exact .throw _
  refine .bind (buildBlocks_ignores _ code) fun blocks => ?_
  rw [Array.mapM_eq_mapM_toList, map_eq_pure_bind]
  refine .bind (.bind (.mapM (LiteralSource.value_ignores _) _) fun _ => .pure _) fun literals => ?_
  exact .bind (.update fun _ => rfl) fun _ => Layout.compile_ignores _

theorem buildBlocks_ignores (level : UInt8) (code : List SourceItem) :
    Ignores (restage t) (buildBlocks level code) := by
  match code with
  | [] => exact .pure []
  | item :: rest =>
    unfold buildBlocks
    exact .bind (buildBlock_ignores level item) fun _ =>
      .bind (buildBlocks_ignores level rest) fun _ => .pure _

theorem buildBlock_ignores (level : UInt8) (item : SourceItem) :
    Ignores (restage t) (buildBlock level item) := by
  match item with
  | .pushBlock s =>
    unfold buildBlock
    exact .bind (s.build_ignores level) fun _ => .pure _
  | .halt | .dup | .pop | .returnLocal | .returnNonLocal | .pushSlot _ _ _ | .popSlot _ _ _
  | .pushField _ | .popField _ | .pushConstant _ | .pushSymbol _ | .pushGlobal _ | .send _
  | .superSend _ | .raw _ => exact .pure []

end

namespace World

variable (w : World)

theorem restage_internAll (names : List String) :
    (w.restage t).internAll names = ((w.internAll names).1, (w.internAll names).2.restage t) := by
  induction names generalizing w with
  | nil => rfl
  | cons name rest ih =>
    have hintern : (w.restage t).intern name = ((w.intern name).1, (w.intern name).2.restage t) := rfl
    simp only [internAll, hintern, ih]

theorem restage_define (name : String) (superclass : ClassRef) (fields : List String) :
    ((w.restage t).define name superclass fields).2 =
      (w.define name superclass fields).2.restage t := by
  simp only [define, restage_internAll, restage_note]
  rfl

theorem restage_lookup (c : ClassRef) (selector : Symbol) :
    ((w.restage t).lookup c selector).2 = (w.lookup c selector).2.restage t := by
  obtain ⟨found, memos, hdepends⟩ := w.lookupWithin_depends selector (c.index + 1) c
  rw [lookup, lookup, hdepends w rfl rfl, hdepends (w.restage t) rfl rfl]
  rfl

theorem restage_alter (a : Alteration) : (w.restage t).alter a = (w.alter a).restage t := by
  cases a with
  | define name superclass fields => exact w.restage_define name superclass fields
  | build s => exact (s.build_ignores _).leaves w
  | layout l => exact l.compile_ignores.leaves w
  | install c r => exact w.restage_installCode c r
  | source c s =>
    have hinstall : Ignores (restage t) (s.install c) :=
      .bind (s.build_ignores _) fun _ => .bind (.modify fun w => w.restage_installCode _ _) fun _ => .pure _
    exact hinstall.leaves w
  | classPrimitive c selector op =>
    have hmetaclass : ((w.restage t).cls c).metaclass = (w.cls c).metaclass := rfl
    simp only [alter, installClassPrimitive, hmetaclass]
    cases (w.cls c).metaclass <;> rfl
  | lookup c selector => exact w.restage_lookup c selector
  | intern | primitive | flush => rfl

theorem restage_alterAll (as : List Alteration) :
    (w.restage t).alterAll as = (w.alterAll as).restage t := by
  induction as generalizing w with
  | nil => rfl
  | cons a as ih => rw [alterAll, alterAll, restage_alter, ih]

theorem alter_stage (a : Alteration) : (w.alter a).stage = w.stage := by
  -- Changing the stage to what it is anyway changes nothing, before or after.
  have hsame := (w.restage id).restage_alter (t := fun _ => w.stage) a
  change (w.restage id).alter a = _ at hsame
  rw [restage_alter] at hsame
  exact (congrArg stage hsame :)

theorem restage_bindGlobals : (w.restage t).bindGlobals = w.bindGlobals.restage t := rfl

theorem restage_core (config : Config) (journal : Journal) :
    (core config journal).restage .plain = core .standard .off := by
  have hclasses : CoreClass.all.foldl newCoreClass (empty .standard .off) =
      (CoreClass.all.foldl newCoreClass (empty config journal)).restage .plain :=
    @List.foldl_hom _ _ _ (restage .plain) _ _ _ (empty config journal) fun _ _ => rfl
  have hregistered (w : World) : CoreClass.all.foldl (fun w c => w.register c.ref) (w.restage .plain) =
      (CoreClass.all.foldl (fun w c => w.register c.ref) w).restage .plain :=
    List.foldl_hom (restage .plain) fun (w : World) (c : CoreClass) =>
      (rfl : (w.restage .plain).register c.ref = (w.register c.ref).restage .plain)
  unfold core
  rw [hclasses, hregistered]
  exact (restage_bindGlobals _).symm

theorem boot_plain {config : Config} {journal : Journal} (h : World.boot config journal = .ok w) :
    w.restage .plain = standard := by
  rw [boot_eq h, boot_eq boot_standard, ← restage_alterAll, restage_core]

end World

end MessageMachine
