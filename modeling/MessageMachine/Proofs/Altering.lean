import MessageMachine.Proofs.Assembling
import MessageMachine.Proofs.Installing

namespace MessageMachine

/-- A method and the class that it was installed in. -/
structure Installation where
  cls : ClassRef
  method : Method
deriving DecidableEq

/-- The installations so far, the most recent one first. -/
abbrev History := List Installation

/-- What a host does to classes and methods. -/
inductive Alteration where
  | define (name : String) (superclass : ClassRef) (fields : List String)
  | intern (name : String)
  | build (s : Source)
  | layout (l : Layout)
  | install (c : ClassRef) (r : CodeRef)
  | source (c : ClassRef) (s : Source)
  | primitive (c : ClassRef) (selector : String) (op : Operation) (evaluatesBlock : Bool)
  | classPrimitive (c : ClassRef) (selector : String) (op : Operation)
  | flush
  | lookup (c : ClassRef) (selector : Symbol)

/-- The world that an action leaves behind, whether it answers or fails. -/
def Action.leaves (x : Action α) (w : World) : World :=
  match x w with
  | .ok _ w | .error _ w => w

namespace World

def alter (w : World) : Alteration → World
  | .define name superclass fields => (w.define name superclass fields).2
  | .intern name => (w.intern name).2
  | .build s => s.compile.leaves w
  | .layout l => l.compile.leaves w
  | .install c r => w.installCode c r
  | .source c s => (s.install c).leaves w
  | .primitive c selector op evaluatesBlock => (w.installPrimitive c selector op evaluatesBlock).2
  | .classPrimitive c selector op =>
    match w.installClassPrimitive c selector op with
    | .ok (_, w) => w
    | .error _ => w
  | .flush => w.flushMemos
  | .lookup c selector => (w.lookup c selector).2

def installs (w : World) : Alteration → History
  | .install c r => [⟨c, .compiled r⟩]
  | .source c s =>
    match s.compile w with
    | .ok r _ => [⟨c, .compiled r⟩]
    | .error _ _ => []
  | .primitive c _ _ _ => [⟨c, .primitive w.primitives.next⟩]
  | .classPrimitive c _ _ =>
    match (w.cls c).metaclass with
    | some m => [⟨m, .primitive w.primitives.next⟩]
    | none => []
  | .define _ _ _ | .intern _ | .build _ | .layout _ | .flush | .lookup _ _ => []

def alterAll (w : World) : List Alteration → World
  | [] => w
  | a :: as => (w.alter a).alterAll as

def log (w : World) : List Alteration → History
  | [] => []
  | a :: as => (w.alter a).log as ++ w.installs a

theorem alterAll_append (w : World) (as bs : List Alteration) :
    w.alterAll (as ++ bs) = (w.alterAll as).alterAll bs := by
  induction as generalizing w with
  | nil => rfl
  | cons a as ih => exact ih (w.alter a)

end World

/-- Classes that are given are registered, and methods that are given were made before. -/
def Alteration.Allowed (w : World) : Alteration → Prop
  | define _ superclass _ => superclass ∈ w.registered
  | build s => s.allowed fun v => w.Has v
  | layout l => ∀ v ∈ l.literals, w.Has v
  | install c r => c ∈ w.registered ∧ w.Made (.compiled r)
  | source c s => c ∈ w.registered ∧ s.allowed fun v => w.Has v
  | primitive c _ _ _ | classPrimitive c _ _ => c ∈ w.registered
  | intern _ | flush | lookup _ _ => True

instance (w : World) : (a : Alteration) → Decidable (a.Allowed w)
  | .define _ c _ | .primitive c _ _ _ | .classPrimitive c _ _ =>
    inferInstanceAs (Decidable (c ∈ w.registered))
  | .build s => inferInstanceAs (Decidable (s.allowed (fun v => w.Has v) = true))
  | .layout l => inferInstanceAs (Decidable (∀ v ∈ l.literals, w.Has v))
  | .install _ _ | .source _ _ => inferInstanceAs (Decidable (_ ∧ _))
  | .intern _ | .flush | .lookup _ _ => inferInstanceAs (Decidable True)

def World.Allows (w : World) : List Alteration → Prop
  | [] => True
  | a :: as => a.Allowed w ∧ (w.alter a).Allows as

instance World.decidableAllows (w : World) : (as : List Alteration) → Decidable (w.Allows as)
  | [] => inferInstanceAs (Decidable True)
  | a :: as =>
    have := (w.alter a).decidableAllows as
    inferInstanceAs (Decidable (a.Allowed w ∧ (w.alter a).Allows as))

/-- The worlds that alterations make of a world, each with the history since then. -/
inductive World.Altered (w₀ : World) : World → History → Prop where
  | refl : Altered w₀ w₀ []
  | alter {w : World} {H : History} (h : Altered w₀ w H) {a : Alteration} (ha : a.Allowed w) :
      Altered w₀ (w.alter a) (w.installs a ++ H)

namespace World

variable {w w' w'' : World}

/-- Classes without methods were added; those made before have the methods and the superclass that
they had. -/
structure Widens (w w' : World) : Prop where
  size_le : w.classes.size ≤ w'.classes.size
  methods : ∀ d : ClassRef, d.index < w.classes.size → (w'.cls d).methods = (w.cls d).methods
  superclass : ∀ d : ClassRef, d.index < w.classes.size → (w'.cls d).superclass = (w.cls d).superclass
  fresh : ∀ d : ClassRef, w.classes.size ≤ d.index → (w'.cls d).methods = .empty

theorem cls_of_le {d : ClassRef} (h : w.classes.size ≤ d.index) : w.cls d = default :=
  Arena.get_of_le _ h

theorem Widens.of_classes (h : w'.classes = w.classes) : w.Widens w' where
  size_le := Nat.le_of_eq (by rw [h])
  methods := fun d _ => by rw [cls, h, cls]
  superclass := fun d _ => by rw [cls, h, cls]
  fresh := fun d hd => by
    rw [cls, h, Arena.get_of_le _ hd]
    rfl

theorem Widens.trans (h : w.Widens w') (h' : w'.Widens w'') : w.Widens w'' where
  size_le := Nat.le_trans h.size_le h'.size_le
  methods := fun d hd => (h'.methods d (Nat.lt_of_lt_of_le hd h.size_le)).trans (h.methods d hd)
  superclass := fun d hd =>
    (h'.superclass d (Nat.lt_of_lt_of_le hd h.size_le)).trans (h.superclass d hd)
  fresh := fun d hd => by
    by_cases hlt : d.index < w'.classes.size
    · rw [h'.methods d hlt, h.fresh d hd]
    · exact h'.fresh d (Nat.le_of_not_lt hlt)

theorem newClass_widens (w : World) (name : Symbol) (superclass : Option ClassRef)
    (fields : List Symbol) : w.Widens (w.newClass name superclass fields).2 := by
  have hold {d : ClassRef} (hd : d.index < w.classes.size) :
      (w.newClass name superclass fields).2.cls d = w.cls d := by
    simp only [cls, newClass, Arena.get_push_of_lt _ _ hd]
  refine ⟨?_, fun d hd => by rw [hold hd], fun d hd => by rw [hold hd], fun d hd => ?_⟩
  · simp only [newClass, Arena.size_push]
    exact Nat.le_succ _
  · simp only [cls, newClass, Arena.get_push]
    split
    · rfl
    · rw [Arena.get_of_le _ hd]
      rfl

theorem register_widens (w : World) (c : ClassRef) :
    w.Widens (w.register c) ∧ (w.register c).classes.size = w.classes.size + 1 ∧
      (w.register c).registered = w.registered ++ [c, w.classes.next] := by
  obtain ⟨name, v, hv, heq⟩ := w.register_eq c
  have hnew := (Widens.of_classes hv.classes).trans (v.newClass_widens name (some (w.metaSuperclass c)) [])
  have hsize : (v.newClass name (some (w.metaSuperclass c)) []).2.classes.size = w.classes.size + 1 := by
    simp only [newClass, Arena.size_push, hv.classes]
  generalize (v.newClass name (some (w.metaSuperclass c)) []).2 = u at heq hnew hsize
  rw [heq]
  refine ⟨hnew.trans ?_, by simpa only [Arena.size_set] using hsize, rfl⟩
  have hcls (d : ClassRef) : (cls { u with
      classes := u.classes.set c { u.cls c with metaclass := some w.classes.next } } d).methods =
        (u.cls d).methods ∧ (cls { u with
      classes := u.classes.set c { u.cls c with metaclass := some w.classes.next } } d).superclass =
        (u.cls d).superclass := by
    simp only [cls, Arena.get_set]
    split
    · next h => rw [h.1]; exact ⟨rfl, rfl⟩
    · exact ⟨rfl, rfl⟩
  refine ⟨Nat.le_of_eq (Arena.size_set _ _ _).symm, fun d _ => (hcls d).1, fun d _ => (hcls d).2, ?_⟩
  intro d hd
  exact (hcls d).1.trans (by rw [cls_of_le hd]; rfl)

theorem note_memos (w : World) (e : Event) : (w.note e).memos = w.memos := by
  unfold note
  split <;> rfl

theorem define_widens (w : World) (name : String) (superclass : ClassRef) (fields : List String) :
    w.Widens (w.define name superclass fields).2 ∧
      (w.define name superclass fields).2.classes.size = w.classes.size + 2 ∧
      (w.define name superclass fields).2.registered =
        w.registered ++ [⟨w.classes.size⟩, ⟨w.classes.size + 1⟩] ∧
      (w.define name superclass fields).2.memos = w.memos ∧
      (w.define name superclass fields).2.primitives = w.primitives := by
  have hnames := (w.internAll_compiles fields).trans (.intern _ name)
  have hmemos : ((w.internAll fields).2.intern name).2.memos = w.memos := by rw [hnames.same]
  have hprimitives : ((w.internAll fields).2.intern name).2.primitives = w.primitives := by
    rw [hnames.same]
  have hregistered : ((w.internAll fields).2.intern name).2.registered = w.registered := by
    rw [hnames.same]
  unfold define
  dsimp only
  generalize ((w.internAll fields).2.intern name).2 = u at hnames hregistered hmemos hprimitives
  generalize hv : (u.newClass _ (some superclass) _).2 = v
  have hnew : w.Widens v := hv ▸ (Widens.of_classes hnames.classes).trans (u.newClass_widens _ _ _)
  have hsize : v.classes.size = w.classes.size + 1 := by
    rw [← hv]
    simp only [newClass, Arena.size_push, hnames.classes]
  have hlist : v.registered = w.registered := by
    rw [← hv]
    exact hregistered
  obtain ⟨hwidens, hmeta, hadded⟩ := v.register_widens (u.newClass _ (some superclass) _).1
  refine ⟨hnew.trans (hwidens.trans (.of_classes (note_classes _ _))), ?_, ?_, ?_, ?_⟩
  · rw [note_classes, hmeta, hsize]
  · rw [(note_still _ _).registered, hadded, hlist]
    simp only [newClass, Arena.next, hsize, hnames.classes]
  · rw [note_memos]
    exact (congrArg World.memos hv).symm.trans hmemos
  · rw [(note_still _ _).primitives]
    exact (congrArg World.primitives hv).symm.trans hprimitives

/-- Bodies and primitives were added that no class holds, bodies only over earlier ones. -/
structure Grows (w w' : World) : Prop where
  codes_le : w.codes.size ≤ w'.codes.size
  codes : ∀ r : CodeRef, r.index < w.codes.size → w'.codes.get r = w.codes.get r
  below : ∀ r, w.codes.size ≤ r.index → ∀ n : CodeRef,
    .method (.compiled n) ∈ (w'.code r).literals → n.index < r.index
  unheld : ∀ r, w.codes.size ≤ r.index → (w'.codes.get r).holder = none
  primitives_le : w.primitives.size ≤ w'.primitives.size
  primitives : ∀ p : PrimitiveRef, p.index < w.primitives.size →
    w'.primitives.get p = w.primitives.get p
  unheldPrimitive : ∀ p, w.primitives.size ≤ p.index → (w'.primitives.get p).holder = none

theorem Assembles.grows (h : w.Assembles w') : w.Grows w' where
  codes_le := h.size_le
  codes := h.codes
  below := h.below
  unheld := h.unheld
  primitives_le := Nat.le_of_eq (by rw [h.same])
  primitives := fun p _ => by rw [h.same]
  unheldPrimitive := fun p hp => by
    rw [h.same, Arena.get_of_le _ hp]
    rfl

theorem Grows.made (h : w.Grows w') {m : Method} (hm : w.Made m) : w'.Made m := by
  cases m with
  | compiled r => exact Nat.lt_of_lt_of_le hm h.codes_le
  | primitive p => exact Nat.lt_of_lt_of_le hm h.primitives_le

theorem Grows.signature (h : w.Grows w') {m : Method} (hm : w.Made m) :
    w'.signature m = w.signature m := by
  cases m with
  | compiled r => rw [World.signature, World.code, h.codes r hm, World.signature, World.code]
  | primitive p => rw [World.signature, h.primitives p hm, World.signature]

theorem lt_of_method? {c : ClassRef} {selector : Symbol} {m : Method} (ho : w.Ordered)
    (h : w.method? c selector = some m) : c.index < w.classes.size := by
  refine Nat.lt_of_not_le fun hc => ?_
  rw [method?_eq ho, cls_of_le hc] at h
  cases h

theorem MemosValid.flush (h : w.MemosValid) : w.flushMemos.MemosValid := by
  intro c selector m hm
  simp only [flushMemos, Table.find?_filterKeys] at hm
  split at hm
  · exact (method?_congr (by rfl) c selector).trans (h c selector m hm)
  · cases hm

structure Tidy (w : World) : Prop where
  ranked : w.Ranked
  registered : ∀ c : ClassRef, c ∈ w.registered ↔ c.index < w.classes.size
  memos : w.MemosValid

/-- Names, bodies and primitives were added and lookups remembered or forgotten; the classes are as
before. -/
structure Prepares (w w' : World) : Prop extends w.Grows w' where
  classes : w'.classes = w.classes
  registered : w'.registered = w.registered
  memos : w'.MemosValid

theorem Assembles.prepares (h : w.Assembles w') (hw : w.MemosValid) : w.Prepares w' where
  toGrows := h.grows
  classes := by rw [h.same]
  registered := by rw [h.same]
  memos := hw.congr (by rw [h.same]) (by rw [h.same])

theorem Grows.of_same (hcodes : w'.codes = w.codes) (hprimitives : w'.primitives = w.primitives) :
    w.Grows w' := by
  have hrefl := (Assembles.refl w).grows
  constructor <;> simp only [hcodes, hprimitives, World.code]
  · exact Nat.le_refl _
  · exact fun _ _ => trivial
  · exact hrefl.below
  · exact hrefl.unheld
  · exact Nat.le_refl _
  · exact fun _ _ => trivial
  · exact hrefl.unheldPrimitive

theorem Prepares.of_still (h : w.Still w') (hw : w'.MemosValid) : w.Prepares w' where
  toGrows := .of_same h.codes h.primitives
  classes := h.classes
  registered := h.registered
  memos := hw

theorem Prepares.trans (h : w.Prepares w') (h' : w'.Prepares w'') : w.Prepares w'' where
  codes_le := Nat.le_trans h.codes_le h'.codes_le
  codes := fun r hr => (h'.codes r (Nat.lt_of_lt_of_le hr h.codes_le)).trans (h.codes r hr)
  below := fun r hr n hn => by
    by_cases hlt : r.index < w'.codes.size
    · rw [World.code, h'.codes r hlt] at hn
      exact h.below r hr n hn
    · exact h'.below r (Nat.le_of_not_lt hlt) n hn
  unheld := fun r hr => by
    by_cases hlt : r.index < w'.codes.size
    · rw [h'.codes r hlt, h.unheld r hr]
    · exact h'.unheld r (Nat.le_of_not_lt hlt)
  primitives_le := Nat.le_trans h.primitives_le h'.primitives_le
  primitives := fun p hp =>
    (h'.primitives p (Nat.lt_of_lt_of_le hp h.primitives_le)).trans (h.primitives p hp)
  unheldPrimitive := fun p hp => by
    by_cases hlt : p.index < w'.primitives.size
    · rw [h'.primitives p hlt, h.unheldPrimitive p hp]
    · exact h'.unheldPrimitive p (Nat.le_of_not_lt hlt)
  classes := h'.classes.trans h.classes
  registered := h'.registered.trans h.registered
  memos := h'.memos

theorem newPrimitive_prepares (hw : w.MemosValid) {p : Primitive} (hp : p.holder = none) :
    w.Prepares (w.newPrimitive p).2 where
  codes_le := Nat.le_refl _
  codes := fun _ _ => rfl
  below := (Assembles.refl w).below
  unheld := (Assembles.refl w).unheld
  primitives_le := by
    simp only [newPrimitive, Arena.size_push]
    exact Nat.le_succ _
  primitives := fun q hq => by
    simp only [newPrimitive, Arena.get_push]
    rw [if_neg]
    rintro rfl
    exact Nat.lt_irrefl _ hq
  unheldPrimitive := fun q hq => by
    simp only [newPrimitive, Arena.get_push]
    split
    · exact hp
    · rw [Arena.get_of_le _ hq]
      rfl
  classes := rfl
  registered := rfl
  memos := MemosValid.congr (w := w) rfl rfl hw

inductive Alters (w : World) : World → History → Prop where
  | prepare {u : World} (h : w.Prepares u) : Alters w u []
  | install {u : World} (h : w.Prepares u) {c : ClassRef} (hc : c ∈ w.registered) {m : Method}
      (hm : u.Made m) : Alters w (u.install c m) [⟨c, m⟩]
  | define {u : World} (h : w.Prepares u) (name : String) {superclass : ClassRef}
      (hs : superclass ∈ w.registered) (fields : List String) :
      Alters w (u.define name superclass fields).2 []

theorem Logs.prepares (h : w.Logs w') (hw : w.MemosValid) : w.Prepares w' := by
  refine .of_still h.still (hw.congr h.still.classes ?_)
  obtain rfl | ⟨e, rfl⟩ := h
  · rfl
  · exact note_memos w e

theorem installPrimitive_alters (hw : w.MemosValid) {c : ClassRef} (hc : c ∈ w.registered)
    (selector : String) (op : Operation) (evaluatesBlock : Bool) :
    w.Alters (w.installPrimitive c selector op evaluatesBlock).2
      [⟨c, .primitive w.primitives.next⟩] := by
  have hintern := (Assembles.intern w selector).prepares hw
  refine .install (hintern.trans (newPrimitive_prepares hintern.memos rfl)) hc ?_
  change w.primitives.size < (w.primitives.push _).size
  rw [Arena.size_push]
  exact Nat.lt_succ_self _

/-- One alteration: it makes a class, installs a method, or leaves the hierarchy as it is. -/
theorem alter_alters (h : w.Tidy) {a : Alteration} (ha : a.Allowed w) :
    w.Alters (w.alter a) (w.installs a) := by
  have hbuild {s : Source} (hs : s.allowed fun v => w.Has v) :
      s.compile.Assembles w fun r w' => w'.Made (.compiled r) :=
    s.build_assembles hs _ w fun v hv => of_decide_eq_true hv
  cases a with
  | define name superclass fields =>
    exact .define ((Assembles.refl w).prepares h.memos) name ha fields
  | intern name => exact .prepare ((Assembles.intern w name).prepares h.memos)
  | build s =>
    simp only [alter, Action.leaves]
    cases hs : s.compile w with
    | ok r v => exact .prepare (((hbuild ha).of_ok hs).1.prepares h.memos)
    | error f v => exact .prepare (((hbuild ha).of_error hs).prepares h.memos)
  | layout l =>
    have hl := Layout.compile_assembles ha
    simp only [alter, Action.leaves]
    cases hr : l.compile w with
    | ok r v => exact .prepare ((hl.of_ok hr).1.prepares h.memos)
    | error f v => exact .prepare ((hl.of_error hr).prepares h.memos)
  | install c r =>
    obtain ⟨u, hu, heq⟩ := w.installCode_eq c r
    simp only [alter, heq]
    have hprepares := hu.prepares h.memos
    exact .install hprepares ha.1 (hprepares.made ha.2)
  | source c s =>
    simp only [alter, installs, Action.leaves, Source.install, Action.bind_apply]
    cases hs : s.compile w with
    | error f v => exact .prepare (((hbuild ha.2).of_error hs).prepares h.memos)
    | ok r v =>
      obtain ⟨hv, hr⟩ := (hbuild ha.2).of_ok hs
      obtain ⟨u, hu, heq⟩ := v.installCode_eq c r
      have hprepares := (hv.prepares h.memos).trans (hu.prepares (hv.prepares h.memos).memos)
      have hmade := (hu.prepares (hv.prepares h.memos).memos).made hr
      change w.Alters (v.installCode c r) [⟨c, .compiled r⟩]
      rw [heq]
      exact .install hprepares ha.1 hmade
  | primitive c selector op evaluatesBlock =>
    exact installPrimitive_alters h.memos ha selector op evaluatesBlock
  | classPrimitive c selector op =>
    simp only [alter, installs, installClassPrimitive]
    cases hm : (w.cls c).metaclass with
    | none => exact .prepare ((Assembles.refl w).prepares h.memos)
    | some m =>
      have hreg := (h.registered m).mpr (h.ranked.metaclass_lt c m hm)
      exact installPrimitive_alters h.memos hreg selector op false
  | flush =>
    refine .prepare (.of_still .elsewhere h.memos.flush)
  | lookup c selector =>
    obtain ⟨memos, heq, hvalid⟩ := lookup_eq h.ranked.ordered h.memos c selector
    simp only [alter, heq]
    exact .prepare (.of_still .elsewhere hvalid)

theorem Widens.method? (h : w.Widens w') (ho : w.Ordered) (ho' : w'.Ordered) {c : ClassRef}
    (hc : c.index < w.classes.size) (selector : Symbol) :
    w'.method? c selector = w.method? c selector := by
  induction hi : c.index using Nat.strongRecOn generalizing c with
  | ind i ih =>
    rw [method?_eq ho, method?_eq ho', h.methods c hc, h.superclass c hc]
    cases (w.cls c).methods.find? selector with
    | some m => rfl
    | none =>
      cases hs : (w.cls c).superclass with
      | none => rfl
      | some s =>
        have hlt := ho c s hs
        exact ih s.index (hi ▸ hlt) (Nat.lt_trans hlt hc) rfl

/-- Installing enters the method into the table of the class, records the class as its holder, and
forgets what registered classes remember. -/
theorem install_eq (w : World) (c : ClassRef) (m : Method) :
    ∃ codes primitives, w.install c m = flushMemos { w with
        codes, primitives, classes := w.classes.set c { w.cls c with
          methods := (w.cls c).methods.insert (w.signature m) m } } ∧
      codes.size = w.codes.size ∧ primitives.size = w.primitives.size ∧
      ∀ x, signature { w with codes, primitives } x = w.signature x := by
  cases m with
  | compiled r =>
    obtain ⟨v, hv, heq⟩ := w.install_compiled c r
    refine ⟨v.codes, w.primitives, ?_, hv.size, rfl, fun x => ?_⟩
    · rw [heq, hv.same]
      rfl
    · cases x with
      | compiled s => exact congrArg Code.signature (hv.code s)
      | primitive p => rfl
  | primitive p =>
    have hsignature (x : Method) :
        signature { w with primitives := w.primitives.set p { w.primitives.get p with holder := some c } } x =
          w.signature x := by
      cases x with
      | compiled s => rfl
      | primitive q =>
        simp only [World.signature, Arena.get_set]
        split
        · next h => rw [h.1]
        · rfl
    refine ⟨w.codes, _, ?_, rfl, Arena.size_set _ _ _, hsignature⟩
    rw [← hsignature (.primitive p)]
    rfl

theorem Prepares.tidy (h : w.Prepares w') (hw : w.Tidy) : w'.Tidy where
  ranked := hw.ranked.congr h.classes
  registered := fun c => by rw [h.registered, h.classes, hw.registered]
  memos := h.memos

theorem Tidy.define (h : w.Tidy) (name : String) {superclass : ClassRef}
    (hs : superclass ∈ w.registered) (fields : List String) :
    (w.define name superclass fields).2.Tidy := by
  have hranked := h.ranked.define name ((h.registered _).mp hs) fields
  obtain ⟨hwidens, hsize, hregistered, hmemos, -⟩ := w.define_widens name superclass fields
  refine ⟨hranked, fun c => ?_, fun c selector m hm => ?_⟩
  · obtain ⟨i⟩ := c
    rw [hregistered, hsize, List.mem_append, h.registered]
    simp only [List.mem_cons, Ref.mk.injEq, List.not_mem_nil, or_false]
    omega
  · rw [hmemos] at hm
    have hfound := h.memos c selector m hm
    rw [hwidens.method? h.ranked.ordered hranked.ordered (lt_of_method? h.ranked.ordered hfound)]
    exact hfound

theorem Tidy.install (h : w.Tidy) (c : ClassRef) (m : Method) : (w.install c m).Tidy := by
  obtain ⟨codes, primitives, heq, -⟩ := w.install_eq c m
  refine ⟨h.ranked.install c m, fun d => ?_, fun d selector x hx => ?_⟩
  · rw [heq]
    simp only [flushMemos, Arena.size_set]
    exact h.registered d
  -- Whoever remembers a lookup is registered, and forgets it here.
  · rw [heq] at hx
    simp only [flushMemos, Table.find?_filterKeys] at hx
    split at hx
    · next hd =>
      have hlt := lt_of_method? h.ranked.ordered (h.memos d selector x hx)
      simp [(h.registered d).mpr hlt] at hd
    · cases hx

theorem Alters.tidy {I : History} (h : w.Alters w' I) (hw : w.Tidy) : w'.Tidy := by
  cases h with
  | prepare h => exact h.tidy hw
  | install h hc hm => exact (h.tidy hw).install _ _
  | define h name hs fields => exact (h.tidy hw).define name (h.registered ▸ hs) fields

theorem Alters.registered {I : History} (h : w.Alters w' I) {c : ClassRef}
    (hc : c ∈ w.registered) : c ∈ w'.registered := by
  cases h with
  | prepare h => rwa [h.registered]
  | @install u h d _ m _ =>
    obtain ⟨codes, primitives, heq, -⟩ := u.install_eq d m
    rw [heq]
    exact h.registered.symm ▸ hc
  | @define u h name superclass hs fields =>
    rw [(u.define_widens name superclass fields).2.2.1, h.registered]
    exact List.mem_append_left _ hc

theorem Altered.tidy {H : History} (h : w.Altered w' H) (hw : w.Tidy) : w'.Tidy := by
  induction h with
  | refl => exact hw
  | alter _ ha ih => exact (alter_alters ih ha).tidy ih

theorem Altered.trans {H I : History} (h : w.Altered w' H) (h' : w'.Altered w'' I) :
    w.Altered w'' (I ++ H) := by
  induction h' with
  | refl => exact h
  | alter _ ha ih =>
    rw [List.append_assoc]
    exact .alter ih ha

/-- Binds the globals that every world starts with. -/
def bindGlobals (w : World) : World :=
  let (system, w) := w.newInstance CoreClass.system.ref
  (((w.bind "nil" .nil).bind "true" (.boolean true)).bind "false" (.boolean false)).bind
    "system" system

/-- The core classes and the globals, before any method is installed. -/
def core (config : Config) (journal : Journal) : World :=
  bindGlobals (CoreClass.all.foldl (fun w c => w.register c.ref)
    (CoreClass.all.foldl newCoreClass (empty config journal)))

structure Binds (w w' : World) : Prop where
  classes : w'.classes = w.classes
  registered : w'.registered = w.registered
  memos : w'.memos = w.memos
  codes : w'.codes = w.codes
  primitives : w'.primitives = w.primitives

theorem Binds.bind {v : World} (h : w.Binds v) (name : String) (x : Value) :
    w.Binds (v.bind name x) :=
  ⟨h.classes, h.registered, h.memos, h.codes, h.primitives⟩

theorem bindGlobals_binds (w : World) : w.Binds w.bindGlobals := by
  have hnew : w.Binds (w.newInstance CoreClass.system.ref).2 := ⟨rfl, rfl, rfl, rfl, rfl⟩
  unfold bindGlobals
  generalize w.newInstance CoreClass.system.ref = p at hnew ⊢
  exact (((hnew.bind _ _).bind _ _).bind _ _).bind _ _

theorem newCoreClass_widens (w : World) (c : CoreClass) : w.Widens (w.newCoreClass c) := by
  have hnames : w.Widens (w.intern c.name).2 := .of_classes rfl
  exact hnames.trans (newClass_widens _ _ _ _)

theorem foldl_newCoreClass (cs : List CoreClass) (w : World) :
    let v := cs.foldl newCoreClass w
    w.Widens v ∧ v.registered = w.registered ∧ v.memos = w.memos ∧ v.codes = w.codes ∧
      v.primitives = w.primitives :=
  foldl_ensures (fun v => w.Widens v ∧ v.registered = w.registered ∧ v.memos = w.memos ∧
    v.codes = w.codes ∧ v.primitives = w.primitives) cs ⟨.of_classes rfl, rfl, rfl, rfl, rfl⟩
    fun v c _ h => ⟨h.1.trans (v.newCoreClass_widens c), h.2⟩

theorem foldl_register (cs : List CoreClass) (w : World) :
    w.Widens (cs.foldl (fun w c => w.register c.ref) w) ∧
      (cs.foldl (fun w c => w.register c.ref) w).classes.size = w.classes.size + cs.length ∧
      ∀ d, d ∈ (cs.foldl (fun w c => w.register c.ref) w).registered ↔
        d ∈ w.registered ∨ d ∈ cs.map (·.ref) ∨
          w.classes.size ≤ d.index ∧ d.index < w.classes.size + cs.length := by
  induction cs generalizing w with
  | nil =>
    refine ⟨.of_classes rfl, rfl, fun d => ⟨.inl, ?_⟩⟩
    rintro (h | h | ⟨hle, hlt⟩)
    · exact h
    · cases h
    · exact absurd hlt (Nat.not_lt.mpr hle)
  | cons c cs ih =>
    obtain ⟨hwidens, hsize, hregistered⟩ := w.register_widens c.ref
    obtain ⟨hrest, hlen, hmem⟩ := ih (w.register c.ref)
    refine ⟨hwidens.trans hrest, ?_, fun ⟨i⟩ => ?_⟩
    · rw [List.foldl_cons, hlen, hsize, List.length_cons]
      omega
    · have hrange : w.classes.size ≤ i ∧ i < w.classes.size + (cs.length + 1) ↔
          i = w.classes.size ∨ w.classes.size + 1 ≤ i ∧ i < w.classes.size + 1 + cs.length := by omega
      rw [List.foldl_cons, hmem, hsize, hregistered, List.length_cons, hrange]
      simp only [List.mem_append, List.mem_cons, List.not_mem_nil, or_false, List.map_cons,
        Arena.next, Ref.mk.injEq]
      grind

theorem mem_coreRefs {d : ClassRef} :
    d ∈ CoreClass.all.map (·.ref) ↔ d.index < CoreClass.all.length := by
  have hall : CoreClass.all.map (fun c => c.ref.index) = List.range CoreClass.all.length := by decide
  rw [← List.mem_range, ← hall]
  simp only [List.mem_map]
  constructor
  · rintro ⟨c, hc, rfl⟩
    exact ⟨c, hc, rfl⟩
  · rintro ⟨c, hc, heq⟩
    obtain ⟨i⟩ := d
    exact ⟨c, hc, congrArg Ref.mk heq⟩

theorem register_all_tidy (hr : w.Ranked) (hm : w.memos = .empty) (hreg : w.registered = [])
    (hsize : w.classes.size = CoreClass.all.length) {v : World}
    (hv : v = CoreClass.all.foldl (fun w c => w.register c.ref) w) :
    v.Tidy ∧ (∀ c : CoreClass, c.ref ∈ v.registered) ∧ w.Widens v ∧ v.codes = w.codes ∧
      v.primitives = w.primitives := by
  obtain ⟨hwidens, hlen, hmem⟩ := foldl_register CoreClass.all w
  obtain ⟨hranked, hmemos, hcodes, hprimitives⟩ : v.Ranked ∧ v.memos = .empty ∧ v.codes = w.codes ∧
      v.primitives = w.primitives := by
    rw [hv]
    exact foldl_ensures (fun v => v.Ranked ∧ v.memos = .empty ∧ v.codes = w.codes ∧
      v.primitives = w.primitives) CoreClass.all ⟨hr, hm, rfl, rfl⟩
      fun v c _ h => ⟨h.1.register c.ref, h.2⟩
  rw [← hv] at hwidens hlen hmem
  have hlist (d : ClassRef) : d ∈ v.registered ↔ d.index < v.classes.size := by
    rw [hmem, hlen, hreg, mem_coreRefs, hsize]
    simp only [List.not_mem_nil, false_or]
    omega
  refine ⟨⟨hranked, hlist, fun c selector m hm => ?_⟩, fun c => ?_, hwidens, hcodes, hprimitives⟩
  · rw [hmemos] at hm
    cases hm
  · have hc := mem_coreRefs.mp (List.mem_map_of_mem (show c ∈ CoreClass.all by cases c <;> decide))
    rw [hlist, hlen, hsize]
    exact Nat.lt_add_right _ hc

theorem core_tidy (config : Config) (journal : Journal) :
    (core config journal).Tidy ∧ (∀ c : CoreClass, c.ref ∈ (core config journal).registered) ∧
      (∀ d, ((core config journal).cls d).methods = .empty) ∧
      (core config journal).codes = .empty ∧ (core config journal).primitives = .empty := by
  have hranked := coreClasses_ranked config journal
  obtain ⟨hwidens, hregistered, hmemos, hcodes, hprimitives⟩ :=
    foldl_newCoreClass CoreClass.all (empty config journal)
  obtain ⟨-, -, hsize⟩ := newCoreClass_ordered (w := empty config journal) CoreClass.all
    (fun c s h => by cases h) (fun _ => rfl) fun i c s hc hs => by
      rw [show (empty config journal).classes.size = 0 from rfl, Nat.zero_add]
      exact superclass?_lt hc hs
  unfold core
  generalize CoreClass.all.foldl newCoreClass (empty config journal) = w at *
  rw [show (empty config journal).classes.size = 0 from rfl, Nat.zero_add] at hsize
  obtain ⟨⟨hr, hreg, hm⟩, hcore, hall, hc, hp⟩ :=
    register_all_tidy hranked hmemos hregistered hsize rfl
  generalize CoreClass.all.foldl (fun w c => w.register c.ref) w = v at *
  have hbinds := v.bindGlobals_binds
  generalize v.bindGlobals = u at *
  refine ⟨⟨hr.congr hbinds.classes, fun c => ?_, hm.congr hbinds.classes hbinds.memos⟩, fun c => ?_,
    fun d => ?_, by rw [hbinds.codes, hc, hcodes]; rfl, by rw [hbinds.primitives, hp, hprimitives]; rfl⟩
  · rw [hbinds.registered, hbinds.classes, hreg]
  · rw [hbinds.registered]
    exact hcore c
  · exact ((hwidens.trans hall).trans (.of_classes hbinds.classes)).fresh d (Nat.zero_le _)

end World

namespace CoreLibrary

/-- The primitives and the methods of the core library, in the order of their installation. -/
def alterations : List Alteration :=
  primitives.map (fun e => .primitive e.cls.ref e.selector e.operation e.evaluatesBlock)
    ++ .classPrimitive CoreClass.array.ref "new:" (.atomic .newArray)
    :: methods.map fun e => .source e.1.ref e.2

/-- The installations that booting consists of. -/
def history (config : Config) (journal : Journal) : History :=
  (World.core config journal).log alterations

end CoreLibrary

variable {ok ok' : Value → Bool}

mutual

theorem Source.allowed_mono (h : ∀ v, ok v → ok' v) (s : Source) (hs : s.allowed ok) : s.allowed ok' := by
  obtain ⟨kind, signature, localCount, level?, maxStack?, code⟩ := s
  rw [Source.allowed] at hs ⊢
  exact allAllowed_mono h code hs

theorem allAllowed_mono (h : ∀ v, ok v → ok' v) (code : List SourceItem)
    (hs : allAllowed ok code) : allAllowed ok' code := by
  match code with
  | [] => rfl
  | item :: rest =>
    rw [allAllowed, Bool.and_eq_true] at hs ⊢
    exact ⟨SourceItem.allowed_mono h item hs.1, allAllowed_mono h rest hs.2⟩

theorem SourceItem.allowed_mono (h : ∀ v, ok v → ok' v) (item : SourceItem)
    (hs : item.allowed ok) : item.allowed ok' := by
  match item with
  | .pushBlock s =>
    rw [SourceItem.allowed] at hs ⊢
    exact Source.allowed_mono h s hs
  | .pushConstant v =>
    rw [SourceItem.allowed] at hs ⊢
    exact h v hs
  | .halt | .dup | .pop | .returnLocal | .returnNonLocal | .pushSlot .. | .popSlot .. | .pushField _
  | .popField _ | .pushSymbol _ | .pushGlobal _ | .send _ | .superSend _ | .raw _ =>
    rfl

end

def Value.isMethod : Value → Bool
  | method _ => true
  | _ => false

namespace World

variable {w w' : World}

theorem Altered.all {w₀ : World} {H : History} (h : w₀.Altered w H) {as : List Alteration}
    (has : w.Allows as) : w₀.Altered (w.alterAll as) (w.log as ++ H) := by
  induction as generalizing w H with
  | nil => exact h
  | cons a as ih =>
    rw [log, List.append_assoc]
    exact ih (.alter h has.1) has.2

theorem mem_alterations_allowed {a : Alteration} (ha : a ∈ CoreLibrary.alterations)
    (hcore : ∀ c : CoreClass, c.ref ∈ w.registered) : a.Allowed w := by
  rcases List.mem_append.mp ha with ha | ha
  · obtain ⟨e, -, rfl⟩ := List.mem_map.mp ha
    exact hcore e.cls
  rcases List.mem_cons.mp ha with rfl | ha
  · exact hcore .array
  · obtain ⟨e, he, rfl⟩ := List.mem_map.mp ha
    have hconstants : ∀ e ∈ CoreLibrary.methods, e.2.allowed fun v => !v.isMethod := by decide
    refine ⟨hcore e.1, Source.allowed_mono (fun v hv => decide_eq_true ?_) e.2 (hconstants e he)⟩
    rintro m rfl
    cases hv

theorem allows_alterations (ht : w.Tidy) (hcore : ∀ c : CoreClass, c.ref ∈ w.registered)
    {as : List Alteration} (has : ∀ a ∈ as, a ∈ CoreLibrary.alterations) : w.Allows as := by
  induction as generalizing w with
  | nil => trivial
  | cons a as ih =>
    have ha := mem_alterations_allowed (has a List.mem_cons_self) hcore
    have hstep := alter_alters ht ha
    exact ⟨ha, ih (hstep.tidy ht) (fun c => hstep.registered (hcore c))
      fun b hb => has b (List.mem_cons_of_mem a hb)⟩

theorem forM_source {xs : List (CoreClass × Source)} {u : Unit}
    (h : xs.forM (fun e => discard (e.2.install e.1.ref)) w = .ok u w') :
    w' = w.alterAll (xs.map fun e => .source e.1.ref e.2) := by
  induction xs generalizing w with
  | nil =>
    cases h
    rfl
  | cons x xs ih =>
    change (discard (x.2.install x.1.ref) >>= fun _ =>
      xs.forM fun e => discard (e.2.install e.1.ref)) w = .ok u w' at h
    rw [Action.bind_apply, Action.discard_apply] at h
    cases hx : x.2.install x.1.ref w with
    | error f v =>
      rw [hx] at h
      cases h
    | ok m v =>
      rw [hx] at h
      have hv : v = w.alter (.source x.1.ref x.2) := by simp only [alter, Action.leaves, hx]
      rw [ih h, List.map_cons, alterAll, hv]

theorem foldl_installEntry (entries : List CoreLibrary.PrimitiveEntry) (w : World) :
    entries.foldl installEntry w = w.alterAll
      (entries.map fun e => .primitive e.cls.ref e.selector e.operation e.evaluatesBlock) := by
  induction entries generalizing w with
  | nil => rfl
  | cons e entries ih => exact ih _

theorem bare_eq (config : Config) (journal : Journal) :
    bare config journal = ((core config journal).alterAll (CoreLibrary.primitives.map fun e =>
      .primitive e.cls.ref e.selector e.operation e.evaluatesBlock)).alter
        (.classPrimitive CoreClass.array.ref "new:" (.atomic .newArray)) := by
  rw [← foldl_installEntry]
  unfold bare core
  dsimp only
  generalize CoreClass.all.foldl (fun (w : World) c => w.register c.ref) _ = v
  generalize CoreLibrary.primitives = entries
  rfl

theorem boot_eq {config : Config} {journal : Journal} (h : World.boot config journal = .ok w) :
    w = (core config journal).alterAll CoreLibrary.alterations := by
  unfold boot at h
  split at h
  · next u v hv =>
    cases h
    rw [CoreLibrary.alterations, alterAll_append, alterAll, ← bare_eq, ← forM_source hv]
  · cases h

theorem boot_altered {config : Config} {journal : Journal} (h : World.boot config journal = .ok w) :
    (core config journal).Altered w (CoreLibrary.history config journal) := by
  obtain ⟨htidy, hcore, -⟩ := core_tidy config journal
  have hall := Altered.all .refl (allows_alterations htidy hcore fun a ha => ha)
  rwa [List.append_nil, ← boot_eq h] at hall

end World

end MessageMachine
