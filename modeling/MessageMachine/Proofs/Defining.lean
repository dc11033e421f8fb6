import MessageMachine.Proofs.Altering

namespace MessageMachine

namespace Arena

variable {kind : CellKind} {α : Type}

theorem set_next_push (a : Arena kind α) (x y : α) : (a.push x).set a.next y = a.push y := by
  obtain ⟨cells⟩ := a
  simp only [push, set, next, size, Arena.mk.injEq]
  apply Array.ext_getElem?
  intro i
  simp only [Array.getElem?_setIfInBounds, Array.getElem?_push, Array.size_push]
  grind

theorem set_push_of_lt (a : Arena kind α) (x y : α) {r : Ref kind} (h : r.index < a.size) :
    (a.push x).set r y = (a.set r y).push x := by
  obtain ⟨cells⟩ := a
  simp only [push, set, size, Arena.mk.injEq] at h ⊢
  apply Array.ext_getElem?
  intro i
  simp only [Array.getElem?_setIfInBounds, Array.getElem?_push, Array.size_push,
    Array.size_setIfInBounds]
  grind

end Arena

namespace World

variable {w w' : World}

theorem internAll_names (w : World) (names : List String) :
    (w.internAll names).1.map (·.name) = names := by
  induction names generalizing w with
  | nil => rfl
  | cons name rest ih =>
    change (w.intern name).1.name :: _ = _
    rw [ih]
    exact congrArg (· :: rest) (SymbolTable.name_intern _ _)

theorem register_classes (w : World) {c : ClassRef} (hc : c.index < w.classes.size) :
    ∃ k, (w.register c).classes =
      (w.classes.set c { w.cls c with metaclass := some w.classes.next }).push
        ⟨k, some (w.metaSuperclass c), none, [], .empty⟩ := by
  obtain ⟨k, v, hv, heq⟩ := w.register_eq c
  refine ⟨k, ?_⟩
  rw [heq]
  simp only [newClass, cls, hv.classes, Arena.get_push_of_lt _ _ hc, Arena.set_push_of_lt _ _ _ hc]

/-- The metaclass of a new class descends from the metaclass of the superclass, or else from the class
of classes. -/
theorem newClass_register (w : World) (name : Symbol) {superclass : ClassRef}
    (hs : superclass.index < w.classes.size) (fields : List Symbol) :
    ∃ k, ((w.newClass name (some superclass) fields).2.register w.classes.next).classes =
      (w.classes.push ⟨name, some superclass, some ⟨w.classes.size + 1⟩, fields, .empty⟩).push
        ⟨k, some ((w.cls superclass).metaclass.getD CoreClass.cls.ref), none, [], .empty⟩ := by
  have hclasses : (w.newClass name (some superclass) fields).2.classes =
      w.classes.push ⟨name, some superclass, none, fields, .empty⟩ := rfl
  generalize (w.newClass name (some superclass) fields).2 = v at hclasses ⊢
  obtain ⟨k, hk⟩ := v.register_classes (c := w.classes.next)
    (by simp [hclasses, Arena.next])
  have hcls : v.cls w.classes.next = ⟨name, some superclass, none, fields, .empty⟩ := by
    rw [cls, hclasses, Arena.get_next_push]
  have hsuper : v.cls superclass = w.cls superclass := by
    rw [cls, hclasses, Arena.get_push_of_lt _ _ hs, cls]
  have hroot : v.metaSuperclass w.classes.next =
      (w.cls superclass).metaclass.getD CoreClass.cls.ref := by
    rw [metaSuperclass, hcls, Option.bind_some, hsuper]
  refine ⟨k, ?_⟩
  rw [hk, hcls, hroot, hclasses, Arena.set_next_push]
  simp [Arena.next]

theorem define_classes (w : World) (name : String) {superclass : ClassRef}
    (hs : superclass.index < w.classes.size) (fields : List String) :
    ∃ n ss k, n.name = name ∧ ss.map (·.name) = fields ∧
      (w.define name superclass fields).2.classes =
        (w.classes.push ⟨n, some superclass, some ⟨w.classes.size + 1⟩, ss, .empty⟩).push
          ⟨k, some ((w.cls superclass).metaclass.getD CoreClass.cls.ref), none, [], .empty⟩ := by
  have hnames := (w.internAll_compiles fields).trans (.intern _ name)
  have hclasses : ((w.internAll fields).2.intern name).2.classes = w.classes := hnames.classes
  obtain ⟨k, hk⟩ := ((w.internAll fields).2.intern name).2.newClass_register
    ((w.internAll fields).2.intern name).1 (hclasses ▸ hs) (w.internAll fields).1
  refine ⟨((w.internAll fields).2.intern name).1, _, k, SymbolTable.name_intern _ _, w.internAll_names fields, ?_⟩
  unfold define
  dsimp only
  rw [note_classes]
  refine hk.trans ?_
  simp only [cls, hclasses]

structure Defines (w w' : World) (name : String) (superclass : ClassRef) (fields : List String) :
    Prop where
  size : w'.classes.size = w.classes.size + 2
  added : ∃ n ss, n.name = name ∧ ss.map (·.name) = fields ∧
    w'.cls w.classes.next = ⟨n, some superclass, some ⟨w.classes.size + 1⟩, ss, .empty⟩
  metaclass : ∃ k, w'.cls ⟨w.classes.size + 1⟩ =
    ⟨k, some ((w.cls superclass).metaclass.getD CoreClass.cls.ref), none, [], .empty⟩
  old : ∀ d : ClassRef, d.index < w.classes.size → w'.cls d = w.cls d

theorem Defines.cases {name : String} {superclass : ClassRef} {fields : List String}
    (h : w.Defines w' name superclass fields) {c : ClassRef} (hc : c.index < w'.classes.size) :
    c.index < w.classes.size ∨ c = w.classes.next ∨ c = ⟨w.classes.size + 1⟩ := by
  obtain ⟨i⟩ := c
  have hsize := h.size
  simp only [Arena.next, Ref.mk.injEq] at hc ⊢
  omega

theorem define_defines (w : World) (name : String) {superclass : ClassRef}
    (hs : superclass.index < w.classes.size) (fields : List String) :
    (w.define name superclass fields).1 = w.classes.next ∧
      w.Defines (w.define name superclass fields).2 name superclass fields := by
  obtain ⟨n, ss, k, hn, hss, hclasses⟩ := w.define_classes name hs fields
  have hnames := (w.internAll_compiles fields).trans (.intern _ name)
  refine ⟨?_, ?_, ⟨n, ss, hn, hss, ?_⟩, ⟨k, ?_⟩, fun d hd => ?_⟩
  · exact congrArg Arena.next hnames.classes
  · rw [hclasses, Arena.size_push, Arena.size_push]
  · rw [cls, hclasses, Arena.get_push_of_lt, Arena.get_next_push]
    simp [Arena.next]
  · rw [cls, hclasses, Arena.get_push, if_pos]
    simp [Arena.next]
  · rw [cls, hclasses, Arena.get_push_of_lt _ _ (by simp; omega), Arena.get_push_of_lt _ _ hd, cls]

theorem define_symbols (w : World) (name : String) (superclass : ClassRef) (fields : List String)
    {known : String} {s : Symbol} (h : w.symbols.get? known = some s) :
    (w.define name superclass fields).2.symbols.get? known = some s := by
  have hnames := (w.internAll_compiles fields).trans (.intern _ name)
  have hnote (v : World) (e : Event) : (v.note e).symbols = v.symbols := by
    unfold note
    split <;> rfl
  unfold define
  dsimp only
  rw [hnote]
  exact SymbolTable.get?_intern_of_get? (hnames.symbols known s h) _

theorem define_same (w : World) (name : String) (superclass : ClassRef) (fields : List String) :
    ∃ symbols globals classes registered journal, (w.define name superclass fields).2 =
      { w with symbols, globals, classes, registered, journal } := by
  obtain ⟨symbols, hnames⟩ := w.internAll_same fields
  unfold define
  dsimp only
  rw [hnames]
  unfold note
  split <;> exact ⟨_, _, _, _, _, rfl⟩

theorem define_objects (w : World) (name : String) (superclass : ClassRef) (fields : List String) :
    (w.define name superclass fields).2.objects = w.objects := by
  obtain ⟨_, _, _, _, _, h⟩ := w.define_same name superclass fields
  rw [h]

end World

end MessageMachine
