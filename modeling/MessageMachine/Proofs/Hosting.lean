import MessageMachine.Proofs.Hierarchy
import MessageMachine.Proofs.Stack

namespace MessageMachine

theorem Table.find?_filterKeys {κ α : Type} [DecidableEq κ] (t : Table κ α) (p : κ → Bool) (k : κ) :
    (t.filterKeys p).find? k = if p k then t.find? k else none := by
  obtain ⟨entries⟩ := t
  unfold Table.find? Table.filterKeys
  induction entries with
  | nil => simp [Table.findIn]
  | cons e rest ih =>
    by_cases he : e.1 = k
    · by_cases hp : p e.1 <;> simp_all [Table.findIn]
    · by_cases hp : p e.1 <;> simp_all [Table.findIn]

namespace World

variable {good : Value → Prop} {known : Method → Prop} {w w' : World}

namespace Holds

theorem setClass (h : w.Holds good known) (c : ClassRef) {k : Class}
    (hk : ∀ selector m, k.methods.find? selector = some m → known m) :
    Holds good known { w with classes := w.classes.set c k } where
  fields := h.fields
  elements := h.elements
  globals := h.globals
  methods := by
    intro d selector m hm
    simp only [cls, Arena.get_set] at hm
    split at hm
    · exact hk selector m hm
    · exact h.methods d selector m hm
  memos := h.memos
  entries := h.entries

theorem newClass (h : w.Holds good known) (name : Symbol) (superclass : Option ClassRef)
    (fields : List Symbol) : (w.newClass name superclass fields).2.Holds good known where
  fields := h.fields
  elements := h.elements
  globals := h.globals
  methods := by
    intro d selector m hm
    simp only [World.newClass, cls, Arena.get_push] at hm
    split at hm
    · cases hm
    · exact h.methods d selector m hm
  memos := h.memos
  entries := h.entries

theorem compiles (h : w.Holds good known) (hc : w.Compiles w') : w'.Holds good known :=
  h.congr (by rw [hc.same]) (by rw [hc.same]) (by rw [hc.same]) (by rw [hc.same])
    (by rw [hc.same]) (by rw [hc.same])

theorem register (h : w.Holds good known) (c : ClassRef) (hc : good (.cls c)) :
    (w.register c).Holds good known := by
  obtain ⟨name, v, hv, heq⟩ := w.register_eq c
  rw [heq]
  have hnew := (h.compiles hv).newClass name (some (w.metaSuperclass c)) []
  have hglobals : (v.newClass name (some (w.metaSuperclass c)) []).2.globals = w.globals := by
    change v.globals = w.globals
    rw [hv.same]
  generalize (v.newClass name (some (w.metaSuperclass c)) []).2 = u at hnew hglobals
  have hset := (hnew.setClass c (k := { u.cls c with metaclass := some w.classes.next })
    (hnew.methods c)).setGlobal (u.cls c).name hc
  refine hset.congr rfl rfl ?_ rfl rfl rfl
  rw [World.setGlobal, hglobals]

theorem define (h : w.Holds good known) (hgood : ∀ v, v.block? = none → good v) (name : String)
    (superclass : ClassRef) (fields : List String) :
    (w.define name superclass fields).2.Holds good known := by
  have hnames := (w.internAll_compiles fields).trans (.intern _ name)
  exact note (register (newClass (h.compiles hnames) _ _ _) _ (hgood _ rfl)) _

theorem insertMethod (h : w.Holds good known) (c : ClassRef) (signature : Symbol) {m : Method}
    (hm : known m) :
    Holds good known { w with classes := w.classes.set c { w.cls c with
      methods := (w.cls c).methods.insert signature m } } := by
  refine h.setClass c fun selector m' hm' => ?_
  simp only [Table.find?_insert] at hm'
  split at hm'
  · cases hm'
    exact hm
  · exact h.methods c selector m' hm'

theorem flushMemos (h : w.Holds good known) : w.flushMemos.Holds good known where
  fields := h.fields
  elements := h.elements
  globals := h.globals
  methods := h.methods
  memos := fun key m hm => by
    simp only [World.flushMemos, Table.find?_filterKeys] at hm
    split at hm
    · exact h.memos key m hm
    · cases hm
  entries := h.entries

theorem install (h : w.Holds good known) (c : ClassRef) (p : PrimitiveRef)
    (hp : known (.primitive p)) : (w.install c (.primitive p)).Holds good known := by
  obtain ⟨primitives, heq⟩ := w.install_primitive c p
  rw [heq]
  have hw : Holds good known { w with primitives } := h.congr rfl rfl rfl rfl rfl rfl
  exact (hw.insertMethod c _ hp).flushMemos

theorem withoutCaches (h : w.Holds good known) : w.withoutCaches.Holds good known where
  fields := h.fields
  elements := h.elements
  globals := h.globals
  methods := h.methods
  memos := nofun
  entries := by
    intro r offset e he
    cases he

end Holds

theorem internAll_same (w : World) (names : List String) :
    ∃ symbols, (w.internAll names).2 = { w with symbols } := by
  induction names generalizing w with
  | nil => exact ⟨_, rfl⟩
  | cons name rest ih =>
    obtain ⟨symbols, h⟩ := ih (w.intern name).2
    exact ⟨symbols, h⟩

theorem define_keeps (w : World) (name : String) (superclass : ClassRef) (fields : List String) :
    (w.define name superclass fields).2.codes = w.codes ∧
      (w.define name superclass fields).2.frames = w.frames ∧
      (w.define name superclass fields).2.markers = w.markers := by
  obtain ⟨symbols, h⟩ := w.internAll_same fields
  have hnote (v : World) (e : Event) (hv : v.codes = w.codes ∧ v.frames = w.frames ∧
      v.markers = w.markers) : (v.note e).codes = w.codes ∧ (v.note e).frames = w.frames ∧
      (v.note e).markers = w.markers := by
    unfold note
    split <;> exact hv
  refine hnote _ _ ?_
  rw [h]
  exact ⟨rfl, rfl, rfl⟩

variable {D : Discipline}

theorem Sound.extended (h : w.Sound D) (he : w.Extends w') (hframes : w'.frames = w.frames)
    (hmarkers : w'.markers = w.markers) (hholds : w'.Holds (D.Valid w') (D.Known w'))
    (hliterals : ∀ r, ∀ v ∈ (w'.code r).literals, D.Valid w' v) : w'.Sound D where
  holds := hholds
  frames := fun r hr => by
    rw [hframes] at hr ⊢
    exact (h.frames r hr).mono he (Nat.le_of_eq (by rw [hmarkers]))
  literals := hliterals

theorem Sound.stored (h : w.Sound D) (hcodes : w'.codes = w.codes) (hframes : w'.frames = w.frames)
    (hmarkers : w'.markers = w.markers) (hholds : w'.Holds (D.Valid w) (D.Known w)) :
    w'.Sound D := by
  have he : w.Extends w' := .of_eq hcodes hframes
  refine h.extended he hframes hmarkers
    (hholds.mono (fun _ hv => hv.mono he) (fun _ hk => hk.mono he)) fun r v hv => ?_
  rw [World.code, hcodes] at hv
  exact (h.literals r v hv).mono he

theorem Compiles.extended (h : w.Compiles w') : w.Extends w' where
  codes_le := h.size_le
  code := fun r hr => by rw [World.code, h.codes r hr, World.code]
  holder := fun r hr => by
    rw [h.codes r hr]
    exact id
  frames_le := Nat.le_of_eq (by rw [h.same])
  frame := fun r _ => by
    rw [h.same]
    exact .refl _

theorem Sound.compiles (h : w.Sound D) (hc : w.Compiles w')
    (hliterals : ∀ r, w.codes.size ≤ r.index → ∀ v ∈ (w'.code r).literals, D.Valid w' v) :
    w'.Sound D := by
  have he := hc.extended
  have hholds := (h.holds.compiles hc).mono (fun _ hv => hv.mono he) (fun _ hk => hk.mono he)
  refine h.extended he (by rw [hc.same]) (by rw [hc.same]) hholds fun r v hv => ?_
  by_cases hr : r.index < w.codes.size
  · rw [he.code r hr] at hv
    exact (h.literals r v hv).mono he
  · exact hliterals r (Nat.le_of_not_lt hr) v hv

theorem Reheld.extended (h : w.Reheld w') : w.Extends w' where
  codes_le := Nat.le_of_eq h.size.symm
  code := fun r _ => h.code r
  holder := fun r _ => h.holder r
  frames_le := Nat.le_of_eq (by rw [h.same])
  frame := fun r _ => by
    rw [h.same]
    exact .refl _

theorem Sound.install (h : w.Sound D) (c : ClassRef) (r : CodeRef)
    (hroot : D.root (w.install c (.compiled r)) r) :
    (w.install c (.compiled r)).Sound D ∧ w.Extends (w.install c (.compiled r)) := by
  obtain ⟨v, hv, heq⟩ := w.install_compiled c r
  rw [heq] at hroot ⊢
  generalize hu : World.flushMemos _ = u at hroot ⊢
  have he : w.Extends u := by
    rw [← hu]
    exact hv.extended.trans (.of_eq rfl rfl)
  have hholds : v.Holds (D.Valid u) (D.Known u) := by
    refine (h.holds.mono (fun _ hx => hx.mono he) (fun _ hk => hk.mono he)).congr ?_ ?_ ?_ ?_ ?_ ?_
      <;> rw [hv.same]
  have hknown : D.Known u (.compiled r) := by
    rintro _ ⟨⟩
    exact hroot
  refine ⟨h.extended he ?_ ?_ ?_ fun s x hx => ?_, he⟩
  · rw [← hu, hv.same]
    rfl
  · rw [← hu, hv.same]
    rfl
  · have hinsert := (hholds.insertMethod c (w.code r).signature hknown).flushMemos
    rw [hu] at hinsert
    exact hinsert
  · have hcode : u.code s = w.code s := by
      rw [← hu]
      exact hv.code s
    rw [hcode] at hx
    exact (h.literals s x hx).mono he

theorem Holds.installPrimitive (h : w.Holds good known) (hknown : ∀ p, known (.primitive p))
    (c : ClassRef) (name : String) (op : Operation) (evaluatesBlock : Bool) :
    (w.installPrimitive c name op evaluatesBlock).2.Holds good known := by
  obtain ⟨v, p, hv, heq⟩ := w.installPrimitive_eq c name op evaluatesBlock
  have hholds : (v.newPrimitive p).2.Holds good known :=
    (h.compiles hv).congr rfl rfl rfl rfl rfl rfl
  rw [heq]
  exact hholds.install c _ (hknown _)

theorem Sound.installPrimitive (h : w.Sound D) (c : ClassRef) (name : String) (op : Operation)
    (evaluatesBlock : Bool) : (w.installPrimitive c name op evaluatesBlock).2.Sound D :=
  h.stored rfl rfl rfl (h.holds.installPrimitive nofun c name op evaluatesBlock)

end World

end MessageMachine
