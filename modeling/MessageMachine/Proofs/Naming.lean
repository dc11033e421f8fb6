import MessageMachine.Proofs.Chronicle

namespace MessageMachine

namespace World

variable {w w' : World} {name : String} {s : Symbol}

def Names (name : String) (s : Symbol) (w : World) : Prop := w.symbols.get? name = some s

theorem Names.intern (h : w.Names name s) : (w.intern name).1 = s := by
  change (w.symbols.intern name).1 = s
  rw [SymbolTable.intern, show w.symbols.get? name = some s from h]

instance : Lasting (Names name s) where
  congr := fun h hw => hw.symbols _ _ h
  count := fun h _ => h
  lookup := fun {w} h c selector => by
    obtain ⟨found, memos, hdepends⟩ := w.lookupWithin_depends selector (c.index + 1) c
    rw [World.lookup, hdepends w rfl rfl]
    exact h

theorem Compiles.names (h : w.Compiles w') (hw : w.Names name s) : w'.Names name s := h.symbols _ _ hw

theorem Names.install (h : w.Names name s) (c : ClassRef) (m : Method) : (w.install c m).Names name s := by
  have hholder : (w.setHolder c m).Names name s := by
    cases m with
    | compiled r =>
      rw [setHolder, (setHolderWithin_reheld c (r.index + 1) r w).same]
      exact h
    | primitive p => exact h
  exact hholder

theorem Names.installCode (h : w.Names name s) (c : ClassRef) (r : CodeRef) :
    (w.installCode c r).Names name s := by
  obtain ⟨u, hu, heq⟩ := w.installCode_eq c r
  rw [heq]
  refine Names.install ?_ c _
  obtain rfl | ⟨e, rfl⟩ := hu
  · exact h
  · exact Kept.congr h (.note w e)

theorem Names.installPrimitive (h : w.Names name s) (c : ClassRef) (selector : String) (op : Operation)
    (evaluatesBlock : Bool) : (w.installPrimitive c selector op evaluatesBlock).2.Names name s := by
  obtain ⟨v, p, hv, heq⟩ := w.installPrimitive_eq c selector op evaluatesBlock
  rw [heq]
  exact Names.install (w := (v.newPrimitive p).2) (hv.names h) c _

theorem Names.register (h : w.Names name s) (c : ClassRef) : (w.register c).Names name s := by
  obtain ⟨n, v, hv, heq⟩ := w.register_eq c
  rw [heq]
  exact hv.names h

theorem Names.define (h : w.Names name s) (n : String) (superclass : ClassRef) (fields : List String) :
    (w.define n superclass fields).2.Names name s := by
  have hfields := (w.internAll_compiles fields).names h
  have hname := (Compiles.intern _ n).names hfields
  let v := (((w.internAll fields).2.intern n).2.newClass ((w.internAll fields).2.intern n).1
    (some superclass) (w.internAll fields).1).2
  have hv : v.Names name s := hname
  exact Kept.congr (hv.register _) (.note _ _)

theorem Names.alter (h : w.Names name s) (a : Alteration) : (w.alter a).Names name s := by
  have compiled {α : Type} {x : Action α} (hx : x.Compiles w) : (x.leaves w).Names name s := by
    unfold Action.leaves
    cases hrun : x w with
    | ok a v => exact (hx.of_ok hrun).names h
    | error f v => exact (hx.of_error hrun).names h
  cases a with
  | define n superclass fields => exact h.define n superclass fields
  | intern n => exact (Compiles.intern w n).names h
  | build s => exact compiled (s.build_compiles s.ownLevel w)
  | layout l => exact compiled (l.compile_compiles w)
  | install c r => exact h.installCode c r
  | source c s =>
    have hcompile := s.build_compiles s.ownLevel w
    simp only [World.alter, Action.leaves, Source.install, Action.bind_apply]
    cases hs : s.compile w with
    | error f v => exact (hcompile.of_error hs).names h
    | ok r v => exact ((hcompile.of_ok hs).names h).installCode c r
  | primitive c selector op evaluatesBlock => exact h.installPrimitive c selector op evaluatesBlock
  | classPrimitive c selector op =>
    simp only [World.alter, installClassPrimitive]
    cases (w.cls c).metaclass with
    | none => exact h
    | some m => exact h.installPrimitive m selector op false
  | flush => exact h
  | lookup c selector => exact Lasting.lookup h c selector

end World

theorem HostChange.names {held : List Grant} {w w' : World} (h : HostChange held w w') {name : String}
    {s : Symbol} (hw : w.Names name s) : w'.Names name s := by
  cases h with
  | intern n => exact (World.Compiles.intern w n).names hw
  | define n superclass fields => exact hw.define n superclass fields
  | primitive c n op evaluatesBlock => exact hw.installPrimitive c n op evaluatesBlock
  | setField _ h =>
    obtain ⟨objects, rfl⟩ := World.eq_of_setField? h
    exact hw
  | newString | newInstance | newArray | setElement | setGlobal | takeTranscript | withoutCaches =>
    exact hw

theorem Chronicle.names {permits : World → Alteration → Prop} {w₀ : World} {H : History} {m : Machine}
    (h : Chronicle permits w₀ H m) {name : String} {s : Symbol} (hw : w₀.Names name s) :
    m.world.Names name s := by
  induction h with
  | boot => exact hw
  | step h ih =>
    refine Machine.step_lasts ih fun _ _ c selector _ => ?_
    exact Action.resolve_lasts (fun hv => hv) c selector
  | request h r ih => exact r.machine_lasts ih
  | alter h _ _ ih => exact ih.alter _
  | change _ hc _ _ ih => exact hc.names ih

end MessageMachine
