import MessageMachine.Primitive.Reentrant
import MessageMachine.Proofs.Action

namespace MessageMachine

namespace Arena

variable {kind : CellKind} {α : Type} [Inhabited α] {p : α → Prop} {a : Arena kind α}

theorem get_push (a : Arena kind α) (x : α) (r : Ref kind) :
    (a.push x).get r = if r = a.next then x else a.get r := by
  rw [get_eq_get?_getD, get_eq_get?_getD, get?_push]
  split <;> rfl

theorem get_push_of_lt (a : Arena kind α) (x : α) {r : Ref kind} (h : r.index < a.size) :
    (a.push x).get r = a.get r := by
  rw [get_push, if_neg]
  rintro rfl
  exact Nat.lt_irrefl _ h

theorem get_next_push (a : Arena kind α) (x : α) : (a.push x).get a.next = x := by
  rw [get_push, if_pos rfl]

theorem get_set (a : Arena kind α) (r s : Ref kind) (x : α) :
    (a.set r x).get s = if r = s ∧ r.index < a.size then x else a.get s := by
  rw [get_eq_get?_getD, get_eq_get?_getD, get?_set]
  by_cases hrs : r = s
  · subst hrs
    by_cases hlt : r.index < a.size
    · simp [hlt]
    · have hnone : a.get? r = none := Array.getElem?_eq_none (Nat.le_of_not_lt hlt)
      simp [hlt, hnone]
  · simp [hrs]

theorem get_of_le (a : Arena kind α) {r : Ref kind} (h : a.size ≤ r.index) : a.get r = default := by
  simp [get, size] at h ⊢
  simp [h]

theorem forall_push (ha : ∀ r, p (a.get r)) {x : α} (hx : p x) : ∀ r, p ((a.push x).get r) := by
  intro r
  rw [get_push]
  split
  · exact hx
  · exact ha r

theorem forall_set (ha : ∀ r, p (a.get r)) (r : Ref kind) {x : α} (hx : p x) :
    ∀ s, p ((a.set r x).get s) := by
  intro s
  rw [get_set]
  split
  · exact hx
  · exact ha s

theorem forall_modify (ha : ∀ r, p (a.get r)) (r : Ref kind) {f : α → α} (hd : p default)
    (hf : ∀ x, p x → p (f x)) : ∀ s, p ((a.modify r f).get s) := by
  intro s
  have hs := ha s
  rw [get_eq_get?_getD] at hs ⊢
  rw [get?_modify]
  split
  · cases h : a.get? s with
    | none => exact hd
    | some x =>
      rw [h] at hs
      exact hf x hs
  · exact hs

end Arena

namespace World

/-- Every stored value is good, and every method that a lookup can find is known. -/
structure Holds (good : Value → Prop) (known : Method → Prop) (w : World) : Prop where
  fields : ∀ r, ∀ v ∈ (w.objects.get r).fields, good v
  elements : ∀ r, ∀ v ∈ w.arrays.get r, good v
  globals : ∀ name v, w.global? name = some v → good v
  methods : ∀ c selector m, (w.cls c).methods.find? selector = some m → known m
  memos : ∀ key m, w.memos.find? key = some m → known m
  entries : ∀ r offset, ∀ e ∈ (w.cacheAt r offset).entries, known e.method

/-- Nothing changed but the contents of objects, arrays and globals, the names, the transcript, and
the traces of lookups. -/
structure Still (w w' : World) : Prop where
  config : w'.config = w.config
  classes : w'.classes = w.classes
  registered : w'.registered = w.registered
  codes : w'.codes = w.codes
  primitives : w'.primitives = w.primitives
  frames : w'.frames = w.frames
  markers : w'.markers = w.markers
  depth : w'.depth = w.depth
  reentry : w'.reentry = w.reentry

theorem Still.elsewhere {w : World} {symbols : SymbolTable} {globals : Table Symbol Value}
    {arrays : Arena .arrays (Array Value)} {objects : Arena .objects Instance} {nextSerial : Nat}
    {memos : Table (ClassRef × Symbol) Method} {caches : Table (CodeRef × Nat) InlineCache}
    {transcript : String} {counters : Counters} {journal : Journal} :
    w.Still { w with
      symbols := symbols, globals := globals, arrays := arrays, objects := objects,
      nextSerial := nextSerial, memos := memos, caches := caches, transcript := transcript,
      counters := counters, journal := journal } :=
  ⟨rfl, rfl, rfl, rfl, rfl, rfl, rfl, rfl, rfl⟩

theorem Still.refl (w : World) : w.Still w := .elsewhere

theorem Still.trans {w w' w'' : World} (h : w.Still w') (h' : w'.Still w'') : w.Still w'' :=
  ⟨h'.config.trans h.config, h'.classes.trans h.classes, h'.registered.trans h.registered,
    h'.codes.trans h.codes, h'.primitives.trans h.primitives, h'.frames.trans h.frames,
    h'.markers.trans h.markers, h'.depth.trans h.depth, h'.reentry.trans h.reentry⟩

theorem note_still (w : World) (e : Event) : w.Still (w.note e) := by
  unfold note
  split
  · exact .elsewhere
  · exact .refl w

variable {good : Value → Prop} {known : Method → Prop} {w : World}

namespace Holds

theorem congr {w' : World} (h : w.Holds good known) (ho : w'.objects = w.objects)
    (ha : w'.arrays = w.arrays) (hg : w'.globals = w.globals) (hc : w'.classes = w.classes)
    (hm : w'.memos = w.memos) (hcaches : w'.caches = w.caches) : w'.Holds good known where
  fields := by simpa only [ho] using h.fields
  elements := by simpa only [ha] using h.elements
  globals := by simpa only [global?, hg] using h.globals
  methods := by simpa only [cls, hc] using h.methods
  memos := by simpa only [hm] using h.memos
  entries := by simpa only [cacheAt, hcaches] using h.entries

theorem mono {good' : Value → Prop} {known' : Method → Prop} (h : w.Holds good known)
    (hgood : ∀ v, good v → good' v) (hknown : ∀ m, known m → known' m) : w.Holds good' known' where
  fields := fun r v hv => hgood v (h.fields r v hv)
  elements := fun r v hv => hgood v (h.elements r v hv)
  globals := fun name v hv => hgood v (h.globals name v hv)
  methods := fun c selector m hm => hknown m (h.methods c selector m hm)
  memos := fun key m hm => hknown m (h.memos key m hm)
  entries := fun r offset e he => hknown e.method (h.entries r offset e he)

theorem note (h : w.Holds good known) (e : Event) : (w.note e).Holds good known := by
  unfold World.note
  split
  · exact h.congr rfl rfl rfl rfl rfl rfl
  · exact h

theorem newArray (h : w.Holds good known) {elements : Array Value}
    (he : ∀ v ∈ elements, good v) : (w.newArray elements).2.Holds good known where
  fields := h.fields
  elements := Arena.forall_push (p := fun xs : Array Value => ∀ v ∈ xs, good v) h.elements he
  globals := h.globals
  methods := h.methods
  memos := h.memos
  entries := h.entries

theorem setElement (h : w.Holds good known) (r : ArrayRef) (i : Nat) {v : Value} (hv : good v) :
    Holds good known { w with arrays := w.arrays.modify r (·.setIfInBounds i v) } where
  fields := h.fields
  elements := by
    refine Arena.forall_modify (p := fun xs : Array Value => ∀ v ∈ xs, good v) h.elements r
      (fun v hv => absurd hv (Array.not_mem_empty v)) fun xs hxs x hx => ?_
    rcases Array.mem_or_eq_of_mem_setIfInBounds hx with hx | rfl
    · exact hxs x hx
    · exact hv
  globals := h.globals
  methods := h.methods
  memos := h.memos
  entries := h.entries

theorem newInstance (h : w.Holds good known) (c : ClassRef) (hnil : good .nil) :
    (w.newInstance c).2.Holds good known where
  fields := by
    refine Arena.forall_push (p := fun o : Instance => ∀ v ∈ o.fields, good v) h.fields
      fun v hv => ?_
    rw [(Array.mem_replicate.mp hv).2]
    exact hnil
  elements := h.elements
  globals := h.globals
  methods := h.methods
  memos := h.memos
  entries := h.entries

theorem setField (h : w.Holds good known) {r : ObjectRef} {index : Nat} {v : Value} {w' : World}
    (hv : good v) (hw : w.setField? r index v = some w') : w'.Holds good known := by
  unfold World.setField? at hw
  dsimp only at hw
  split at hw
  · cases hw
    refine ⟨?_, h.elements, h.globals, h.methods, h.memos, h.entries⟩
    refine Arena.forall_set (p := fun o : Instance => ∀ v ∈ o.fields, good v) h.fields r
      fun x hx => ?_
    rcases Array.mem_or_eq_of_mem_setIfInBounds hx with hx | rfl
    · exact h.fields r x hx
    · exact hv
  · cases hw

theorem setGlobal (h : w.Holds good known) (name : Symbol) {v : Value} (hv : good v) :
    (w.setGlobal name v).Holds good known where
  fields := h.fields
  elements := h.elements
  globals := by
    intro name' v' h'
    simp only [World.setGlobal, global?, Table.find?_insert] at h'
    split at h'
    · cases h'
      exact hv
    · exact h.globals name' v' h'
  methods := h.methods
  memos := h.memos
  entries := h.entries

theorem remember (h : w.Holds good known) (c : ClassRef) (selector : Symbol) {m : Method}
    (hm : known m) : (w.remember c selector m).Holds good known where
  fields := h.fields
  elements := h.elements
  globals := h.globals
  methods := h.methods
  memos := by
    intro key m' h'
    simp only [World.remember, Table.find?_insert] at h'
    split at h'
    · cases h'
      exact hm
    · exact h.memos key m' h'
  entries := h.entries

theorem insertCache (h : w.Holds good known) (site : CodeRef × Nat) {cache : InlineCache}
    (hc : ∀ e ∈ cache.entries, known e.method) :
    Holds good known { w with caches := w.caches.insert site cache } where
  fields := h.fields
  elements := h.elements
  globals := h.globals
  methods := h.methods
  memos := h.memos
  entries := by
    intro r offset e he
    simp only [cacheAt, Table.find?_insert] at he
    split at he
    · exact hc e he
    · exact h.entries r offset e he

theorem entries_fill (h : w.Holds good known) (r : CodeRef) (offset : Nat) (c : ClassRef)
    {m : Method} (hm : known m) :
    ∀ e ∈ ((w.cacheAt r offset).fill c m).2.entries, known e.method := by
  intro e he
  rw [InlineCache.entries_fill] at he
  split at he
  · exact h.entries r offset e he
  · rcases List.mem_append.mp he with he | he
    · exact h.entries r offset e he
    · rw [List.mem_singleton.mp he]
      exact hm

theorem lookupWithin (h : w.Holds good known) (selector : Symbol) (n : Nat) (c : ClassRef) :
    (∀ m, (w.lookupWithin selector n c).1 = some m → known m) ∧
      w.Still (w.lookupWithin selector n c).2 ∧
      (w.lookupWithin selector n c).2.Holds good known := by
  induction n generalizing c with
  | zero => exact ⟨nofun, .refl w, h⟩
  | succ n ih =>
    unfold World.lookupWithin
    cases hmemo : w.memos.find? (c, selector) with
    | some m => exact ⟨fun m' hm => Option.some.inj hm ▸ h.memos _ m hmemo, .refl w, h⟩
    | none =>
      cases hm : (w.cls c).methods.find? selector with
      | some m =>
        have hknown := h.methods c selector m hm
        refine ⟨fun m' hm => Option.some.inj hm ▸ hknown, ?_, h.remember c selector hknown⟩
        exact .elsewhere
      | none =>
        cases hs : (w.cls c).superclass with
        | none => exact ⟨nofun, .refl w, h⟩
        | some s =>
          obtain ⟨hknown, hstill, hholds⟩ := ih s
          dsimp only
          split
          · next m w' heq =>
            rw [heq] at hknown hstill hholds
            refine ⟨fun m' hm => hknown m' hm, hstill.trans ?_,
              hholds.remember c selector (hknown m rfl)⟩
            exact .elsewhere
          · next w' heq =>
            rw [heq] at hstill hholds
            exact ⟨nofun, hstill, hholds⟩

end Holds

end World

end MessageMachine
