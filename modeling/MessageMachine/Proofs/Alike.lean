import MessageMachine.Activation
import MessageMachine.Proofs.Action
import MessageMachine.Proofs.Lookup

namespace MessageMachine

structure Traces where
  memos : Table (ClassRef × Symbol) Method
  caches : Table (CodeRef × Nat) InlineCache
  counters : Counters
  journal : Journal
  reentry : Nat

namespace World

def traces (w : World) : Traces := ⟨w.memos, w.caches, w.counters, w.journal, w.reentry⟩

def withTraces (w : World) (t : Traces) : World :=
  { w with
    memos := t.memos, caches := t.caches, counters := t.counters, journal := t.journal
    reentry := t.reentry }

/-- The selector of the send at an offset of a body. -/
def selectorAt? (w : World) (r : CodeRef) (offset : Nat) : Option Symbol :=
  match fetch (w.code r).bytecodes offset with
  | .ok (.send literal) => (w.symbolLiteral r literal.toNat).toOption
  | _ => none

/-- Every entry of an inline cache is what a plain walk from its class finds for the selector of
the send. -/
def SitesValid (w : World) : Prop :=
  ∀ r offset selector, w.selectorAt? r offset = some selector →
    ∀ e ∈ (w.cacheAt r offset).entries, w.method? e.cls selector = some e.method

/-- What lookups left behind agrees with a plain walk up the superclass chain. -/
structure Coherent (w : World) : Prop where
  ordered : w.Ordered
  memos : w.MemosValid
  sites : w.SitesValid

theorem SitesValid.congr {w v : World} (hw : w.SitesValid) (hcls : v.classes = w.classes)
    (hcodes : v.codes = w.codes) (hcaches : v.caches = w.caches) : v.SitesValid := by
  intro r offset selector hs e he
  rw [method?_congr hcls]
  simp only [selectorAt?, symbolLiteral, literal, code, hcodes] at hs
  simp only [cacheAt, hcaches] at he
  exact hw r offset selector hs e he

theorem Coherent.congr {w v : World} (hw : w.Coherent) (hcls : v.classes = w.classes)
    (hcodes : v.codes = w.codes) (hmemos : v.memos = w.memos) (hcaches : v.caches = w.caches) :
    v.Coherent where
  ordered := hw.ordered.congr hcls
  memos := hw.memos.congr hcls hmemos
  sites := hw.sites.congr hcls hcodes hcaches

end World

/-- Two worlds that differ only in their traces, each with traces that agree with a plain lookup.
Their run loops are nested `k` deep and `l` deep. -/
structure Alike (k l : Nat) (w v : World) : Prop where
  same : v = w.withTraces v.traces
  left_reentry : w.reentry = k
  right_reentry : v.reentry = l
  left : w.Coherent
  right : v.Coherent

def Tied (k l : Nat) : EStateM.Result Fault World α → EStateM.Result Fault World α → Prop
  | .ok a w, .ok b v => a = b ∧ Alike k l w v
  | .error f w, .error g v => f = g ∧ Alike k l w v
  | _, _ => False

def Uniform (k l : Nat) (x : Action α) : Prop :=
  ∀ w v, Alike k l w v → Tied k l (x w) (x v)

/-- A change of the world that neither reads nor touches its traces, its classes and its code. -/
structure Plain (f : World → α × World) : Prop where
  uniform : ∀ w t, f (w.withTraces t) = ((f w).1, (f w).2.withTraces t)
  traces : ∀ w, (f w).2.traces = w.traces
  classes : ∀ w, (f w).2.classes = w.classes
  codes : ∀ w, (f w).2.codes = w.codes

variable {k l : Nat} {α β : Type}

/-- A world that changed in its traces only, which still agree with a plain lookup. -/
structure Retraced (w w' : World) : Prop where
  same : w' = w.withTraces w'.traces
  reentry : w'.reentry = w.reentry
  coherent : w'.Coherent

namespace Retraced

variable {w w' w'' : World}

theorem refl (hw : w.Coherent) : Retraced w w := ⟨rfl, rfl, hw⟩

theorem trans (h : Retraced w w') (h' : Retraced w' w'') : Retraced w w'' where
  same := by
    rw [h'.same, h.same]
    rfl
  reentry := h'.reentry.trans h.reentry
  coherent := h'.coherent

theorem count (hw : w.Coherent) (f : Counters → Counters) : Retraced w (w.count f) :=
  ⟨rfl, rfl, hw.congr rfl rfl rfl rfl⟩

theorem note (hw : w.Coherent) (e : Event) : Retraced w (w.note e) := by
  unfold World.note
  split
  · exact ⟨rfl, rfl, hw.congr rfl rfl rfl rfl⟩
  · exact refl hw

theorem lookup (hw : w.Coherent) (c : ClassRef) (selector : Symbol) :
    (w.lookup c selector).1 = w.method? c selector ∧ Retraced w (w.lookup c selector).2 := by
  obtain ⟨memos, heq, hvalid⟩ := World.lookup_eq hw.ordered hw.memos c selector
  rw [heq]
  exact ⟨rfl, rfl, rfl, hw.ordered.congr rfl, hvalid, hw.sites.congr rfl rfl rfl⟩

theorem method? (h : Retraced w w') (c : ClassRef) (selector : Symbol) :
    w'.method? c selector = w.method? c selector := by
  rw [h.same]
  exact World.method?_congr (by rfl) c selector

end Retraced

theorem Alike.retrace {w v w' v' : World} (h : Alike k l w v) (hw : Retraced w w')
    (hv : Retraced v v') : Alike k l w' v' where
  same := by
    rw [hv.same, h.same, hw.same]
    rfl
  left_reentry := hw.reentry.trans h.left_reentry
  right_reentry := hv.reentry.trans h.right_reentry
  left := hw.coherent
  right := hv.coherent

theorem Plain.alike {f : World → α × World} (hf : Plain f) {w v : World} (h : Alike k l w v) :
    (f v).1 = (f w).1 ∧ Alike k l (f w).2 (f v).2 := by
  have hv : f v = ((f w).1, (f w).2.withTraces v.traces) := by
    have hu := hf.uniform w v.traces
    rwa [← h.same] at hu
  have hw := hf.traces w
  have htv := hf.traces v
  simp only [World.traces, Traces.mk.injEq] at hw htv
  refine ⟨by rw [hv], ⟨?_, ?_, ?_, ?_, ?_⟩⟩
  · rw [hf.traces, hv]
  · rw [hw.2.2.2.2, h.left_reentry]
  · rw [htv.2.2.2.2, h.right_reentry]
  · exact h.left.congr (hf.classes w) (hf.codes w) hw.1 hw.2.1
  · exact h.right.congr (hf.classes v) (hf.codes v) htv.1 htv.2.1

namespace Uniform

theorem pure (a : α) : Uniform k l (pure a) := fun _ _ h => ⟨rfl, h⟩

theorem throw (f : Fault) : Uniform k l (throw f : Action α) := fun _ _ h => ⟨rfl, h⟩

theorem bind {x : Action α} {f : α → Action β} (hx : Uniform k l x) (hf : ∀ a, Uniform k l (f a)) :
    Uniform k l (x >>= f) := by
  intro w v h
  have ht := hx w v h
  rw [Action.bind_apply, Action.bind_apply]
  cases hxw : x w <;> cases hxv : x v <;> rw [hxw, hxv] at ht
  · obtain ⟨rfl, h'⟩ := ht
    exact hf _ _ _ h'
  · exact ht.elim
  · exact ht.elim
  · exact ht

theorem lift (e : Except Fault α) : Uniform k l (liftM e : Action α) := by
  cases e with
  | ok a => exact pure a
  | error f => exact throw f

theorem get_bind {f : World → Action α} (hs : ∀ w t, f (w.withTraces t) = f w)
    (hf : ∀ w, Uniform k l (f w)) : Uniform k l (get >>= f) := by
  intro w v h
  have hfv : f v = f w := by
    rw [h.same]
    exact hs w v.traces
  change Tied k l (f w w) (f v v)
  rw [hfv]
  exact hf w w v h

theorem update {f : World → α × World} (hf : Plain f) : Uniform k l (Action.update f) := by
  intro w v h
  obtain ⟨ha, halike⟩ := hf.alike h
  exact ⟨ha.symm, halike⟩

theorem modify {f : World → World} (hf : Plain fun w => ((), f w)) :
    Uniform k l (modify f : Action Unit) :=
  update hf

theorem discard {x : Action α} (hx : Uniform k l x) : Uniform k l (discard x : Action PUnit) := by
  intro w v h
  have ht := hx w v h
  rw [Action.discard_apply, Action.discard_apply]
  cases hxw : x w <;> cases hxv : x v <;> rw [hxw, hxv] at ht
  · exact ⟨rfl, ht.2⟩
  · exact ht.elim
  · exact ht.elim
  · exact ht

theorem count (f : Counters → Counters) : Uniform k l (Action.count f) :=
  fun _ _ h => ⟨rfl, h.retrace (.count h.left f) (.count h.right f)⟩

theorem note (e : Event) : Uniform k l (Action.note e) :=
  fun _ _ h => ⟨rfl, h.retrace (.note h.left e) (.note h.right e)⟩

end Uniform

end MessageMachine
