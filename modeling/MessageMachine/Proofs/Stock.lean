import MessageMachine.Proofs.Hosting
import MessageMachine.Proofs.Recalling

namespace MessageMachine

/-- Lookups find no primitives but those of the core library, each for its own selector. -/
def World.Stock (w : World) : Prop :=
  ∀ s p, w.Offers s (.primitive p) →
    ∃ e ∈ CoreLibrary.entries, e.selector = s.name ∧ e.operation = (w.primitives.get p).operation

/-- How many reflective sends one can lead to at once, itself included. -/
def Operation.rank : Operation → Nat
  | perform .noArgument => 1
  | perform .oneArgument => 2
  | perform .argumentArray => 3
  | atomic _ | evaluate | whileLoop _ | count => 0

def World.rank (w : World) (c : Call) : Nat :=
  match c.method with
  | .compiled _ => 0
  | .primitive p => (w.primitives.get p).operation.rank

variable {w w' : World}

theorem World.Recalls.stock (h : w.Recalls w') (hp : w'.primitives = w.primitives) (hw : w.Stock) :
    w'.Stock := by
  intro s p hoffers
  rw [hp]
  exact hw s p (h.offers s _ hoffers)

theorem World.Stock.compiles (hw : w.Stock) (h : w.Compiles w') : w'.Stock := by
  have hrecalls : w.Recalls w' := .of_eq h.classes (by rw [h.same])
  exact hrecalls.stock (by rw [h.same]) hw

theorem Operation.rank_le (op : Operation) : op.rank ≤ 3 := by
  match op with
  | perform .noArgument => decide
  | perform .oneArgument | perform .argumentArray => decide
  | atomic _ | evaluate | whileLoop _ | count => exact Nat.zero_le 3

theorem World.rank_le (w : World) (c : Call) : w.rank c ≤ 3 := by
  unfold rank
  split
  · exact Nat.zero_le 3
  · exact Operation.rank_le _

theorem CoreLibrary.rank_lt_of_performed {form : PerformForm} {s : Symbol} {e : PrimitiveEntry}
    (he : e ∈ entries) (hs : form.Fits s)
    (hself : form = .argumentArray → s.name ≠ PerformForm.argumentArray.selector)
    (hname : e.selector = s.name) : e.operation.rank < (Operation.perform form).rank := by
  have htable : ∀ e ∈ entries,
      (selectorArity e.selector = 1 → e.operation.rank < 1) ∧
      (selectorArity e.selector = 2 → e.operation.rank < 2) ∧
      (e.selector ≠ PerformForm.argumentArray.selector → e.operation.rank < 3) := by
    decide +kernel
  obtain ⟨hone, htwo, hthree⟩ := htable e he
  cases form with
  | noArgument => exact hone (hname ▸ hs)
  | oneArgument => exact htwo (hname ▸ hs)
  | argumentArray => exact hthree (hname ▸ hself rfl)

theorem PerformForm.Performs.rank_lt {form : PerformForm} {args : List Value} {c : Call}
    (hw : w.Stock) (h : form.Performs w args c)
    (hself : ∀ s rest, form = .argumentArray → args = .symbol s :: rest →
      s.name ≠ PerformForm.argumentArray.selector) :
    w.rank c < (Operation.perform form).rank := by
  obtain ⟨s, rest, rfl, hfits, s', hs', hoffers⟩ := h
  obtain ⟨method, args⟩ := c
  cases method with
  | compiled r =>
    cases form <;> exact Nat.succ_pos _
  | primitive p =>
    obtain ⟨e, he, hname, hop⟩ := hw s' p hoffers
    change (w.primitives.get p).operation.rank < _
    rw [← hop]
    obtain rfl | hs' := hs'
    · exact CoreLibrary.rank_lt_of_performed he hfits (fun hf => hself s' rest hf rfl) hname
    · have hhandler : ∀ e ∈ CoreLibrary.entries,
          e.selector = "doesNotUnderstand:arguments:" → e.operation.rank = 0 := by decide +kernel
      rw [hhandler e he (hname.trans hs')]
      cases form <;> exact Nat.succ_pos _

namespace World

theorem offers_set {c : ClassRef} {k : Class} {s : Symbol} {m : Method} (h : w'.Offers s m)
    (hclasses : w'.classes = w.classes.set c k)
    (hmemos : ∀ key x, w'.memos.find? key = some x → w.memos.find? key = some x) :
    k.methods.find? s = some m ∨ w.Offers s m := by
  obtain ⟨d, hd | hd⟩ := h
  · rw [cls, hclasses, Arena.get_set] at hd
    split at hd
    · exact .inl hd
    · exact .inr ⟨d, .inl hd⟩
  · exact .inr ⟨d, .inr (hmemos _ _ hd)⟩

theorem find?_flushMemos {k : ClassRef × Symbol} {m : Method}
    (h : w.flushMemos.memos.find? k = some m) : w.memos.find? k = some m := by
  rw [flushMemos, Table.find?_filterKeys] at h
  split at h
  · exact h
  · cases h

/-- The primitives that lookups find are those of the core library, and they exist. -/
structure Stocked (w : World) : Prop where
  stock : w.Stock
  made : ∀ s p, w.Offers s (.primitive p) → p.index < w.primitives.size

namespace Stocked

theorem of_offers (h : w.Stocked) (hp : w'.primitives = w.primitives)
    (ho : ∀ s p, w'.Offers s (.primitive p) → w.Offers s (.primitive p)) : w'.Stocked where
  stock := by
    intro s p hs
    rw [hp]
    exact h.stock s p (ho s p hs)
  made := by
    intro s p hs
    rw [hp]
    exact h.made s p (ho s p hs)

theorem congr (h : w.Stocked) (hp : w'.primitives = w.primitives) (hclasses : w'.classes = w.classes)
    (hmemos : w'.memos = w.memos) : w'.Stocked :=
  h.of_offers hp fun s _ => (Recalls.of_eq hclasses hmemos).offers s _

theorem compiles (h : w.Stocked) (hc : w.Compiles w') : w'.Stocked :=
  h.congr (by rw [hc.same]) hc.classes (by rw [hc.same])

theorem newClass (h : w.Stocked) (name : Symbol) (superclass : Option ClassRef)
    (fields : List Symbol) : (w.newClass name superclass fields).2.Stocked := by
  refine h.of_offers rfl ?_
  rintro s p ⟨d, hd | hd⟩
  · simp only [World.newClass, World.cls, Arena.get_push] at hd
    split at hd
    · cases hd
    · exact ⟨d, .inl hd⟩
  · exact ⟨d, .inr hd⟩

theorem register (h : w.Stocked) (c : ClassRef) : (w.register c).Stocked := by
  obtain ⟨name, v, hv, heq⟩ := w.register_eq c
  have hnew := (h.compiles hv).newClass name (some (w.metaSuperclass c)) []
  dsimp only at heq
  generalize (v.newClass name (some (w.metaSuperclass c)) []).2 = u at heq hnew
  rw [heq]
  refine hnew.of_offers rfl fun s p hs => ?_
  obtain hs | hs := offers_set (w := u) hs rfl fun _ _ => id
  · exact ⟨c, .inl hs⟩
  · exact hs

theorem of_insert (h : w.Stocked) {c : ClassRef} {s : Symbol} {m : Method}
    (hp : w'.primitives = w.primitives)
    (hclasses : w'.classes = w.classes.set c { w.cls c with
      methods := (w.cls c).methods.insert s m })
    (hmemos : ∀ key x, w'.memos.find? key = some x → w.memos.find? key = some x)
    (hm : ∀ p, m = .primitive p → p.index < w.primitives.size ∧ ∃ e ∈ CoreLibrary.entries,
      e.selector = s.name ∧ e.operation = (w.primitives.get p).operation) : w'.Stocked := by
  have hoffers (t : Symbol) (p : PrimitiveRef) (ht : w'.Offers t (.primitive p)) :
      t = s ∧ m = .primitive p ∨ w.Offers t (.primitive p) := by
    obtain ht | ht := offers_set ht hclasses hmemos
    · rw [Table.find?_insert] at ht
      split at ht
      · next heq => exact .inl ⟨heq.symm, Option.some.inj ht⟩
      · exact .inr ⟨c, .inl ht⟩
    · exact .inr ht
  refine ⟨fun t p ht => ?_, fun t p ht => ?_⟩ <;> rw [hp] <;>
    obtain ⟨rfl, hmp⟩ | ht := hoffers t p ht
  · exact (hm p hmp).2
  · exact h.stock t p ht
  · exact (hm p hmp).1
  · exact h.made t p ht

theorem installCode (h : w.Stocked) (c : ClassRef) (r : CodeRef) :
    (w.install c (.compiled r)).Stocked := by
  obtain ⟨v, hv, heq⟩ := w.install_compiled c r
  have hheld : v.Stocked := h.congr (by rw [hv.same]) (by rw [hv.same]) (by rw [hv.same])
  rw [heq]
  exact hheld.of_insert rfl rfl (fun _ _ => find?_flushMemos) nofun

theorem installPrimitive (h : w.Stocked) (c : ClassRef) {e : CoreLibrary.PrimitiveEntry}
    (he : e ∈ CoreLibrary.entries) :
    (w.installPrimitive c e.selector e.operation e.evaluatesBlock).2.Stocked := by
  let p : Primitive := ⟨(w.intern e.selector).1, e.operation, e.evaluatesBlock, none⟩
  let v : World := ((w.intern e.selector).2.newPrimitive p).2
  let r : PrimitiveRef := w.primitives.next
  let u : World := { v with
    primitives := v.primitives.set r { v.primitives.get r with holder := some c } }
  have hsize : u.primitives.size = w.primitives.size + 1 := by
    simp only [u, v, World.newPrimitive, World.intern, Arena.size_set, Arena.size_push]
  have hnew : u.primitives.get r = { p with holder := some c } := by
    simp only [u, v, World.newPrimitive, World.intern, Arena.get_set, Arena.get_push, r,
      Arena.size_push, Arena.next, Nat.lt_succ_self, and_self, if_true]
  have hold (q : PrimitiveRef) (hq : q.index < w.primitives.size) :
      u.primitives.get q = w.primitives.get q := by
    have hne : r ≠ q := by
      rintro rfl
      exact Nat.lt_irrefl _ hq
    simp only [u, v, World.newPrimitive, World.intern, Arena.get_set, Arena.get_push, r, hne,
      hne.symm, false_and, if_false]
  have hu : u.Stocked := by
    have hoffers : w.Recalls u := .of_eq rfl rfl
    refine ⟨fun s q hs => ?_, fun s q hs => ?_⟩
    all_goals
      have hs' := hoffers.offers s _ hs
      have hq := h.made s q hs'
    · rw [hold q hq]
      exact h.stock s q hs'
    · rw [hsize]
      exact Nat.lt_succ_of_lt hq
  refine hu.of_insert (c := c) (s := u.signature (.primitive r)) (m := .primitive r) rfl rfl
    (fun _ _ => find?_flushMemos) ?_
  rintro _ ⟨⟩
  rw [World.signature, hnew, hsize]
  exact ⟨Nat.lt_succ_self _, e, he, (SymbolTable.name_intern w.symbols e.selector).symm, rfl⟩

end Stocked

theorem boot_stock {config : Config} {journal : Journal}
    (h : World.boot config journal = .ok w) : w.Stock := by
  have hempty : (empty config journal).Stocked := by
    refine ⟨?_, ?_⟩ <;> rintro s p ⟨c, hc | hc⟩ <;> cases hc
  refine (boot_ensures (P := Stocked) h ?_ ?_ ?_ ?_ ?_ ?_).stock
  · exact foldl_ensures Stocked _ hempty fun v c _ hv =>
      (hv.compiles (.intern v c.name)).newClass _ _ _
  · exact fun v c hv => hv.register c
  · exact fun v c hv => hv.congr rfl rfl rfl
  · exact fun v name x _ hv => hv.congr rfl rfl rfl
  · exact fun v c e he hv => hv.installPrimitive c he
  · intro v v' c m s _ hv hi
    obtain ⟨r, u, t, hc, -, rfl, ht⟩ := install_source hi
    have hu : u.Stocked := hv.compiles ((s.build_compiles s.ownLevel v).of_ok hc)
    refine Stocked.installCode ?_ c r
    obtain rfl | ⟨e, rfl⟩ := ht
    · exact hu
    · exact hu.of_offers (u.note_still e).primitives fun s _ => (Recalls.note u e).offers s _

end World

end MessageMachine
