import MessageMachine.Proofs.Filling

namespace MessageMachine

namespace CoreClass

def ofBlocks (argCount : Nat) : CoreClass := (ofArgCount? argCount).getD block

theorem superclass_ofBlocks (n : Nat) :
    (ofBlocks n).superclass? = some block ∨ (ofBlocks n).superclass? = some object := by
  match n with
  | 1 | 2 | 3 => exact .inl rfl
  | 0 | n + 4 => exact .inr rfl

theorem ref_injective {c d : CoreClass} (h : c.ref = d.ref) : c = d := by
  have hall : ∀ c ∈ all, ∀ d ∈ all, c.ref = d.ref → c = d := by decide
  exact hall c (by cases c <;> decide) d (by cases d <;> decide) h

end CoreClass

namespace CoreLibrary

theorem evaluatesBlock_of_evaluate {e : PrimitiveEntry} (he : e ∈ entries)
    (h : e.operation = .evaluate) : e.evaluatesBlock := by
  have hall : ∀ e ∈ entries, e.operation = .evaluate → e.evaluatesBlock := by decide
  exact hall e he h

theorem arity_of_evaluatesBlock {e : PrimitiveEntry} (he : e ∈ entries) (h : e.evaluatesBlock) :
    e.cls ≠ .object ∧ ∀ n, e.cls = .ofBlocks n → n = selectorArity e.selector := by
  have hall : ∀ e ∈ entries, e.evaluatesBlock →
      (e.cls, selectorArity e.selector) ∈
        [(CoreClass.block1, 1), (CoreClass.block2, 2), (CoreClass.block3, 3)] := by
    decide +kernel
  have hcls := hall e he h
  simp only [List.mem_cons, Prod.mk.injEq, List.not_mem_nil, or_false] at hcls
  rcases hcls with ⟨hc, hn⟩ | ⟨hc, hn⟩ | ⟨hc, hn⟩ <;> rw [hc, hn]
  all_goals
    refine ⟨nofun, fun n hofBlocks => ?_⟩
    match n with
    | 0 | n + 4 => cases hofBlocks
    | 1 | 2 | 3 => first | rfl | cases hofBlocks

end CoreLibrary

namespace World

variable {w w' v : World} {c k : ClassRef} {s : Symbol} {m : Method}

theorem classOf_block (w : World) (b : Block) :
    w.classOf (.block b) = (CoreClass.ofBlocks (w.code b.code).argCount).ref := by
  simp only [classOf, blockClass?, CoreClass.ofBlocks]
  cases CoreClass.ofArgCount? (w.code b.code).argCount <;> rfl

structure Suits (w : World) (c : ClassRef) (s : Symbol) (m : Method) : Prop where
  made : w.Made m
  signature : w.signature m = s
  evaluates : ∀ p, m = .primitive p → (w.primitives.get p).operation = .evaluate →
    (w.primitives.get p).evaluatesBlock
  blocks : ∀ p, m = .primitive p → (w.primitives.get p).evaluatesBlock →
    c ≠ CoreClass.object.ref ∧ ∀ n, c = (CoreClass.ofBlocks n).ref → n = s.arity

def HasCore (w : World) : Prop :=
  ∀ c : CoreClass, c.ref.index < w.classes.size ∧
    (w.cls c.ref).superclass = c.superclass?.map (·.ref)

theorem Suits.inherit (hcore : w.HasCore) (hsuper : (w.cls c).superclass = some k)
    (h : w.Suits k s m) : w.Suits c s m := by
  refine { h with blocks := fun p hm hp => ?_ }
  obtain ⟨hobject, hblocks⟩ := h.blocks p hm hp
  constructor
  · rintro rfl
    rw [(hcore .object).2] at hsuper
    cases hsuper
  · rintro n rfl
    rw [(hcore _).2] at hsuper
    obtain hs | hs := CoreClass.superclass_ofBlocks n <;> rw [hs] at hsuper <;> cases hsuper
    -- The class of all blocks evaluates none, as no selector takes no argument at all.
    · exact absurd (hblocks 0 rfl) (Nat.ne_of_lt s.arity_pos)
    · exact absurd rfl hobject

structure Retains (w w' : World) : Prop where
  made : ∀ {m}, w.Made m → w'.Made m
  code : ∀ r, r.index < w.codes.size → w'.code r = w.code r
  primitive : ∀ p, p.index < w.primitives.size →
    ∃ holder, w'.primitives.get p = { w.primitives.get p with holder }

theorem Retains.of_same (hcodes : w'.codes = w.codes) (hprimitives : w'.primitives = w.primitives) :
    w.Retains w' where
  made := by
    rintro (r | p) h
    · exact Nat.lt_of_lt_of_le h (Nat.le_of_eq (by rw [hcodes]))
    · exact Nat.lt_of_lt_of_le h (Nat.le_of_eq (by rw [hprimitives]))
  code := fun r _ => by rw [World.code, hcodes, World.code]
  primitive := fun p _ => ⟨_, by rw [hprimitives]⟩

theorem Retains.trans {w'' : World} (h : w.Retains w') (h' : w'.Retains w'') : w.Retains w'' where
  made := fun hm => h'.made (h.made hm)
  code := fun r hr => (h'.code r (h.made (m := .compiled r) hr)).trans (h.code r hr)
  primitive := fun p hp => by
    obtain ⟨_, hq⟩ := h.primitive p hp
    obtain ⟨holder, hq'⟩ := h'.primitive p (h.made (m := .primitive p) hp)
    exact ⟨holder, by rw [hq', hq]⟩

theorem Compiles.retains (h : w.Compiles w') : w.Retains w' where
  made := by
    rintro (r | p) hm
    · exact Nat.lt_of_lt_of_le hm h.size_le
    · rw [h.same]
      exact hm
  code := fun r hr => by rw [World.code, h.codes r hr, World.code]
  primitive := fun p _ => ⟨_, by rw [h.same]⟩

theorem Retains.signature (h : w.Retains w') (hm : w.Made m) : w'.signature m = w.signature m := by
  cases m with
  | compiled r => rw [World.signature, h.code r hm, World.signature]
  | primitive p =>
    obtain ⟨holder, hp⟩ := h.primitive p hm
    rw [World.signature, hp, World.signature]

theorem Suits.retain (h : w.Suits c s m) (hr : w.Retains w') : w'.Suits c s m := by
  have hprimitive (p : PrimitiveRef) (hm : m = .primitive p) :
      ∃ holder, w'.primitives.get p = { w.primitives.get p with holder } := by
    subst hm
    exact hr.primitive p h.made
  refine ⟨hr.made h.made, (hr.signature h.made).trans h.signature, fun p hm hop => ?_,
    fun p hm hev => ?_⟩
  · obtain ⟨holder, hp⟩ := hprimitive p hm
    rw [hp] at hop ⊢
    exact h.evaluates p hm hop
  · obtain ⟨holder, hp⟩ := hprimitive p hm
    rw [hp] at hev
    exact h.blocks p hm hev

structure Keyed (w : World) : Prop where
  core : w.HasCore
  methods : ∀ {c s m}, (w.cls c).methods.find? s = some m → w.Suits c s m
  memos : ∀ {c s m}, w.memos.find? (c, s) = some m → w.Suits c s m
  sites : ∀ {r offset e}, e ∈ (w.cacheAt r offset).entries → r.index < w.codes.size ∧
    ∀ s, w.selectorAt? r offset = some s → w.Suits e.cls s e.method

theorem Retains.selectorAt? (h : w.Retains w') {r : CodeRef} (hr : r.index < w.codes.size)
    (offset : Nat) : w'.selectorAt? r offset = w.selectorAt? r offset := by
  simp only [World.selectorAt?, symbolLiteral, literal, h.code r hr]

namespace Keyed

theorem of_retains (h : w.Keyed) (hr : w.Retains w') (hcore : w'.HasCore)
    (hmethods : ∀ {c s m}, (w'.cls c).methods.find? s = some m →
      w'.Suits c s m ∨ (w.cls c).methods.find? s = some m)
    (hmemos : ∀ key m, w'.memos.find? key = some m → w.memos.find? key = some m)
    (hsites : ∀ r offset e, e ∈ (w'.cacheAt r offset).entries → e ∈ (w.cacheAt r offset).entries) :
    w'.Keyed where
  core := hcore
  methods := fun hm => (hmethods hm).elim id fun hm => (h.methods hm).retain hr
  memos := fun hm => (h.memos (hmemos _ _ hm)).retain hr
  sites := fun {r offset e} he => by
    obtain ⟨hlt, hsuits⟩ := h.sites (hsites _ _ _ he)
    refine ⟨hr.made (m := .compiled r) hlt, fun s hs => ?_⟩
    rw [hr.selectorAt? hlt] at hs
    exact (hsuits s hs).retain hr

theorem HasCore.congr (h : w.HasCore) (hclasses : w'.classes = w.classes) : w'.HasCore := by
  intro c
  rw [cls, hclasses]
  exact h c

theorem retain (h : w.Keyed) (hr : w.Retains w') (hclasses : w'.classes = w.classes)
    (hmemos : w'.memos = w.memos) (hcaches : w'.caches = w.caches) : w'.Keyed := by
  refine h.of_retains hr (HasCore.congr h.core hclasses) (fun hm => .inr ?_) (fun key m hm => ?_)
    fun r offset e he => ?_
  · rwa [cls, hclasses] at hm
  · rwa [hmemos] at hm
  · rwa [cacheAt, hcaches] at he

theorem compile (h : w.Keyed) (hc : w.Compiles w') : w'.Keyed :=
  h.retain hc.retains hc.classes (by rw [hc.same]) hc.rests.caches

theorem flush (h : w.Keyed) : w.flushMemos.Keyed := by
  refine h.of_retains (.of_same rfl rfl) (HasCore.congr h.core rfl) (fun hm => .inr hm)
    (fun key m hm => ?_) fun r offset e he => he
  rw [flushMemos, Table.find?_filterKeys] at hm
  split at hm
  · exact hm
  · cases hm

theorem forget (h : w.Keyed) : w.withoutCaches.Keyed :=
  h.of_retains (.of_same rfl rfl) (HasCore.congr h.core rfl) (fun hm => .inr hm) nofun nofun

theorem widen (h : w.Keyed) (hw : w.Widens w') (hcodes : w'.codes = w.codes)
    (hprimitives : w'.primitives = w.primitives) (hmemos : w'.memos = w.memos)
    (hcaches : w'.caches = w.caches) : w'.Keyed := by
  refine h.of_retains (.of_same hcodes hprimitives) (fun c => ?_) (fun {c s m} hm => .inr ?_)
    (fun key m hm => ?_) fun r offset e he => ?_
  · obtain ⟨hlt, hsuper⟩ := h.core c
    exact ⟨Nat.lt_of_lt_of_le hlt hw.size_le, (hw.superclass _ hlt).trans hsuper⟩
  · by_cases hc : c.index < w.classes.size
    · rwa [hw.methods c hc] at hm
    · rw [hw.fresh c (Nat.le_of_not_lt hc)] at hm
      cases hm
  · rwa [hmemos] at hm
  · rwa [cacheAt, hcaches] at he

end Keyed

theorem setHolder_retains (w : World) (c : ClassRef) (m : Method) :
    w.Retains (w.setHolder c m) ∧ (w.setHolder c m).classes = w.classes ∧
      (w.setHolder c m).memos = w.memos ∧ (w.setHolder c m).caches = w.caches := by
  cases m with
  | compiled r =>
    have h := setHolderWithin_reheld c (r.index + 1) r w
    simp only [setHolder]
    generalize setHolderWithin c (r.index + 1) r w = v at h
    refine ⟨⟨?_, fun r _ => h.code r, fun p _ => ⟨_, by rw [h.same]⟩⟩, ?_, ?_, ?_⟩
    · rintro (r | p) hm
      · exact Nat.lt_of_lt_of_le hm (Nat.le_of_eq h.size.symm)
      · rw [h.same]
        exact hm
    all_goals rw [h.same]
  | primitive q =>
    refine ⟨⟨?_, fun _ _ => rfl, fun p hp => ?_⟩, rfl, rfl, rfl⟩
    · rintro (r | p) hm
      · exact hm
      · exact Nat.lt_of_lt_of_le hm (Nat.le_of_eq (Arena.size_set _ _ _).symm)
    · simp only [setHolder, Arena.get_set]
      split
      · next hqp => exact ⟨some c, by rw [hqp.1]⟩
      · exact ⟨_, rfl⟩

theorem Keyed.addMethod (h : w.Keyed) (hm : w.Suits c (w.signature m) m) :
    (w.addMethod c m).2.Keyed := by
  obtain ⟨hr, hclasses, hmemos, hcaches⟩ := w.setHolder_retains c m
  have hsignature : (w.setHolder c m).signature m = w.signature m := hr.signature hm.made
  simp only [World.addMethod, hsignature]
  generalize w.setHolder c m = v at *
  have hv := h.retain hr hclasses hmemos hcaches
  have hcls (d : ClassRef) :
      cls { v with classes := v.classes.set c { v.cls c with
        methods := (v.cls c).methods.insert (w.signature m) m } } d =
      if c = d ∧ c.index < v.classes.size then
        { v.cls c with methods := (v.cls c).methods.insert (w.signature m) m } else v.cls d := by
    simp only [cls, Arena.get_set]
  refine hv.of_retains (.of_same rfl rfl) (fun d => ?_) (fun {d s x} hx => ?_) (fun _ _ => id)
    fun _ _ _ => id
  · rw [hcls, Arena.size_set]
    split
    · next hd => exact ⟨(hv.core d).1, by rw [← (hv.core d).2, hd.1]⟩
    · exact hv.core d
  · rw [hcls] at hx
    split at hx
    · next hd =>
      rw [Table.find?_insert] at hx
      split at hx
      · next hs =>
        cases hx
        rw [← hs, ← hd.1]
        exact .inl (hm.retain (hr.trans (.of_same rfl rfl)))
      · exact .inr (hd.1 ▸ hx)
    · exact .inr hx

theorem Suits.of_compiled {r : CodeRef} (hr : w.Made (.compiled r)) (c : ClassRef) :
    w.Suits c (w.signature (.compiled r)) (.compiled r) :=
  ⟨hr, rfl, nofun, nofun⟩

theorem Keyed.install (h : w.Keyed) (hm : w.Suits c (w.signature m) m) : (w.install c m).Keyed :=
  (h.addMethod hm).flush

theorem Keyed.installCode (h : w.Keyed) {r : CodeRef} (hr : w.Made (.compiled r)) (c : ClassRef) :
    (w.installCode c r).Keyed := by
  obtain ⟨u, hu, heq⟩ := w.installCode_eq c r
  have hsame : w.SameRecords u := by
    obtain rfl | ⟨e, rfl⟩ := hu
    · exact .refl _
    · exact .note _ e
  have hretains : w.Retains u := .of_same hsame.codes hsame.primitives
  rw [heq]
  refine (h.retain hretains hsame.classes hsame.memos hsame.caches).install ?_
  exact .of_compiled (hretains.made hr) c

theorem Keyed.installPrimitive (h : w.Keyed) {e : CoreLibrary.PrimitiveEntry}
    (he : e ∈ CoreLibrary.entries) (hc : e.evaluatesBlock → c = e.cls.ref) :
    (w.installPrimitive c e.selector e.operation e.evaluatesBlock).2.Keyed := by
  let p : Primitive := ⟨(w.intern e.selector).1, e.operation, e.evaluatesBlock, none⟩
  let v : World := ((w.intern e.selector).2.newPrimitive p).2
  let r : PrimitiveRef := w.primitives.next
  have hnew : v.primitives.get r = p := by
    simp only [v, World.newPrimitive, World.intern, Arena.get_push, r, if_true]
  have hsize : v.primitives.size = w.primitives.size + 1 := by
    simp only [v, World.newPrimitive, World.intern, Arena.size_push]
  have hretains : w.Retains v := by
    refine ⟨?_, fun _ _ => rfl, fun q hq => ⟨(w.primitives.get q).holder, ?_⟩⟩
    · rintro (r | q) hm
      · exact hm
      · exact Nat.lt_of_lt_of_le hm (by omega)
    · have hne : q ≠ w.primitives.next := by
        rintro rfl
        exact Nat.lt_irrefl _ hq
      simp only [v, World.newPrimitive, World.intern, Arena.get_push, if_neg hne]
  have hname : (v.signature (.primitive r)).name = e.selector := by
    rw [World.signature, hnew]
    exact SymbolTable.name_intern w.symbols e.selector
  have hv : v.Keyed := h.retain hretains rfl rfl rfl
  refine hv.install ⟨?_, rfl, ?_, ?_⟩
  · change w.primitives.size < v.primitives.size
    omega
  · rintro _ ⟨⟩ hop
    rw [hnew] at hop ⊢
    exact CoreLibrary.evaluatesBlock_of_evaluate he hop
  · rintro _ ⟨⟩ hev
    rw [hnew] at hev
    obtain ⟨hobject, hblocks⟩ := CoreLibrary.arity_of_evaluatesBlock he hev
    rw [hc hev, Symbol.arity, hname]
    exact ⟨fun h => hobject (CoreClass.ref_injective h), fun n h => hblocks n (CoreClass.ref_injective h)⟩

end World

/-- A host builds bodies and installs them as it likes, but makes no primitives except those of the
core library, each in its class and under its selector. -/
def Alteration.Core (w : World) : Alteration → Prop
  | install _ r => w.Made (.compiled r)
  | primitive c selector op evaluatesBlock => ∃ e ∈ CoreLibrary.primitives,
      c = e.cls.ref ∧ selector = e.selector ∧ op = e.operation ∧ evaluatesBlock = e.evaluatesBlock
  | classPrimitive c selector op =>
    c = CoreClass.array.ref ∧ selector = "new:" ∧ op = .atomic .newArray
  | define _ _ _ | intern _ | build _ | layout _ | source _ _ | flush | lookup _ _ => True

namespace World

variable {w w' v : World} {c : ClassRef} {s : Symbol} {m : Method}

/-- Classes, bodies and primitives are as they were in a world where all that can be found suits, and
so does all that is remembered now. -/
structure Keeps (w v : World) : Prop where
  keyed : w.Keyed
  classes : v.classes = w.classes
  codes : v.codes = w.codes
  primitives : v.primitives = w.primitives
  memos : ∀ {c s m}, v.memos.find? (c, s) = some m → w.Suits c s m

theorem Keyed.keeps (h : w.Keyed) : w.Keeps w := ⟨h, rfl, rfl, rfl, h.memos⟩

namespace Keeps

theorem retains (h : w.Keeps v) : w.Retains v := .of_same h.codes h.primitives

theorem remember (h : w.Keeps v) (hm : w.Suits c s m) : w.Keeps (v.remember c s m) where
  keyed := h.keyed
  classes := h.classes
  codes := h.codes
  primitives := h.primitives
  memos := fun {c' s' m'} hm' => by
    simp only [World.remember, Table.find?_insert] at hm'
    split at hm'
    · next heq =>
      cases heq
      cases hm'
      exact hm
    · exact h.memos hm'

theorem lookupWithin (h : w.Keeps v) (selector : Symbol) (n : Nat) (c : ClassRef) :
    (∀ m, (v.lookupWithin selector n c).1 = some m → w.Suits c selector m) ∧
      w.Keeps (v.lookupWithin selector n c).2 := by
  have hcls (c : ClassRef) : v.cls c = w.cls c := by rw [cls, h.classes, cls]
  induction n generalizing c with
  | zero =>
    refine ⟨?_, h⟩
    rintro _ ⟨⟩
  | succ n ih =>
    unfold World.lookupWithin
    cases hmemo : v.memos.find? (c, selector) with
    | some m =>
      refine ⟨?_, h⟩
      rintro _ ⟨⟩
      exact h.memos hmemo
    | none =>
      rw [hcls]
      cases hown : (w.cls c).methods.find? selector with
      | some m =>
        have hm := h.keyed.methods hown
        refine ⟨?_, h.remember hm⟩
        rintro _ ⟨⟩
        exact hm
      | none =>
        cases hsuper : (w.cls c).superclass with
        | none =>
          refine ⟨?_, h⟩
          rintro _ ⟨⟩
        | some k =>
          obtain ⟨hfound, hkeeps⟩ := ih k
          dsimp only
          generalize v.lookupWithin selector n k = r at hfound hkeeps
          obtain ⟨_ | m, u⟩ := r
          · refine ⟨?_, hkeeps⟩
            rintro _ ⟨⟩
          · have hm := (hfound m rfl).inherit h.keyed.core hsuper
            refine ⟨?_, hkeeps.remember hm⟩
            rintro _ ⟨⟩
            exact hm

theorem lookup (h : w.Keeps v) (c : ClassRef) (selector : Symbol) :
    (∀ m, (v.lookup c selector).1 = some m → w.Suits c selector m) ∧
      w.Keeps (v.lookup c selector).2 := h.lookupWithin selector _ c

theorem world (h : w.Keeps v) (hsites : ∀ {r offset e}, e ∈ (v.cacheAt r offset).entries →
    r.index < w.codes.size ∧ ∀ s, w.selectorAt? r offset = some s → w.Suits e.cls s e.method) :
    v.Keyed where
  core := Keyed.HasCore.congr h.keyed.core h.classes
  methods := fun hm => by
    rw [cls, h.classes] at hm
    exact (h.keyed.methods hm).retain h.retains
  memos := fun hm => (h.memos hm).retain h.retains
  sites := fun he => by
    obtain ⟨hlt, hsuits⟩ := hsites he
    refine ⟨h.codes ▸ hlt, fun s hs => ?_⟩
    rw [h.retains.selectorAt? hlt] at hs
    exact (hsuits s hs).retain h.retains

end Keeps

end World

theorem Source.build_made (s : Source) (level : UInt8) (w : World) :
    (s.build level).Ensures w (fun r v => v.Made (.compiled r)) fun _ _ => True := by
  have any {α : Type} (x : Action α) (w : World) :
      x.Ensures w (fun _ _ => True) fun _ _ => True := by
    unfold Action.Ensures
    cases x w <;> trivial
  obtain ⟨kind, signature, localCount, level?, maxStack?, code⟩ := s
  unfold Source.build
  dsimp only
  split
  · trivial
  split
  · trivial
  refine .bind (any _ w) fun blocks w _ => .bind (any _ w) fun literals w _ => ?_
  refine .bind (any _ w) fun signature w _ => .bind (any _ w) fun c w _ => ?_
  change w.codes.size < (w.codes.push _).size
  rw [Arena.size_push]
  exact Nat.lt_succ_self _

namespace World

variable {w w' v : World} {c : ClassRef} {s : Symbol} {m : Method}

theorem Keyed.alter (h : w.Keyed) {a : Alteration} (ha : a.Core w) : (w.alter a).Keyed := by
  have compiled {α : Type} {x : Action α} (hx : x.Compiles w) : (x.leaves w).Keyed := by
    unfold Action.leaves
    cases hrun : x w with
    | ok a v => exact h.compile (hx.of_ok hrun)
    | error f v => exact h.compile (hx.of_error hrun)
  cases a with
  | define name superclass fields =>
    obtain ⟨hwidens, -, -, hmemos, hprimitives⟩ := w.define_widens name superclass fields
    exact h.widen hwidens (w.define_keeps name superclass fields).1 hprimitives hmemos
      (w.alter_caches (.define name superclass fields))
  | intern name => exact h.compile (.intern w name)
  | build s => exact compiled (s.build_compiles s.ownLevel w)
  | layout l => exact compiled (l.compile_compiles w)
  | install c r => exact h.installCode ha c
  | source c s =>
    have hcompiles := s.build_compiles s.ownLevel w
    simp only [World.alter, Action.leaves, Source.install, Action.bind_apply]
    cases hs : s.compile w with
    | error f v => exact h.compile (hcompiles.of_error hs)
    | ok r v =>
      have hv := hcompiles.of_ok hs
      have hr : v.Made (.compiled r) := (s.build_made s.ownLevel w).of_ok hs
      exact (h.compile hv).installCode hr c
  | primitive c selector op evaluatesBlock =>
    obtain ⟨e, he, rfl, rfl, rfl, rfl⟩ := ha
    exact h.installPrimitive (List.mem_append_left _ he) fun _ => rfl
  | classPrimitive c selector op =>
    obtain ⟨rfl, rfl, rfl⟩ := ha
    simp only [World.alter, installClassPrimitive]
    cases (w.cls CoreClass.array.ref).metaclass with
    | none => exact h
    | some m =>
      have hnew : ⟨.array, "new:", .atomic .newArray, false⟩ ∈ CoreLibrary.entries :=
        List.mem_append_right _ List.mem_cons_self
      have hinstalled := h.installPrimitive (c := m) hnew (absurd · Bool.false_ne_true)
      dsimp only at hinstalled
      exact hinstalled
  | flush => exact h.flush
  | lookup c selector =>
    obtain ⟨-, hkeeps⟩ := h.keeps.lookup c selector
    refine hkeeps.world fun {r offset e} he => ?_
    rw [cacheAt, w.lookup_caches c selector] at he
    exact h.sites he

theorem Keyed.alterAll (h : w.Keyed) {as : List Alteration}
    (has : ∀ a ∈ as, ∀ v, a.Core v) : (w.alterAll as).Keyed := by
  induction as generalizing w with
  | nil => exact h
  | cons a as ih =>
    exact ih (h.alter (has a List.mem_cons_self w)) fun b hb => has b (List.mem_cons_of_mem a hb)

theorem foldl_newCoreClass_superclass (cs : List CoreClass) (w : World) {i : Nat} {c : CoreClass}
    (hc : cs[i]? = some c) : w.classes.size + i < (cs.foldl newCoreClass w).classes.size ∧
      ((cs.foldl newCoreClass w).cls ⟨w.classes.size + i⟩).superclass =
        c.superclass?.map (·.ref) := by
  induction cs generalizing w i with
  | nil => cases hc
  | cons d cs ih =>
    have hsize : (w.newCoreClass d).classes.size = w.classes.size + 1 := Arena.size_push _ _
    cases i with
    | zero =>
      cases hc
      obtain ⟨hwidens, -⟩ := foldl_newCoreClass cs (w.newCoreClass c)
      have hlt : w.classes.size < (w.newCoreClass c).classes.size := by omega
      have hnew : (w.newCoreClass c).cls w.classes.next =
          ⟨(w.intern c.name).1, c.superclass?.map (·.ref), none, [], .empty⟩ :=
        (Arena.get_push _ _ _).trans (if_pos rfl)
      refine ⟨Nat.lt_of_lt_of_le hlt hwidens.size_le, (hwidens.superclass _ hlt).trans ?_⟩
      exact congrArg Class.superclass hnew
    | succ i =>
      have hrest := ih (w.newCoreClass d) hc
      rwa [hsize, Nat.add_right_comm] at hrest

theorem core_cold (config : Config) (journal : Journal) : (core config journal).Cold := by
  have hmade := coreClasses_cold config journal
  unfold core
  generalize CoreClass.all.foldl newCoreClass (empty config journal) = w at hmade ⊢
  have hregistered : (CoreClass.all.foldl (fun w c => w.register c.ref) w).Cold :=
    foldl_ensures Cold CoreClass.all hmade fun v c _ hv => register_cold hv c.ref
  generalize CoreClass.all.foldl (fun w c => w.register c.ref) w = v at hregistered ⊢
  exact hregistered

theorem core_keyed (config : Config) (journal : Journal) : (core config journal).Keyed := by
  obtain ⟨-, -, hmethods, -⟩ := core_tidy config journal
  have hcore : (core config journal).HasCore := by
    intro c
    have hc : CoreClass.all[c.ref.index]? = some c := by cases c <;> rfl
    obtain ⟨hlt, hsuper⟩ := foldl_newCoreClass_superclass _ (empty config journal) hc
    rw [show (empty config journal).classes.size = 0 from rfl, Nat.zero_add] at hlt hsuper
    unfold core
    generalize CoreClass.all.foldl newCoreClass (empty config journal) = u at hlt hsuper
    have hwidens := (foldl_register CoreClass.all u).1.trans (.of_classes (bindGlobals_binds _).classes)
    exact ⟨Nat.lt_of_lt_of_le hlt hwidens.size_le, (hwidens.superclass _ hlt).trans hsuper⟩
  obtain ⟨hmemos, hcaches⟩ := core_cold config journal
  refine ⟨hcore, fun {c s m} hm => ?_, fun hm => ?_, fun {r offset e} he => ?_⟩
  · rw [hmethods c] at hm
    cases hm
  · rw [hmemos] at hm
    cases hm
  · rw [cacheAt, hcaches] at he
    cases he

theorem boot_keyed {config : Config} {journal : Journal} (h : World.boot config journal = .ok w) :
    w.Keyed := by
  rw [boot_eq h]
  refine (core_keyed config journal).alterAll fun a ha v => ?_
  rcases List.mem_append.mp ha with ha | ha
  · obtain ⟨e, he, rfl⟩ := List.mem_map.mp ha
    exact ⟨e, he, rfl, rfl, rfl, rfl⟩
  rcases List.mem_cons.mp ha with rfl | ha
  · exact ⟨rfl, rfl, rfl⟩
  · obtain ⟨e, he, rfl⟩ := List.mem_map.mp ha
    trivial

end World

theorem World.installPrimitive_primitives_ne (w : World) (c : ClassRef) (name : String) (op : Operation)
    (evaluatesBlock : Bool) :
    (w.installPrimitive c name op evaluatesBlock).2.primitives ≠ w.primitives := by
  intro h
  have hsize := congrArg Arena.size h
  simp [installPrimitive, install, addMethod, setHolder, flushMemos, newPrimitive, intern] at hsize

/-- Whatever else a host changes, everything that can be found suits, if it makes no primitives. -/
theorem HostChange.keyed {held : List Grant} {w w' : World} (h : HostChange held w w')
    (hprimitives : w'.primitives = w.primitives) (hw : w.Keyed) : w'.Keyed := by
  cases h with
  | intern name => exact hw.compile (.intern w name)
  | define name superclass fields =>
    exact hw.alter (a := .define name superclass fields) trivial
  | primitive c name op evaluatesBlock =>
    exact absurd hprimitives (w.installPrimitive_primitives_ne c name op evaluatesBlock)
  | setField _ h =>
    obtain ⟨objects, rfl⟩ := World.eq_of_setField? h
    exact hw.retain (.of_same rfl rfl) rfl rfl rfl
  | withoutCaches => exact hw.forget
  | newString | newInstance | newArray | setElement | setGlobal | takeTranscript =>
    exact hw.retain (.of_same rfl rfl) rfl rfl rfl

end MessageMachine
