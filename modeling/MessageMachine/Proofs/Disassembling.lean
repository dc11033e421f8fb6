import MessageMachine.Proofs.Decoding
import MessageMachine.Proofs.Pooling

namespace MessageMachine

namespace World

theorem of_newCode {w w' : World} {c : Code} {r : CodeRef} (h : w.newCode c = (r, w')) :
    w.Compiles w' ∧ r.index < w'.codes.size ∧ w'.code r = c := by
  cases h
  refine ⟨.newCode w c, ?_, ?_⟩
  · rw [Arena.size_push]
    exact Nat.lt_succ_self _
  · simp only [World.code, Arena.get_push, if_pos]

end World

variable {α β : Type} {w w' : World}

namespace Action

theorem of_bind {x : Action α} {f : α → Action β} {b : β} (h : (x >>= f) w = .ok b w') :
    ∃ a v, x w = .ok a v ∧ f a v = .ok b w' := by
  rw [bind_apply] at h
  cases hx : x w with
  | ok a v => exact ⟨a, v, rfl, by rwa [hx] at h⟩
  | error f v =>
    rw [hx] at h
    cases h

theorem of_lift {e : Except Fault α} {a : α} (h : (liftM e : Action α) w = .ok a w') :
    e = .ok a ∧ w' = w := by
  cases e with
  | ok b =>
    cases h
    exact ⟨rfl, rfl⟩
  | error f => cases h

theorem of_update {f : World → α × World} {a : α} (h : update f w = .ok a w') :
    (f w).1 = a ∧ (f w).2 = w' := by
  rw [update_apply] at h
  injection h with ha hw
  exact ⟨ha, hw⟩

def Enlarges (x : Action α) (w : World) (Q : α → World → Prop) : Prop :=
  x.Ensures w (fun a w' => w.Compiles w' ∧ Q a w') fun _ _ => True

namespace Enlarges

variable {Q : α → World → Prop} {R : β → World → Prop}

theorem pure {a : α} (h : Q a w) : Enlarges (pure a) w Q := ⟨.refl w, h⟩

theorem bind {x : Action α} {f : α → Action β} (hx : Enlarges x w Q)
    (hf : ∀ a w', w.Compiles w' → Q a w' → Enlarges (f a) w' R) : Enlarges (x >>= f) w R := by
  refine Ensures.bind hx fun a w' ⟨hw, ha⟩ => (hf a w' hw ha).mono ?_ fun _ _ => id
  exact fun b w'' ⟨hw', hb⟩ => ⟨hw.trans hw', hb⟩

end Enlarges

end Action

/-- The literal in the body that was built: the constant itself, the symbol of this name, or the body
of the block. -/
def LiteralSource.Resolves (w : World) (blocks : Array CodeRef) : LiteralSource → Value → Prop
  | constant v, x => x = v
  | symbol name, x => ∃ s, x = .symbol s ∧ w.symbols.get? name = some s
  | block n, x => x = .method (.compiled (blocks.getD n default))

namespace LiteralSource

variable {blocks : Array CodeRef}

theorem Resolves.mono {l : LiteralSource} {v : Value} (h : l.Resolves w blocks v)
    (he : w.Compiles w') : l.Resolves w' blocks v := by
  cases l with
  | constant x => exact h
  | symbol name =>
    obtain ⟨s, rfl, hs⟩ := h
    exact ⟨s, rfl, he.symbols name s hs⟩
  | block n => exact h

theorem value_resolves (blocks : Array CodeRef) (l : LiteralSource) (w : World) :
    (l.value blocks).Enlarges w fun v w' => l.Resolves w' blocks v := by
  cases l with
  | constant v => exact .pure rfl
  | symbol name =>
    refine .bind (Q := fun s w' => w'.symbols.get? name = some s) ⟨.intern w name, ?_⟩
      fun s w' _ hs => .pure ⟨s, rfl, hs⟩
    change (w.symbols.intern name).2.get? name = some (w.symbols.intern name).1
    rw [SymbolTable.get?_intern, if_pos rfl]
  | block n => exact .pure rfl

theorem values_resolve (blocks : Array CodeRef) (ls : Array LiteralSource) (w : World) :
    Action.Enlarges (ls.mapM (value blocks)) w fun vs w' =>
      ∀ (n : Nat) l, ls[n]? = some l → ∃ v, vs[n]? = some v ∧ l.Resolves w' blocks v := by
  have hlist (ls : List LiteralSource) (w : World) :
      Action.Enlarges (ls.mapM (value blocks)) w fun vs w' =>
        ∀ (n : Nat) l, ls[n]? = some l → ∃ v, vs[n]? = some v ∧ l.Resolves w' blocks v := by
    induction ls generalizing w with
    | nil => exact .pure nofun
    | cons l ls ih =>
      rw [List.mapM_cons]
      refine .bind (value_resolves blocks l w) fun v w₁ _ hv => ?_
      refine .bind (ih w₁) fun vs w₂ he hvs => .pure fun n x hx => ?_
      cases n with
      | zero =>
        cases hx
        exact ⟨v, rfl, hv.mono he⟩
      | succ n => exact hvs n x hx
  rw [Array.mapM_eq_mapM_toList, map_eq_pure_bind]
  refine .bind (hlist ls.toList w) fun vs w' _ hvs => .pure fun n l hl => ?_
  rw [List.getElem?_toArray]
  exact hvs n l (by rwa [Array.getElem?_toList])

end LiteralSource

mutual

/-- The body reads back as this source: it ends where its last instruction does, and each item became
one instruction. -/
def Source.DecodedAt (w : World) (r : CodeRef) : Source → Prop
  | .mk _ _ _ _ _ code =>
    r.index < w.codes.size ∧
    (decodeFrom (w.code r).bytecodes 0).stop = (w.code r).bytecodes.size ∧
    decodedAs w r ((decodeFrom (w.code r).bytecodes 0).instructions.map Prod.snd) code

/-- These instructions of a body are those of the items, in the same order. -/
def decodedAs (w : World) (r : CodeRef) (is : List Instruction) : List SourceItem → Prop
  | [] => is = []
  | item :: rest => ∃ i later, is = i :: later ∧ item.DecodedAs w r i ∧ decodedAs w r later rest

/-- An instruction of a body is that of the item, and its literal is what the item asks for. The body
of a block is one level further in than the one that pushes it, up to 255, unless it sets its level. -/
def SourceItem.DecodedAs (w : World) (r : CodeRef) (i : Instruction) : SourceItem → Prop
  | .halt => i = .halt
  | .dup => i = .dup
  | .pop => i = .pop
  | .returnLocal => i = .returnLocal
  | .returnNonLocal => i = .returnNonLocal
  | .pushSlot area index level => i = .pushSlot area index level
  | .popSlot area index level => i = .popSlot area index level
  | .pushField index => i = .pushField index
  | .popField index => i = .popField index
  | .pushBlock s => ∃ l body, i = .pushBlock l ∧
      w.literal r l.toNat = .ok (.method (.compiled body)) ∧ s.DecodedAt w body ∧
      (w.code body).level.toNat =
        s.level?.elim (min ((w.code r).level.toNat + 1) 255) UInt8.toNat
  | .pushConstant v => ∃ l, i = .pushConstant l ∧ w.literal r l.toNat = .ok v
  | .pushSymbol name => ∃ l s, i = .pushConstant l ∧
      w.literal r l.toNat = .ok (.symbol s) ∧ w.symbols.get? name = some s
  | .pushGlobal name => ∃ l s, i = .pushGlobal l ∧
      w.literal r l.toNat = .ok (.symbol s) ∧ w.symbols.get? name = some s
  | .send selector => ∃ l s, i = .send l ∧
      w.literal r l.toNat = .ok (.symbol s) ∧ w.symbols.get? selector = some s
  | .superSend selector => ∃ l s, i = .superSend l ∧
      w.literal r l.toNat = .ok (.symbol s) ∧ w.symbols.get? selector = some s
  | .raw _ => False

end

mutual

theorem Source.DecodedAt.mono (s : Source) {r : CodeRef} (he : w.Compiles w')
    (h : s.DecodedAt w r) : s.DecodedAt w' r := by
  obtain ⟨kind, signature, localCount, level?, maxStack?, code⟩ := s
  unfold Source.DecodedAt at h ⊢
  obtain ⟨hr, hstop, hcode⟩ := h
  rw [he.code hr]
  exact ⟨Nat.lt_of_lt_of_le hr he.size_le, hstop, decodedAs_mono code he hr hcode⟩

theorem decodedAs_mono (code : List SourceItem) {r : CodeRef} {is : List Instruction}
    (he : w.Compiles w') (hr : r.index < w.codes.size) (h : decodedAs w r is code) :
    decodedAs w' r is code := by
  match code with
  | [] =>
    unfold decodedAs at h ⊢
    exact h
  | item :: rest =>
    unfold decodedAs at h ⊢
    obtain ⟨i, later, his, hi, hlater⟩ := h
    exact ⟨i, later, his, SourceItem.DecodedAs.mono item he hr hi, decodedAs_mono rest he hr hlater⟩

theorem SourceItem.DecodedAs.mono (item : SourceItem) {r : CodeRef} {i : Instruction}
    (he : w.Compiles w') (hr : r.index < w.codes.size) (h : item.DecodedAs w r i) :
    item.DecodedAs w' r i := by
  have hcode := he.code hr
  have hliteral := World.literal_congr hcode
  match item with
  | .pushBlock s =>
    unfold SourceItem.DecodedAs at h ⊢
    obtain ⟨l, body, hi, hl, hs, hlevel⟩ := h
    have hbody : body.index < w.codes.size := by
      cases s
      unfold Source.DecodedAt at hs
      exact hs.1
    refine ⟨l, body, hi, (hliteral _).trans hl, Source.DecodedAt.mono s he hs, ?_⟩
    rw [he.code hbody, hcode]
    exact hlevel
  | .pushConstant v =>
    unfold SourceItem.DecodedAs at h ⊢
    obtain ⟨l, hi, hl⟩ := h
    exact ⟨l, hi, (hliteral _).trans hl⟩
  | .pushSymbol name | .pushGlobal name | .send name | .superSend name =>
    unfold SourceItem.DecodedAs at h ⊢
    obtain ⟨l, s, hi, hl, hs⟩ := h
    exact ⟨l, s, hi, (hliteral _).trans hl, he.symbols _ _ hs⟩
  | .halt | .dup | .pop | .returnLocal | .returnNonLocal | .pushSlot .. | .popSlot ..
  | .pushField _ | .popField _ | .raw _ =>
    unfold SourceItem.DecodedAs at h ⊢
    exact h

end

/-- A source that could be built, in this world after its blocks were built and its literals made. -/
structure Source.Built (code : List SourceItem) (level : UInt8) (w : World) (blocks : List CodeRef)
    (literals : Array Value) (w' : World) : Prop where
  few : (Emission.items code).tooManyLiterals = false
  made : ∃ v, buildBlocks (nestedLevel level) code w = .ok blocks v ∧
    (Emission.items code).literals.mapM (·.value blocks.toArray) v = .ok literals w'

theorem Source.of_build {kind : SourceKind} {signature : String} {localCount : Nat}
    {level? : Option UInt8} {maxStack? : Option Nat} {code : List SourceItem} {level : UInt8}
    {r : CodeRef}
    (h : (Source.mk kind signature localCount level? maxStack? code).build level w = .ok r w') :
    ∃ blocks literals v fits, Source.Built code (level?.getD level) w blocks literals v ∧
      (v.intern signature).2.newCode {
        signature := (v.intern signature).1, bytecodes := (Emission.items code).bytes, literals
        localCount, level := level?.getD level
        operandCapacity :=
          maxStack?.getD (selectorArity signature + localCount + (Emission.items code).maxDepth) -
            (selectorArity signature + localCount)
        fits } = (r, w') := by
  unfold Source.build at h
  dsimp only at h
  split at h
  · cases h
  split at h
  · cases h
  next hmany =>
  obtain ⟨blocks, w₁, hblocks, h⟩ := Action.of_bind h
  obtain ⟨literals, v, hliterals, h⟩ := Action.of_bind h
  obtain ⟨s, w₃, hs, h⟩ := Action.of_bind h
  obtain ⟨rfl, rfl⟩ := Action.of_update hs
  obtain ⟨c, w₄, hlayout, h⟩ := Action.of_bind h
  obtain ⟨hc, rfl⟩ := Action.of_lift hlayout
  obtain ⟨hr, hw⟩ := Action.of_update h
  obtain ⟨-, -, -, hfits, rfl⟩ := Layout.code?_eq_ok hc
  refine ⟨blocks, literals, v, hfits, ⟨Bool.eq_false_iff.mpr hmany, w₁, hblocks, hliterals⟩, ?_⟩
  exact Prod.ext hr hw

def SourceItem.block? : SourceItem → Option Source
  | pushBlock s => some s
  | _ => none

theorem SourceItem.length_blocks (code : List SourceItem) :
    (code.filterMap (·.block?)).length = code.countP (·.isBlock) := by
  induction code with
  | nil => rfl
  | cons item rest ih =>
    cases item with
    | pushBlock s =>
      rw [List.countP_cons_of_pos rfl, ← ih]
      rfl
    | _ =>
      rw [List.countP_cons_of_neg Bool.false_ne_true, ← ih]
      rfl

def Source.NestedAt (w : World) (level : UInt8) (s : Source) (body : CodeRef) : Prop :=
  s.DecodedAt w body ∧ (w.code body).level = s.level?.getD level

theorem Source.DecodedAt.lt {s : Source} {r : CodeRef} (h : s.DecodedAt w r) :
    r.index < w.codes.size := by
  cases s
  unfold DecodedAt at h
  exact h.1

theorem Source.NestedAt.mono {level : UInt8} {s : Source} {body : CodeRef}
    (h : s.NestedAt w level body) (he : w.Compiles w') : s.NestedAt w' level body := by
  refine ⟨h.1.mono s he, ?_⟩
  rw [he.code h.1.lt]
  exact h.2

theorem nestedLevel_saturates (level : UInt8) :
    (nestedLevel level).toNat = min (level.toNat + 1) 255 := by
  have hlt := level.toNat_lt
  by_cases h : level.toNat < 255
  · rw [nestedLevel_toNat h]
    omega
  · have hmax : level.toNat = (255 : UInt8).toNat := by
      change level.toNat = 255
      omega
    cases UInt8.toNat_inj.mp hmax
    rfl

section

variable {r : CodeRef} {code pre post : List SourceItem} {item : SourceItem} {blocks : List CodeRef}

/-- The instruction of an item is what the item asks for, in a body with these literals and blocks. -/
theorem SourceItem.decodedAs_instruction
    (hblocks : List.Forall₂ (Source.NestedAt w (nestedLevel (w.code r).level))
      (code.filterMap (·.block?)) blocks)
    (hcode : code = pre ++ item :: post) (hraw : item.isRaw = false) {l : UInt8}
    (hliteral : ∀ src, (Emission.items pre).literal? item = some src →
      ∃ v, (w.code r).literals[l.toNat]? = some v ∧ src.Resolves w blocks.toArray v) :
    item.DecodedAs w r (item.instruction l) := by
  cases item with
  | raw bytes => cases hraw
  | pushBlock s =>
    unfold DecodedAs
    obtain ⟨x, hx, rfl⟩ := hliteral _ rfl
    -- The block is the one with as many blocks before it.
    have hdrop := List.forall₂_drop (pre.filterMap (·.block?)).length hblocks
    rw [hcode, List.filterMap_append, List.drop_left] at hdrop
    obtain ⟨body, later, hnested, -, hrest⟩ := List.forall₂_cons_left_iff.mp hdrop
    have hbody : blocks.toArray.getD (Emission.items pre).blockCount default = body := by
      rw [Array.getD_eq_getD_getElem?, List.getElem?_toArray, Emission.blockCount_items,
        ← length_blocks, ← List.head?_drop, hrest]
      rfl
    refine ⟨l, body, rfl, hbody ▸ World.literal_of_getElem? hx, hnested.1, ?_⟩
    rw [hnested.2]
    cases s.level? with
    | none => exact nestedLevel_saturates _
    | some level => rfl
  | pushConstant v =>
    unfold DecodedAs
    obtain ⟨x, hx, rfl⟩ := hliteral _ rfl
    exact ⟨l, rfl, World.literal_of_getElem? hx⟩
  | pushSymbol name | pushGlobal name | send name | superSend name =>
    unfold DecodedAs
    obtain ⟨x, hx, s, rfl, hs⟩ := hliteral _ rfl
    exact ⟨l, s, rfl, World.literal_of_getElem? hx, hs⟩
  | _ =>
    unfold DecodedAs
    rfl

/-- From the place of an item on, the rest of the code is read back, up to the end of the body. -/
theorem decodedAs_items (hbytes : (w.code r).bytecodes = (Emission.items code).bytes)
    (hfew : (Emission.items code).tooManyLiterals = false)
    (hliterals : ∀ (n : Nat) src, (Emission.items code).literals[n]? = some src →
      ∃ v, (w.code r).literals[n]? = some v ∧ src.Resolves w blocks.toArray v)
    (hblocks : List.Forall₂ (Source.NestedAt w (nestedLevel (w.code r).level))
      (code.filterMap (·.block?)) blocks)
    (hraw : ∀ item ∈ code, item.isRaw = false) (hcode : code = pre ++ post) :
    let d := decodeFrom (w.code r).bytecodes (Emission.items pre).bytes.size
    d.stop = (w.code r).bytecodes.size ∧ decodedAs w r (d.instructions.map Prod.snd) post := by
  induction post generalizing pre with
  | nil =>
    rw [List.append_nil] at hcode
    rw [← hcode, ← hbytes]
    cases hfetch : fetch (w.code r).bytecodes (w.code r).bytecodes.size with
    | error reason =>
      rw [decodeFrom_error hfetch]
      unfold decodedAs
      exact ⟨rfl, rfl⟩
    | ok i =>
      obtain ⟨hpos, hle⟩ := fetch_le hfetch
      omega
  | cons item rest ih =>
    have hitem := hraw item (by simp [hcode])
    obtain ⟨l, hfetch, hsize, -, -, hliteral⟩ := Emission.fetch_items hitem (hcode ▸ hfew)
    rw [← hcode] at hfetch hliteral
    rw [← hbytes] at hfetch
    have hrest : code = pre ++ [item] ++ rest := by rw [hcode, List.append_cons]
    obtain ⟨hstop, hlater⟩ := ih hrest
    rw [hsize] at hstop hlater
    rw [decodeFrom_ok hfetch]
    refine ⟨hstop, ?_⟩
    unfold decodedAs
    refine ⟨_, _, rfl, ?_, hlater⟩
    exact item.decodedAs_instruction hblocks hcode hitem fun src hs => hliterals _ src (hliteral src hs)

end

mutual

theorem Source.build_decodes (s : Source)
    (hraw : ∀ b ∈ s.bodies, ∀ item ∈ b.code, item.isRaw = false) (level : UInt8) (w : World) :
    (s.build level).Enlarges w fun r w' => s.NestedAt w' level r := by
  obtain ⟨kind, signature, localCount, level?, maxStack?, code⟩ := s
  rw [Source.bodies] at hraw
  obtain ⟨hitems, hnested⟩ := List.forall_mem_cons.mp hraw
  unfold Action.Enlarges Action.Ensures
  cases hrun : (Source.mk kind signature localCount level? maxStack? code).build level w with
  | error => trivial
  | ok r w' =>
    obtain ⟨blocks, literals, v, _, ⟨hfew, w₁, hblocks, hliterals⟩, hnew⟩ := Source.of_build hrun
    obtain ⟨he₁, hblocks⟩ :=
      (buildBlocks_decode code hnested (nestedLevel (level?.getD level)) w).of_ok hblocks
    obtain ⟨he₂, hliterals⟩ := (LiteralSource.values_resolve _ _ w₁).of_ok hliterals
    obtain ⟨he₃, hlt, hcode⟩ := World.of_newCode hnew
    have he := (World.Compiles.intern v signature).trans he₃
    refine ⟨he₁.trans (he₂.trans he), ?_, congrArg Code.level hcode⟩
    unfold Source.DecodedAt
    have hnested : List.Forall₂ (Source.NestedAt w' (nestedLevel (w'.code r).level))
        (code.filterMap (·.block?)) blocks := by
      rw [hcode]
      exact hblocks.imp fun _ _ hb => hb.mono (he₂.trans he)
    refine ⟨hlt, decodedAs_items (congrArg Code.bytecodes hcode) hfew (fun n src hn => ?_) hnested
      hitems (List.nil_append code).symm⟩
    obtain ⟨x, hx, hsrc⟩ := hliterals n src hn
    rw [hcode]
    exact ⟨x, hx, hsrc.mono he⟩

theorem buildBlocks_decode (code : List SourceItem)
    (hraw : ∀ b ∈ nestedBodies code, ∀ item ∈ b.code, item.isRaw = false) (level : UInt8)
    (w : World) : (buildBlocks level code).Enlarges w fun rs w' =>
      List.Forall₂ (Source.NestedAt w' level) (code.filterMap (·.block?)) rs := by
  match code with
  | [] => exact .pure .nil
  | item :: rest =>
    rw [nestedBodies, List.forall_mem_append] at hraw
    unfold buildBlocks
    refine .bind (buildBlock_decode item hraw.1 level w) fun here w₁ _ hhere => ?_
    refine .bind (buildBlocks_decode rest hraw.2 level w₁) fun later w₂ he hlater => .pure ?_
    have hall := List.rel_append (hhere.imp fun _ _ h => h.mono he) hlater
    cases item <;> exact hall

theorem buildBlock_decode (item : SourceItem)
    (hraw : ∀ b ∈ item.bodies, ∀ item ∈ b.code, item.isRaw = false) (level : UInt8) (w : World) :
    (buildBlock level item).Enlarges w fun rs w' =>
      List.Forall₂ (Source.NestedAt w' level) item.block?.toList rs := by
  match item with
  | .pushBlock s =>
    rw [SourceItem.bodies] at hraw
    unfold buildBlock
    exact .bind (Source.build_decodes s hraw level w) fun r w' _ h => .pure (.cons h .nil)
  | .halt | .dup | .pop | .returnLocal | .returnNonLocal | .pushSlot .. | .popSlot .. | .pushField _
  | .popField _ | .pushConstant _ | .pushSymbol _ | .pushGlobal _ | .send _ | .superSend _ | .raw _ =>
    unfold buildBlock
    exact .pure .nil

end

end MessageMachine
