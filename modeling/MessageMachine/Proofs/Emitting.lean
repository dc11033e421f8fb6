import MessageMachine.Assembly.Emission
import MessageMachine.Proofs.Stepping

namespace MessageMachine

theorem fetch_encode (i : Instruction) (before after : List UInt8) :
    fetch (before ++ i.encode ++ after).toArray before.length = .ok i := by
  have hget (n : Nat) (hn : n < i.encode.length) :
      (before ++ i.encode ++ after).toArray[before.length + n]? = i.encode[n]? := by
    rw [List.getElem?_toArray, List.append_assoc, List.getElem?_append_right (Nat.le_add_right _ _),
      Nat.add_sub_cancel_left, List.getElem?_append_left hn]
  have hlen := i.length_encode
  have hfirst := hget 0 (by rw [hlen]; exact i.opcode.length_pos)
  have hsize : ¬ (before ++ i.encode ++ after).toArray.size < before.length + i.opcode.length := by
    simp only [List.size_toArray, List.length_append, hlen, Instruction.length]
    omega
  have hopcode : i.encode[0]? = some i.opcode.byte := rfl
  rw [Nat.add_zero, hopcode] at hfirst
  simp only [fetch, hfirst, Opcode.ofByte?_byte, if_neg hsize]
  have hoperand {n : Nat} {x : UInt8} (hx : i.encode[n]? = some x) :
      (before ++ i.encode ++ after).toArray.getD (before.length + n) 0 = x := by
    rw [Array.getD_eq_getD_getElem?, hget n (List.getElem?_eq_some_iff.mp hx).1, hx]
    rfl
  refine congrArg Except.ok ?_
  cases i with
  | pushSlot area index level | popSlot area index level =>
    rw [hoperand (n := 1) (x := index) rfl, hoperand (n := 2) (x := level) rfl]
    cases area <;> rfl
  | pushField x | popField x | pushBlock x | pushConstant x | pushGlobal x | send x | superSend x =>
    rw [hoperand (n := 1) (x := x) rfl]
    rfl
  | _ => rfl

/-- The instruction that an item becomes, with the place of its literal. -/
def SourceItem.instruction (l : UInt8) : SourceItem → Instruction
  | halt | raw _ => .halt
  | dup => .dup
  | pop => .pop
  | returnLocal => .returnLocal
  | returnNonLocal => .returnNonLocal
  | pushSlot area index level => .pushSlot area index level
  | popSlot area index level => .popSlot area index level
  | pushField index => .pushField index
  | popField index => .popField index
  | pushBlock _ => .pushBlock l
  | pushConstant _ | pushSymbol _ => .pushConstant l
  | pushGlobal _ => .pushGlobal l
  | send _ => .send l
  | superSend _ => .superSend l

/-- Operands that an item takes off the stack. -/
def SourceItem.takes : SourceItem → Nat
  | pop | popSlot _ _ _ | popField _ | returnLocal | returnNonLocal => 1
  | send selector | superSend selector => selectorArity selector
  | _ => 0

/-- Operands that an item needs on the stack. -/
def SourceItem.reads : SourceItem → Nat
  | halt | dup => 1
  | item => item.takes

def SourceItem.isBlock : SourceItem → Bool
  | pushBlock _ => true
  | _ => false

/-- Bytes that are taken over as they are. -/
def SourceItem.isRaw : SourceItem → Bool
  | raw _ => true
  | _ => false

namespace Emission

def literal? (e : Emission) : SourceItem → Option LiteralSource
  | .pushBlock _ => some (.block e.blockCount)
  | .pushConstant v => some (.constant v)
  | .pushSymbol name | .pushGlobal name | .send name | .superSend name => some (.symbol name)
  | _ => none

structure Grows (e e' : Emission) : Prop where
  bytes : ∃ rest, e'.bytes.toList = e.bytes.toList ++ rest
  literals : ∀ (n : Nat) l, e.literals[n]? = some l → e'.literals[n]? = some l
  maxDepth : e.maxDepth ≤ e'.maxDepth
  tooManyLiterals : e.tooManyLiterals → e'.tooManyLiterals

theorem Grows.refl (e : Emission) : e.Grows e :=
  ⟨⟨[], by simp⟩, fun _ _ => id, Nat.le_refl _, id⟩

theorem Grows.trans {e e' e'' : Emission} (h : e.Grows e') (h' : e'.Grows e'') : e.Grows e'' where
  bytes := by
    obtain ⟨rest, hrest⟩ := h.bytes
    obtain ⟨rest', hrest'⟩ := h'.bytes
    exact ⟨rest ++ rest', by rw [hrest', hrest, List.append_assoc]⟩
  literals := fun n l hl => h'.literals n l (h.literals n l hl)
  maxDepth := Nat.le_trans h.maxDepth h'.maxDepth
  tooManyLiterals := fun ht => h'.tooManyLiterals (h.tooManyLiterals ht)

theorem emit_grows (e : Emission) (i : Instruction) (pops pushes : Nat) :
    e.Grows (e.emit i pops pushes) :=
  ⟨⟨i.encode, Array.toList_appendList⟩, fun _ _ => id, Nat.le_max_left _ _, id⟩

theorem place_cases (e : Emission) (l : LiteralSource) :
    (e.place l).2.literals[(e.place l).1]? = some l ∧
      ((e.place l).2 = e ∨ (e.place l).2 = { e with literals := e.literals.push l }) := by
  unfold place
  split
  · next n hn =>
    refine ⟨?_, .inl rfl⟩
    split at hn
    · obtain ⟨hlt, hget, -⟩ := List.idxOf?_eq_some_iff.mp hn
      rw [← Array.getElem?_toList]
      exact (List.getElem?_eq_getElem hlt).trans (congrArg some hget)
    · cases hn
  · exact ⟨Array.getElem?_push_size .., .inr rfl⟩

theorem place_grows (e : Emission) (l : LiteralSource) : e.Grows (e.place l).2 := by
  rcases (e.place_cases l).2 with h | h
  · rw [h]
    exact .refl e
  · rw [h]
    refine ⟨⟨[], by simp⟩, fun n x hx => ?_, Nat.le_refl _, id⟩
    have hlt := (Array.getElem?_eq_some_iff.mp hx).1
    rw [Array.getElem?_push_lt hlt, ← Array.getElem?_eq_getElem hlt, hx]

theorem emitLiteral_spec {e : Emission} {src : LiteralSource} {i : UInt8 → Instruction}
    {pops : Nat} (h : (e.emitLiteral src i pops).tooManyLiterals = false) :
    ∃ l : UInt8, e.emitLiteral src i pops = (e.place src).2.emit (i l) pops 1 ∧
      (e.place src).2.literals[l.toNat]? = some src := by
  unfold emitLiteral at h ⊢
  dsimp only at h ⊢
  split at h
  · next hlt =>
    rw [if_pos hlt]
    refine ⟨_, rfl, ?_⟩
    rw [UInt8.toNat_ofNat_of_lt' hlt]
    exact (e.place_cases src).1
  · cases h

theorem emitLiteral_grows (e : Emission) (src : LiteralSource) (i : UInt8 → Instruction)
    (pops : Nat) : e.Grows (e.emitLiteral src i pops) := by
  unfold emitLiteral
  dsimp only
  split
  · exact (e.place_grows src).trans (emit_grows _ _ _ _)
  · obtain ⟨hbytes, hliterals, hdepth, -⟩ := (e.place_grows src).trans (emit_grows _ (i 0) pops 1)
    exact ⟨hbytes, hliterals, hdepth, fun _ => rfl⟩

theorem item_grows (e : Emission) (item : SourceItem) : e.Grows (e.item item) := by
  cases item with
  | raw bytes => exact ⟨⟨bytes, Array.toList_appendList⟩, fun _ _ => id, Nat.le_refl _, id⟩
  | pushBlock s =>
    obtain ⟨hbytes, hliterals, hdepth, hmany⟩ :=
      e.emitLiteral_grows (.block e.blockCount) .pushBlock 0
    exact ⟨hbytes, hliterals, hdepth, hmany⟩
  | pushConstant | pushSymbol | pushGlobal | send | superSend => exact emitLiteral_grows e _ _ _
  | halt | dup | pop | returnLocal | returnNonLocal | pushSlot | popSlot | pushField | popField =>
    exact emit_grows e _ _ _

theorem foldl_grows (e : Emission) (code : List SourceItem) : e.Grows (code.foldl item e) := by
  induction code generalizing e with
  | nil => exact .refl e
  | cons item rest ih => exact (e.item_grows item).trans (ih _)

theorem item_spec {e : Emission} {item : SourceItem} (hraw : item.isRaw = false)
    (h : (e.item item).tooManyLiterals = false) :
    ∃ l : UInt8, (e.item item).bytes.toList = e.bytes.toList ++ (item.instruction l).encode ∧
      (e.item item).depth = e.depth - item.takes + (item.instruction l).gives ∧
      (e.item item).depth ≤ (e.item item).maxDepth ∧
      ∀ src, e.literal? item = some src → (e.item item).literals[l.toNat]? = some src := by
  have hplain (i : Instruction) (pops pushes : Nat) :
      (e.emit i pops pushes).bytes.toList = e.bytes.toList ++ i.encode ∧
        (e.emit i pops pushes).depth = e.depth - pops + pushes ∧
        (e.emit i pops pushes).depth ≤ (e.emit i pops pushes).maxDepth :=
    ⟨Array.toList_appendList, rfl, Nat.le_max_right _ _⟩
  have hliteral {src : LiteralSource} {i : UInt8 → Instruction} {pops : Nat}
      (h : (e.emitLiteral src i pops).tooManyLiterals = false) : ∃ l : UInt8,
        (e.emitLiteral src i pops).bytes.toList = e.bytes.toList ++ (i l).encode ∧
        (e.emitLiteral src i pops).depth = e.depth - pops + 1 ∧
        (e.emitLiteral src i pops).depth ≤ (e.emitLiteral src i pops).maxDepth ∧
        ∀ s, some src = some s → (e.emitLiteral src i pops).literals[l.toNat]? = some s := by
    obtain ⟨l, heq, hget⟩ := emitLiteral_spec h
    refine ⟨l, ?_⟩
    rw [heq]
    -- An old literal and a new one are emitted alike but for the table.
    refine ⟨?_, ?_, Nat.le_max_right _ _, fun s hs => Option.some.inj hs ▸ hget⟩
    · rcases (e.place_cases src).2 with hp | hp <;> rw [hp] <;> exact Array.toList_appendList
    · rcases (e.place_cases src).2 with hp | hp <;> rw [hp] <;> rfl
  cases item with
  | raw bytes => cases hraw
  | pushBlock s => exact hliteral (i := .pushBlock) h
  | pushConstant v | pushSymbol name => exact hliteral (i := .pushConstant) h
  | pushGlobal name => exact hliteral (i := .pushGlobal) h
  | send name => exact hliteral (i := .send) h
  | superSend name => exact hliteral (i := .superSend) h
  | halt | dup | pop | returnLocal | returnNonLocal | pushSlot | popSlot | pushField | popField =>
    exact ⟨0, (hplain _ _ _).1, (hplain _ _ _).2.1, (hplain _ _ _).2.2, nofun⟩

theorem item_depth_le {e : Emission} (he : e.depth ≤ e.maxDepth) (item : SourceItem) :
    (e.item item).depth ≤ (e.item item).maxDepth := by
  have hliteral (src : LiteralSource) (i : UInt8 → Instruction) (pops : Nat) :
      (e.emitLiteral src i pops).depth ≤ (e.emitLiteral src i pops).maxDepth := by
    unfold emitLiteral
    dsimp only
    split <;> exact Nat.le_max_right _ _
  cases item with
  | raw bytes => exact he
  | pushBlock | pushConstant | pushSymbol | pushGlobal | send | superSend => exact hliteral _ _ _
  | halt | dup | pop | returnLocal | returnNonLocal | pushSlot | popSlot | pushField | popField =>
    exact Nat.le_max_right _ _

theorem items_append (pre post : List SourceItem) :
    items (pre ++ post) = post.foldl item (items pre) := List.foldl_append

theorem depth_le (code : List SourceItem) : (items code).depth ≤ (items code).maxDepth := by
  have hfold (e : Emission) (he : e.depth ≤ e.maxDepth) :
      (code.foldl item e).depth ≤ (code.foldl item e).maxDepth := by
    induction code generalizing e with
    | nil => exact he
    | cons item rest ih => exact ih _ (item_depth_le he item)
  exact hfold start (Nat.le_refl _)

theorem fetch_items {pre post : List SourceItem} {item : SourceItem} (hraw : item.isRaw = false)
    (hmany : (items (pre ++ item :: post)).tooManyLiterals = false) :
    ∃ l : UInt8,
      fetch (items (pre ++ item :: post)).bytes (items pre).bytes.size =
        .ok (item.instruction l) ∧
      (items (pre ++ [item])).bytes.size =
        (items pre).bytes.size + (item.instruction l).length ∧
      (items (pre ++ [item])).depth =
        (items pre).depth - item.takes + (item.instruction l).gives ∧
      (items (pre ++ [item])).depth ≤ (items (pre ++ item :: post)).maxDepth ∧
      ∀ src, (items pre).literal? item = some src →
        (items (pre ++ item :: post)).literals[l.toNat]? = some src := by
  have hone : items (pre ++ [item]) = (items pre).item item := items_append pre [item]
  have hall : items (pre ++ item :: post) = post.foldl Emission.item ((items pre).item item) :=
    items_append pre (item :: post)
  have hgrows := foldl_grows ((items pre).item item) post
  rw [← hall] at hgrows
  have hmany' : ((items pre).item item).tooManyLiterals = false := by
    rw [Bool.eq_false_iff] at hmany ⊢
    exact fun h => hmany (hgrows.tooManyLiterals h)
  obtain ⟨l, hbytes, hdepth, hle, hliteral⟩ := item_spec hraw hmany'
  obtain ⟨rest, hrest⟩ := hgrows.bytes
  rw [hone]
  refine ⟨l, ?_, ?_, hdepth, Nat.le_trans hle hgrows.maxDepth, fun src hs => ?_⟩
  · have hfetch := fetch_encode (item.instruction l) (items pre).bytes.toList rest
    rwa [← hbytes, ← hrest, Array.toArray_toList, Array.length_toList] at hfetch
  · rw [← Array.length_toList, hbytes, List.length_append, Instruction.length_encode,
      Array.length_toList]
  · exact hgrows.literals _ _ (hliteral src hs)

theorem item_blockCount (e : Emission) (item : SourceItem) :
    (e.item item).blockCount = e.blockCount + if item.isBlock then 1 else 0 := by
  have hliteral (src : LiteralSource) (i : UInt8 → Instruction) (pops : Nat) :
      (e.emitLiteral src i pops).blockCount = e.blockCount := by
    unfold emitLiteral
    dsimp only
    split <;> rcases (e.place_cases src).2 with h | h <;> rw [h] <;> rfl
  cases item with
  | pushBlock s => rfl
  | pushConstant | pushSymbol | pushGlobal | send | superSend => exact hliteral _ _ _
  | _ => rfl

theorem blockCount_items (code : List SourceItem) :
    (items code).blockCount = code.countP (·.isBlock) := by
  have hfold (e : Emission) :
      (code.foldl item e).blockCount = e.blockCount + code.countP (·.isBlock) := by
    induction code generalizing e with
    | nil => rfl
    | cons item rest ih =>
      rw [List.foldl_cons, ih, item_blockCount, List.countP_cons, Nat.add_assoc, Nat.add_comm (ite ..)]
  exact (hfold start).trans (Nat.zero_add _)

theorem blockCount_lt {pre post : List SourceItem} {s : Source} :
    (items pre).blockCount < (pre ++ .pushBlock s :: post).countP (·.isBlock) := by
  rw [blockCount_items, List.countP_append, List.countP_cons_of_pos rfl]
  omega

end Emission

end MessageMachine
