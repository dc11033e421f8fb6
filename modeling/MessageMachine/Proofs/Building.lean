import MessageMachine.Proofs.Checking
import MessageMachine.Proofs.Hosting
import MessageMachine.Proofs.Literals

namespace MessageMachine

/-- There is such a slot in one of the frames of these shapes. -/
def addresses (env : List Shape) (area : Area) (index level : UInt8) : Bool :=
  env[level.toNat]?.any fun s => decide (index.toNat < s.size area)

mutual

/-- A source is well formed inside bodies of these shapes: it is a method if there are none, and a
block of at most two parameters otherwise; it sets neither its level nor its stack; it ends in a
return; and every item is well formed and finds its operands. -/
def Source.wellFormed (ok : Value → Bool) (outer : List Shape) : Source → Bool
  | .mk kind signature localCount level? maxStack? code =>
    level?.isNone && maxStack?.isNone && decide (outer.length < 255) &&
      (if outer.isEmpty then kind == .method else kind == .block && selectorArity signature ≤ 3) &&
      code.getLast?.any (fun item => (item.instruction 0).ends) &&
      wellFormedFrom ok (⟨selectorArity signature, localCount⟩ :: outer) .start code

/-- Items are well formed after what was emitted before them. -/
def wellFormedFrom (ok : Value → Bool) (env : List Shape) (e : Emission) : List SourceItem → Bool
  | [] => true
  | item :: rest =>
    decide (item.reads ≤ e.depth) && item.wellFormed ok env && wellFormedFrom ok env (e.item item) rest

/-- An item is well formed in a body and those around it: its slot is there, an argument that it
stores into is not the first, a constant is one of those allowed, and there are no raw bytes. -/
def SourceItem.wellFormed (ok : Value → Bool) (env : List Shape) : SourceItem → Bool
  | .pushSlot area index level => addresses env area index level
  | .popSlot area index level =>
    addresses env area index level && !(area == .arguments && index == 0)
  | .pushBlock s => s.wellFormed ok env
  | .pushConstant v => ok v
  | .raw _ => false
  | _ => true

end

mutual

theorem Source.allowed_of_wellFormed {ok : Value → Bool} {outer : List Shape} (s : Source)
    (h : s.wellFormed ok outer) : s.allowed ok := by
  obtain ⟨kind, signature, localCount, level?, maxStack?, code⟩ := s
  rw [Source.wellFormed, Bool.and_eq_true] at h
  rw [Source.allowed]
  exact allAllowed_of_wellFormed code h.2

theorem allAllowed_of_wellFormed {ok : Value → Bool} {env : List Shape} {e : Emission}
    (code : List SourceItem) (h : wellFormedFrom ok env e code) : allAllowed ok code := by
  match code with
  | [] => rfl
  | item :: rest =>
    rw [wellFormedFrom, Bool.and_eq_true, Bool.and_eq_true] at h
    rw [allAllowed, Bool.and_eq_true]
    exact ⟨SourceItem.allowed_of_wellFormed item h.1.2, allAllowed_of_wellFormed rest h.2⟩

theorem SourceItem.allowed_of_wellFormed {ok : Value → Bool} {env : List Shape} (item : SourceItem)
    (h : item.wellFormed ok env) : item.allowed ok := by
  match item with
  | .pushBlock s =>
    rw [SourceItem.wellFormed] at h
    rw [SourceItem.allowed]
    exact Source.allowed_of_wellFormed s h
  | .pushConstant v =>
    rw [SourceItem.wellFormed] at h
    rwa [SourceItem.allowed]
  | .halt | .dup | .pop | .returnLocal | .returnNonLocal | .pushSlot .. | .popSlot .. | .pushField _
  | .popField _ | .pushSymbol _ | .pushGlobal _ | .send _ | .superSend _ | .raw _ =>
    rfl

end

theorem addresses_iff {env : List Shape} {area : Area} {index level : UInt8} :
    addresses env area index level ↔ Addresses env area index.toNat level := by
  unfold addresses Addresses
  rw [Option.any_eq_true]
  simp only [decide_eq_true_eq]

theorem wellFormedFrom_split {ok : Value → Bool} {env : List Shape} {pre post : List SourceItem}
    {item : SourceItem} (h : wellFormedFrom ok env .start (pre ++ item :: post)) :
    item.reads ≤ (Emission.items pre).depth ∧ item.wellFormed ok env := by
  have hfold (pre : List SourceItem) (e : Emission) (h : wellFormedFrom ok env e (pre ++ item :: post)) :
      item.reads ≤ (pre.foldl Emission.item e).depth ∧ item.wellFormed ok env := by
    induction pre generalizing e with
    | nil =>
      rw [List.nil_append, wellFormedFrom] at h
      simp only [Bool.and_eq_true, decide_eq_true_eq] at h
      exact h.1
    | cons x rest ih =>
      rw [List.cons_append, wellFormedFrom, Bool.and_eq_true] at h
      exact ih _ h.2
  exact hfold pre .start h

structure Code.BuiltFrom (c : Code) (code : List SourceItem) (blocks : Array CodeRef) : Prop where
  bytecodes : c.bytecodes = (Emission.items code).bytes
  capacity : c.operandCapacity = (Emission.items code).maxDepth
  few : (Emission.items code).tooManyLiterals = false
  literals : ∀ (n : Nat) src, (Emission.items code).literals[n]? = some src →
    ∃ v, c.literals[n]? = some v ∧ src.Makes blocks v

namespace Code.BuiltFrom

variable {c : Code} {code pre post : List SourceItem} {item : SourceItem} {blocks : Array CodeRef}

/-- Each item is an instruction of the body, and the tracked depth is the number of operands. -/
theorem fetch (h : c.BuiltFrom code blocks) (hcode : code = pre ++ item :: post)
    (hraw : item.isRaw = false) :
    ∃ l : UInt8,
      MessageMachine.fetch c.bytecodes (Emission.items pre).bytes.size = .ok (item.instruction l) ∧
      (Emission.items (pre ++ [item])).bytes.size =
        (Emission.items pre).bytes.size + (item.instruction l).length ∧
      c.takes (item.instruction l) = item.takes ∧
      (Emission.items (pre ++ [item])).depth =
        (Emission.items pre).depth - item.takes + (item.instruction l).gives ∧
      (Emission.items (pre ++ [item])).depth ≤ c.operandCapacity ∧
      ∀ src, (Emission.items pre).literal? item = some src →
        ∃ v, c.literals[l.toNat]? = some v ∧ src.Makes blocks v := by
  subst hcode
  obtain ⟨l, hfetch, hsize, hdepth, hle, hliteral⟩ := Emission.fetch_items hraw h.few
  have hmade {src : LiteralSource} (hs : (Emission.items pre).literal? item = some src) :
      ∃ v, c.literals[l.toNat]? = some v ∧ src.Makes blocks v := h.literals _ src (hliteral src hs)
  rw [← h.bytecodes] at hfetch
  rw [← h.capacity] at hle
  refine ⟨l, hfetch, hsize, ?_, hdepth, hle, fun src hs => hmade hs⟩
  cases item with
  | send name =>
    obtain ⟨v, hv, s, rfl, rfl⟩ := hmade rfl
    exact takes_send hv
  | superSend name =>
    obtain ⟨v, hv, s, rfl, rfl⟩ := hmade rfl
    exact takes_superSend hv
  | _ => rfl

theorem split (h : c.BuiltFrom code blocks) (hraw : ∀ item ∈ code, item.isRaw = false)
    (hends : code.getLast?.any (fun item => (item.instruction 0).ends)) {offset n : Nat}
    (hr : c.Reaches offset n) :
    ∃ pre item post, code = pre ++ item :: post ∧ offset = (Emission.items pre).bytes.size ∧
      n = (Emission.items pre).depth := by
  induction hr with
  | start =>
    cases code with
    | nil => cases hends
    | cons item rest => exact ⟨[], item, rest, rfl, rfl, rfl⟩
  | @next offset n i _ hi hiends hn ih =>
    obtain ⟨pre, item, post, hcode, rfl, rfl⟩ := ih
    have hitem := hraw item (by simp [hcode])
    obtain ⟨l, hfetch, hsize, htakes, hdepth, -, -⟩ := h.fetch hcode hitem
    rw [hfetch] at hi
    cases hi
    cases post with
    | nil =>
      have hlast : (item.instruction l).ends = (item.instruction 0).ends := by cases item <;> rfl
      rw [hcode, List.getLast?_append, List.getLast?_singleton] at hends
      rw [hlast] at hiends
      rw [Option.some_or, Option.any_some, hiends] at hends
      cases hends
    | cons next rest =>
      refine ⟨pre ++ [item], next, rest, by simp [hcode], hsize.symm, ?_⟩
      rw [hdepth, htakes]

end Code.BuiltFrom

theorem SourceItem.isRaw_of_wellFormed {ok : Value → Bool} {env : List Shape} {item : SourceItem}
    (h : item.wellFormed ok env) : item.isRaw = false := by
  cases item with
  | raw bytes =>
    rw [SourceItem.wellFormed] at h
    cases h
  | _ => rfl

namespace World

variable {w : World}

theorem blockClass?_isSome {n : Nat} (hpos : 0 < n) (hle : n ≤ 3) : (w.blockClass? n).isSome := by
  obtain rfl | rfl | rfl : n = 1 ∨ n = 2 ∨ n = 3 := by omega
  all_goals rfl

theorem symbolLiteral_of_getElem? {r : CodeRef} {index : Nat} {s : Symbol}
    (h : (w.code r).literals[index]? = some (.symbol s)) : w.symbolLiteral r index = .ok s := by
  simp only [symbolLiteral, literal, h]
  rfl

theorem literal_of_getElem? {r : CodeRef} {index : Nat} {v : Value}
    (h : (w.code r).literals[index]? = some v) : w.literal r index = .ok v := by
  simp only [literal, h]

def ChecksBlocks (w : World) (env : List Shape) (code : List SourceItem) (blocks : Array CodeRef) :
    Prop :=
  ∀ n, n < code.countP (·.isBlock) → w.Checked False env (blocks.getD n default) ∧
    (w.code (blocks.getD n default)).argCount ≤ 3

theorem admits_of_wellFormed {ok : Value → Bool} {outer : List Shape} {r : CodeRef}
    {code pre post : List SourceItem} {item : SourceItem} {blocks : Array CodeRef}
    (hlevel : (w.code r).level.toNat = outer.length) (hlt : outer.length < 255)
    (hblocks : w.ChecksBlocks ((w.code r).shape :: outer) code blocks)
    (hcode : code = pre ++ item :: post) {l : UInt8}
    (hliteral : ∀ src, (Emission.items pre).literal? item = some src →
      ∃ v, (w.code r).literals[l.toNat]? = some v ∧ src.Makes blocks v)
    (hdepth : (Emission.items pre).depth - item.takes + (item.instruction l).gives ≤
      (w.code r).operandCapacity)
    (hreads : item.reads ≤ (Emission.items pre).depth)
    (hwf : item.wellFormed ok ((w.code r).shape :: outer)) :
    w.Admits ((w.code r).shape :: outer) r (Emission.items pre).depth (item.instruction l) := by
  cases item with
  | halt | pop | popField _ | returnLocal | returnNonLocal => exact hreads
  | dup => exact ⟨hreads, hdepth⟩
  | pushSlot area index level =>
    rw [SourceItem.wellFormed] at hwf
    exact ⟨hdepth, addresses_iff.mp hwf⟩
  | popSlot area index level =>
    simp only [SourceItem.wellFormed, Bool.and_eq_true, Bool.not_eq_true'] at hwf
    refine ⟨hreads, addresses_iff.mp hwf.1, fun harea hindex => ?_⟩
    subst harea hindex
    cases hwf.2
  | pushField index => exact hdepth
  | pushBlock s =>
    obtain ⟨v, hv, rfl⟩ := hliteral _ rfl
    obtain ⟨hchecked, hargs⟩ := hblocks _ (hcode ▸ Emission.blockCount_lt)
    have hliteral := blockLiteral_eq_ok.mpr
      ⟨literal_of_getElem? hv, hchecked.isBlock (List.cons_ne_nil _ _)⟩
    refine ⟨hdepth, _, hliteral, ?_, blockClass?_isSome (Code.argCount_pos _) hargs⟩
    -- Levels do not wrap around, since there are fewer than 255 bodies around.
    have hnested := hchecked.level
    rw [List.length_cons, ← hlevel] at hnested
    refine UInt8.toNat_inj.mp ?_
    rw [hnested, UInt8.toNat_add, UInt8.toNat_one]
    omega
  | pushConstant v =>
    obtain ⟨v, hv, -⟩ := hliteral _ rfl
    exact ⟨hdepth, v, literal_of_getElem? hv⟩
  | pushSymbol name =>
    obtain ⟨v, hv, -⟩ := hliteral _ rfl
    exact ⟨hdepth, v, literal_of_getElem? hv⟩
  | pushGlobal name =>
    obtain ⟨v, hv, s, rfl, -⟩ := hliteral _ rfl
    exact ⟨hdepth, s, symbolLiteral_of_getElem? hv⟩
  | send name | superSend name =>
    obtain ⟨v, hv, s, rfl, hname⟩ := hliteral _ rfl
    refine ⟨s, symbolLiteral_of_getElem? hv, ?_⟩
    rw [Symbol.arity, hname]
    exact hreads
  | raw bytes =>
    rw [SourceItem.wellFormed] at hwf
    cases hwf

theorem checked_of_builtFrom {ok : Value → Bool} {outer : List Shape} {r : CodeRef}
    {code : List SourceItem} {blocks : Array CodeRef} (hr : r.index < w.codes.size)
    (hlevel : (w.code r).level.toNat = outer.length) (hlt : outer.length < 255)
    (hbuilt : (w.code r).BuiltFrom code blocks)
    (hblocks : w.ChecksBlocks ((w.code r).shape :: outer) code blocks)
    (hends : code.getLast?.any fun item => (item.instruction 0).ends)
    (hbelow : ∀ n, n < code.countP (·.isBlock) → (blocks.getD n default).index < r.index)
    (hwf : wellFormedFrom ok ((w.code r).shape :: outer) .start code) :
    w.Checked False outer r := by
  have hitems : ∀ item ∈ code, item.isRaw = false := by
    intro item hitem
    obtain ⟨pre, post, rfl⟩ := List.append_of_mem hitem
    exact SourceItem.isRaw_of_wellFormed (wellFormedFrom_split hwf).2
  have hsplit {offset n : Nat} (hr : (w.code r).Reaches offset n) := hbuilt.split hitems hends hr
  -- Whatever block an instruction pushes was built from an item that pushes a block.
  have hnested {offset n : Nat} {l : UInt8} {body : CodeRef} (hr : (w.code r).Reaches offset n)
      (hf : fetch (w.code r).bytecodes offset = .ok (.pushBlock l))
      (hb : w.blockLiteral r l.toNat = .ok body) :
      ∃ n, n < code.countP (·.isBlock) ∧ body = blocks.getD n default := by
    obtain ⟨pre, item, post, hcode, rfl, rfl⟩ := hsplit hr
    obtain ⟨l', hfetch, -, -, -, -, hliteral⟩ :=
      hbuilt.fetch hcode (hitems item (by simp [hcode]))
    rw [hfetch] at hf
    have hinstruction := Except.ok.inj hf
    cases item with
    | pushBlock s =>
      cases hinstruction
      obtain ⟨v, hv, rfl⟩ := hliteral _ rfl
      obtain ⟨hliteral, -⟩ := blockLiteral_eq_ok.mp hb
      rw [literal_of_getElem? hv] at hliteral
      cases hliteral
      exact ⟨_, hcode ▸ Emission.blockCount_lt, rfl⟩
    | _ => cases hinstruction
  refine .mk hr hlevel nofun (fun offset n hr => ?_) (fun offset n l body hr hf hb => ?_)
    fun offset n l body hr hf hb => ?_
  · obtain ⟨pre, item, post, hcode, rfl, rfl⟩ := hsplit hr
    obtain ⟨l, hfetch, -, -, hdepth, hle, hliteral⟩ :=
      hbuilt.fetch hcode (hitems item (by simp [hcode]))
    obtain ⟨hreads, hitem⟩ := wellFormedFrom_split (hcode ▸ hwf)
    rw [hdepth] at hle
    refine ⟨?_, _, hfetch, admits_of_wellFormed hlevel hlt hblocks hcode hliteral hle hreads hitem⟩
    -- The tracked depth never exceeds the depth that sizes the stack.
    rw [hbuilt.capacity, hcode, Emission.items_append]
    exact Nat.le_trans (Emission.depth_le pre) (Emission.foldl_grows _ _).maxDepth
  · obtain ⟨k, hk, rfl⟩ := hnested hr hf hb
    exact (hblocks k hk).1
  · obtain ⟨k, hk, rfl⟩ := hnested hr hf hb
    exact hbelow k hk

end World

section

variable {ok : Value → Bool} {env outer : List Shape} {w : World}

theorem nestedLevel_toNat {level : UInt8} (h : level.toNat < 255) :
    (nestedLevel level).toNat = level.toNat + 1 := by
  unfold nestedLevel
  split
  · next heq =>
    rw [heq] at h
    exact absurd h (by decide)
  · rw [UInt8.toNat_add, UInt8.toNat_one]
    omega

theorem newCode_checked {c : Code} {code : List SourceItem} {blocks : Array CodeRef}
    (hlevel : c.level.toNat = outer.length) (hlt : outer.length < 255)
    (hbuilt : c.BuiltFrom code blocks) (hblocks : w.ChecksBlocks (c.shape :: outer) code blocks)
    (hends : code.getLast?.any fun item => (item.instruction 0).ends)
    (hwf : wellFormedFrom ok (c.shape :: outer) .start code) :
    (w.newCode c).2.code (w.newCode c).1 = c ∧
      (w.newCode c).2.Checked False outer (w.newCode c).1 := by
  have hcode : (w.newCode c).2.code w.codes.next = c := by
    simp only [World.code, World.newCode, Arena.get_push, if_pos]
  refine ⟨hcode, ?_⟩
  have he := (World.Compiles.newCode w c).extended
  have hbuilt' : ((w.newCode c).2.code w.codes.next).BuiltFrom code blocks := hcode.symm ▸ hbuilt
  have hwf' : wellFormedFrom ok (((w.newCode c).2.code w.codes.next).shape :: outer) .start code :=
    hcode.symm ▸ hwf
  refine World.checked_of_builtFrom ?_ ?_ hlt hbuilt' ?_ hends (fun n hn => (hblocks n hn).1.lt) hwf'
  · simp only [World.newCode, Arena.size_push]
    exact Nat.lt_succ_self _
  · exact (congrArg (fun c => c.level.toNat) hcode).trans hlevel
  · intro n hn
    obtain ⟨hc, hargs⟩ := hblocks n hn
    rw [show (w.newCode c).1 = w.codes.next from rfl, hcode, he.code _ hc.lt]
    exact ⟨hc.mono he, hargs⟩

end

mutual

theorem Source.build_checked {ok : Value → Bool} (s : Source) {outer : List Shape} {level : UInt8}
    (hlevel : level.toNat = outer.length) (h : s.wellFormed ok outer) (w : World) :
    (s.build level).Builds ok w fun r w' => w'.Checked False outer r ∧
      (outer ≠ [] → (w'.code r).argCount ≤ 3) := by
  obtain ⟨kind, signature, localCount, level?, maxStack?, code⟩ := s
  simp only [Source.wellFormed, Bool.and_eq_true, Option.isNone_iff_eq_none,
    decide_eq_true_eq] at h
  obtain ⟨⟨⟨⟨⟨rfl, rfl⟩, hlt⟩, hkind⟩, hends⟩, hwf⟩ := h
  unfold Source.build
  simp only [Option.getD_none]
  split
  · exact .throw _
  split
  · exact .throw _
  next hmany =>
  have hnested : (nestedLevel level).toNat =
      (⟨selectorArity signature, localCount⟩ :: outer : List Shape).length := by
    rw [nestedLevel_toNat (hlevel ▸ hlt), hlevel, List.length_cons]
  refine .bind (buildBlocks_checked (List.cons_ne_nil _ _) hnested code hwf w) ?_
  intro blocks w₁ _ ⟨hlen, hblocks⟩
  refine .bind (LiteralSource.arrayValues_build ok blocks.toArray _ w₁) ?_
  intro literals w₂ hb₂ ⟨hget, hmem⟩
  refine .bind (.intern signature) fun s w₃ hb₃ hname => ?_
  have harity : s.arity = selectorArity signature := by rw [Symbol.arity, hname]
  refine (Layout.compile_builds fun v hv => ?_).mono ?_ fun _ _ => id
  · obtain ⟨src, hs, hm⟩ := hmem v hv
    exact hm.allowed (Emission.items_allowed (allAllowed_of_wellFormed code hwf) src hs)
  rintro r w₄ ⟨hb₄, c, hc, heq⟩
  refine ⟨hb₄, ?_⟩
  -- The layout asks for as many slots above the baseline as the code needs for its operands.
  obtain ⟨hsignature, hlocals, hlevel', hbuilt⟩ : c.signature = s ∧ c.localCount = localCount ∧
      c.level = level ∧ c.BuiltFrom code blocks.toArray := by
    obtain ⟨-, -, -, -, rfl⟩ := Layout.code?_eq_ok hc
    exact ⟨rfl, rfl, rfl, rfl, Nat.add_sub_cancel_left _ _, by simpa using hmany, hget⟩
  have hargs : c.argCount = selectorArity signature := by rw [Code.argCount, hsignature, harity]
  have hshape : c.shape = ⟨selectorArity signature, localCount⟩ := by
    rw [Code.shape, hargs, hlocals]
  obtain ⟨hcode, hchecked⟩ : (w₃.newCode c).2.code (w₃.newCode c).1 = c ∧
      (w₃.newCode c).2.Checked False outer (w₃.newCode c).1 := by
    refine newCode_checked ?_ hlt hbuilt ?_ hends (hshape.symm ▸ hwf)
    · rw [hlevel', hlevel]
    · rw [hshape]
      intro n hn
      rw [← hlen] at hn
      have hr : blocks.toArray.getD n default ∈ blocks := by
        simp only [Array.getD, List.size_toArray, hn, dif_pos]
        exact List.getElem_mem hn
      obtain ⟨hblock, hfew⟩ := hblocks _ hr
      -- The blocks were built before literals and names were added.
      have he := (hb₂.toCompiles.trans hb₃.toCompiles).extended
      rw [he.code _ hblock.lt]
      exact ⟨hblock.mono he, hfew⟩
  cases heq
  refine ⟨hchecked, fun hne => ?_⟩
  have hthree : c.argCount ≤ 3 := by
    rw [hargs]
    simp only [List.isEmpty_iff, if_neg hne, Bool.and_eq_true, decide_eq_true_eq] at hkind
    exact hkind.2
  exact Nat.le_trans (Nat.le_of_eq (congrArg Code.argCount hcode)) hthree

theorem buildBlocks_checked {ok : Value → Bool} {env : List Shape} (hne : env ≠ []) {level : UInt8}
    (hlevel : level.toNat = env.length) (code : List SourceItem) {e : Emission}
    (h : wellFormedFrom ok env e code) (w : World) :
    (buildBlocks level code).Builds ok w fun rs w' => rs.length = code.countP (·.isBlock) ∧
      ∀ r ∈ rs, w'.Checked False env r ∧ (w'.code r).argCount ≤ 3 := by
  match code with
  | [] => exact .pure ⟨rfl, nofun⟩
  | item :: rest =>
    rw [wellFormedFrom] at h
    simp only [Bool.and_eq_true, decide_eq_true_eq] at h
    unfold buildBlocks
    refine .bind (buildBlock_checked hne hlevel item h.1.2 w) fun here w₁ _ ⟨hlen, hhere⟩ => ?_
    refine .bind (buildBlocks_checked hne hlevel rest h.2 w₁) fun later w₂ hb ⟨hlen', hlater⟩ => ?_
    have he := hb.toCompiles.extended
    refine .pure ⟨?_, fun r hr => ?_⟩
    · rw [List.length_append, hlen, hlen', List.countP_cons, Nat.add_comm]
    · rcases List.mem_append.mp hr with hr | hr
      · obtain ⟨hc, hargs⟩ := hhere r hr
        rw [he.code r hc.lt]
        exact ⟨hc.mono he, hargs⟩
      · exact hlater r hr

theorem buildBlock_checked {ok : Value → Bool} {env : List Shape} (hne : env ≠ []) {level : UInt8}
    (hlevel : level.toNat = env.length) (item : SourceItem) (h : item.wellFormed ok env)
    (w : World) :
    (buildBlock level item).Builds ok w fun rs w' => (rs.length = if item.isBlock then 1 else 0) ∧
      ∀ r ∈ rs, w'.Checked False env r ∧ (w'.code r).argCount ≤ 3 := by
  match item with
  | .pushBlock s =>
    rw [SourceItem.wellFormed] at h
    unfold buildBlock
    refine .bind (Source.build_checked s hlevel h w) fun r w' _ ⟨hc, hargs⟩ => ?_
    exact .pure ⟨rfl, List.forall_mem_singleton.mpr ⟨hc, hargs hne⟩⟩
  | .halt | .dup | .pop | .returnLocal | .returnNonLocal | .pushSlot .. | .popSlot .. | .pushField _
  | .popField _ | .pushConstant _ | .pushSymbol _ | .pushGlobal _ | .send _ | .superSend _ | .raw _ =>
    unfold buildBlock
    exact .pure ⟨rfl, nofun⟩

end

end MessageMachine
