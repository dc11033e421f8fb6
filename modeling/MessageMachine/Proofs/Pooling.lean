import Mathlib.Data.Finset.Card
import MessageMachine.Proofs.Building

namespace MessageMachine

/-- The literal that an item shares with all that ask for the same. -/
def SourceItem.shared? : SourceItem → Option LiteralSource
  | pushConstant v => if (LiteralSource.constant v).isShared then some (.constant v) else none
  | pushSymbol name | pushGlobal name | send name | superSend name => some (.symbol name)
  | _ => none

/-- Whether an item has a literal of its own. -/
def SourceItem.owns : SourceItem → Bool
  | pushConstant v => !(LiteralSource.constant v).isShared
  | pushBlock _ => true
  | _ => false

/-- Literal slots that a body needs, shared literals counted once. -/
def Source.slots (s : Source) : Nat :=
  (s.code.filterMap (·.shared?)).toFinset.card + s.code.countP (·.owns)

namespace Emission

/-- The table after these items: one place for each shared literal and each of the others, and a note
if there are too many. -/
structure Pools (code : List SourceItem) (e : Emission) : Prop where
  mem : ∀ l, l.isShared → (l ∈ e.literals ↔ l ∈ code.filterMap (·.shared?))
  size : e.literals.size = (code.filterMap (·.shared?)).toFinset.card + code.countP (·.owns)
  tooMany : e.tooManyLiterals ↔ 256 < e.literals.size

variable {code : List SourceItem} {e : Emission} {item : SourceItem}

theorem Pools.keep {e' : Emission} (h : e.Pools code) (hliterals : e'.literals = e.literals)
    (htoo : e'.tooManyLiterals = e.tooManyLiterals) (hshared : item.shared? = none)
    (howns : item.owns = false) : e'.Pools (code ++ [item]) := by
  have hlist : (code ++ [item]).filterMap (·.shared?) = code.filterMap (·.shared?) := by
    simp [List.filterMap_append, hshared]
  refine ⟨fun l hl => ?_, ?_, ?_⟩
  · rw [hlist, hliterals]
    exact h.mem l hl
  · rw [hlist, hliterals, h.size, List.countP_append, List.countP_singleton, howns]
    rfl
  · rw [hliterals, htoo]
    exact h.tooMany

theorem mem_of_idxOf? {l : LiteralSource} {n : Nat} (h : e.literals.toList.idxOf? l = some n) :
    l ∈ e.literals ∧ n < e.literals.size := by
  obtain ⟨hlt, hget, -⟩ := List.idxOf?_eq_some_iff.mp h
  rw [Array.length_toList] at hlt
  exact ⟨Array.mem_toList_iff.mp (hget ▸ List.getElem_mem _), hlt⟩

theorem place_eq (e : Emission) (l : LiteralSource) :
    (l.isShared ∧ l ∈ e.literals ∧ ∃ n < e.literals.size, e.place l = (n, e)) ∨
    ((l.isShared → l ∉ e.literals) ∧
      e.place l = (e.literals.size, { e with literals := e.literals.push l })) := by
  unfold place
  by_cases hs : l.isShared
  · rw [if_pos hs]
    cases hn : e.literals.toList.idxOf? l with
    | some n =>
      obtain ⟨hmem, hlt⟩ := mem_of_idxOf? hn
      exact .inl ⟨hs, hmem, n, hlt, rfl⟩
    | none =>
      refine .inr ⟨fun _ hmem => ?_, rfl⟩
      exact List.idxOf?_eq_none_iff.mp hn (Array.mem_toList_iff.mpr hmem)
  · rw [if_neg hs]
    exact .inr ⟨fun h => absurd h hs, rfl⟩

theorem emitLiteral_pool (e : Emission) (l : LiteralSource) (i : UInt8 → Instruction) (pops : Nat) :
    (e.emitLiteral l i pops).literals = (e.place l).2.literals ∧
      ((e.emitLiteral l i pops).tooManyLiterals ↔
        (e.place l).2.tooManyLiterals ∨ 256 ≤ (e.place l).1) := by
  unfold emitLiteral
  dsimp only
  split
  · next hlt =>
    refine ⟨rfl, ?_⟩
    change (e.place l).2.tooManyLiterals ↔ _
    have hnot : ¬ 256 ≤ (e.place l).1 := Nat.not_le.mpr hlt
    simp [hnot]
  · next hge => exact ⟨rfl, by simp [Nat.le_of_not_lt hge]⟩

theorem Pools.share {l : LiteralSource} {i : UInt8 → Instruction} {pops : Nat} (h : e.Pools code)
    (hl : l.isShared) (hshared : item.shared? = some l) (howns : item.owns = false) :
    (e.emitLiteral l i pops).Pools (code ++ [item]) := by
  obtain ⟨hliterals, htoo⟩ := e.emitLiteral_pool l i pops
  have hlist : (code ++ [item]).filterMap (·.shared?) = code.filterMap (·.shared?) ++ [l] := by
    simp [List.filterMap_append, hshared]
  have hcount : (code ++ [item]).countP (·.owns) = code.countP (·.owns) := by
    rw [List.countP_append, List.countP_singleton, howns]
    rfl
  have hfinset : ((code ++ [item]).filterMap (·.shared?)).toFinset =
      insert l (code.filterMap (·.shared?)).toFinset := by
    rw [hlist, List.toFinset_append, Finset.union_comm]
    rfl
  have hmem (x : LiteralSource) (hx : x.isShared) :
      x ∈ (code ++ [item]).filterMap (·.shared?) ↔ x ∈ e.literals ∨ x = l := by
    rw [hlist, List.mem_append, List.mem_singleton, h.mem x hx]
  obtain ⟨-, hin, n, hn, hplace⟩ | ⟨hout, hplace⟩ := e.place_eq l <;>
    rw [hplace] at hliterals htoo <;> dsimp only at hliterals htoo
  · refine ⟨fun x hx => ?_, ?_, ?_⟩
    · rw [hmem x hx, hliterals]
      exact ⟨.inl, fun hx => hx.elim id fun heq => heq ▸ hin⟩
    · rw [hfinset, hcount, hliterals, h.size,
        Finset.insert_eq_of_mem (List.mem_toFinset.mpr ((h.mem l hl).mp hin))]
    · rw [htoo, hliterals, h.tooMany]
      omega
  · refine ⟨fun x hx => ?_, ?_, ?_⟩
    · rw [hmem x hx, hliterals, Array.mem_push]
    · have hnew : l ∉ (code.filterMap (·.shared?)).toFinset :=
        fun hmem => hout hl ((h.mem l hl).mpr (List.mem_toFinset.mp hmem))
      rw [hfinset, hcount, hliterals, Array.size_push, h.size, Finset.card_insert_of_notMem hnew]
      omega
    · rw [htoo, hliterals, Array.size_push, h.tooMany]
      omega

theorem Pools.own {l : LiteralSource} {i : UInt8 → Instruction} {pops : Nat} (h : e.Pools code)
    (hl : l.isShared = false) (hshared : item.shared? = none) (howns : item.owns) :
    (e.emitLiteral l i pops).Pools (code ++ [item]) := by
  obtain ⟨hliterals, htoo⟩ := e.emitLiteral_pool l i pops
  have hlist : (code ++ [item]).filterMap (·.shared?) = code.filterMap (·.shared?) := by
    simp [List.filterMap_append, hshared]
  have hcount : (code ++ [item]).countP (·.owns) = code.countP (·.owns) + 1 := by
    rw [List.countP_append, List.countP_singleton, if_pos howns]
  obtain ⟨hshare, -⟩ | ⟨-, hplace⟩ := e.place_eq l
  · rw [hl] at hshare
    cases hshare
  rw [hplace] at hliterals htoo
  dsimp only at hliterals htoo
  refine ⟨fun x hx => ?_, ?_, ?_⟩
  · rw [hlist, hliterals, Array.mem_push, ← h.mem x hx]
    refine ⟨fun hmem => hmem.elim id fun heq => ?_, .inl⟩
    rw [heq, hl] at hx
    cases hx
  · rw [hlist, hcount, hliterals, Array.size_push, h.size]
    omega
  · rw [htoo, hliterals, Array.size_push, h.tooMany]
    omega

theorem Pools.next (h : e.Pools code) (item : SourceItem) :
    (e.item item).Pools (code ++ [item]) := by
  cases item with
  | pushBlock s =>
    have hown : (e.emitLiteral (.block e.blockCount) .pushBlock 0).Pools (code ++ [.pushBlock s]) :=
      h.own rfl rfl rfl
    exact ⟨hown.mem, hown.size, hown.tooMany⟩
  | pushConstant v =>
    by_cases hv : (LiteralSource.constant v).isShared
    · exact h.share hv (if_pos hv) (by simp [SourceItem.owns, hv])
    · exact h.own (Bool.eq_false_iff.mpr hv) (if_neg hv) (by simp [SourceItem.owns, hv])
  | pushSymbol | pushGlobal | send | superSend => exact h.share rfl rfl rfl
  | halt | dup | pop | returnLocal | returnNonLocal | pushSlot | popSlot | pushField | popField
  | raw => exact h.keep rfl rfl rfl rfl

theorem pools_items (code : List SourceItem) : (items code).Pools code := by
  have hfold (rest code : List SourceItem) (e : Emission) (h : e.Pools code) :
      (rest.foldl Emission.item e).Pools (code ++ rest) := by
    induction rest generalizing code e with
    | nil => rwa [List.append_nil]
    | cons item rest ih =>
      rw [List.append_cons]
      exact ih _ _ (h.next item)
  refine hfold code [] start ⟨fun l _ => ?_, rfl, ?_⟩
  · exact ⟨fun h => absurd h (Array.not_mem_empty l), fun h => absurd h List.not_mem_nil⟩
  · exact ⟨nofun, nofun⟩

/-- Emission notes that there are too many literals exactly if the body needs more than 256 slots. -/
theorem tooManyLiterals_iff (s : Source) : (items s.code).tooManyLiterals ↔ 256 < s.slots := by
  have h := pools_items s.code
  rw [h.tooMany, h.size]
  rfl

end Emission

mutual

/-- A source and all sources of blocks nested in it. -/
def Source.bodies : Source → List Source
  | .mk kind signature localCount level? maxStack? code =>
    .mk kind signature localCount level? maxStack? code :: nestedBodies code

def nestedBodies : List SourceItem → List Source
  | [] => []
  | item :: rest => item.bodies ++ nestedBodies rest

def SourceItem.bodies : SourceItem → List Source
  | .pushBlock s => s.bodies
  | _ => []

end

variable {w : World}

theorem Layout.code?_of_fits {l : Layout} (hargs : l.argCount = l.signature.arity) (hfits : l.Fits)
    (hstack : l.argCount + l.localCount ≤ l.maxStack) : ∃ c, l.code? = .ok c := by
  have hjudged := l.code?_judged
  cases hcode : l.code? with
  | ok c => exact ⟨c, rfl⟩
  | error f =>
    rw [hcode] at hjudged
    cases hjudged with
    | arity h => exact absurd hargs h
    | word _ h => exact absurd hfits h
    | room _ _ h => exact absurd h (Nat.not_lt.mpr hstack)

/-- The slots that a frame needs for the arguments, the locals and the deepest stack that was tracked. -/
def Source.frameSize (s : Source) : Nat :=
  s.argCount + s.localCount + (Emission.items s.code).maxDepth

/-- A bound that a body exceeds, and the fault that reports it. -/
inductive Source.Exceeds (s : Source) : Fault → Prop where
  | literals (h : 256 < s.slots) : s.Exceeds (.internal (.tooManyLiterals s.signature))
  | word (h : UInt64.size ≤ s.frameSize) : s.Exceeds (.internal .countOverflow)

theorem LiteralSource.values_total (blocks : Array CodeRef) (ls : Array LiteralSource) (w : World) :
    Action.Ensures (ls.mapM (value blocks)) w (fun _ _ => True) fun _ _ => False := by
  have hvalue (l : LiteralSource) (w : World) :
      (l.value blocks).Ensures w (fun _ _ => True) fun _ _ => False := by
    cases l <;> exact trivial
  have hlist (ls : List LiteralSource) (w : World) :
      Action.Ensures (ls.mapM (value blocks)) w (fun _ _ => True) fun _ _ => False := by
    induction ls generalizing w with
    | nil => exact trivial
    | cons l ls ih =>
      rw [List.mapM_cons]
      exact .bind (hvalue l w) fun _ _ _ => .bind (ih _) fun _ _ _ => trivial
  rw [Array.mapM_eq_mapM_toList, map_eq_pure_bind]
  exact .bind (hlist ls.toList w) fun _ _ _ => trivial

def BoundsDecide (bodies : List Source) (x : Action α) (w : World) : Prop :=
  x.Ensures w (fun _ _ => ∀ b ∈ bodies, ∀ f, ¬ b.Exceeds f) fun f _ => ∃ b ∈ bodies, b.Exceeds f

mutual

theorem Source.build_decides (s : Source) (h : ∀ b ∈ s.bodies, b.maxStack? = none) (level : UInt8)
    (w : World) : BoundsDecide s.bodies (s.build level) w := by
  obtain ⟨kind, signature, localCount, level?, maxStack?, code⟩ := s
  rw [Source.bodies] at h
  obtain ⟨hself, hnested⟩ := List.forall_mem_cons.mp h
  cases hself
  have hmany := Emission.tooManyLiterals_iff (.mk kind signature localCount level? none code)
  unfold BoundsDecide
  rw [Source.bodies]
  unfold Source.build
  dsimp only
  split
  · next hword => exact ⟨_, List.mem_cons_self, .word hword⟩
  next hword =>
  split
  · next htoo => exact ⟨_, List.mem_cons_self, .literals (hmany.mp htoo)⟩
  next hfew =>
  have hnone (f : Fault) : ¬ (Source.mk kind signature localCount level? none code).Exceeds f := by
    rintro (hlt | hle)
    · exact hfew (hmany.mpr hlt)
    · exact hword hle
  have hall (hb : ∀ b ∈ nestedBodies code, ∀ f, ¬ b.Exceeds f) :
      ∀ b ∈ Source.mk kind signature localCount level? none code :: nestedBodies code,
        ∀ f, ¬ b.Exceeds f := List.forall_mem_cons.mpr ⟨hnone, hb⟩
  refine .bind ((buildBlocks_decide code hnested _ w).mono (fun _ _ => hall) ?_) fun blocks w₁ hb => ?_
  · rintro f _ ⟨b, hb, hf⟩
    exact ⟨b, List.mem_cons_of_mem _ hb, hf⟩
  refine .bind ((LiteralSource.values_total _ _ w₁).mono (fun _ _ _ => trivial) fun _ _ => False.elim)
    fun literals w₂ _ => ?_
  rw [Action.Ensures, Action.bind_apply, Action.update_apply]
  dsimp only
  obtain ⟨c, hc⟩ := Layout.code?_of_fits (l := {
      signature := (w₂.intern signature).1, bytecodes := (Emission.items code).bytes, literals
      argCount := selectorArity signature, localCount, level := level?.getD level
      maxStack := selectorArity signature + localCount + (Emission.items code).maxDepth })
    (congrArg selectorArity (SymbolTable.name_intern w₂.symbols signature).symm)
    ⟨Nat.lt_of_le_of_lt (Nat.le_add_right _ _) (Nat.lt_of_not_le hword), Nat.lt_of_not_le hword⟩
    (Nat.le_add_right _ _)
  simp only [Option.getD_none, Layout.compile, hc, Action.bind_apply, Action.lift_ok]
  exact hb

theorem buildBlocks_decide (code : List SourceItem)
    (h : ∀ b ∈ nestedBodies code, b.maxStack? = none) (level : UInt8) (w : World) :
    BoundsDecide (nestedBodies code) (buildBlocks level code) w := by
  match code with
  | [] =>
    unfold BoundsDecide buildBlocks nestedBodies
    exact fun _ hb => absurd hb List.not_mem_nil
  | item :: rest =>
    rw [nestedBodies, List.forall_mem_append] at h
    unfold BoundsDecide buildBlocks nestedBodies
    refine .bind ((buildBlock_decides item h.1 level w).mono (fun _ _ => id) ?_) fun here w₁ hhere => ?_
    · rintro f _ ⟨b, hb, hf⟩
      exact ⟨b, List.mem_append_left _ hb, hf⟩
    refine .bind ((buildBlocks_decide rest h.2 level w₁).mono (fun _ _ => id) ?_)
      fun later w₂ hlater => ?_
    · rintro f _ ⟨b, hb, hf⟩
      exact ⟨b, List.mem_append_right _ hb, hf⟩
    exact List.forall_mem_append.mpr ⟨hhere, hlater⟩

theorem buildBlock_decides (item : SourceItem) (h : ∀ b ∈ item.bodies, b.maxStack? = none)
    (level : UInt8) (w : World) : BoundsDecide item.bodies (buildBlock level item) w := by
  match item with
  | .pushBlock s =>
    rw [SourceItem.bodies] at h
    unfold BoundsDecide buildBlock SourceItem.bodies
    exact .bind (Source.build_decides s h level w) fun _ _ hb => hb
  | .halt | .dup | .pop | .returnLocal | .returnNonLocal | .pushSlot .. | .popSlot .. | .pushField _
  | .popField _ | .pushConstant _ | .pushSymbol _ | .pushGlobal _ | .send _ | .superSend _ | .raw _ =>
    unfold BoundsDecide buildBlock SourceItem.bodies
    exact fun _ hb => absurd hb List.not_mem_nil

end

end MessageMachine
