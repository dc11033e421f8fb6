import MessageMachine.Proofs.Literals

namespace MessageMachine

namespace World

/-- The method is one of those made so far. -/
def Made (w : World) : Method → Prop
  | .compiled r => r.index < w.codes.size
  | .primitive p => p.index < w.primitives.size

instance (w : World) : (m : Method) → Decidable (w.Made m)
  | .compiled r => inferInstanceAs (Decidable (r.index < w.codes.size))
  | .primitive p => inferInstanceAs (Decidable (p.index < w.primitives.size))

/-- A value that is a method was made before. -/
def Has (w : World) (v : Value) : Prop := ∀ m, v = .method m → w.Made m

instance (w : World) : (v : Value) → Decidable (w.Has v)
  | .method m => decidable_of_iff (w.Made m) ⟨fun h _ hm => Value.method.inj hm ▸ h, fun h => h m rfl⟩
  | .nil | .boolean _ | .integer _ | .double _ | .string _ _ | .symbol _ | .array _ | .object _
  | .cls _ | .block _ => isTrue nofun

structure Assembles (w w' : World) : Prop extends w.Compiles w' where
  below : ∀ r, w.codes.size ≤ r.index → ∀ n : CodeRef,
    .method (.compiled n) ∈ (w'.code r).literals → n.index < r.index
  unheld : ∀ r, w.codes.size ≤ r.index → (w'.codes.get r).holder = none

namespace Assembles

variable {w w' w'' : World}

theorem of_codes (h : w.Compiles w') (hcodes : w'.codes = w.codes) : w.Assembles w' where
  toCompiles := h
  below := fun r hr n hn => by
    rw [World.code, hcodes, Arena.get_of_le _ hr] at hn
    exact absurd hn (Array.not_mem_empty _)
  unheld := fun r hr => by
    rw [hcodes, Arena.get_of_le _ hr]
    rfl

theorem refl (w : World) : w.Assembles w := of_codes (.refl w) rfl

theorem intern (w : World) (name : String) : w.Assembles (w.intern name).2 :=
  of_codes (.intern w name) rfl

theorem trans (h : w.Assembles w') (h' : w'.Assembles w'') : w.Assembles w'' where
  toCompiles := h.toCompiles.trans h'.toCompiles
  below := fun r hr n hn => by
    by_cases hlt : r.index < w'.codes.size
    · rw [World.code, h'.codes r hlt] at hn
      exact h.below r hr n hn
    · exact h'.below r (Nat.le_of_not_lt hlt) n hn
  unheld := fun r hr => by
    by_cases hlt : r.index < w'.codes.size
    · rw [h'.codes r hlt]
      exact h.unheld r hr
    · exact h'.unheld r (Nat.le_of_not_lt hlt)

theorem made (h : w.Assembles w') {m : Method} (hm : w.Made m) : w'.Made m := by
  cases m with
  | compiled r => exact Nat.lt_of_lt_of_le hm h.size_le
  | primitive p =>
    rw [h.same]
    exact hm

theorem has (h : w.Assembles w') {v : Value} (hv : w.Has v) : w'.Has v :=
  fun m hm => h.made (hv m hm)

theorem newCode {c : Code} (hc : ∀ v ∈ c.literals, w.Has v) : w.Assembles (w.newCode c).2 where
  toCompiles := .newCode w c
  below := fun r hr n hn => by
    simp only [World.code, World.newCode, Arena.get_push] at hn
    split at hn
    · exact Nat.lt_of_lt_of_le (hc _ hn (.compiled n) rfl) hr
    · rw [Arena.get_of_le _ hr] at hn
      exact absurd hn (Array.not_mem_empty _)
  unheld := fun r hr => by
    simp only [World.newCode, Arena.get_push]
    split
    · rfl
    · rw [Arena.get_of_le _ hr]
      rfl

end Assembles

end World

variable {α β : Type} {w : World}

namespace Action

def Assembles (x : Action α) (w : World) (Q : α → World → Prop) : Prop :=
  x.Ensures w (fun a w' => w.Assembles w' ∧ Q a w') fun _ w' => w.Assembles w'

namespace Assembles

variable {Q : α → World → Prop} {R : β → World → Prop}

theorem pure {a : α} (h : Q a w) : Assembles (pure a) w Q := ⟨.refl w, h⟩

theorem throw (f : Fault) : Assembles (throw f : Action α) w Q := World.Assembles.refl w

theorem bind {x : Action α} {f : α → Action β} (hx : Assembles x w Q)
    (hf : ∀ a w', w.Assembles w' → Q a w' → Assembles (f a) w' R) : Assembles (x >>= f) w R := by
  refine Ensures.bind hx fun a w' ⟨hw, ha⟩ => (hf a w' hw ha).mono ?_ ?_
  · exact fun b w'' ⟨hw', hb⟩ => ⟨hw.trans hw', hb⟩
  · exact fun f w'' hw' => hw.trans hw'

theorem mapM {f : α → Action β} {S : α → β → Prop}
    (hf : ∀ a w, (f a).Assembles w fun b _ => S a b) (xs : List α) (w : World) :
    Assembles (xs.mapM f) w fun ys _ => ∀ y ∈ ys, ∃ x ∈ xs, S x y := by
  induction xs generalizing w with
  | nil => exact pure nofun
  | cons x xs ih =>
    rw [List.mapM_cons]
    refine bind (hf x w) fun y w₁ _ hy => bind (ih w₁) fun ys w₂ _ hys => pure ?_
    refine List.forall_mem_cons.mpr ⟨⟨x, List.mem_cons_self, hy⟩, fun z hz => ?_⟩
    obtain ⟨a, ha, hs⟩ := hys z hz
    exact ⟨a, List.mem_cons_of_mem x ha, hs⟩

end Assembles

end Action

theorem LiteralSource.values_assemble (blocks : Array CodeRef) (ls : Array LiteralSource)
    (w : World) :
    Action.Assembles (ls.mapM (value blocks)) w fun vs _ => ∀ v ∈ vs, ∃ src ∈ ls, src.Makes blocks v := by
  have value (l : LiteralSource) (w : World) :
      (l.value blocks).Assembles w fun v _ => l.Makes blocks v := by
    cases l with
    | constant v => exact .pure rfl
    | symbol name =>
      refine .bind (Q := fun s _ => s.name = name)
        ⟨.intern w name, SymbolTable.name_intern w.symbols name⟩ fun s _ _ hname => .pure ⟨s, rfl, hname⟩
    | block n => exact .pure rfl
  rw [Array.mapM_eq_mapM_toList, map_eq_pure_bind]
  refine .bind (.mapM value ls.toList w) fun vs _ _ hvs => .pure fun v hv => ?_
  obtain ⟨src, hs, hm⟩ := hvs v (List.mem_toArray.mp hv)
  exact ⟨src, Array.mem_toList_iff.mp hs, hm⟩

theorem Emission.items_block_lt (code : List SourceItem) {n : Nat}
    (h : .block n ∈ (items code).literals) : n < (items code).blockCount := by
  have hliteral {e : Emission} {src : LiteralSource} {i : UInt8 → Instruction} {pops : Nat}
      (hx : .block n ∈ (e.emitLiteral src i pops).literals) : .block n ∈ e.literals ∨ src = .block n := by
    have hplace (h : .block n ∈ (e.place src).2.literals) : .block n ∈ e.literals ∨ src = .block n := by
      rcases (e.place_cases src).2 with heq | heq <;> rw [heq] at h
      · exact .inl h
      · exact (Array.mem_push.mp h).imp_right Eq.symm
    unfold emitLiteral at hx
    dsimp only at hx
    split at hx <;> exact hplace hx
  have hitem {e : Emission} (he : .block n ∈ e.literals → n < e.blockCount) (item : SourceItem)
      (hx : .block n ∈ (e.item item).literals) : n < (e.item item).blockCount := by
    rw [item_blockCount]
    cases item with
    | pushBlock s =>
      obtain hx | hx := hliteral hx
      · exact Nat.lt_succ_of_lt (he hx)
      · cases hx
        exact Nat.lt_succ_self _
    | pushConstant v => exact (hliteral hx).elim he nofun
    | pushSymbol name | pushGlobal name => exact (hliteral hx).elim he nofun
    | send name | superSend name => exact (hliteral hx).elim he nofun
    | _ => exact he hx
  have hfold (code : List SourceItem) (e : Emission) (he : .block n ∈ e.literals → n < e.blockCount)
      (hx : .block n ∈ (code.foldl item e).literals) : n < (code.foldl item e).blockCount := by
    induction code generalizing e with
    | nil => exact he hx
    | cons item rest ih => exact ih _ (hitem he item) hx
  exact hfold code start (fun h => absurd h (Array.not_mem_empty _)) h

theorem Layout.compile_assembles {l : Layout} (h : ∀ v ∈ l.literals, w.Has v) :
    l.compile.Assembles w fun r w' => w'.Made (.compiled r) := by
  unfold compile
  cases hc : l.code? with
  | error f => exact .throw f
  | ok c =>
    obtain ⟨-, -, -, -, rfl⟩ := code?_eq_ok hc
    refine ⟨.newCode h, ?_⟩
    change w.codes.size < (w.codes.push _).size
    rw [Arena.size_push]
    exact Nat.lt_succ_self _

variable {ok : Value → Bool}

mutual

theorem Source.build_assembles (s : Source) (h : s.allowed ok) (level : UInt8) (w : World)
    (hok : ∀ v, ok v → w.Has v) :
    (s.build level).Assembles w fun r w' => w'.Made (.compiled r) := by
  obtain ⟨kind, signature, localCount, level?, maxStack?, code⟩ := s
  rw [Source.allowed] at h
  unfold Source.build
  dsimp only
  split
  · exact .throw _
  split
  · exact .throw _
  refine .bind (buildBlocks_assemble code h _ w hok) fun blocks w₁ h₁ ⟨hlen, hblocks⟩ => ?_
  refine .bind (LiteralSource.values_assemble _ _ w₁) fun literals w₂ h₂ hmem => ?_
  refine .bind (Q := fun _ _ => True) ⟨.intern w₂ signature, trivial⟩ fun s w₃ h₃ _ => ?_
  refine Layout.compile_assembles fun v hv => ?_
  obtain ⟨src, hs, hm⟩ := hmem v hv
  have hbefore := h₂.trans h₃
  cases src with
  | constant x =>
    rw [hm]
    exact (h₁.trans hbefore).has (hok x (Emission.items_allowed h _ hs))
  | symbol name =>
    obtain ⟨s, rfl, -⟩ := hm
    exact nofun
  | block n =>
    have hn : n < blocks.length := by
      rw [hlen, ← Emission.blockCount_items]
      exact Emission.items_block_lt code hs
    have hr : blocks.toArray.getD n default ∈ blocks := by
      simp only [Array.getD, List.size_toArray, hn, dif_pos]
      exact List.getElem_mem hn
    rw [hm]
    rintro _ ⟨⟩
    exact hbefore.made (hblocks _ hr)

theorem buildBlocks_assemble (code : List SourceItem) (h : allAllowed ok code) (level : UInt8)
    (w : World) (hok : ∀ v, ok v → w.Has v) :
    (buildBlocks level code).Assembles w fun rs w' =>
      rs.length = code.countP (·.isBlock) ∧ ∀ r ∈ rs, w'.Made (.compiled r) := by
  match code with
  | [] => exact .pure ⟨rfl, nofun⟩
  | item :: rest =>
    rw [allAllowed, Bool.and_eq_true] at h
    unfold buildBlocks
    refine .bind (buildBlock_assembles item h.1 level w hok) fun here w₁ h₁ ⟨hlen, hhere⟩ => ?_
    refine .bind (buildBlocks_assemble rest h.2 level w₁ fun v hv => h₁.has (hok v hv))
      fun later w₂ h₂ ⟨hlen', hlater⟩ => .pure ⟨?_, fun r hr => ?_⟩
    · rw [List.length_append, hlen, hlen', List.countP_cons, Nat.add_comm]
    · exact (List.mem_append.mp hr).elim (fun hr => h₂.made (hhere r hr)) (hlater r)

theorem buildBlock_assembles (item : SourceItem) (h : item.allowed ok) (level : UInt8) (w : World)
    (hok : ∀ v, ok v → w.Has v) :
    (buildBlock level item).Assembles w fun rs w' =>
      (rs.length = if item.isBlock then 1 else 0) ∧ ∀ r ∈ rs, w'.Made (.compiled r) := by
  match item with
  | .pushBlock s =>
    rw [SourceItem.allowed] at h
    unfold buildBlock
    refine .bind (Source.build_assembles s h level w hok) fun r w' _ hr => .pure ⟨rfl, ?_⟩
    exact List.forall_mem_singleton.mpr hr
  | .halt | .dup | .pop | .returnLocal | .returnNonLocal | .pushSlot .. | .popSlot .. | .pushField _
  | .popField _ | .pushConstant _ | .pushSymbol _ | .pushGlobal _ | .send _ | .superSend _ | .raw _ =>
    unfold buildBlock
    exact .pure ⟨rfl, nofun⟩

end

end MessageMachine
