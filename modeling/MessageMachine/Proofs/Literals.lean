import MessageMachine.Proofs.Compiling
import MessageMachine.Proofs.Emitting

namespace MessageMachine

mutual

/-- Every constant in the source is one of those allowed. -/
def Source.allowed (ok : Value → Bool) : Source → Bool
  | .mk _ _ _ _ _ code => allAllowed ok code

def allAllowed (ok : Value → Bool) : List SourceItem → Bool
  | [] => true
  | item :: rest => item.allowed ok && allAllowed ok rest

def SourceItem.allowed (ok : Value → Bool) : SourceItem → Bool
  | .pushBlock s => s.allowed ok
  | .pushConstant v => ok v
  | _ => true

end

namespace World

/-- Compiling that adds no literals but names, bodies and allowed constants. -/
structure Builds (ok : Value → Bool) (w w' : World) : Prop extends w.Compiles w' where
  literals : ∀ r, w.codes.size ≤ r.index → ∀ v ∈ (w'.code r).literals, v.block? = none ∨ ok v

namespace Builds

variable {ok : Value → Bool} {w w' w'' : World}

theorem of_codes (h : w.Compiles w') (hcodes : w'.codes = w.codes) : w.Builds ok w' where
  toCompiles := h
  literals := fun r hr v hv => by
    rw [World.code, hcodes, Arena.get_of_le _ hr] at hv
    exact absurd hv (Array.not_mem_empty v)

theorem refl (w : World) : w.Builds ok w := of_codes (.refl w) rfl

theorem intern (w : World) (name : String) : w.Builds ok (w.intern name).2 :=
  of_codes (.intern w name) rfl

theorem trans (h : w.Builds ok w') (h' : w'.Builds ok w'') : w.Builds ok w'' where
  toCompiles := h.toCompiles.trans h'.toCompiles
  literals := fun r hr v hv => by
    by_cases hlt : r.index < w'.codes.size
    · rw [World.code, h'.codes r hlt] at hv
      exact h.literals r hr v hv
    · exact h'.literals r (Nat.le_of_not_lt hlt) v hv

theorem newCode {c : Code} (hc : ∀ v ∈ c.literals, v.block? = none ∨ ok v) :
    w.Builds ok (w.newCode c).2 where
  toCompiles := .newCode w c
  literals := fun r hr v hv => by
    simp only [World.code, World.newCode, Arena.get_push] at hv
    split at hv
    · exact hc v hv
    · rw [Arena.get_of_le _ hr] at hv
      exact absurd hv (Array.not_mem_empty v)

end Builds

end World

variable {α β : Type} {ok : Value → Bool} {w : World}

namespace Action

/-- The action only builds, whether it answers or fails. -/
def Builds (ok : Value → Bool) (x : Action α) (w : World) (Q : α → World → Prop) : Prop :=
  x.Ensures w (fun a w' => w.Builds ok w' ∧ Q a w') fun _ w' => w.Builds ok w'

namespace Builds

variable {Q : α → World → Prop} {R : β → World → Prop}

theorem pure {a : α} (h : Q a w) : Builds ok (pure a) w Q := ⟨.refl w, h⟩

theorem throw (f : Fault) : Builds ok (throw f : Action α) w Q := World.Builds.refl w

theorem bind {x : Action α} {f : α → Action β} (hx : Builds ok x w Q)
    (hf : ∀ a w', w.Builds ok w' → Q a w' → Builds ok (f a) w' R) : Builds ok (x >>= f) w R := by
  refine Ensures.bind hx fun a w' ⟨hw, ha⟩ => (hf a w' hw ha).mono ?_ ?_
  · exact fun b w'' ⟨hw', hb⟩ => ⟨hw.trans hw', hb⟩
  · exact fun f w'' hw' => hw.trans hw'

theorem lift {e : Except Fault α} (h : ∀ a, e = .ok a → Q a w) : Builds ok (liftM e) w Q := by
  cases e with
  | ok a => exact pure (h a rfl)
  | error f => exact throw f

theorem intern (name : String) : Builds ok (update (·.intern name)) w fun s _ => s.name = name :=
  ⟨.intern w name, SymbolTable.name_intern w.symbols name⟩

end Builds

end Action

namespace LiteralSource

def Makes (blocks : Array CodeRef) : LiteralSource → Value → Prop
  | constant v, x => x = v
  | symbol name, x => ∃ s, x = .symbol s ∧ s.name = name
  | block n, x => x = .method (.compiled (blocks.getD n default))

/-- A literal that is no constant, or one of those allowed. -/
def Allowed (ok : Value → Bool) : LiteralSource → Prop
  | constant v => ok v
  | symbol _ | block _ => True

theorem Makes.allowed {blocks : Array CodeRef} {src : LiteralSource} {v : Value}
    (h : src.Makes blocks v) (hs : src.Allowed ok) : v.block? = none ∨ ok v := by
  cases src with
  | constant x => exact .inr (h ▸ hs)
  | symbol name =>
    obtain ⟨s, rfl, -⟩ := h
    exact .inl rfl
  | block n =>
    rw [h]
    exact .inl rfl

theorem value_builds (ok : Value → Bool) (blocks : Array CodeRef) (l : LiteralSource) (w : World) :
    (l.value blocks).Builds ok w fun v _ => l.Makes blocks v := by
  cases l with
  | constant v => exact .pure rfl
  | symbol name => exact .bind (.intern name) fun s _ _ hname => .pure ⟨s, rfl, hname⟩
  | block n => exact .pure rfl

theorem values_build (ok : Value → Bool) (blocks : Array CodeRef) (ls : List LiteralSource)
    (w : World) :
    Action.Builds ok (ls.mapM (value blocks)) w fun vs _ =>
      (∀ (n : Nat) src, ls[n]? = some src → ∃ v, vs[n]? = some v ∧ src.Makes blocks v) ∧
      ∀ v ∈ vs, ∃ src ∈ ls, src.Makes blocks v := by
  induction ls generalizing w with
  | nil => exact .pure ⟨nofun, nofun⟩
  | cons l ls ih =>
    rw [List.mapM_cons]
    refine .bind (value_builds ok blocks l w) fun v w₁ _ hv => ?_
    refine .bind (ih w₁) fun vs w₂ _ ⟨hvs, hmem⟩ => .pure ⟨fun n src hs => ?_, ?_⟩
    · cases n with
      | zero =>
        cases hs
        exact ⟨v, rfl, hv⟩
      | succ n => exact hvs n src hs
    · refine List.forall_mem_cons.mpr ⟨⟨l, List.mem_cons_self, hv⟩, fun x hx => ?_⟩
      obtain ⟨src, hs, hx⟩ := hmem x hx
      exact ⟨src, List.mem_cons_of_mem l hs, hx⟩

theorem arrayValues_build (ok : Value → Bool) (blocks : Array CodeRef) (ls : Array LiteralSource)
    (w : World) :
    Action.Builds ok (ls.mapM (value blocks)) w fun vs _ =>
      (∀ (n : Nat) src, ls[n]? = some src → ∃ v, vs[n]? = some v ∧ src.Makes blocks v) ∧
      ∀ v ∈ vs, ∃ src ∈ ls, src.Makes blocks v := by
  rw [Array.mapM_eq_mapM_toList, map_eq_pure_bind]
  refine .bind (values_build ok blocks ls.toList w) fun vs w' _ ⟨hget, hmem⟩ => .pure ⟨?_, ?_⟩
  · intro n src hs
    rw [List.getElem?_toArray]
    exact hget n src (by rwa [Array.getElem?_toList])
  · intro v hv
    obtain ⟨src, hs, hm⟩ := hmem v (List.mem_toArray.mp hv)
    exact ⟨src, Array.mem_toList_iff.mp hs, hm⟩

end LiteralSource

namespace Emission

theorem item_allowed {e : Emission} (he : ∀ src ∈ e.literals, src.Allowed ok) {item : SourceItem}
    (hi : item.allowed ok) : ∀ src ∈ (e.item item).literals, src.Allowed ok := by
  have hliteral (src : LiteralSource) (hs : src.Allowed ok) (i : UInt8 → Instruction) (pops : Nat) :
      ∀ x ∈ (e.emitLiteral src i pops).literals, x.Allowed ok := by
    have hplace : ∀ x ∈ (e.place src).2.literals, x.Allowed ok := by
      rcases (e.place_cases src).2 with h | h <;> rw [h]
      · exact he
      · intro x hx
        exact (Array.mem_push.mp hx).elim (he x) fun heq => heq ▸ hs
    unfold emitLiteral
    dsimp only
    split <;> exact hplace
  cases item with
  | pushConstant v =>
    rw [SourceItem.allowed] at hi
    exact hliteral (.constant v) hi _ _
  | pushBlock s => exact hliteral (.block _) trivial _ _
  | pushSymbol name | pushGlobal name => exact hliteral (.symbol name) trivial _ _
  | send name | superSend name => exact hliteral (.symbol name) trivial _ _
  | _ => exact he

theorem items_allowed {code : List SourceItem} (h : allAllowed ok code) :
    ∀ src ∈ (items code).literals, src.Allowed ok := by
  have hfold (code : List SourceItem) (e : Emission) (he : ∀ src ∈ e.literals, src.Allowed ok)
      (h : allAllowed ok code) : ∀ src ∈ (code.foldl item e).literals, src.Allowed ok := by
    induction code generalizing e with
    | nil => exact he
    | cons item rest ih =>
      rw [allAllowed, Bool.and_eq_true] at h
      exact ih _ (item_allowed he h.1) h.2
  exact hfold code start nofun h

end Emission

theorem Layout.compile_builds {l : Layout} (h : ∀ v ∈ l.literals, v.block? = none ∨ ok v) :
    l.compile.Builds ok w fun r w' => ∃ c, l.code? = .ok c ∧ (r, w') = w.newCode c := by
  refine .bind (.lift (Q := fun c v => v = w ∧ l.code? = .ok c) fun _ hc => ⟨rfl, hc⟩) ?_
  rintro c _ - ⟨rfl, hc⟩
  refine ⟨.newCode ?_, c, hc, rfl⟩
  obtain ⟨-, -, -, -, rfl⟩ := code?_eq_ok hc
  exact h

mutual

theorem Source.build_builds (s : Source) (h : s.allowed ok) (level : UInt8) (w : World) :
    (s.build level).Builds ok w fun _ _ => True := by
  obtain ⟨kind, signature, localCount, level?, maxStack?, code⟩ := s
  rw [Source.allowed] at h
  unfold Source.build
  dsimp only
  split
  · exact .throw _
  split
  · exact .throw _
  refine .bind (buildBlocks_builds code h _ w) fun blocks w₁ _ _ => ?_
  refine .bind (LiteralSource.arrayValues_build ok _ _ w₁) fun literals w₂ _ ⟨_, hmem⟩ => ?_
  refine .bind (.intern signature) fun s w₃ _ _ => ?_
  refine (Layout.compile_builds fun v hv => ?_).mono (fun _ _ => And.imp_right fun _ => trivial)
    fun _ _ => id
  obtain ⟨src, hs, hm⟩ := hmem v hv
  exact hm.allowed (Emission.items_allowed h src hs)

theorem buildBlocks_builds (code : List SourceItem) (h : allAllowed ok code) (level : UInt8)
    (w : World) : (buildBlocks level code).Builds ok w fun _ _ => True := by
  match code with
  | [] => exact .pure trivial
  | item :: rest =>
    rw [allAllowed, Bool.and_eq_true] at h
    unfold buildBlocks
    refine .bind (buildBlock_builds item h.1 level w) fun _ w' _ _ => ?_
    exact .bind (buildBlocks_builds rest h.2 level w') fun _ _ _ _ => .pure trivial

theorem buildBlock_builds (item : SourceItem) (h : item.allowed ok) (level : UInt8) (w : World) :
    (buildBlock level item).Builds ok w fun _ _ => True := by
  match item with
  | .pushBlock s =>
    rw [SourceItem.allowed] at h
    unfold buildBlock
    exact .bind (Source.build_builds s h level w) fun _ _ _ _ => .pure trivial
  | .halt | .dup | .pop | .returnLocal | .returnNonLocal | .pushSlot .. | .popSlot .. | .pushField _
  | .popField _ | .pushConstant _ | .pushSymbol _ | .pushGlobal _ | .send _ | .superSend _ | .raw _ =>
    unfold buildBlock
    exact .pure trivial

end

end MessageMachine
