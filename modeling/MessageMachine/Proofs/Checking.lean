import MessageMachine.Proofs.Enclosing
import MessageMachine.Proofs.Running

namespace MessageMachine

/-- Offsets that execution gets to in a body, with the number of operands there. -/
inductive Code.Reaches (c : Code) : Nat → Nat → Prop where
  | start : c.Reaches 0 0
  | next {offset n : Nat} {i : Instruction} (h : c.Reaches offset n)
      (hi : fetch c.bytecodes offset = .ok i) (hends : i.ends = false) (hn : c.takes i ≤ n) :
      c.Reaches (offset + i.length) (n - c.takes i + i.gives)

/-- There is a slot in the frame itself or in one of those around it. -/
def Addresses (env : List Shape) (area : Area) (index : Nat) (level : UInt8) : Prop :=
  ∃ s, env[level.toNat]? = some s ∧ index < s.size area

namespace World

variable {w w' : World}

/-- What an instruction of the body `r` needs when there are `n` operands and the frames around it
have these shapes. -/
def Admits (w : World) (env : List Shape) (r : CodeRef) (n : Nat) (i : Instruction) : Prop :=
  let room := n < (w.code r).operandCapacity
  match i with
  | .halt | .pop | .popField _ | .returnLocal | .returnNonLocal => 0 < n
  | .dup => 0 < n ∧ room
  | .pushSlot area index level => room ∧ Addresses env area index.toNat level
  | .popSlot area index level => 0 < n ∧ Addresses env area index.toNat level ∧
      (area = .arguments → index ≠ 0)
  | .pushField _ => room
  | .pushBlock l => room ∧ ∃ body, w.blockLiteral r l.toNat = .ok body ∧
      (w.code body).level = (w.code r).level + 1 ∧ (w.blockClass? (w.code body).argCount).isSome
  | .pushConstant l => room ∧ ∃ v, w.literal r l.toNat = .ok v
  | .pushGlobal l => room ∧ ∃ s, w.symbolLiteral r l.toNat = .ok s
  | .send l | .superSend l => ∃ s, w.symbolLiteral r l.toNat = .ok s ∧ s.arity ≤ n

/-- A body that is in order between bodies of these shapes, as are all bodies nested in it. -/
inductive Checked (w : World) (installed : Prop) : List Shape → CodeRef → Prop where
  | mk {outer : List Shape} {r : CodeRef} (lt : r.index < w.codes.size)
      (level : (w.code r).level.toNat = outer.length)
      (holder : installed → (w.codes.get r).holder.isSome)
      (fits : ∀ offset n, (w.code r).Reaches offset n →
        n ≤ (w.code r).operandCapacity ∧ ∃ i, fetch (w.code r).bytecodes offset = .ok i ∧
          w.Admits ((w.code r).shape :: outer) r n i)
      (nested : ∀ offset n l body, (w.code r).Reaches offset n →
        fetch (w.code r).bytecodes offset = .ok (.pushBlock l) →
        w.blockLiteral r l.toNat = .ok body →
        Checked w installed ((w.code r).shape :: outer) body)
      (earlier : ∀ offset n l body, (w.code r).Reaches offset n →
        fetch (w.code r).bytecodes offset = .ok (.pushBlock l) →
        w.blockLiteral r l.toNat = .ok body → body.index < r.index) :
      Checked w installed outer r

namespace Checked

variable {installed : Prop} {outer : List Shape} {r : CodeRef}

theorem lt (h : w.Checked installed outer r) : r.index < w.codes.size := by
  cases h
  assumption

theorem level (h : w.Checked installed outer r) : (w.code r).level.toNat = outer.length := by
  cases h
  assumption

theorem holder (h : w.Checked True outer r) : (w.codes.get r).holder.isSome := by
  cases h with
  | mk _ _ holder => exact holder trivial

theorem fits (h : w.Checked installed outer r) {offset n : Nat} (hr : (w.code r).Reaches offset n) :
    n ≤ (w.code r).operandCapacity ∧ ∃ i, fetch (w.code r).bytecodes offset = .ok i ∧
      w.Admits ((w.code r).shape :: outer) r n i := by
  cases h with
  | mk _ _ _ fits => exact fits offset n hr

theorem nested (h : w.Checked installed outer r) {offset n : Nat} {l : UInt8} {body : CodeRef}
    (hr : (w.code r).Reaches offset n) (hf : fetch (w.code r).bytecodes offset = .ok (.pushBlock l))
    (hb : w.blockLiteral r l.toNat = .ok body) :
    w.Checked installed ((w.code r).shape :: outer) body := by
  cases h with
  | mk _ _ _ _ nested => exact nested offset n l body hr hf hb

theorem earlier (h : w.Checked installed outer r) {offset n : Nat} {l : UInt8} {body : CodeRef}
    (hr : (w.code r).Reaches offset n) (hf : fetch (w.code r).bytecodes offset = .ok (.pushBlock l))
    (hb : w.blockLiteral r l.toNat = .ok body) : body.index < r.index := by
  cases h with
  | mk _ _ _ _ _ earlier => exact earlier offset n l body hr hf hb

theorem isBlock (h : w.Checked installed outer r) (hne : outer ≠ []) : (w.code r).isBlock := by
  rw [Code.isBlock_iff, h.level]
  exact List.length_pos_iff.mpr hne

end Checked

theorem literal_congr {r : CodeRef} (h : w'.code r = w.code r) (index : Nat) :
    w'.literal r index = w.literal r index := by
  rw [literal, h, literal]

theorem symbolLiteral_congr {r : CodeRef} (h : w'.code r = w.code r) (index : Nat) :
    w'.symbolLiteral r index = w.symbolLiteral r index := by
  rw [symbolLiteral, literal_congr h, symbolLiteral]

theorem blockLiteral_eq_ok {r body : CodeRef} {index : Nat} :
    w.blockLiteral r index = .ok body ↔
      w.literal r index = .ok (.method (.compiled body)) ∧ (w.code body).isBlock := by
  unfold blockLiteral
  cases w.literal r index with
  | error f => exact ⟨nofun, fun h => nomatch h.1⟩
  | ok v =>
    match v with
    | .method (.compiled c) =>
      change (if (w.code c).isBlock then Except.ok c else Except.error _) = .ok body ↔ _
      split
      · next hb =>
        refine ⟨fun h => ?_, fun h => ?_⟩
        · cases h
          exact ⟨rfl, hb⟩
        · cases h.1
          rfl
      · next hb =>
        refine ⟨nofun, fun h => ?_⟩
        cases h.1
        exact absurd h.2 hb
    | .method (.primitive _) | .nil | .boolean _ | .integer _ | .double _ | .string _ _ | .symbol _
    | .array _ | .object _ | .cls _ | .block _ => exact ⟨nofun, fun h => nomatch h.1⟩

theorem Admits.mono {env : List Shape} {r : CodeRef} {n : Nat} {i : Instruction}
    (h : w.Admits env r n i) (hr : w'.code r = w.code r)
    (hblock : ∀ l body, i = .pushBlock l → w.blockLiteral r l.toNat = .ok body →
      w'.code body = w.code body) : w'.Admits env r n i := by
  cases i with
  | pushBlock l =>
    obtain ⟨hroom, body, hbody, hlevel, hclass⟩ := h
    have hcode := hblock l body rfl hbody
    obtain ⟨hliteral, hisBlock⟩ := blockLiteral_eq_ok.mp hbody
    simp only [Admits, hr]
    refine ⟨hroom, body, blockLiteral_eq_ok.mpr ?_, ?_, ?_⟩
    · rw [literal_congr hr, hcode]
      exact ⟨hliteral, hisBlock⟩
    · rw [hcode, hlevel]
    · rw [hcode]
      exact hclass
  | pushConstant l => simpa only [Admits, hr, literal_congr hr] using h
  | pushGlobal l | send l | superSend l =>
    simpa only [Admits, hr, symbolLiteral_congr hr] using h
  | _ => simpa only [Admits, hr] using h

theorem Checked.mono {outer : List Shape} {r : CodeRef} {installed : Prop} (he : w.Extends w')
    (h : w.Checked installed outer r) : w'.Checked installed outer r := by
  induction h with
  | @mk outer r lt level holder fits nested earlier ih =>
    have hcode := he.code r lt
    have hback {offset n : Nat} {l : UInt8} {body : CodeRef} (hr : (w.code r).Reaches offset n)
        (hf : fetch (w.code r).bytecodes offset = .ok (.pushBlock l))
        (hbody : w'.blockLiteral r l.toNat = .ok body) : w.blockLiteral r l.toNat = .ok body := by
      obtain ⟨-, i, hi, hadmits⟩ := fits offset n hr
      rw [hf] at hi
      cases hi
      obtain ⟨-, body', hbody', -⟩ := hadmits
      have hliteral := (blockLiteral_eq_ok.mp hbody').1
      have hliteral' := (blockLiteral_eq_ok.mp hbody).1
      rw [literal_congr hcode, hliteral] at hliteral'
      cases hliteral'
      exact hbody'
    refine .mk (Nat.lt_of_lt_of_le lt he.codes_le) ?_ (fun hi => he.holder r lt (holder hi)) ?_ ?_ ?_
    · rw [hcode, level]
    · rw [hcode]
      intro offset n hr
      obtain ⟨hn, i, hi, hadmits⟩ := fits offset n hr
      refine ⟨hn, i, hi, hadmits.mono hcode fun l body hl hbody => ?_⟩
      rw [hl] at hi
      exact he.code body (nested offset n l body hr hi hbody).lt
    · rw [hcode]
      intro offset n l body hr hf hbody
      exact ih offset n l body hr hf (hback hr hf hbody)
    · rw [hcode]
      intro offset n l body hr hf hbody
      exact earlier offset n l body hr hf (hback hr hf hbody)

end World

end MessageMachine
