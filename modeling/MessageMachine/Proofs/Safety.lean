import MessageMachine.Proofs.Checking

namespace MessageMachine

variable {w w' : World}

/-- Only checked bodies that were installed run as methods, and only bodies nested in them as
blocks, over the frames of the bodies around them. -/
def Discipline.checked : Discipline where
  guarded := True
  root w r := w.Checked True [] r
  fits w b := ∃ outer, outer ≠ [] ∧ w.Checked True outer b.code ∧
    w.Encloses outer (some b.context) ∧ b.level = (w.code b.code).level
  root_mono := fun he h => h.mono he
  fits_mono := fun {w w' b} he ⟨outer, hne, hc, ho, hl⟩ =>
    ⟨outer, hne, hc.mono he, ho.mono he, by rw [hl, he.code b.code hc.lt]⟩
  root_lt := fun h => h.lt
  fits_lt := fun ⟨_, _, hc, _, _⟩ => hc.lt
  not_isBlock := fun h => Code.isBlock_eq_false_iff.mpr h.level
  isBlock := fun ⟨_, hne, hc, _, _⟩ => hc.isBlock hne
  level := fun ⟨_, _, _, _, hl⟩ => hl
  home := fun ⟨outer, hne, hc, ho, hl⟩ => by
    rw [hl, hc.level]
    exact ho.home hne

instance : Discipline.checked.Guards := ⟨trivial⟩

/-- Runs of checked bodies end in faults of the program only. -/
def Contract.checked : Contract .checked where
  faults f := f.isProgramFault
  counts w r offset n := (w.code r).Reaches offset n ∧ n ≤ (w.code r).operandCapacity
  program := fun _ => id
  guards := .inl trivial
  mono := fun he hr h => by
    rw [he.code _ hr]
    exact h
  start := fun _ _ => ⟨.start, Nat.zero_le _⟩
  room := .inr fun h => h.2

namespace Activation

variable {a : Activation}

/-- The body of a running activation is checked between the bodies of the frames around it. -/
theorem checked_of_placed (h : a.handle.Placed .checked a.marker a.method w) :
    ∃ outer, w.Checked True outer a.method ∧ w.Encloses outer (a.handle.frame w).outer := by
  have hs := h.sound
  rw [← h.method]
  cases hb : (a.handle.frame w).code.isBlock with
  | false =>
    obtain ⟨hroot, houter⟩ := hs.root hb
    exact ⟨[], hroot, houter⟩
  | true =>
    obtain ⟨b, ⟨outer, -, hc, ho, -⟩, hcode, houter, -⟩ := hs.self hb
    rw [hcode] at hc
    rw [houter]
    exact ⟨outer, hc, ho⟩

theorem fetch_of_bytecodes {i : Instruction}
    (h : MessageMachine.fetch (w.code a.method).bytecodes a.offset = .ok i) : a.fetch w = .ok i := by
  unfold fetch
  rw [h]

end Activation

theorem Addresses.hasSlot {f : Frame} {outer : List Shape} {area : Area} {index : Nat}
    {level : UInt8} (h : Addresses (f.code.shape :: outer) area index level)
    (ho : w.Encloses outer f.outer) : w.HasSlot f area index level := by
  obtain ⟨s, hs, hindex⟩ := h
  unfold World.HasSlot
  split
  · next hl =>
    subst hl
    cases hs
    rwa [f.areaSize_eq]
  · next hl =>
    have hpos : 0 < level.toNat := UInt8.lt_iff_toNat_lt.mp (UInt8.pos_iff_ne_zero.mpr hl)
    obtain ⟨n, hn⟩ := Nat.exists_eq_succ_of_ne_zero (Nat.ne_of_gt hpos)
    rw [hn] at hs
    obtain ⟨r, hfollow, hlt, hshape, -⟩ := ho.follow (n := n) hs
    refine ⟨r, ?_, hlt, ?_⟩
    · exact World.outerContext_of_follow (by rwa [hn, Nat.succ_sub_one])
    · rw [Frame.areaSize_eq, hshape]
      exact hindex

namespace Activation

variable {a : Activation} {outer : List Shape}

theorem ready_of_admits (hholder : (w.codes.get a.method).holder.isSome)
    (ho : w.Encloses outer (a.handle.frame w).outer) {i : Instruction}
    (h : w.Admits ((a.handle.frame w).code.shape :: outer) a.method
      (a.handle.frame w).operands.length i) : a.Ready w i := by
  have hne (hlt : 0 < (a.handle.frame w).operands.length) : (a.handle.frame w).operands ≠ [] :=
    List.length_pos_iff.mp hlt
  cases i with
  | halt | pop | popField _ | returnLocal | returnNonLocal => exact hne h
  | dup => exact ⟨hne h.1, h.2⟩
  | pushSlot area index level => exact ⟨h.1, h.2.hasSlot ho⟩
  | popSlot area index level => exact ⟨hne h.1, h.2.1.hasSlot ho⟩
  | superSend l => exact ⟨h, hholder⟩
  | pushField _ | pushBlock _ | pushConstant _ | pushGlobal _ | send _ => exact h

theorem spares_of_admits {env : List Shape} {n : Nat} {i : Instruction}
    (h : w.Admits env a.method n i) : a.Spares w i := by
  rintro area index level rfl
  have hindex : area = .arguments → index.toNat ≠ 0 := fun harea hzero =>
    h.2.2 harea (UInt8.toNat_inj.mp hzero)
  unfold World.SparesSlot
  split
  · exact fun _ => hindex
  · exact fun r _ _ => hindex

theorem nests_of_checked (hp : a.handle.Placed .checked a.marker a.method w)
    (hc : w.Checked True outer a.method) (ho : w.Encloses outer (a.handle.frame w).outer) {n : Nat}
    (hr : (w.code a.method).Reaches a.offset n) {i : Instruction}
    (hi : MessageMachine.fetch (w.code a.method).bytecodes a.offset = .ok i) :
    a.Nests .checked w i := by
  rintro l body rfl hbody hlevel serial r w' he hlt hget
  have hnested := hc.nested hr hi hbody
  rw [← hp.code] at hnested
  refine ⟨_, List.cons_ne_nil _ _, hnested.mono he, ?_, ?_⟩
  · refine (ho.mono he).cons ?_ hlt hget
    rw [hp.code, hc.level]
  · rw [he.code body hnested.lt, hlevel]

/-- A running activation of a checked body can execute its next instruction, and then goes on. -/
theorem keeps_checked (hp : a.handle.Placed .checked a.marker a.method w)
    (hcounts : a.Counts .checked w) : a.Keeps .checked w := by
  obtain ⟨outer, hc, ho⟩ := checked_of_placed hp
  obtain ⟨hr, -⟩ := hcounts
  obtain ⟨-, i, hi, hadmits⟩ := hc.fits hr
  -- Execution stands at an offset that was checked, and there is just one instruction there.
  have hsame {j : Instruction} (hj : a.fetch w = .ok j) : j = i := by
    rw [fetch_of_bytecodes hi] at hj
    exact (Except.ok.inj hj).symm
  refine ⟨.inr ⟨i, fetch_of_bytecodes hi⟩, ?_, ?_, ?_, ?_⟩
  · intro j hj
    cases hsame hj
    rw [← hp.code] at hadmits
    exact .inr (ready_of_admits hc.holder ho hadmits)
  · intro _ j hj
    cases hsame hj
    exact spares_of_admits hadmits
  · intro j hj
    cases hsame hj
    exact nests_of_checked hp hc ho hr hi
  · intro j hj hends htakes
    cases hsame hj
    have hnext := Code.Reaches.next hr hi hends htakes
    exact ⟨hnext, (hc.fits hnext).1⟩

end Activation

end MessageMachine
