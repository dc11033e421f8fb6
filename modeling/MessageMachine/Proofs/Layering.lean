import MessageMachine.Proofs.Contexts

namespace MessageMachine

variable {held : List Grant} {w w' w'' : World} {n m bound : Nat}

/-- No block, or a block over one of the first `n` captured frames. -/
def Value.Before (n : Nat) (v : Value) : Prop := ∀ b, v.block? = some b → b.context.index < n

theorem Value.before_of_no_block {v : Value} (h : v.block? = none) : v.Before n := by
  intro b hb
  rw [h] at hb
  cases hb

theorem Value.before_block {b : Block} : Value.Before n (.block b) ↔ b.context.index < n :=
  ⟨fun h => h b rfl, fun h b' hb => by cases hb; exact h⟩

theorem Value.Before.mono {v : Value} (h : v.Before n) (hle : n ≤ m) : v.Before m :=
  fun b hb => Nat.lt_of_lt_of_le (h b hb) hle

/-- A frame with its operands in place that links to one of the first `bound` captured frames. -/
structure Frame.Layered (n bound : Nat) (f : Frame) : Prop where
  proper : f.Proper
  slots : ∀ v ∈ f.slots, v.Before n
  outer : ∀ r, f.outer = some r → r.index < bound

namespace Frame.Layered

variable {f f' : Frame}

theorem mono (h : f.Layered n bound) (hle : n ≤ m) {bound' : Nat} (hbound : bound ≤ bound') :
    f.Layered m bound' where
  proper := h.proper
  slots := fun v hv => (h.slots v hv).mono hle
  outer := fun r hr => Nat.lt_of_lt_of_le (h.outer r hr) hbound

theorem evolve (h : f.Layered n bound) (he : f.Evolves False (·.Before n) f') :
    f'.Layered n bound where
  proper := he.proper h.proper
  slots := he.slots h.slots
  outer := he.outer ▸ h.outer

end Frame.Layered

/-- A frame that is its activation's own links to any captured frame. -/
def FrameHandle.Layered (n : Nat) : FrameHandle → Prop
  | own f => f.Layered n n
  | shared r => r.index < n

def FrameHandle.layer (n : Nat) : FrameHandle → Nat
  | own _ => n
  | shared r => r.index

theorem FrameHandle.Layered.mono {a : FrameHandle} (h : a.Layered n) (hle : n ≤ m) :
    a.Layered m := by
  cases a with
  | own f => exact Frame.Layered.mono h hle hle
  | shared r => exact Nat.lt_of_lt_of_le h hle

theorem FrameHandle.Layered.layer_le {a : FrameHandle} (h : a.Layered n) : a.layer n ≤ n := by
  cases a with
  | own f => exact Nat.le_refl n
  | shared r => exact Nat.le_of_lt h

namespace World

/-- Every captured frame links to an earlier one, and every value there is was made over frames that
are captured. -/
structure Layered (w : World) : Prop where
  holds : w.Holds (·.Before w.frames.size) (fun _ => True)
  frames : ∀ r, r.index < w.frames.size → (w.frames.get r).Layered w.frames.size r.index
  literals : ∀ r, ∀ v ∈ (w.code r).literals, v.Before w.frames.size

structure Ages (w w' : World) : Prop where
  size_le : w.frames.size ≤ w'.frames.size
  layered : w'.Layered

theorem Ages.trans (h : w.Ages w') (h' : w'.Ages w'') : w.Ages w'' :=
  ⟨Nat.le_trans h.size_le h'.size_le, h'.layered⟩

namespace Layered

theorem refl (h : w.Layered) : w.Ages w := ⟨Nat.le_refl _, h⟩

theorem of_frames (h : w.Layered) (hframes : w'.frames = w.frames)
    (hholds : w'.Holds (·.Before w.frames.size) (fun _ => True))
    (hliterals : ∀ r, ∀ v ∈ (w'.code r).literals, v.Before w.frames.size) : w.Ages w' := by
  refine ⟨Nat.le_of_eq (by rw [hframes]), ?_, ?_, ?_⟩
  · rwa [hframes]
  · rw [hframes]
    exact h.frames
  · rwa [hframes]

theorem of_codes (h : w.Layered) (hcodes : w'.codes = w.codes) (hframes : w'.frames = w.frames)
    (hholds : w'.Holds (·.Before w.frames.size) (fun _ => True)) : w.Ages w' :=
  h.of_frames hframes hholds fun r v hv => h.literals r v (by rwa [World.code, hcodes] at hv)

theorem stored (h : w.Layered) (hcodes : w'.codes = w.codes) (hframes : w'.frames = w.frames)
    (hholds : w'.Holds (·.Before w.frames.size) (fun _ => True)) : w'.Layered :=
  (h.of_codes hcodes hframes hholds).layered

theorem of_still (h : w.Layered) (hs : w.Still w')
    (hholds : w'.Holds (·.Before w.frames.size) (fun _ => True)) : w.Ages w' :=
  h.of_codes hs.codes hs.frames hholds

theorem marked (h : w.Layered) (hm : w.Marked w') : w.Ages w' :=
  h.of_codes hm.codes hm.frames <| h.holds.congr (by rw [hm.same]) (by rw [hm.same])
    (by rw [hm.same]) (by rw [hm.same]) (by rw [hm.same]) (by rw [hm.same])

theorem setFrame (h : w.Layered) {r : FrameRef} {f : Frame}
    (he : (w.frames.get r).Evolves False (·.Before w.frames.size) f) :
    w.Ages (w.setFrame r f) := by
  have hsize : (w.setFrame r f).frames.size = w.frames.size := Arena.size_set _ _ _
  refine ⟨Nat.le_of_eq hsize.symm, ?_, fun s hs => ?_, ?_⟩
  · rw [hsize]
    exact h.holds.congr rfl rfl rfl rfl rfl rfl
  · rw [hsize] at hs ⊢
    simp only [World.setFrame, Arena.get_set]
    split
    · next heq =>
      obtain ⟨rfl, -⟩ := heq
      exact (h.frames r hs).evolve he
    · exact h.frames s hs
  · rw [hsize]
    exact h.literals

theorem newFrame (h : w.Layered) {f : Frame} (hf : f.Layered w.frames.size w.frames.size) :
    w.Ages (w.newFrame f).2 := by
  have hsize : (w.newFrame f).2.frames.size = w.frames.size + 1 := Arena.size_push _ _
  have hle : w.frames.size ≤ w.frames.size + 1 := Nat.le_succ _
  have hholds : (w.newFrame f).2.Holds (·.Before w.frames.size) (fun _ => True) :=
    h.holds.congr rfl rfl rfl rfl rfl rfl
  refine ⟨hsize ▸ hle, ?_, fun s hs => ?_, fun r v hv => ?_⟩
  · rw [hsize]
    exact hholds.mono (fun _ hv => hv.mono hle) fun _ => id
  · rw [hsize] at hs ⊢
    simp only [World.newFrame, Arena.get_push]
    split
    · next heq => exact heq ▸ hf.mono hle (Nat.le_refl _)
    · next hne =>
      refine (h.frames s ?_).mono hle (Nat.le_refl _)
      refine Nat.lt_of_le_of_ne (Nat.le_of_lt_succ hs) fun heq => hne ?_
      obtain ⟨i⟩ := s
      exact congrArg Ref.mk heq
  · rw [hsize]
    exact (h.literals r v hv).mono hle

theorem frame (h : w.Layered) {a : FrameHandle} (ha : a.Layered w.frames.size) :
    (a.frame w).Layered w.frames.size (a.layer w.frames.size) := by
  cases a with
  | own f => exact ha
  | shared r => exact h.frames r ha

theorem put (h : w.Layered) {a : FrameHandle} (ha : a.Layered w.frames.size) {f : Frame}
    (he : (a.frame w).Evolves False (·.Before w.frames.size) f) :
    w.Ages (a.put f w).2 ∧ (a.put f w).1.Layered (a.put f w).2.frames.size := by
  cases a with
  | own g => exact ⟨h.refl, Frame.Layered.evolve ha he⟩
  | shared r =>
    have hw := h.setFrame he
    exact ⟨hw, FrameHandle.Layered.mono (a := .shared r) ha hw.size_le⟩

theorem share (h : w.Layered) {a : FrameHandle} (ha : a.Layered w.frames.size) :
    w.Ages (a.share w).2 ∧ (a.share w).1.index < (a.share w).2.frames.size := by
  cases a with
  | own f =>
    exact ⟨h.newFrame ha, Nat.lt_of_lt_of_eq (Nat.lt_succ_self _) (Arena.size_push _ _).symm⟩
  | shared r => exact ⟨h.refl, ha⟩

theorem follow_lt (h : w.Layered) {links : Nat} {o : Option FrameRef} {s : FrameRef}
    (hbound : bound ≤ w.frames.size) (ho : ∀ r, o = some r → r.index < bound)
    (hs : w.follow links o = some s) : s.index < bound := by
  induction links generalizing o with
  | zero => exact ho s hs
  | succ links ih =>
    cases o with
    | none => cases hs
    | some r =>
      have hr := ho r rfl
      refine ih (fun r' hr' => ?_) hs
      exact Nat.lt_trans ((h.frames r (Nat.lt_of_lt_of_le hr hbound)).outer r' hr') hr

theorem change (h : w.Layered) (hc : HostChange held w w')
    (hheld : ∀ v, .value v ∈ held → v.Before w.frames.size) : w.Ages w' := by
  obtain ⟨hcodes, hframes, -⟩ := hc.keeps
  refine h.of_codes hcodes hframes (hc.holds h.holds (fun v hv b hb => ?_) fun _ => trivial)
  exact hheld v (hv (by rw [hb, Option.isSome_some])) b hb

theorem build (h : w.Layered) {ok : Value → Bool} (hb : w.Builds ok w')
    (hok : ∀ v, ok v → v.Before w.frames.size) : w.Ages w' := by
  refine h.of_frames (by rw [hb.same]) (h.holds.compiles hb.toCompiles) fun r v hv => ?_
  by_cases hr : r.index < w.codes.size
  · rw [World.code, hb.codes r hr] at hv
    exact h.literals r v hv
  · exact (hb.literals r (Nat.le_of_not_lt hr) v hv).elim Value.before_of_no_block (hok v)

theorem install (h : w.Layered) (c : ClassRef) (r : CodeRef) :
    w.Ages (w.install c (.compiled r)) := by
  obtain ⟨v, hv, heq⟩ := w.install_compiled c r
  rw [heq]
  have hholds : v.Holds (·.Before w.frames.size) (fun _ => True) := by
    refine h.holds.congr ?_ ?_ ?_ ?_ ?_ ?_ <;> rw [hv.same]
  refine h.of_frames (by rw [hv.same]; rfl) (hholds.insertMethod c _ trivial).flushMemos ?_
  intro s x hx
  exact h.literals s x (hv.code s ▸ hx)

theorem logs (h : w.Layered) (hl : w.Logs w') : w.Ages w' := by
  obtain rfl | ⟨e, rfl⟩ := hl
  · exact h.refl
  · exact h.of_still (w.note_still e) (h.holds.note e)

theorem installCode (h : w.Layered) (c : ClassRef) (r : CodeRef) : w.Ages (w.installCode c r) := by
  obtain ⟨u, hu, heq⟩ := w.installCode_eq c r
  rw [heq]
  exact (h.logs hu).trans ((h.logs hu).layered.install c r)

end Layered

theorem boot_layered {config : Config} {journal : Journal} (h : boot config journal = .ok w) :
    w.Layered := by
  have hnone (v : Value) : v ∉ (#[] : Array Value) := Array.not_mem_empty v
  have hempty : (empty config journal).Layered :=
    ⟨⟨fun _ v hv => absurd hv (hnone v), fun _ v hv => absurd hv (hnone v), nofun, nofun, nofun,
      nofun⟩, fun r hr => absurd hr (Nat.not_lt_zero _), fun _ v hv => absurd hv (hnone v)⟩
  refine boot_ensures (P := Layered) h (foldl_ensures Layered _ hempty ?_) ?_ ?_ ?_ ?_ ?_
  · intro v c _ hv
    have hnames : v.Compiles (v.intern c.name).2 := .intern v c.name
    exact hv.stored rfl rfl ((hv.holds.compiles hnames).newClass _ _ _)
  · exact fun v c hv => hv.stored rfl rfl (hv.holds.register c (Value.before_of_no_block rfl))
  · exact fun v c hv => hv.stored rfl rfl (hv.holds.newInstance c (Value.before_of_no_block rfl))
  · intro v name x hx hv
    have hnames : v.Compiles (v.intern name).2 := .intern v name
    exact hv.stored rfl rfl
      ((hv.holds.compiles hnames).setGlobal _ (Value.before_of_no_block hx))
  · exact fun v c e _ hv => hv.stored rfl rfl
      (hv.holds.installPrimitive (fun _ => trivial) c e.selector e.operation e.evaluatesBlock)
  · intro v v' c m s hs hv hi
    obtain ⟨r, u, t, hc, -, rfl, ht⟩ := install_source hi
    have hwf := CoreLibrary.methods_wellFormed s hs
    have hlevel : s.ownLevel.toNat = 0 := by
      rw [Source.ownLevel_of_wellFormed hwf]
      rfl
    obtain ⟨hb, -, -⟩ := (s.build_checked hlevel hwf v).of_ok hc
    have hu := hv.build hb fun x hx =>
      Value.before_of_no_block (Option.isNone_iff_eq_none.mp hx)
    exact ((hu.layered.logs ht).layered.install c r).layered

end World

end MessageMachine
