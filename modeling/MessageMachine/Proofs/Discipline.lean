import MessageMachine.Activation
import MessageMachine.Proofs.Moving

namespace MessageMachine

namespace World

/-- Bodies stay as they are and frames continue, while more of both may be made. -/
structure Extends (w w' : World) : Prop where
  codes_le : w.codes.size ≤ w'.codes.size
  code : ∀ r, r.index < w.codes.size → w'.code r = w.code r
  holder : ∀ r, r.index < w.codes.size →
    (w.codes.get r).holder.isSome → (w'.codes.get r).holder.isSome
  frames_le : w.frames.size ≤ w'.frames.size
  frame : ∀ r, r.index < w.frames.size → (w.frames.get r).Continues (w'.frames.get r)

namespace Extends

variable {w w' w'' : World}

theorem trans (h : w.Extends w') (h' : w'.Extends w'') : w.Extends w'' where
  codes_le := Nat.le_trans h.codes_le h'.codes_le
  code := fun r hr => (h'.code r (Nat.lt_of_lt_of_le hr h.codes_le)).trans (h.code r hr)
  holder := fun r hr hs => h'.holder r (Nat.lt_of_lt_of_le hr h.codes_le) (h.holder r hr hs)
  frames_le := Nat.le_trans h.frames_le h'.frames_le
  frame := fun r hr => (h.frame r hr).trans (h'.frame r (Nat.lt_of_lt_of_le hr h.frames_le))

theorem of_eq (hcodes : w'.codes = w.codes) (hframes : w'.frames = w.frames) : w.Extends w' where
  codes_le := Nat.le_of_eq (by rw [hcodes])
  code := fun r _ => by rw [World.code, hcodes, World.code]
  holder := fun r _ => by rw [hcodes]; exact id
  frames_le := Nat.le_of_eq (by rw [hframes])
  frame := fun r _ => by rw [hframes]; exact .refl _

end Extends

end World

/-- What a host was given: a value to use, or a method to call. -/
inductive Grant where
  | value (v : Value)
  | method (m : Method)
deriving DecidableEq

/-- Which bodies may run as methods, which blocks may exist, and whether stores leave the block of a
block activation alone. -/
structure Discipline where
  guarded : Prop
  root : World → CodeRef → Prop
  fits : World → Block → Prop
  root_mono : ∀ {w w' r}, w.Extends w' → root w r → root w' r
  fits_mono : ∀ {w w' b}, w.Extends w' → fits w b → fits w' b
  root_lt : ∀ {w r}, root w r → r.index < w.codes.size
  fits_lt : ∀ {w b}, fits w b → b.code.index < w.codes.size
  not_isBlock : ∀ {w r}, root w r → (w.code r).isBlock = false
  isBlock : ∀ {w b}, fits w b → (w.code b.code).isBlock
  level : ∀ {w b}, fits w b → b.level = (w.code b.code).level
  home : ∀ {w b}, fits w b → ∃ r, w.follow (b.level.toNat - 1) (some b.context) = some r ∧
    r.index < w.frames.size ∧ (w.frames.get r).code.isBlock = false

namespace Discipline

class Guards (D : Discipline) : Prop where
  guards : D.guarded

variable (D : Discipline) {w w' : World}

/-- A value is valid if it is no block or a block that may exist. -/
def Valid (w : World) (v : Value) : Prop := ∀ b, v.block? = some b → D.fits w b

def Known (w : World) (m : Method) : Prop := ∀ r, m = .compiled r → D.root w r

def Grants (w : World) : Grant → Prop
  | .value v => D.Valid w v
  | .method m => D.Known w m

variable {D}

theorem valid_of_no_block {v : Value} (h : v.block? = none) : D.Valid w v := by
  intro b hb
  rw [h] at hb
  cases hb

theorem valid_block {b : Block} : D.Valid w (.block b) ↔ D.fits w b := by
  refine ⟨fun h => h b rfl, fun h b' hb => ?_⟩
  cases hb
  exact h

theorem Valid.mono (h : w.Extends w') {v : Value} (hv : D.Valid w v) : D.Valid w' v :=
  fun b hb => D.fits_mono h (hv b hb)

theorem Known.mono (h : w.Extends w') {m : Method} (hm : D.Known w m) : D.Known w' m :=
  fun r hr => D.root_mono h (hm r hr)

theorem Grants.mono (h : w.Extends w') {g : Grant} (hg : D.Grants w g) : D.Grants w' g := by
  cases g with
  | value v => exact Valid.mono h hg
  | method m => exact Known.mono h hg

end Discipline

variable {D : Discipline}

/-- A frame in order: its slots fit its body and hold valid values. The activation of a method has no
context, and that of a block has the context of the block, which is its first argument unless it
was overwritten. -/
structure Frame.Sound (D : Discipline) (w : World) (f : Frame) : Prop where
  proper : f.Proper
  method_lt : f.method.index < w.codes.size
  code : f.code = w.code f.method
  marker_lt : f.marker.index < w.markers.size
  slots : ∀ v ∈ f.slots, D.Valid w v
  root : f.code.isBlock = false → D.root w f.method ∧ f.outer = none
  self : f.code.isBlock → ∃ b, D.fits w b ∧ b.code = f.method ∧ f.outer = some b.context ∧
    (D.guarded → f.slots[0]? = some (.block b))

namespace Frame.Sound

variable {w w' : World} {f f' : Frame}

theorem mono (h : f.Sound D w) (he : w.Extends w') (hm : w.markers.size ≤ w'.markers.size) :
    f.Sound D w' where
  proper := h.proper
  method_lt := Nat.lt_of_lt_of_le h.method_lt he.codes_le
  code := h.code.trans (he.code _ h.method_lt).symm
  marker_lt := Nat.lt_of_lt_of_le h.marker_lt hm
  slots := fun v hv => (h.slots v hv).mono he
  root := fun hb => (h.root hb).imp_left (D.root_mono he)
  self := fun hb =>
    let ⟨b, hfits, hself⟩ := h.self hb
    ⟨b, D.fits_mono he hfits, hself⟩

theorem evolve (h : f.Sound D w) (he : f.Evolves D.guarded (D.Valid w) f') : f'.Sound D w where
  proper := he.proper h.proper
  method_lt := by
    rw [he.method]
    exact h.method_lt
  code := by rw [he.code, he.method, h.code]
  marker_lt := by
    rw [he.marker]
    exact h.marker_lt
  slots := he.slots h.slots
  root := by
    rw [he.code, he.method, he.outer]
    exact h.root
  self := by
    intro hb
    rw [he.code] at hb
    obtain ⟨b, hfits, hcode, houter, hself⟩ := h.self hb
    rw [he.method, he.outer]
    exact ⟨b, hfits, hcode, houter, fun hg => (he.self hg h.proper hb).trans (hself hg)⟩

/-- The contexts of the block that runs lead to the method it is in. If blocks are guarded, argument
zero still is that block. -/
theorem home (h : f.Sound D w) (hb : f.code.isBlock) :
    ∃ b r, b.code = f.method ∧ f.outer = some b.context ∧
      (D.guarded → f.slots[0]? = some (.block b)) ∧ w.follow (b.level.toNat - 1) f.outer = some r ∧
      r.index < w.frames.size ∧ (w.frames.get r).code.isBlock = false := by
  obtain ⟨b, hfits, hcode, houter, hself⟩ := h.self hb
  obtain ⟨r, hfollow, hlt, hroot⟩ := D.home hfits
  exact ⟨b, r, hcode, houter, hself, houter ▸ hfollow, hlt, hroot⟩

end Frame.Sound

/-- Everything stored is valid, every frame is in order, and every literal is valid. -/
structure World.Sound (D : Discipline) (w : World) : Prop where
  holds : w.Holds (D.Valid w) (D.Known w)
  frames : ∀ r, r.index < w.frames.size → (w.frames.get r).Sound D w
  literals : ∀ r, ∀ v ∈ (w.code r).literals, D.Valid w v

/-- The same world but for its markers, what it counts and what it logs. There may be more markers. -/
structure World.Marked (w w' : World) : Prop where
  same : w' = { w with
    markers := w'.markers, depth := w'.depth, reentry := w'.reentry, counters := w'.counters
    journal := w'.journal }
  size_le : w.markers.size ≤ w'.markers.size

theorem World.Marked.codes {w w' : World} (h : w.Marked w') : w'.codes = w.codes := by rw [h.same]

theorem World.Marked.frames {w w' : World} (h : w.Marked w') : w'.frames = w.frames := by
  rw [h.same]

theorem World.Marked.extended {w w' : World} (h : w.Marked w') : w.Extends w' :=
  .of_eq h.codes h.frames

theorem World.Marked.trans {w w' w'' : World} (h : w.Marked w') (h' : w'.Marked w'') :
    w.Marked w'' where
  same := by
    rw [h'.same, h.same]
  size_le := Nat.le_trans h.size_le h'.size_le

theorem World.Sound.marked {w w' : World} (hw : w.Sound D) (h : w.Marked w') : w'.Sound D := by
  have he := h.extended
  refine ⟨?_, fun r hr => ?_, fun r v hv => ?_⟩
  · refine (hw.holds.mono (fun _ hv => hv.mono he) (fun _ hm => hm.mono he)).congr ?_ ?_ ?_ ?_ ?_ ?_
      <;> rw [h.same]
  · rw [h.frames] at hr ⊢
    exact (hw.frames r hr).mono he h.size_le
  · rw [World.code, h.codes] at hv
    exact (hw.literals r v hv).mono he

namespace World

variable {k : MarkerRef} {c : CodeRef} {w w' w'' : World}

namespace Moved

theorem extended (h : w.Moved k c w') : w.Extends w' where
  codes_le := Nat.le_of_eq (by rw [h.codes])
  code := fun r _ => by rw [World.code, h.codes, World.code]
  holder := fun r _ => by rw [h.codes]; exact id
  frames_le := h.frames_le
  frame := h.frame

theorem frameSound (h : w.Moved k c w') {f : Frame} (hf : f.Sound D w) : f.Sound D w' :=
  hf.mono h.extended (Nat.le_of_eq (by rw [h.markers]))

end Moved

namespace Sound

theorem of_moved (h : w.Sound D) (hm : w.Moved k c w') (hholds : w'.Holds (D.Valid w) (D.Known w))
    (hframes : ∀ r, r.index < w'.frames.size → (w'.frames.get r).Sound D w) : w'.Sound D where
  holds := hholds.mono (fun _ hv => hv.mono hm.extended) (fun _ hk => hk.mono hm.extended)
  frames := fun r hr => hm.frameSound (hframes r hr)
  literals := fun r v hv => by
    rw [World.code, hm.codes] at hv
    exact (h.literals r v hv).mono hm.extended

theorem of_still (h : w.Sound D) (hs : w.Still w') (hholds : w'.Holds (D.Valid w) (D.Known w)) :
    w'.Sound D :=
  h.of_moved (k := default) (c := default) (.of_still hs) hholds fun r hr => by
    rw [hs.frames] at hr ⊢
    exact h.frames r hr

theorem lt_of_mem_slots {r : FrameRef} {v : Value} (h : v ∈ (w.frames.get r).slots) :
    r.index < w.frames.size := by
  by_cases hr : r.index < w.frames.size
  · exact hr
  · rw [Arena.get_of_le _ (Nat.le_of_not_lt hr)] at h
    exact absurd h (Array.not_mem_empty v)

theorem setFrame (h : w.Sound D) {r : FrameRef} {f : Frame}
    (he : (w.frames.get r).Evolves D.guarded (D.Valid w) f)
    (hk : (w.frames.get r).Proper → (w.frames.get r).marker ≠ k →
      f.operands = (w.frames.get r).operands) :
    w.Moved k c (w.setFrame r f) ∧ (w.setFrame r f).Sound D := by
  have hm : w.Moved k c (w.setFrame r f) := setFrame_moved he.toContinues hk
  refine ⟨hm, h.of_moved hm (h.holds.congr rfl rfl rfl rfl rfl rfl) fun s hs => ?_⟩
  simp only [World.setFrame, Arena.size_set, Arena.get_set] at hs ⊢
  split
  · next heq => exact (heq.1 ▸ h.frames s hs).evolve he
  · exact h.frames s hs

theorem newFrame (h : w.Sound D) {f : Frame} (hf : f.Sound D w) (hmarker : f.marker = k)
    (hmethod : f.method = c) :
    w.Moved k c (w.newFrame f).2 ∧ (w.newFrame f).2.Sound D := by
  have hm : w.Moved k c (w.newFrame f).2 := newFrame_moved hmarker hmethod
  refine ⟨hm, h.of_moved hm (h.holds.congr rfl rfl rfl rfl rfl rfl) fun s hs => ?_⟩
  simp only [World.newFrame, Arena.size_push, Arena.get_push] at hs ⊢
  split
  · exact hf
  · next hne =>
    refine h.frames s (Nat.lt_of_le_of_ne (Nat.le_of_lt_succ hs) fun heq => hne ?_)
    obtain ⟨i⟩ := s
    exact congrArg Ref.mk heq

end Sound

end World

end MessageMachine
