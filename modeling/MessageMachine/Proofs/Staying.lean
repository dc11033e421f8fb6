import MessageMachine.Proofs.Booting
import MessageMachine.Proofs.Chronicle
import MessageMachine.Proofs.Depth
import MessageMachine.Proofs.Targets

namespace MessageMachine

theorem HostChange.stage {held : List Grant} {w w' : World} (h : HostChange held w w') :
    w'.stage = w.stage := by
  cases h with
  | define name superclass fields => exact w.alter_stage (.define name superclass fields)
  | primitive c name op evaluatesBlock => exact w.alter_stage (.primitive c name op evaluatesBlock)
  | setField _ h =>
    obtain ⟨objects, rfl⟩ := World.eq_of_setField? h
    rfl
  | intern | newString | newInstance | newArray | setElement | setGlobal | takeTranscript
  | withoutCaches => rfl

theorem World.boot_stage {config : Config} {journal : Journal} {w₀ : World}
    (hboot : World.boot config journal = .ok w₀) :
    w₀.frames.size = 0 ∧ w₀.depth = 0 ∧ w₀.reentry = 0 := by
  have hplain := w₀.boot_plain hboot
  have hstandard : World.standard.frames.size = 0 ∧ World.standard.depth = 0 ∧
      World.standard.reentry = 0 := by
    decide +kernel
  rw [← hplain] at hstandard
  exact hstandard

namespace Chronicle

variable {permits : World → Alteration → Prop} {config : Config} {journal : Journal} {w₀ : World}
  {H : History} {m : Machine}

/-- What programs preserve, and depends on the stage only when nothing runs, holds from boot on. -/
theorem preserved (h : Chronicle permits w₀ H m) {I : Snapshot → Prop} (hI : Snapshot.Preserved I)
    (hw : I (Machine.idle [] w₀))
    (hstage : ∀ {v v' : World}, v'.stage = v.stage → I (Machine.idle [] v) → I (Machine.idle [] v')) :
    I m.snapshot := by
  induction h with
  | boot => exact hw
  | step h ih => exact (hI.step h.held ih).2
  | request _ r ih => exact (hI.request ih r 0).2
  | @alter _ _ v _ a _ _ ih => exact hstage (v.alter_stage a) ih
  | change _ hc _ _ ih => exact hstage hc.stage ih

theorem balanced (h : Chronicle permits w₀ H m) (hboot : World.boot config journal = .ok w₀) :
    m.snapshot.Balanced w₀ := by
  obtain ⟨-, hdepth, hreentry⟩ := World.boot_stage hboot
  refine h.preserved (Snapshot.balanced_preserved w₀)
    ⟨rfl, rfl, rfl, hdepth ▸ Nat.zero_le _, hreentry ▸ Nat.zero_le _⟩ fun {v v'} hs hv => ?_
  have hconfig : v'.config = v.config := (congrArg World.Stage.config hs :)
  have hd : v'.depth = v.depth := (congrArg World.Stage.depth hs :)
  have hr : v'.reentry = v.reentry := (congrArg World.Stage.reentry hs :)
  exact ⟨hconfig.trans hv.config, hd.trans hv.depth, hr.trans hv.reentry, hd ▸ hv.depth_le,
    hr ▸ hv.reentry_le⟩

theorem living (h : Chronicle permits w₀ H m) : m.snapshot.Living w₀ := by
  refine h.preserved (Snapshot.living_preserved w₀) (Snapshot.living_idle w₀) fun {v v'} hs hv => ?_
  have hframes : (Machine.idle [] v').world.frames = v.frames := (congrArg World.Stage.frames hs :)
  have hmarkers : (Machine.idle [] v').world.markers = v.markers := (congrArg World.Stage.markers hs :)
  refine ⟨hmarkers ▸ hv.markers_le, nofun, .nil, fun k => ?_, ?_, ?_⟩
  · rw [World.isLive, hmarkers]
    exact hv.live k
  · rw [hframes, hmarkers]
    exact hv.frames
  · rw [hframes]
    exact hv.seat

theorem within_limits (h : Chronicle permits w₀ H m) (hboot : World.boot config journal = .ok w₀) :
    m.world.depth ≤ m.world.config.maxCallDepth ∧ m.world.reentry ≤ m.world.config.maxReentryDepth := by
  obtain ⟨hconfig, -, -, hdepth, hreentry, -⟩ := (h.balanced hboot).counters
  rw [hconfig]
  exact ⟨hdepth, hreentry⟩

theorem reentry_pos (h : Chronicle permits w₀ H m) (hboot : World.boot config journal = .ok w₀)
    (hopen : m.loops ≠ []) : 0 < m.world.reentry := by
  rw [((h.balanced hboot).counters).2.2.1]
  exact Nat.add_pos_right _ (List.length_pos_iff.mpr hopen)

/-- While the activation that was started last runs over a frame that is not captured, no captured frame
has its marker. -/
theorem uncaptured (h : Chronicle permits w₀ H m) (hboot : World.boot config journal = .ok w₀)
    {loop : RunLoop} (hcontrol : m.control = .run loop) {f : Frame} (hown : loop.current.handle = .own f)
    (hlast : loop.current.marker.index + 1 = m.world.markers.size) (hsome : 0 < m.world.frames.size) :
    m.world.Uncaptured loop.current.marker := by
  have hliving := h.living
  obtain ⟨control, waiting, w⟩ := m
  cases hcontrol
  have hcaptured {r : FrameRef} (hr : r.index < w.frames.size) :
      (w.frames.get r).marker.index < w.markers.size ∧ (w.frames.get r).marker ≠ loop.current.marker := by
    have hnone : w₀.frames.size ≤ r.index := by
      rw [(World.boot_stage hboot).1]
      exact Nat.zero_le _
    refine ⟨(hliving.frames r hnone hr).2, fun heq => ?_⟩
    have hseat := hliving.seat r hnone hr loop.current List.mem_cons_self heq
    rw [hown] at hseat
    cases hseat
  intro r
  by_cases hr : r.index < w.frames.size
  · exact (hcaptured hr).2
  · -- What is beyond all frames has the marker that was given out first, and that was to another one.
    have hfirst : (w.frames.get r).marker = ⟨0⟩ := by
      rw [Arena.get_of_le _ (Nat.le_of_not_lt hr)]
      rfl
    obtain ⟨hlt, hne⟩ := hcaptured (r := ⟨0⟩) hsome
    rw [hfirst]
    intro heq
    have hindex : (w.frames.get ⟨0⟩).marker.index ≠ loop.current.marker.index := fun hindex =>
      hne (congrArg Ref.mk hindex)
    have hzero : loop.current.marker.index = 0 := by rw [← heq]
    change loop.current.marker.index + 1 = w.markers.size at hlast
    omega

end Chronicle

end MessageMachine
