import Mathlib.Logic.ExistsUnique
import MessageMachine.Proofs.Depth

namespace MessageMachine

open Relation

/-- Markers and captured frames that are more recent than `w` belong to the activations of `s`, each
of which has one marker and at most one captured frame. -/
structure Snapshot.Living (w : World) (s : Snapshot) : Prop where
  markers_le : w.markers.size ≤ s.world.markers.size
  recent : ∀ a ∈ s.activations, w.markers.size ≤ a.marker.index ∧
    a.marker.index < s.world.markers.size
  descending : s.activations.Pairwise fun a b => b.marker.index < a.marker.index
  live : ∀ k, s.world.isLive k ↔ w.isLive k ∨ ∃ a ∈ s.activations, a.marker = k
  frames : ∀ r : FrameRef, w.frames.size ≤ r.index → r.index < s.world.frames.size →
    w.markers.size ≤ (s.world.frames.get r).marker.index ∧
      (s.world.frames.get r).marker.index < s.world.markers.size
  seat : ∀ r : FrameRef, w.frames.size ≤ r.index → r.index < s.world.frames.size → ∀ a ∈ s.going,
    (s.world.frames.get r).marker = a.marker → a.handle = .shared r

namespace World

variable {w w' : World}

theorem lt_of_isLive {k : MarkerRef} (h : w.isLive k) : k.index < w.markers.size := by
  by_cases hk : k.index < w.markers.size
  · exact hk
  · rw [isLive, Arena.get_of_le _ (Nat.le_of_not_lt hk)] at h
    cases h

theorem isLive_begun {callee : Activation} (h : callee.Begun w w') (k : MarkerRef) :
    w'.isLive k ↔ w.isLive k ∨ callee.marker = k := by
  rw [isLive, h.world, Arena.get_push, h.marker, eq_comm (a := w.markers.next)]
  split
  · next heq => simp [heq]
  · next hne => simp [hne, isLive]

theorem isLive_left {a : Activation} (ha : a.marker.index < w.markers.size) (k : MarkerRef) :
    (a.left w).isLive k ↔ w.isLive k ∧ a.marker ≠ k := by
  change (w.markers.set a.marker false).get k ↔ _
  rw [Arena.get_set]
  split
  · next heq => simp [heq.1]
  · next hne =>
    have hk : a.marker ≠ k := fun hk => hne ⟨hk, ha⟩
    simp [hk, isLive]

end World

namespace Snapshot

variable {w : World} {s s' : Snapshot}

theorem Living.retire (h : s.Living w) : s.retire.Living w := by
  obtain ⟨_ | a, going, n, v⟩ := s
  · exact h
  obtain ⟨hlt, hrest⟩ := List.pairwise_cons.mp h.descending
  have ha := h.recent a List.mem_cons_self
  have hsize : (a.left v).markers.size = v.markers.size := Arena.size_set _ _ _
  refine ⟨?_, fun b hb => ?_, hrest, fun k => ?_, fun r hr hr' => ?_, h.seat⟩
  · exact hsize ▸ h.markers_le
  · change w.markers.size ≤ b.marker.index ∧ b.marker.index < (a.left v).markers.size
    rw [hsize]
    exact h.recent b (List.mem_cons_of_mem a hb)
  · change (a.left v).isLive k ↔ w.isLive k ∨ ∃ b ∈ going, b.marker = k
    rw [World.isLive_left ha.2, h.live k]
    constructor
    · rintro ⟨hk | ⟨b, hb, rfl⟩, hne⟩
      · exact .inl hk
      · obtain rfl | hb := List.mem_cons.mp hb
        · exact absurd rfl hne
        · exact .inr ⟨b, hb, rfl⟩
    · rintro (hk | ⟨b, hb, rfl⟩)
      · refine ⟨.inl hk, fun heq => ?_⟩
        have hold := World.lt_of_isLive hk
        rw [← heq] at hold
        exact Nat.not_le.mpr hold ha.1
      · refine ⟨.inr ⟨b, List.mem_cons_of_mem a hb, rfl⟩, fun heq => ?_⟩
        have hless := hlt b hb
        rw [heq] at hless
        exact Nat.lt_irrefl _ hless
  · change _ ∧ _ < (a.left v).markers.size
    rw [hsize]
    exact h.frames r hr hr'

theorem Living.moved {a : Activation} {rest : List Activation} {n : Nat} {v v' : World}
    (h : Living w ⟨none, a :: rest, n, v⟩) (hm : v.Moved a.marker a.method v') :
    v'.markers = v.markers ∧ ∀ r : FrameRef, w.frames.size ≤ r.index → r.index < v'.frames.size →
      (w.markers.size ≤ (v'.frames.get r).marker.index ∧
        (v'.frames.get r).marker.index < v'.markers.size) ∧
      ∀ c ∈ rest, (v'.frames.get r).marker = c.marker → c.handle = .shared r := by
  refine ⟨hm.markers, fun r hr hr' => ?_⟩
  by_cases hlt : r.index < v.frames.size
  · rw [(hm.frame r hlt).marker, hm.markers]
    exact ⟨h.frames r hr hlt, fun c hc => h.seat r hr hlt c (List.mem_cons_of_mem a hc)⟩
  · rw [(hm.fresh r (Nat.le_of_not_lt hlt) hr').1, hm.markers]
    refine ⟨h.recent a List.mem_cons_self, fun c hc heq => ?_⟩
    have hless := List.rel_of_pairwise_cons h.descending hc
    rw [heq] at hless
    exact absurd hless (Nat.lt_irrefl _)

theorem Living.works {a b : Activation} {rest : List Activation} {n : Nat} {v v' : World}
    (h : Living w ⟨none, a :: rest, n, v⟩) (hb : a.Goes v b v') : Living w ⟨none, b :: rest, n, v'⟩ := by
  have hm := hb.leads.moved
  obtain ⟨hmarkers, hframes⟩ := h.moved hm
  obtain ⟨hlt, hrest⟩ := List.pairwise_cons.mp h.descending
  obtain ⟨ha, hrecent⟩ := List.forall_mem_cons.mp h.recent
  refine ⟨hmarkers ▸ h.markers_le, ?_, ?_, fun k => ?_, fun r hr hr' => (hframes r hr hr').1,
    fun r hr hr' => ?_⟩
  · rw [hmarkers]
    refine List.forall_mem_cons.mpr ⟨?_, hrecent⟩
    rw [hb.marker]
    exact ha
  · refine List.pairwise_cons.mpr ⟨?_, hrest⟩
    rw [hb.marker]
    exact hlt
  · have hlive := h.live k
    simp only [activations, Option.toList_none, List.nil_append, List.mem_cons, exists_eq_or_imp]
      at hlive ⊢
    rw [World.isLive, hmarkers, hb.marker]
    exact hlive
  -- A captured frame with the marker of the worker is its own: an old one stays where it is, and a
  -- new one is the frame that the worker just shared.
  · refine List.forall_mem_cons.mpr ⟨fun heq => ?_, (hframes r hr hr').2⟩
    by_cases hold : r.index < v.frames.size
    · rw [hb.marker, (hm.frame r hold).marker] at heq
      exact hb.leads.stays r (h.seat r hr hold a List.mem_cons_self heq)
    · exact hb.leads.seat r (Nat.le_of_not_lt hold) hr'

theorem Living.starts {callee : Activation} {going : List Activation} {n : Nat} {v v' : World}
    (h : Living w ⟨none, going, n, v⟩) (hb : callee.Begun v v') :
    Living w ⟨none, callee :: going, n, v'⟩ := by
  have hframes : v'.frames = v.frames := by rw [hb.world]
  have hsize : v'.markers.size = v.markers.size + 1 := by rw [hb.world, Arena.size_push]
  -- The marker of the callee is the next one, so it is later than all others and on no frame yet.
  have hcallee : callee.marker.index = v.markers.size := by
    rw [hb.marker]
    rfl
  have hrecent : w.markers.size ≤ v.markers.size := h.markers_le
  have hlater {k : Nat} (hk : w.markers.size ≤ k ∧ k < v.markers.size) :
      w.markers.size ≤ k ∧ k < v'.markers.size := by omega
  refine ⟨?_, ?_, ?_, fun k => ?_, fun r hr hr' => ?_, fun r hr hr' => ?_⟩
  · change w.markers.size ≤ v'.markers.size
    omega
  · refine List.forall_mem_cons.mpr ⟨?_, fun a ha => hlater (h.recent a ha)⟩
    change w.markers.size ≤ callee.marker.index ∧ callee.marker.index < v'.markers.size
    omega
  · refine List.pairwise_cons.mpr ⟨fun a ha => ?_, h.descending⟩
    rw [hcallee]
    exact (h.recent a ha).2
  · rw [World.isLive_begun hb, h.live k]
    simp only [activations, Option.toList_none, List.nil_append, List.mem_cons, exists_eq_or_imp]
    exact or_right_comm.trans or_assoc
  · rw [hframes] at hr' ⊢
    exact hlater (h.frames r hr hr')
  · rw [hframes] at hr' ⊢
    refine List.forall_mem_cons.mpr ⟨fun heq => ?_, h.seat r hr hr'⟩
    have hless := (h.frames r hr hr').2
    rw [heq, hcallee] at hless
    exact absurd hless (Nat.lt_irrefl _)

theorem Living.change {worker : Option MarkerRef} (h : s.Living w) (hc : Change worker s s') :
    s'.Living w := by
  cases hc with
  | works _ hb => exact h.works hb
  | ends _ hm =>
    obtain ⟨hmarkers, hframes⟩ := h.moved hm
    refine ⟨hmarkers ▸ h.markers_le, ?_, h.descending, fun k => ?_,
      fun r hr hr' => (hframes r hr hr').1, fun r hr hr' => (hframes r hr hr').2⟩
    · rw [hmarkers]
      exact h.recent
    · rw [World.isLive, hmarkers]
      exact h.live k
  | starts hb => exact h.starts hb
  | opens | closes => exact ⟨h.markers_le, h.recent, h.descending, h.live, h.frames, h.seat⟩
  | still hs =>
    refine ⟨hs.markers ▸ h.markers_le, ?_, h.descending, fun k => ?_, ?_, ?_⟩
    · rw [hs.markers]
      exact h.recent
    · rw [World.isLive, hs.markers]
      exact h.live k
    · rw [hs.frames, hs.markers]
      exact h.frames
    · rw [hs.frames]
      exact h.seat

theorem living_preserved (w : World) : Preserved (Living w) :=
  ⟨fun _ _ h => h.retire, fun _ hc h => h.change hc⟩

theorem living_idle (w : World) : Living w (Machine.idle [] w) where
  markers_le := Nat.le_refl _
  recent := fun _ ha => absurd ha List.not_mem_nil
  descending := .nil
  live := fun _ => ⟨.inl, fun h => h.elim id fun ⟨_, ha, _⟩ => absurd ha List.not_mem_nil⟩
  frames := fun _ hr hr' => absurd hr' (Nat.not_lt.mpr hr)
  seat := fun _ _ _ _ ha => absurd ha List.not_mem_nil

def Dead (k : MarkerRef) (s : Snapshot) : Prop :=
  k.index < s.world.markers.size ∧ ¬ s.world.isLive k

theorem isLive_change {worker : Option MarkerRef} {k : MarkerRef} (hc : Change worker s s')
    (hk : k.index < s.world.markers.size) :
    k.index < s'.world.markers.size ∧ s'.world.isLive k = s.world.isLive k := by
  have same {v v' : World} (hm : v'.markers = v.markers) (hk : k.index < v.markers.size) :
      k.index < v'.markers.size ∧ v'.isLive k = v.isLive k := by
    rw [World.isLive, hm]
    exact ⟨hk, rfl⟩
  cases hc with
  | works _ hb => exact same hb.leads.moved.markers hk
  | ends _ hm => exact same hm.markers hk
  | still hs => exact same hs.markers hk
  | opens | closes => exact ⟨hk, rfl⟩
  | @starts callee _ _ v v' hb =>
    refine ⟨?_, ?_⟩
    · change k.index < v'.markers.size
      rw [hb.world, Arena.size_push]
      exact Nat.lt_succ_of_lt hk
    · change v'.isLive k = v.isLive k
      rw [World.isLive, hb.world, Arena.get_push, if_neg]
      · rfl
      · rintro rfl
        exact Nat.lt_irrefl _ hk

theorem isLive_changes {worker : Option MarkerRef} {k : MarkerRef}
    (hc : ReflTransGen (Change worker) s s') (hk : k.index < s.world.markers.size) :
    k.index < s'.world.markers.size ∧ s'.world.isLive k = s.world.isLive k := by
  induction hc with
  | refl => exact ⟨hk, rfl⟩
  | tail _ hc ih =>
    have h := isLive_change hc ih.1
    exact ⟨h.1, h.2.trans ih.2⟩

theorem isLive_of_new {worker : Option MarkerRef} {k : MarkerRef}
    (hc : ReflTransGen (Change worker) s s') (hk : s.world.markers.size ≤ k.index)
    (hk' : k.index < s'.world.markers.size) : s'.world.isLive k := by
  have same {v v' : World} (hm : v'.markers = v.markers) (hk : v.markers.size ≤ k.index)
      (hk' : k.index < v'.markers.size) : v'.isLive k := by
    rw [hm] at hk'
    exact absurd hk' (Nat.not_lt.mpr hk)
  induction hc with
  | refl => exact absurd hk' (Nat.not_lt.mpr hk)
  | @tail t u _ hc ih =>
    by_cases hlt : k.index < t.world.markers.size
    · rw [(isLive_change hc hlt).2]
      exact ih hlt
    have hle := Nat.le_of_not_lt hlt
    cases hc with
    | works _ hb => exact same hb.leads.moved.markers hle hk'
    | ends _ hm => exact same hm.markers hle hk'
    | still hs => exact same hs.markers hle hk'
    | opens | closes => exact absurd hk' hlt
    | @starts callee _ _ v v' hb =>
      have hnext : callee.marker = k := by
        obtain ⟨i⟩ := k
        rw [hb.world, Arena.size_push] at hk'
        rw [hb.marker]
        exact congrArg Ref.mk (Nat.le_antisymm hle (Nat.le_of_lt_succ hk'))
      exact (World.isLive_begun hb k).mpr (.inr hnext)

theorem dead_preserved (k : MarkerRef) : Preserved (Dead k) where
  retire := by
    rintro ⟨_ | a, going, n, v⟩ - h
    · exact h
    refine ⟨?_, ?_⟩
    · exact Nat.lt_of_lt_of_eq h.1 (Arena.size_set _ _ _).symm
    · intro hk
      change (v.markers.set a.marker false).get k = true at hk
      rw [Arena.get_set] at hk
      split at hk
      · cases hk
      · exact h.2 hk
  change := fun _ hc h => by
    obtain ⟨hlt, heq⟩ := isLive_change hc h.1
    exact ⟨hlt, heq ▸ h.2⟩

end Snapshot

namespace Machine

/-- The next step retires the activation with this marker. -/
def Retires (m : Machine) (k : MarkerRef) : Prop :=
  ∃ loop o, m.control = .finish loop o ∧ loop.current.marker = k

variable {w : World} {m : Machine} {k : MarkerRef}

theorem Retires.ended (h : m.Retires k) : ∃ a, m.snapshot.ended = some a ∧ a.marker = k := by
  obtain ⟨control, waiting, v⟩ := m
  obtain ⟨loop, o, rfl, hk⟩ := h
  exact ⟨loop.current, rfl, hk⟩

theorem retires_of_ended {a : Activation} (h : m.snapshot.ended = some a) : m.Retires a.marker := by
  obtain ⟨control, waiting, v⟩ := m
  cases control with
  | finish loop o =>
    cases h
    exact ⟨loop, o, rfl, rfl⟩
  | run | call | answer => cases h

theorem Retires.kills (h : m.Retires k) (hheld : m.snapshot.Held) (hl : m.snapshot.Living w) :
    m.world.isLive k ∧ m.step.snapshot.Dead k := by
  obtain ⟨a, hended, rfl⟩ := h.ended
  have ha : a ∈ m.snapshot.activations := by
    rw [Snapshot.activations, hended]
    exact List.mem_cons_self
  have hlive := (hl.live a.marker).mpr (.inr ⟨a, ha, rfl⟩)
  have hlt := (hl.recent a ha).2
  have hretired : m.snapshot.retire.Dead a.marker := by
    rw [Snapshot.retire, hended]
    refine ⟨Nat.lt_of_lt_of_eq hlt (Arena.size_set _ _ _).symm, ?_⟩
    rw [World.isLive_left hlt]
    exact fun h => h.2 rfl
  rw [world_snapshot] at hlive
  exact ⟨hlive, ((Snapshot.dead_preserved a.marker).changes hheld.retire hretired
    (step_changes hheld)).2⟩

theorem retires_of_dies (hheld : m.snapshot.Held) (hlive : m.world.isLive k)
    (hdead : ¬ m.step.world.isLive k) : m.Retires k := by
  have hlt := World.lt_of_isLive hlive
  have hchanges := step_changes hheld
  rw [← world_snapshot] at hlive hlt hdead
  cases hended : m.snapshot.ended with
  | none =>
    have hretire : m.snapshot.retire = m.snapshot := by rw [Snapshot.retire, hended]
    rw [hretire] at hchanges
    rw [(Snapshot.isLive_changes hchanges hlt).2] at hdead
    exact absurd hlive hdead
  | some a =>
    by_cases hk : a.marker = k
    · exact hk ▸ retires_of_ended hended
    have hworld : m.snapshot.retire.world = a.left m.snapshot.world := by
      rw [Snapshot.retire, hended]
    have hleft : (a.left m.snapshot.world).isLive k := by
      change (m.snapshot.world.markers.set a.marker false).get k = true
      rw [Arena.get_set, if_neg (fun h => hk h.1)]
      exact hlive
    rw [← hworld] at hleft
    rw [(Snapshot.isLive_changes hchanges (World.lt_of_isLive hleft)).2] at hdead
    exact absurd hleft hdead

/-- A captured frame that came up since is that of an activation as long as its marker is live. -/
theorem frameIsLive_iff {loop : RunLoop} (hrun : m.control = .run loop) (hheld : m.snapshot.Held)
    (hl : m.snapshot.Living w) {r : FrameRef} (hr : w.frames.size ≤ r.index)
    (hr' : r.index < m.world.frames.size) :
    m.world.frameIsLive r ↔ ∃ a ∈ m.activations, a.handle = .shared r := by
  have hgoing : m.snapshot.going = m.activations := by
    rw [← activations_snapshot, Snapshot.activations]
    unfold snapshot
    rw [hrun]
    rfl
  rw [← world_snapshot] at hr' ⊢
  rw [← hgoing, World.frameIsLive, hl.live]
  constructor
  · rintro (hold | ⟨a, ha, hk⟩)
    · exact absurd (World.lt_of_isLive hold) (Nat.not_lt.mpr (hl.frames r hr hr').1)
    · rw [activations_snapshot, ← hgoing] at ha
      exact ⟨a, ha, hl.seat r hr hr' a ha hk.symm⟩
  · rintro ⟨a, ha, hhandle⟩
    have hmarker := (hheld a ha).marker
    rw [hhandle] at hmarker
    exact .inr ⟨a, List.mem_append_right _ ha, hmarker.symm⟩

theorem living_request (r : Request) (w : World) (n : Nat) :
    ((r.machine w).after n).snapshot.Held ∧ ((r.machine w).after n).snapshot.Living w :=
  (Snapshot.living_preserved w).request (Snapshot.living_idle w) r n

theorem exists_retires {r : Request} {n : Nat} (hk : w.markers.size ≤ k.index)
    (hlt : k.index < ((r.machine w).after n).world.markers.size)
    (hdead : ¬ ((r.machine w).after n).world.isLive k) :
    ∃ j < n, ((r.machine w).after j).Retires k := by
  induction n with
  | zero =>
    refine absurd ?_ hdead
    rw [← world_snapshot] at hlt ⊢
    exact Snapshot.isLive_of_new (request_changes w r) hk hlt
  | succ n ih =>
    have hheld := (living_request r w n).1
    by_cases hlive : ((r.machine w).after n).world.isLive k
    · rw [after_succ] at hdead
      exact ⟨n, Nat.lt_succ_self n, retires_of_dies hheld hlive hdead⟩
    by_cases hold : k.index < ((r.machine w).after n).world.markers.size
    · obtain ⟨j, hj, hretires⟩ := ih hold hlive
      exact ⟨j, Nat.lt_succ_of_lt hj, hretires⟩
    refine absurd ?_ hdead
    rw [after_succ, ← world_snapshot] at hlt ⊢
    refine Snapshot.isLive_of_new (step_changes hheld) (Nat.le_of_not_lt fun h => hold ?_) hlt
    rw [← world_snapshot]
    cases hended : ((r.machine w).after n).snapshot.ended with
    | none => rwa [Snapshot.retire, hended] at h
    | some a =>
      rw [Snapshot.retire, hended] at h
      exact Nat.lt_of_lt_of_eq h (Arena.size_set _ _ _)

theorem Retires.unique {r : Request} {i j : Nat} (hi : ((r.machine w).after i).Retires k)
    (hj : ((r.machine w).after j).Retires k) : i = j := by
  have never {i j : Nat} (hlt : i < j) (hi : ((r.machine w).after i).Retires k) :
      ¬ ((r.machine w).after j).Retires k := by
    intro hj
    obtain ⟨d, rfl⟩ := Nat.exists_eq_add_of_lt hlt
    obtain ⟨hheld, hl⟩ := living_request r w i
    -- Retired first, the marker is dead for good, but the second time it would be found live.
    have hdead := (hi.kills hheld hl).2
    obtain ⟨hheld', hl'⟩ := living_request r w (i + d + 1)
    have hlive := (hj.kills hheld' hl').1
    rw [Nat.add_right_comm, after_add, after_succ, ← world_snapshot] at hlive
    have hheld₁ := (living_request r w (i + 1)).1
    rw [after_succ] at hheld₁
    exact ((Snapshot.dead_preserved k).after hheld₁ hdead d).2.2 hlive
  rcases Nat.lt_trichotomy i j with hlt | heq | hlt
  · exact absurd hj (never hlt hi)
  · exact heq
  · exact absurd hi (never hlt hj)

end Machine

/-- The frame at the end of the contexts of a block. -/
def World.homeOf? (w : World) (b : Block) : Option FrameRef :=
  w.follow (b.level.toNat - 1) (some b.context)

/-- Worlds between the calls of a host, with the markers of the frames that the host made itself. -/
inductive Hosted : World → List MarkerRef → Prop where
  | idle {w : World} (h : ∀ k, ¬ w.isLive k) : Hosted w []
  | frame {w : World} {own : List MarkerRef} (h : Hosted w own) :
      Hosted w.newMarker.2 (w.newMarker.1 :: own)
  | deactivate {w : World} {own : List MarkerRef} (h : Hosted w own) (k : MarkerRef) :
      Hosted (w.deactivate k) own
  | change {w w' : World} {own : List MarkerRef} (h : Hosted w own) (hm : w'.markers = w.markers) :
      Hosted w' own
  | request {w w' : World} {own : List MarkerRef} (h : Hosted w own) {r : Request} {fuel : Nat}
      {a : HostAnswer} (hr : r.run fuel w = some (a, w')) : Hosted w' own

theorem Machine.isLive_of_outcome {r : Request} {w : World} {n : Nat} {o : Outcome}
    (ho : ((r.machine w).after n).outcome? = some o) (k : MarkerRef) :
    ((r.machine w).after n).world.isLive k = w.isLive k := by
  have hlive := (living_request r w n).2.live k
  rw [world_snapshot, activations_snapshot, activations, loops_of_outcome ho] at hlive
  rw [Bool.eq_iff_iff, hlive]
  simp

theorem Request.isLive_of_run {r : Request} {fuel : Nat} {w w' : World} {a : HostAnswer}
    (h : r.run fuel w = some (a, w')) (k : MarkerRef) : w'.isLive k = w.isLive k := by
  obtain ⟨o, ho⟩ := outcome_of_run h
  obtain ⟨n, -, hn, rfl⟩ := Machine.after_of_run ho
  exact Machine.isLive_of_outcome hn k

theorem Hosted.mem {w : World} {own : List MarkerRef} (h : Hosted w own) {k : MarkerRef}
    (hk : w.isLive k) : k ∈ own := by
  induction h with
  | idle h => exact absurd hk (h k)
  | @frame w own h ih =>
    change (w.markers.push true).get k = true at hk
    rw [Arena.get_push] at hk
    split at hk
    · next heq => exact heq ▸ List.mem_cons_self
    · exact List.mem_cons_of_mem _ (ih hk)
  | @deactivate w own h j ih =>
    change (w.markers.set j false).get k = true at hk
    rw [Arena.get_set] at hk
    split at hk
    · cases hk
    · exact ih hk
  | change h hm ih =>
    rw [World.isLive, hm] at hk
    exact ih hk
  | request h hr ih =>
    rw [Request.isLive_of_run hr] at hk
    exact ih hk

/-- Whatever is asked for, at every step the live markers are those of the activations on the stacks
of the loops opened since, besides those that were live before. Each of these activations has a
marker of its own, which is live until the activation is retired and never again, and each is retired
at most once, and exactly once if its marker is dead. Between two instructions a captured frame is
live exactly if it is that of an activation on a stack. Every outcome leaves the same markers live as
before; so once a host has its answer, blocks have dead homes, unless the host made the frame of the
home itself. All the same holds for a call from inside a run, with others below. -/
theorem Request.markers_live (r : Request) (w : World) :
    (∀ n, let m := (r.machine w).after n
      (∀ k, m.world.isLive k ↔ w.isLive k ∨ ∃ a ∈ m.activations, a.marker = k) ∧
      (∀ a ∈ m.activations, w.markers.size ≤ a.marker.index) ∧
      (m.activations.Pairwise fun a b => a.marker ≠ b.marker) ∧
      (∀ loop, m.control = .run loop →
        (∀ a ∈ m.activations, (a.handle.frame m.world).marker = a.marker) ∧
        ∀ f : FrameRef, w.frames.size ≤ f.index → f.index < m.world.frames.size →
          (m.world.frameIsLive f ↔ ∃ a ∈ m.activations, a.handle = .shared f)) ∧
      (∀ k, m.Retires k → m.world.isLive k ∧ ¬ m.step.world.isLive k) ∧
      (∀ k, k.index < m.world.markers.size → ¬ m.world.isLive k →
        ∀ j, ¬ (m.after j).world.isLive k) ∧
      (∀ k, w.markers.size ≤ k.index → k.index < m.world.markers.size → ¬ m.world.isLive k →
        ∃! j, j < n ∧ ((r.machine w).after j).Retires k) ∧
      ∀ o, m.outcome? = some o → ∀ k, m.world.isLive k = w.isLive k) ∧
    (∀ fuel a w', r.run fuel w = some (a, w') →
      (∀ k, w'.isLive k = w.isLive k) ∧
      ∀ own, Hosted w own → Hosted w' own ∧
        ∀ b home, w'.homeOf? b = some home → (w'.frames.get home).marker ∉ own →
          w'.frameIsLive home = false) ∧
    ∀ below n, (∀ j < n, ((r.machine w).after j).outcome? = none) →
      ((r.machine w).on below).after n = ((r.machine w).after n).on below := by
  refine ⟨fun n => ?_, fun fuel a w' h => ⟨isLive_of_run h, fun own hown => ?_⟩,
    fun below n h => Machine.after_on h below⟩
  · obtain ⟨hheld, hl⟩ := Machine.living_request r w n
    have hactivations := Machine.activations_snapshot ((r.machine w).after n)
    have hworld := Machine.world_snapshot ((r.machine w).after n)
    refine ⟨fun k => ?_, fun a ha => ?_, ?_, fun loop hrun => ⟨fun a ha => ?_, fun f hf hf' => ?_⟩,
      fun k hk => ?_, fun k hlt hk j => ?_, fun k hk hlt hdead => ?_, fun o ho k => ?_⟩
    · rw [← hactivations, ← hworld]
      exact hl.live k
    · exact (hl.recent a (hactivations ▸ ha)).1
    · rw [← hactivations]
      refine hl.descending.imp fun hlt heq => ?_
      rw [heq] at hlt
      exact Nat.lt_irrefl _ hlt
    · rw [← hworld]
      refine (hheld a ?_).marker
      rw [← hactivations, Machine.snapshot, hrun] at ha
      rw [Machine.snapshot, hrun]
      exact ha
    · exact Machine.frameIsLive_iff hrun hheld hl hf hf'
    · obtain ⟨hlive, hdead⟩ := hk.kills hheld hl
      rw [Snapshot.Dead, Machine.world_snapshot] at hdead
      exact ⟨hlive, hdead.2⟩
    · rw [← hworld] at hlt hk
      have hdead := ((Snapshot.dead_preserved k).after hheld ⟨hlt, hk⟩ j).2
      rw [Snapshot.Dead, Machine.world_snapshot] at hdead
      exact hdead.2
    · obtain ⟨j, hj, hretires⟩ := Machine.exists_retires hk hlt hdead
      exact ⟨j, ⟨hj, hretires⟩, fun i hi => hi.2.unique hretires⟩
    · exact Machine.isLive_of_outcome ho k
  -- A host made nothing during its own call, so what is live afterwards it made before.
  · have hafter : Hosted w' own := hown.request h
    refine ⟨hafter, fun b home _ hmarker => Bool.eq_false_iff.mpr fun hlive => ?_⟩
    exact hmarker (hafter.mem hlive)

/-- A host builds a method with a block that makes a block, makes a frame for the method by hand, and
takes the outer block to run it over that frame. -/
def capturing : Action (CodeRef × FrameRef) := do
  let inner := Source.block 0 [.pushConstant .nil, .returnNonLocal]
  let outer := Source.block 0 [.pushBlock inner, .returnLocal]
  let m ← (Source.method "capture" [.pushBlock outer, .returnLocal]).compile
  let f ← Action.makeFrame m [.nil] none
  let f ← Action.update (·.newFrame f)
  let body ← (← get).blockLiteral m 0
  return (body, f)

set_option maxRecDepth 100000 in
theorem capturing_live_home :
    ∃ body f w b w' home, capturing World.standard = .ok (body, f) w ∧ w.depth = 0 ∧
      HostCall.run 20 w (.execute body [.nil] (some f)) = some (.outcome (.ok (.block b)), w') ∧
      w.nextSerial ≤ b.serial ∧ w'.homeOf? b = some home ∧ w'.frameIsLive home := by
  have hrun : ((capturing.result? World.standard).any fun p =>
      p.2.depth = 0 && (p.2.execute 20 p.1.1 [.nil] (some p.1.2)).any fun q =>
        (q.1.toOption.bind (·.block?)).any fun b =>
          p.2.nextSerial ≤ b.serial && (q.2.homeOf? b).any q.2.frameIsLive) = true := by
    decide +kernel
  obtain ⟨⟨⟨body, f⟩, w⟩, hw, hrun⟩ := Option.any_eq_true _ _ |>.mp hrun
  obtain ⟨hdepth, hrun⟩ := Bool.and_eq_true_iff.mp hrun
  obtain ⟨⟨o, w'⟩, hcall, hrun⟩ := Option.any_eq_true _ _ |>.mp hrun
  obtain ⟨b, hb, hrun⟩ := Option.any_eq_true _ _ |>.mp hrun
  obtain ⟨hserial, hhome⟩ := Bool.and_eq_true_iff.mp hrun
  obtain ⟨home, hh, hlive⟩ := Option.any_eq_true _ _ |>.mp hhome
  obtain ⟨v, ho, hv⟩ := Option.bind_eq_some_iff.mp hb
  have hblock : o = .ok (.block b) := by
    cases o with
    | error u => cases ho
    | ok x =>
      cases ho
      cases v <;> cases hv
      rfl
  have hanswer : HostCall.run 20 w (.execute body [.nil] (some f)) =
      some (.outcome (.ok (.block b)), w') := by
    rw [HostCall.run, hcall, hblock]
    rfl
  exact ⟨body, f, w, b, w', home, Action.result?_eq_some.mp hw, of_decide_eq_true hdepth, hanswer,
    of_decide_eq_true hserial, hh, hlive⟩

end MessageMachine
