import Mathlib.Algebra.Ring.Nat
import MessageMachine.Proofs.Changing
import MessageMachine.Proofs.Hierarchy

namespace MessageMachine

/-- The counters have grown from those of `w` by what is open now, within the limits. -/
structure Snapshot.Balanced (w : World) (s : Snapshot) : Prop where
  config : s.world.config = w.config
  depth : s.world.depth = w.depth + s.activations.length
  reentry : s.world.reentry = w.reentry + s.loops
  depth_le : s.world.depth ≤ w.config.maxCallDepth
  reentry_le : s.world.reentry ≤ w.config.maxReentryDepth

namespace Snapshot

variable {w : World}

theorem Balanced.retire {s : Snapshot} (h : s.Balanced w) : s.retire.Balanced w := by
  obtain ⟨_ | a, going, n, v⟩ := s
  · exact h
  obtain ⟨hconfig, hdepth, hreentry, hdepth_le, hreentry_le⟩ := h
  have hdepth : v.depth = w.depth + (going.length + 1) := hdepth
  have hleft : v.depth - 1 = w.depth + going.length := by omega
  exact ⟨hconfig, hleft, hreentry, Nat.le_trans (Nat.sub_le _ _) hdepth_le, hreentry_le⟩

theorem Balanced.change {worker : Option MarkerRef} {s s' : Snapshot} (h : s.Balanced w)
    (hc : Change worker s s') : s'.Balanced w := by
  cases hc with
  | works _ hb =>
    have hm := hb.leads.moved
    exact ⟨hm.config.trans h.config, hm.depth.trans h.depth, hm.reentry.trans h.reentry,
      hm.depth ▸ h.depth_le, hm.reentry ▸ h.reentry_le⟩
  | ends _ hm =>
    exact ⟨hm.config.trans h.config, hm.depth.trans h.depth, hm.reentry.trans h.reentry,
      hm.depth ▸ h.depth_le, hm.reentry ▸ h.reentry_le⟩
  | still hs =>
    exact ⟨hs.config.trans h.config, hs.depth.trans h.depth, hs.reentry.trans h.reentry,
      hs.depth ▸ h.depth_le, hs.reentry ▸ h.reentry_le⟩
  | @starts _ _ _ v _ hb =>
    have hroom : v.depth < w.config.maxCallDepth := h.config ▸ hb.room
    rw [hb.world]
    exact ⟨h.config, congrArg (· + 1) h.depth, h.reentry, hroom, h.reentry_le⟩
  | @opens _ _ v hroom =>
    have hroom : v.reentry < w.config.maxReentryDepth := h.config ▸ hroom
    exact ⟨h.config, h.depth, congrArg (· + 1) h.reentry, h.depth_le, hroom⟩
  | closes =>
    exact ⟨h.config, h.depth, congrArg (· - 1) h.reentry, h.depth_le,
      Nat.le_trans (Nat.sub_le _ _) h.reentry_le⟩

theorem balanced_preserved (w : World) : Preserved (Balanced w) :=
  ⟨fun _ _ h => h.retire, fun _ hc h => h.change hc⟩

end Snapshot

namespace Machine

theorem loops_of_finish {m : Machine} {loop : RunLoop} {o : Outcome}
    (h : m.control = .finish loop o) : m.loops = loop :: m.waiting.filterMap (·.loop?) := by
  rw [loops, h]
  rfl

theorem loops_of_outcome {m : Machine} {o : Outcome} (h : m.outcome? = some o) : m.loops = [] := by
  obtain ⟨control, waiting, w⟩ := m
  cases control with
  | answer o =>
    cases waiting with
    | nil => rfl
    | cons x rest => cases h
  | run | finish | call => cases h

end Machine

theorem Snapshot.Balanced.counters {w : World} {m : Machine} (h : m.snapshot.Balanced w) :
    m.world.config = w.config ∧
      m.world.depth = w.depth + (m.loops.map (·.activations.length)).sum ∧
      m.world.reentry = w.reentry + m.loops.length ∧
      m.world.depth ≤ w.config.maxCallDepth ∧ m.world.reentry ≤ w.config.maxReentryDepth ∧
      (∀ loop o, m.control = .finish loop o → 0 < m.world.depth ∧ 0 < m.world.reentry) ∧
      ∀ o, m.outcome? = some o → m.world.depth = w.depth ∧ m.world.reentry = w.reentry := by
  obtain ⟨hconfig, hd, hr, hdepth_le, hreentry_le⟩ := h
  rw [Machine.world_snapshot] at hconfig hd hr hdepth_le hreentry_le
  rw [Machine.activations_snapshot, Machine.activations, List.length_flatMap] at hd
  rw [Machine.loops_snapshot] at hr
  refine ⟨hconfig, hd, hr, hdepth_le, hreentry_le, fun loop o hf => ?_, fun o ho => ?_⟩
  · rw [hd, hr, Machine.loops_of_finish hf]
    simp only [List.map_cons, List.sum_cons, RunLoop.activations, List.length_cons]
    omega
  · rw [hd, hr, Machine.loops_of_outcome ho]
    exact ⟨rfl, rfl⟩

/-- Whatever is asked for in a world within its limits, at every step the counters have grown by the
activations on the stacks of the loops opened since, and by these loops. They stay within the limits,
and are not zero when an activation is about to be retired. Whenever there is an outcome they are
back where they were. All the same holds for a call from inside a run, with others below. -/
theorem Request.counters_balance (r : Request) (w : World)
    (hdepth : w.depth ≤ w.config.maxCallDepth) (hreentry : w.reentry ≤ w.config.maxReentryDepth) :
    (∀ n, let m := (r.machine w).after n
      m.world.config = w.config ∧
      m.world.depth = w.depth + (m.loops.map (·.activations.length)).sum ∧
      m.world.reentry = w.reentry + m.loops.length ∧
      m.world.depth ≤ w.config.maxCallDepth ∧ m.world.reentry ≤ w.config.maxReentryDepth ∧
      (∀ loop o, m.control = .finish loop o → 0 < m.world.depth ∧ 0 < m.world.reentry) ∧
      ∀ o, m.outcome? = some o → m.world.depth = w.depth ∧ m.world.reentry = w.reentry) ∧
    (∀ fuel a w', r.run fuel w = some (a, w') → w'.depth = w.depth ∧ w'.reentry = w.reentry) ∧
    ∀ below n, (∀ j < n, ((r.machine w).after j).outcome? = none) →
      ((r.machine w).on below).after n = ((r.machine w).after n).on below := by
  have hcounters (n : Nat) :=
    ((Snapshot.balanced_preserved w).request ⟨rfl, rfl, rfl, hdepth, hreentry⟩ r n).2.counters
  -- What the host is given comes from some step with an outcome.
  refine ⟨hcounters, fun fuel a w' h => ?_, fun below n h => Machine.after_on h below⟩
  obtain ⟨o, ho⟩ := outcome_of_run h
  obtain ⟨n, -, hn, rfl⟩ := Machine.after_of_run ho
  exact (hcounters n).2.2.2.2.2.2 o hn

set_option maxRecDepth 100000 in
/-- At a limit of one activation the second one fails, and the counters are back at zero. -/
theorem Request.counters_balance_at_limit :
    ∃ w : World, w.depth ≤ w.config.maxCallDepth ∧ w.reentry ≤ w.config.maxReentryDepth ∧
      ∃ w', Request.run 60 w (.host (.send (.boolean true) "~=" [.nil])) =
          some (.settled (.error (.callDepthExceeded 1)), w') ∧
        w'.depth = w.depth ∧ w'.reentry = w.reentry := by
  let w := { World.standard with config := { World.standard.config with maxCallDepth := 1 } }
  let c : Request := .host (.send (.boolean true) "~=" [.nil])
  obtain ⟨hdepth, hreentry, hrun⟩ :
      w.depth ≤ w.config.maxCallDepth ∧ w.reentry ≤ w.config.maxReentryDepth ∧
        ((c.run 60 w).any fun r => r.1 = .settled (.error (.callDepthExceeded 1))) = true := by
    decide +kernel
  obtain ⟨⟨a, w'⟩, h, ha⟩ := Option.any_eq_true _ _ |>.mp hrun
  rw [show a = .settled (.error (.callDepthExceeded 1)) from of_decide_eq_true ha] at h
  exact ⟨w, hdepth, hreentry, w', h, (counters_balance _ w hdepth hreentry).2.1 60 _ w' h⟩

end MessageMachine
