import MessageMachine.Proofs.Calls
import MessageMachine.Proofs.Footing
import MessageMachine.Proofs.Hierarchy

namespace MessageMachine

namespace World

/-- Equal in everything but remembered lookups, inline caches, counters and records. -/
def EqualUpToTraces (w v : World) : Prop :=
  v = { w with
    memos := v.memos, caches := v.caches, counters := v.counters, journal := v.journal }

theorem Coherent.withoutCaches {w : World} (hw : w.Coherent) : w.withoutCaches.Coherent where
  ordered := hw.ordered.congr rfl
  memos := nofun
  sites := nofun

end World

variable {k l : Nat} {w v : World} {α : Type}

theorem Alike.withoutCaches (hw : w.Coherent) :
    Alike w.reentry w.reentry w w.withoutCaches :=
  ⟨rfl, rfl, rfl, hw, hw.withoutCaches⟩

theorem Alike.equalUpToTraces (h : Alike k k w v) : w.EqualUpToTraces v := by
  have hr : w.reentry = v.reentry := h.left_reentry.trans h.right_reentry.symm
  rw [World.EqualUpToTraces, hr]
  exact h.same

def Matched : Option (α × World) → Option (α × World) → Prop
  | none, none => True
  | some (a, w), some (b, v) => a = b ∧ ∃ k, Alike k k w v
  | _, _ => False

theorem Matched.map {β : Type} {r s : Option (α × World)} (h : Matched r s) (f : α → β) :
    Matched (r.map (Prod.map f id)) (s.map (Prod.map f id)) := by
  match r, s, h with
  | none, none, _ => exact trivial
  | some (a, w), some (b, v), ⟨ha, hw⟩ => exact ⟨congrArg f ha, hw⟩

namespace Footing

theorem Rests.eq_of_nil {n : Nat} {ws vs : List Waiting} (h : Rests (.call []) n ws vs) :
    vs = ws := by
  generalize hb : Footing.call [] = b at h
  induction h with
  | call =>
    cases hb
    rfl
  | send => cases hb
  | sender loop use _ ih => rw [ih hb]
  | iteration i _ ih => rw [ih hb]

theorem Grafted.outcome?_eq {m m' : Machine} (h : Grafted (.call []) k m m') :
    m'.outcome? = m.outcome? ∧ Alike k k m'.world m.world := by
  cases h with
  | run _ _ ha | finish _ _ _ ha | call _ _ _ ha => exact ⟨rfl, ha⟩
  | answer o hr _ ha =>
    rw [hr.eq_of_nil]
    exact ⟨rfl, ha⟩

theorem Follows.grafted_of_nil {m m' : Machine} (h : Follows (.call []) m m') :
    ∃ k, Grafted (.call []) k m m' := by
  cases h with
  | grafted h => exact ⟨_, h⟩
  | landed hm hm' ha =>
    rw [hm, hm']
    exact ⟨_, .answer _ .call (Nat.zero_le _) ha⟩
  | exceeded hb => exact absurd rfl hb

theorem Grafted.run_matched {m m' : Machine} (h : Grafted (.call []) k m m') (fuel : Nat) :
    Matched (m'.run fuel) (m.run fuel) := by
  induction fuel generalizing k m m' with
  | zero =>
    obtain ⟨hout, hworld⟩ := h.outcome?_eq
    simp only [Machine.run, hout]
    cases m.outcome? with
    | none => exact trivial
    | some o => exact ⟨rfl, k, hworld⟩
  | succ fuel ih =>
    obtain ⟨hout, hworld⟩ := h.outcome?_eq
    cases ho : m.outcome? with
    | some o =>
      rw [Machine.run_of_outcome? ho, Machine.run_of_outcome? (hout.trans ho)]
      exact ⟨rfl, k, hworld⟩
    | none =>
      rw [Machine.run_succ ho, Machine.run_succ (hout.trans ho)]
      obtain ⟨_, h⟩ := (step_follows h ho).grafted_of_nil
      exact ih h

theorem Follows.run_matched {m m' : Machine} (h : Follows (.call []) m m') (fuel : Nat) :
    Matched (m'.run fuel) (m.run fuel) := by
  obtain ⟨_, h⟩ := h.grafted_of_nil
  exact h.run_matched fuel

end Footing

namespace HostCall

theorem dispatch_matched (h : Alike k k w v) (fuel : Nat) (receiver : Value) (selector : Symbol)
    (args : List Value) :
    Matched (w.dispatch fuel receiver selector args) (v.dispatch fuel receiver selector args) := by
  unfold World.dispatch
  have ht := Action.dispatch_uniform receiver selector args w v h
  cases hw : Action.dispatch receiver selector args w <;>
    cases hv : Action.dispatch receiver selector args v <;> rw [hw, hv] at ht
  · obtain ⟨rfl, ha⟩ := ht
    exact (Footing.call_follows .call (Nat.zero_le k) ha _).run_matched fuel
  · exact ht.elim
  · exact ht.elim
  · obtain ⟨rfl, ha⟩ := ht
    exact ⟨rfl, k, ha⟩

theorem call_matched (h : Alike k k w v) (fuel : Nat) (m : Method) (args : List Value) :
    Matched (w.call fuel m args) (v.call fuel m args) :=
  (Footing.call_follows .call (Nat.zero_le k) h ⟨m, args⟩).run_matched fuel

theorem execute_matched (h : Alike k k w v) (fuel : Nat) (r : CodeRef) (args : List Value)
    (outer : Option FrameRef) :
    Matched (w.execute fuel r args outer) (v.execute fuel r args outer) :=
  (Footing.execute_follows .call (Nat.zero_le k) h r args outer).run_matched fuel

theorem run_matched (h : Alike k k w v) (fuel : Nat) (c : HostCall) :
    Matched (c.run fuel w) (c.run fuel v) := by
  cases c with
  | invoke m receiver args =>
    have hcount : v.argCount m = w.argCount m := by rw [h.same]; cases m <;> rfl
    simp only [run, World.invoke, hcount]
    split
    · exact ((call_matched h fuel m (receiver :: args)).map Outcome.settle).map _
    · exact ⟨rfl, k, h⟩
  | send receiver selector args =>
    obtain ⟨hs, ha⟩ := Plain.alike (f := fun w => w.intern selector)
      ⟨fun _ _ => rfl, fun _ => rfl, fun _ => rfl, fun _ => rfl⟩ h
    simp only [run, World.send, hs]
    split
    · exact ((dispatch_matched ha fuel receiver _ args).map Outcome.settle).map _
    · exact ⟨rfl, k, ha⟩
  | dispatch receiver selector args => exact (dispatch_matched h fuel receiver selector args).map _
  | call m args => exact (call_matched h fuel m args).map _
  | evaluate b params => exact (execute_matched h fuel _ _ _).map _
  | execute r args outer => exact (execute_matched h fuel r args outer).map _

theorem runAll_matched (h : Alike k k w v) (fuel : Nat) (calls : List HostCall) :
    Matched (runAll fuel calls w) (runAll fuel calls v) := by
  induction calls generalizing k w v with
  | nil => exact ⟨rfl, k, h⟩
  | cons c rest ih =>
    have hc := run_matched h fuel c
    simp only [runAll]
    cases hw : c.run fuel w <;> cases hv : c.run fuel v <;> rw [hw, hv] at hc
    · exact trivial
    · exact hc.elim
    · exact hc.elim
    · obtain ⟨ha, l, hl⟩ := hc
      dsimp only
      rw [ha]
      exact (ih hl).map _

/-- Whatever a host asks for, a world without remembered lookups and inline caches gives the same
answers and ends the same but for its traces. Lookups leave behind only what is valid. -/
theorem runAll_withoutCaches (hw : w.Coherent) (fuel : Nat) (calls : List HostCall) :
    match runAll fuel calls w, runAll fuel calls w.withoutCaches with
    | some (answers, w'), some (answers', v') =>
      answers' = answers ∧ w'.EqualUpToTraces v' ∧ w'.Coherent ∧ v'.Coherent
    | none, none => True
    | _, _ => False := by
  have hm := runAll_matched (Alike.withoutCaches hw) fuel calls
  cases hr : runAll fuel calls w <;> cases hr' : runAll fuel calls w.withoutCaches <;>
    rw [hr, hr'] at hm
  · exact trivial
  · exact hm.elim
  · exact hm.elim
  · obtain ⟨ha, l, h⟩ := hm
    exact ⟨ha.symm, h.equalUpToTraces, h.left, h.right⟩

set_option maxRecDepth 100000 in
theorem runAll_withoutCaches_warm :
    ∃ w, w.caches.entries.isEmpty = false ∧ w.Coherent ∧
      match runAll 60 [.send (.boolean true) "~=" [.nil]] w,
        runAll 60 [.send (.boolean true) "~=" [.nil]] w.withoutCaches with
      | some (answers, w'), some (answers', v') =>
        answers' = answers ∧ w'.EqualUpToTraces v' ∧ w'.Coherent ∧ v'.Coherent
      | none, none => True
      | _, _ => False := by
  have hwarm : (runAll 60 [.send (.boolean true) "~=" [.nil]] World.standard).any
      (fun r => !r.2.caches.entries.isEmpty) = true := by decide +kernel
  have h := runAll_withoutCaches World.standard_coherent 60 [.send (.boolean true) "~=" [.nil]]
  cases hr : runAll 60 [.send (.boolean true) "~=" [.nil]] World.standard with
  | none =>
    rw [hr] at hwarm
    cases hwarm
  | some r =>
    cases hr' : runAll 60 [.send (.boolean true) "~=" [.nil]] World.standard.withoutCaches with
    | none =>
      rw [hr, hr'] at h
      exact h.elim
    | some r' =>
      rw [hr] at hwarm h
      rw [hr'] at h
      exact ⟨r.2, by simpa using hwarm, h.2.2.1, runAll_withoutCaches h.2.2.1 60 _⟩

end HostCall

end MessageMachine
