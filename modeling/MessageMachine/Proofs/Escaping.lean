import MessageMachine.Proofs.Contexts
import MessageMachine.Proofs.Unwinding

namespace MessageMachine

/-- A running activation of a block is about to return this value to the activation of the method that
the block is in, which is over. The frame of the method is the last one that links lead to. -/
structure Machine.Escaping (m : Machine) (a : Activation) (v : Value) (r : FrameRef) : Prop where
  fetches : a.fetch m.world = .ok .returnNonLocal
  block : (m.world.code a.method).isBlock
  top : (a.handle.frame m.world).operands.getLast? = some v
  home : ∃ n, m.world.follow n (a.handle.frame m.world).outer = some r
  level : (m.world.frames.get r).code.level = 0
  gone : ∀ b ∈ m.activations, b.marker ≠ (m.world.frames.get r).marker

/-- One more escaped block is counted, which is all that changed. -/
structure World.CountsEscape (w w₁ : World) : Prop where
  untouched : w.Untouched w₁
  markers : w₁.markers = w.markers
  counters : w₁.counters = { w.counters with escapedBlocks := w.counters.escapedBlocks + 1 }

/-- The block that runs in a frame. -/
structure Frame.Runs (f : Frame) (c : CodeRef) (b : Block) : Prop where
  self : f.read .arguments 0 = .ok (.block b)
  code : b.code = c
  context : f.outer = some b.context

theorem World.counters_note (w : World) (e : Event) : (w.note e).counters = w.counters := by
  unfold note
  split <;> rfl

namespace Activation

variable {D : Discipline} {a : Activation} {w : World} {left : List Value} {v : Value} {n : Nat}
  {r : FrameRef}

theorem returnNonLocal_escapes [D.Guards] (hw : w.Sound D)
    (ha : a.handle.Placed D a.marker a.method w) (hblock : (w.code a.method).isBlock)
    (hops : (a.handle.frame w).operands = left ++ [v])
    (hfollow : w.follow n (a.handle.frame w).outer = some r) (hr : r.index < w.frames.size)
    (hroot : (w.frames.get r).code.isBlock = false) (hdead : w.frameIsLive r = false) :
    ∃ b handle receiver selector w₁, (a.handle.frame w).Runs a.method b ∧
      (w.frames.get r).read .arguments 0 = .ok receiver ∧ selector.name = "escapedBlock:" ∧
      w.CountsEscape w₁ ∧
      a.returnNonLocal w =
        match Action.dispatch receiver selector [.block b] w₁ with
        | .ok c w' => .ok (.callOut { a with handle } c .complete) w'
        | .error f w' => .error f w' := by
  obtain ⟨b, handle, w₁, hslot, hcode, houter, hm, huntouched, hcounters, hhome, heq⟩ :=
    returnNonLocal_apply hw ha hblock hops hfollow hr hroot
  have hdead' : w₁.isLive (w.frames.get r).marker = false := by
    rwa [World.isLive, hm.markers]
  have hreceiver : ∃ v, (w.frames.get r).read .arguments 0 = .ok v :=
    Frame.read_of_lt (hw.frames r hr).proper (w.frames.get r).code.argCount_pos
  obtain ⟨receiver, hreceiver⟩ := hreceiver
  have hread : (w₁.frames.get r).read .arguments 0 = .ok receiver := by
    rw [hhome.read_self (Frame.self_of_bindings (huntouched.bindings r)), hreceiver]
  let w₂ : World := (w₁.count fun n => { n with escapedBlocks := n.escapedBlocks + 1 }).note
    (.escaped a.method receiver)
  have hmarked : w₁.Marked w₂ := (World.count_marked w₁ _).trans (World.note_marked _ _)
  refine ⟨b, handle, receiver, (w₂.intern "escapedBlock:").1, (w₂.intern "escapedBlock:").2,
    ⟨Frame.read_self hslot, hcode, houter⟩, hreceiver, SymbolTable.name_intern _ _, ⟨?_, ?_, ?_⟩, ?_⟩
  · exact huntouched.trans (.trans (.of_marked hmarked) ⟨rfl, rfl, rfl, rfl, rfl, fun _ => rfl⟩)
  · exact (World.note_still _ _).markers.trans hm.markers
  · change w₂.counters = _
    rw [World.counters_note, ← hcounters]
    rfl
  · rw [heq, if_neg (by rw [hdead']; decide)]
    simp only [Action.bind_apply, Action.count_apply, hread, Action.lift_ok, Action.note,
      Action.modify_apply, Action.escapedBlock, Action.intern, Action.update_apply, w₂]
    generalize Action.dispatch receiver _ [.block b] _ = x
    cases x <;> rfl

theorem step_escapes [D.Guards] (hw : w.Sound D) (ha : a.handle.Placed D a.marker a.method w)
    (hfetch : a.fetch w = .ok .returnNonLocal) (hblock : (w.code a.method).isBlock)
    (hops : (a.handle.frame w).operands = left ++ [v])
    (hfollow : w.follow n (a.handle.frame w).outer = some r) (hr : r.index < w.frames.size)
    (hroot : (w.frames.get r).code.isBlock = false) (hdead : w.frameIsLive r = false) :
    ∃ b sender receiver selector w₁, (a.handle.frame w).Runs a.method b ∧
      sender.marker = a.marker ∧ sender.method = a.method ∧
      (w.frames.get r).read .arguments 0 = .ok receiver ∧ selector.name = "escapedBlock:" ∧
      w.CountsEscape w₁ ∧
      a.step w =
        match Action.dispatch receiver selector [.block b] w₁ with
        | .ok c w' => .ok (.callOut sender c .complete) w'
        | .error f w' => .error f w' := by
  have hs := a.traced_still .returnNonLocal w
  have hm : w.Marked (a.traced .returnNonLocal w) := by
    unfold traced
    split
    · exact w.note_marked _
    · exact ⟨rfl, Nat.le_refl _⟩
  have hcounters : (a.traced .returnNonLocal w).counters = w.counters := by
    unfold traced
    split
    · exact World.counters_note _ _
    · rfl
  have hw' := traced_sound (a := a) hw .returnNonLocal
  rw [step_eq hfetch]
  generalize a.traced .returnNonLocal w = w' at hs hm hcounters hw' ⊢
  have hframe := a.handle.frame_congr hs.frames
  rw [← hframe] at hops hfollow ⊢
  rw [← World.follow_congr hs.frames] at hfollow
  rw [World.code, ← hs.codes] at hblock
  rw [← hs.frames] at hr hroot ⊢
  rw [World.frameIsLive, World.isLive, ← hs.markers, ← hs.frames] at hdead
  obtain ⟨b, handle, receiver, selector, w₁, hruns, hreceiver, hname, hescape, heq⟩ :=
    returnNonLocal_escapes (a := { a with offset := a.offset + 1 }) hw' (ha.still hs) hblock hops
      hfollow hr hroot hdead
  refine ⟨b, { a with handle, offset := a.offset + 1 }, receiver, selector, w₁, hruns, rfl, rfl,
    hreceiver, hname, ⟨?_, ?_, ?_⟩, heq⟩
  · exact .trans (.of_marked hm) hescape.untouched
  · exact hescape.markers.trans hs.markers
  · rw [hescape.counters, hcounters]

end Activation

namespace Machine

variable {m : Machine} {below : List Waiting} {k : MarkerRef} {n : Nat} {D : Discipline}
  {C : Contract D} {held : List Grant}

theorem activations_on (m : Machine) (below : List Waiting) :
    (m.on below).activations = m.activations ++ below.flatMap (·.activations) := by
  simp only [activations, loops, on, List.filterMap_append, List.flatMap_append,
    flatMap_activations, List.append_assoc]

theorem mem_of_worker_on (ho : m.outcome? = none) (h : (m.on below).worker? = some k) :
    ∃ a ∈ m.activations, a.marker = k := by
  obtain ⟨control, waiting, w⟩ := m
  cases control with
  | run loop =>
    cases h
    exact ⟨loop.current, List.mem_cons_self, rfl⟩
  | finish loop o =>
    obtain ⟨current, suspended⟩ := loop
    cases suspended with
    | nil => cases h
    | cons sender rest =>
      cases h
      exact ⟨sender, List.mem_cons_of_mem _ List.mem_cons_self, rfl⟩
  | call c => cases h
  | answer o =>
    match waiting with
    | [] => cases ho
    | .iteration i :: rest => cases h
    | .sender loop use :: rest =>
      cases h
      exact ⟨loop.current, List.mem_cons_self, rfl⟩

theorem Sound.snapshot_held (h : m.Sound C held) : m.snapshot.Held := by
  intro a ha
  have hmem : a ∈ m.activations := by
    rw [← activations_snapshot]
    exact List.mem_append_right _ ha
  rw [world_snapshot]
  exact (h.stacked.placed a hmem).held

theorem leaves_below (hsound : ∀ j ≤ n, ((m.after j).on below).Sound C held)
    (hnone : ∀ j < n, (m.after j).outcome? = none) {b : Activation}
    (hb : b ∈ below.flatMap (·.activations)) :
    m.world.Leaves b.marker (m.after n).world := by
  induction n with
  | zero => exact .of_frames rfl
  | succ n ih =>
    have hm := hsound n (Nat.le_succ n)
    have ho := hnone n (Nat.lt_succ_self n)
    refine .trans (ih (fun j hj => hsound j (Nat.le_succ_of_le hj))
      fun j hj => hnone j (Nat.lt_succ_of_lt hj)) ?_
    have hworker : ((m.after n).on below).worker? ≠ some b.marker := by
      intro h
      obtain ⟨a, ha, hmarker⟩ := mem_of_worker_on ho h
      have hless := hm.stacked.descending
      rw [activations_on] at hless
      have hlt := (List.pairwise_append.mp hless).2.2 a ha b hb
      rw [hmarker] at hlt
      exact Nat.lt_irrefl _ hlt
    have hleaves := step_leaves hm.snapshot_held hworker
    rw [step_on ho] at hleaves
    rw [after_succ]
    exact hleaves

/-- A call runs on top of an activation and of all that wait for it, who stay as they are. If it
completes, the activation completes with its value, and nobody else does. -/
structure Recovers (m : Machine) (sender : Activation) (suspended : List Activation)
    (handler : Machine) : Prop where
  runs : ∀ n, (∀ j < n, (handler.after j).outcome? = none) →
    m.after (n + 1) = (handler.after n).on (.sender ⟨sender, suspended⟩ .complete :: m.waiting)
  completes : ∀ n x, (∀ j < n, (handler.after j).outcome? = none) →
    (∀ j < n, Policy.leveled.runs (handler.after j)) →
    (handler.after n).outcome? = some (.ok x) →
    m.after (n + 2) = ⟨.finish ⟨sender, suspended⟩ (.ok x), m.waiting, (handler.after n).world⟩ ∧
    (m.after (n + 3)).Received x suspended m.waiting m.world ∧
    ∀ k, (m.after (n + 3)).world.isLive k ↔
      ∃ b ∈ suspended ++ m.waiting.flatMap (·.activations), b.marker = k

variable {m : Machine} {held : List Grant} {sender : Activation} {suspended : List Activation}
  {c : Call} {w : World}

/-- A machine that has an outcome `o` and nobody below it answers `o` to whoever is put below. -/
theorem on_of_outcome {m : Machine} {o : Outcome} (h : m.outcome? = some o) (below : List Waiting) :
    m.on below = ⟨.answer o, below, m.world⟩ := by
  obtain ⟨control, waiting, w⟩ := m
  cases control with
  | answer o' =>
    cases waiting with
    | nil =>
      cases h
      rfl
    | cons x rest => cases h
  | run | finish | call => cases h

/-- A call from an activation that is to complete with its answer runs with those who wait below. -/
theorem after_callOut {a : Activation} (hrun : m.control = .run ⟨a, suspended⟩)
    (hstep : a.step m.world = .ok (.callOut sender c .complete) w) {n : Nat}
    (hnone : ∀ j < n, (after j ⟨.call c, [], w⟩).outcome? = none) :
    m.after (n + 1) =
      (after n ⟨.call c, [], w⟩).on (.sender ⟨sender, suspended⟩ .complete :: m.waiting) := by
  have hnext : m.step =
      on ⟨.call c, [], w⟩ (.sender ⟨sender, suspended⟩ .complete :: m.waiting) := by
    simp only [step, advance, hrun, hstep]
    rfl
  rw [after, hnext, after_on hnone]

theorem session_callOut (h : Session .leveled m held) (hruns : Policy.leveled.runs m)
    {a : Activation} (hrun : m.control = .run ⟨a, suspended⟩)
    (hstep : a.step m.world = .ok (.callOut sender c .complete) w) {n : Nat}
    (hnone : ∀ j < n, (after j ⟨.call c, [], w⟩).outcome? = none)
    (hleveled : ∀ j < n, Policy.leveled.runs (after j ⟨.call c, [], w⟩)) :
    Session .leveled
      ((after n ⟨.call c, [], w⟩).on (.sender ⟨sender, suspended⟩ .complete :: m.waiting)) held := by
  rw [← after_callOut hrun hstep hnone]
  refine h.after fun i hi => ?_
  cases i with
  | zero => exact hruns
  | succ i =>
    have hi : i < n := Nat.lt_of_succ_lt_succ hi
    rw [after_callOut hrun hstep fun j hj => hnone j (Nat.lt_trans hj hi)]
    exact hleveled i hi

theorem recovers (h : Session .leveled m held) (hruns : Policy.leveled.runs m)
    {a : Activation} (hrun : m.control = .run ⟨a, suspended⟩)
    (hstep : a.step m.world = .ok (.callOut sender c .complete) w) :
    m.Recovers sender suspended ⟨.call c, [], w⟩ := by
  let handler : Machine := ⟨.call c, [], w⟩
  refine ⟨fun n hnone => after_callOut hrun hstep hnone, fun n x hnone hleveled ho => ?_⟩
  have hafter := after_callOut hrun hstep hnone
  have hsession (j : Nat) (hj : j ≤ n) :=
    session_callOut h hruns hrun hstep (fun i hi => hnone i (Nat.lt_of_lt_of_le hi hj))
      fun i hi => hleveled i (Nat.lt_of_lt_of_le hi hj)
  have hm := h.sound Policy.leveled_keeps
  obtain ⟨control, waiting, w₀⟩ := m
  cases hrun
  obtain ⟨hw, -⟩ := hm
  -- The handler hands its value to the activation of the block, which is retired with it.
  have hlast := ((hsession n (Nat.le_refl n)).sound Policy.leveled_keeps).step fun loop hloop => by
    rw [on_of_outcome ho] at hloop
    cases hloop
  have hdone : after (n + 2) ⟨.run ⟨a, suspended⟩, waiting, w₀⟩ =
      ⟨.finish ⟨sender, suspended⟩ (.ok x), waiting, (handler.after n).world⟩ := by
    rw [after_succ, hafter, on_of_outcome ho]
    rfl
  rw [on_of_outcome ho] at hlast
  generalize hu : (handler.after n).world = u at *
  obtain ⟨hretired, hmarkers⟩ := retire_marked sender (.ok x) u
  have hwaits := World.Waits.retired hlast.1 hretired hmarkers
  have hreceives : after (n + 3) ⟨.run ⟨a, suspended⟩, waiting, w₀⟩ =
      homeward suspended x waiting (sender.retire (.ok x) u).2 := by
    rw [after_succ, hdone]
    change finish _ _ _ _ = _
    rw [Footing.finish_eq]
    cases suspended <;> rfl
  generalize (sender.retire (.ok x) u).2 = w₂ at *
  refine ⟨hdone, ?_, fun k => ?_⟩
  · rw [hreceives]
    refine homeward_received hwaits fun b hb => ?_
    have hp := hw.stack.placed b (List.mem_cons_of_mem a hb)
    have hmoved := (Activation.step_brings (hw.stack.placed a List.mem_cons_self).held).of_ok hstep
    have hleaves : w₀.Leaves b.marker w₂ := by
      refine .trans (.of_moved hmoved.leads.moved (World.Stacked.marker_ne hw.stack hb)) ?_
      refine .trans ?_ (.of_frames hretired.frames)
      rw [← hu]
      refine leaves_below (m := handler) (fun j hj => (hsession j hj).sound Policy.leveled_keeps)
        hnone (List.mem_cons_of_mem sender ?_)
      exact hb
    obtain ⟨-, hops, hcode⟩ := hleaves b.method b.handle hp.held
    refine ⟨hops, fun hroom => ?_⟩
    rw [Activation.HasRoom] at hroom ⊢
    rw [hops, ← (hwaits.stack.placed b hb).code, hcode, hp.code]
    exact hroom
  · rw [hreceives, World.isLive, homeward_markers, ← World.isLive]
    exact hwaits.stack.live k

/-- The next step sends one `escapedBlock:`, with the block that runs, to the receiver in the frame
`r`. The answer to the message is that of the block; if it cannot even be sent, the block fails. -/
def ReportsEscape (m : Machine) (a : Activation) (suspended : List Activation) (r : FrameRef) :
    Prop :=
  ∃ b receiver selector w, (a.handle.frame m.world).Runs a.method b ∧
    (m.world.frames.get r).read .arguments 0 = .ok receiver ∧
    selector.name = "escapedBlock:" ∧ m.world.CountsEscape w ∧
    match Action.dispatch receiver selector [.block b] w with
    | .ok c w' => ∃ sender, sender.marker = a.marker ∧ sender.method = a.method ∧
        m.Recovers sender suspended ⟨.call c, [], w'⟩
    | .error f w' => m.step = ⟨.finish ⟨a, suspended⟩ (.error (.fault f)), m.waiting, w'⟩

end Machine

/-- A block that returns after its home is over reports that to the receiver of its home, and nothing
unwinds. -/
theorem Session.escape_recovers {held : List Grant} {m : Machine} (h : Session .leveled m held)
    {a : Activation} {suspended : List Activation} (hrun : m.control = .run ⟨a, suspended⟩)
    {v : Value} {r : FrameRef} (hesc : m.Escaping a v r) :
    m.ReportsEscape a suspended r := by
  obtain ⟨hfetch, hblock, htop, ⟨n, hfollow⟩, hlevel, hgone⟩ := hesc
  obtain ⟨left, hops⟩ := List.getLast?_eq_some_iff.mp htop
  have hm := h.sound Policy.leveled_keeps
  have hmem : a ∈ m.activations := by
    simp only [Machine.activations, Machine.loops, hrun]
    exact List.mem_cons_self
  have hp := hm.stacked.placed a hmem
  obtain ⟨outer, -, hencloses⟩ := Activation.encloses_of_placed hp
  have hroot : (m.world.frames.get r).code.isBlock = false :=
    Code.isBlock_eq_false_iff.mpr (by rw [hlevel]; rfl)
  have hdead : m.world.frameIsLive r = false := by
    rw [Bool.eq_false_iff]
    intro hlive
    obtain ⟨b, hb, hmarker⟩ := (hm.stacked.live _).mp hlive
    exact hgone b hb hmarker
  obtain ⟨b, sender, receiver, selector, w, hself, hmarker, hmethod, hreceiver, hname, hcounts,
    hstep⟩ := Activation.step_escapes hm.stacked.sound hp hfetch hblock hops hfollow
      (hencloses.lt_of_follow hfollow) hroot hdead
  refine ⟨b, receiver, selector, w, hself, hreceiver, hname, hcounts, ?_⟩
  cases hd : Action.dispatch receiver selector [.block b] w with
  | error f w' =>
    rw [hd] at hstep
    simp only [Machine.step, Machine.advance, hrun, hstep]
  | ok c w' =>
    rw [hd] at hstep
    refine ⟨sender, hmarker, hmethod, Machine.recovers h ?_ hrun hstep⟩
    rintro loop i hloop hi area index level rfl
    rw [hrun] at hloop
    cases hloop
    rw [hfetch] at hi
    cases hi

/-- A method that evaluates a block of another method, which is over, and one that answers for the
block. -/
def belated : List Source :=
  [.method "make" [.pushBlock (.block 0 [.pushConstant (.boolean true), .returnNonLocal]),
     .returnLocal],
   .method "escapedBlock:" [.pushConstant (.integer 7), .returnLocal],
   .method "late" [.pushSlot .arguments 0 0, .send "make", .send "value", .returnLocal]]

set_option maxRecDepth 100000 in
theorem Session.escape_recovers_belated :
    ∃ m a suspended v r, Session .leveled m [] ∧ m.control = .run ⟨a, suspended⟩ ∧
      m.Escaping a v r ∧ suspended ≠ [] ∧ (m.after 9).outcome? = some (.ok (.integer 7)) ∧
      m.ReportsEscape a suspended r := by
  let w : World := (Source.installed? CoreClass.nil.ref belated World.standard).getD default
  let c : HostCall := .send .nil "late" []
  let m (n : Nat) : Machine := (c.machine w).after n
  have hrun : ((Source.installed? CoreClass.nil.ref belated World.standard).isSome &&
      (List.range 7).all (fun j => Policy.leveled.runs (m j)) &&
      ((m 7).after 9).outcome? = some (.ok (.integer 7)) && (m 7).next?.any fun p =>
        let w := (m 7).world
        let frame := p.1.current.handle.frame w
        p.2 = .returnNonLocal && !p.1.suspended.isEmpty && (w.code p.1.current.method).isBlock &&
          frame.operands.getLast? = some (.boolean true) &&
          (w.follow 0 frame.outer).any fun r => (w.frames.get r).code.level = 0 &&
            (m 7).activations.all fun b => b.marker ≠ (w.frames.get r).marker) = true := by
    decide +kernel
  simp only [Bool.and_eq_true] at hrun
  obtain ⟨⟨⟨hinstalled, hruns⟩, houtcome⟩, hrun⟩ := hrun
  have hw : Source.installed? CoreClass.nil.ref belated World.standard = some w := by
    obtain ⟨u, hu⟩ := Option.isSome_iff_exists.mp hinstalled
    simp only [w, hu, Option.getD_some]
  have hsession : Session .leveled (m 7) [] :=
    (Session.request (Source.installed_session (.boot World.boot_standard) hw)
      (c := c) ⟨nofun, nofun⟩).after (n := 7) fun j hj => by
        simpa using List.all_eq_true.mp hruns j (List.mem_range.mpr hj)
  generalize m 7 = m' at *
  obtain ⟨⟨loop, i⟩, hnext, hrun⟩ := Option.any_eq_true _ _ |>.mp hrun
  obtain ⟨hcontrol, hfetch⟩ := Machine.next?_eq_some.mp hnext
  simp only [Bool.and_eq_true, decide_eq_true_eq] at hrun
  obtain ⟨⟨⟨⟨rfl, hsuspended⟩, hblock⟩, htop⟩, hhome⟩ := hrun
  obtain ⟨r, hfollow, hr⟩ := Option.any_eq_true _ _ |>.mp hhome
  obtain ⟨hlevel, hgone⟩ := Bool.and_eq_true_iff.mp hr
  have hesc : m'.Escaping loop.current (.boolean true) r := by
    refine ⟨hfetch, hblock, htop, ⟨0, hfollow⟩, of_decide_eq_true hlevel, fun b hb => ?_⟩
    exact of_decide_eq_true (List.all_eq_true.mp hgone b hb)
  refine ⟨m', loop.current, loop.suspended, _, r, hsession, hcontrol, hesc, ?_,
    of_decide_eq_true houtcome, hsession.escape_recovers hcontrol hesc⟩
  intro hnil
  rw [hnil] at hsuspended
  cases hsuspended

end MessageMachine
