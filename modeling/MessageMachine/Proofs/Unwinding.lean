import MessageMachine.Proofs.Leveling
import MessageMachine.Proofs.Suspension

namespace MessageMachine

namespace World

/-- Objects, arrays, globals and the transcript are the same, and so are the arguments and locals that
blocks captured. -/
structure Untouched (w w' : World) : Prop where
  objects : w'.objects = w.objects
  arrays : w'.arrays = w.arrays
  globals : w'.globals = w.globals
  transcript : w'.transcript = w.transcript
  frames : w'.frames.size = w.frames.size
  bindings : ∀ r, (w'.frames.get r).bindings = (w.frames.get r).bindings

variable {w w' w'' : World}

namespace Untouched

theorem trans (h : w.Untouched w') (h' : w'.Untouched w'') : w.Untouched w'' where
  objects := h'.objects.trans h.objects
  arrays := h'.arrays.trans h.arrays
  globals := h'.globals.trans h.globals
  transcript := h'.transcript.trans h.transcript
  frames := h'.frames.trans h.frames
  bindings := fun r => (h'.bindings r).trans (h.bindings r)

theorem of_marked (h : w.Marked w') : w.Untouched w' := by
  rw [h.same]
  exact ⟨rfl, rfl, rfl, rfl, rfl, fun _ => rfl⟩

theorem of_put (a : FrameHandle) {f : Frame} (h : f.bindings = (a.frame w).bindings) :
    w.Untouched (a.put f w).2 := by
  cases a with
  | own g => exact ⟨rfl, rfl, rfl, rfl, rfl, fun _ => rfl⟩
  | shared r =>
    refine ⟨rfl, rfl, rfl, rfl, Arena.size_set _ _ _, fun s => ?_⟩
    simp only [FrameHandle.put, setFrame, Arena.get_set]
    split
    · next heq => rw [h, ← heq.1, FrameHandle.frame]
    · rfl

end Untouched

theorem count_marked (w : World) (f : Counters → Counters) : w.Marked (w.count f) :=
  ⟨rfl, Nat.le_refl _⟩

theorem note_marked (w : World) (e : Event) : w.Marked (w.note e) := by
  unfold note
  split <;> exact ⟨rfl, Nat.le_refl _⟩

theorem Encloses.lt_of_follow {outer : List Shape} {o : Option FrameRef} (h : w.Encloses outer o)
    {n : Nat} {r : FrameRef} (hr : w.follow n o = some r) : r.index < w.frames.size := by
  induction outer generalizing o n with
  | nil =>
    cases h
    cases n <;> cases hr
  | cons s rest ih =>
    obtain ⟨t, rfl, hlt, -, -, hrest⟩ := h
    cases n with
    | zero =>
      cases hr
      exact hlt
    | succ n => exact ih hrest hr

end World

namespace Machine

variable {v : Value} {k : MarkerRef} {m m' m'' : Machine}

/-- A value is on its way to the activation with this marker. -/
def Unwinding (v : Value) (k : MarkerRef) (m : Machine) : Prop :=
  match m.control with
  | .finish _ o | .answer o => o = .error (.nonLocalReturn v k)
  | _ => False

/-- The machine comes to another one while a value is on its way, and nothing changes but markers and
what is counted. -/
def Unwinds (v : Value) (k : MarkerRef) (m m' : Machine) : Prop :=
  ∃ n, m.after n = m' ∧ ∀ j ≤ n, (m.after j).Unwinding v k ∧ m.world.Marked (m.after j).world

theorem Unwinds.refl (h : m.Unwinding v k) : m.Unwinds v k m := by
  refine ⟨0, rfl, fun j hj => ?_⟩
  cases Nat.le_zero.mp hj
  exact ⟨h, rfl, Nat.le_refl _⟩

theorem Unwinds.head (hm : m.Unwinding v k) (hw : m.world.Marked m.step.world)
    (h : m.step.Unwinds v k m') : m.Unwinds v k m' := by
  obtain ⟨n, hn, hall⟩ := h
  refine ⟨n + 1, hn, fun j hj => ?_⟩
  cases j with
  | zero => exact ⟨hm, rfl, Nat.le_refl _⟩
  | succ j =>
    obtain ⟨hj, hmarked⟩ := hall j (Nat.le_of_succ_le_succ hj)
    exact ⟨hj, hw.trans hmarked⟩

theorem Unwinds.trans (h : m.Unwinds v k m') (h' : m'.Unwinds v k m'') : m.Unwinds v k m'' := by
  obtain ⟨n, rfl, hall⟩ := h
  obtain ⟨n', rfl, hall'⟩ := h'
  refine ⟨n + n', after_add m n n', fun j hj => ?_⟩
  by_cases hle : j ≤ n
  · exact hall j hle
  · obtain ⟨i, rfl⟩ := Nat.exists_eq_add_of_le (Nat.le_of_not_le hle)
    obtain ⟨hi, hmarked⟩ := hall' i (Nat.le_of_add_le_add_left hj)
    rw [after_add]
    exact ⟨hi, (hall n (Nat.le_refl n)).2.trans hmarked⟩

theorem unwinds_loop {waiting : List Waiting} (h : waiting.flatMap (·.activations) ≠ [])
    (w : World) :
    ∃ loop ws, loop.activations ++ ws.flatMap (·.activations) = waiting.flatMap (·.activations) ∧
      Unwinds v k ⟨.answer (.error (.nonLocalReturn v k)), waiting, w⟩
        ⟨.finish loop (.error (.nonLocalReturn v k)), ws, w⟩ := by
  induction waiting with
  | nil => exact absurd rfl h
  | cons x rest ih =>
    cases x with
    | sender loop use =>
      refine ⟨loop, rest, rfl, ?_⟩
      cases use <;> exact .head rfl ⟨rfl, Nat.le_refl _⟩ (.refl rfl)
    | iteration i =>
      obtain ⟨loop, ws, hstack, hunwinds⟩ := ih h
      exact ⟨loop, ws, hstack, .head rfl ⟨rfl, Nat.le_refl _⟩ hunwinds⟩

variable {inner outer : List Activation} {home : Activation}

theorem unwinds_home (loop : RunLoop) {waiting : List Waiting} {w : World}
    (hstack : loop.activations ++ waiting.flatMap (·.activations) = inner ++ home :: outer)
    (hinner : ∀ b ∈ inner, b.marker ≠ k) :
    ∃ below ws u, below ++ ws.flatMap (·.activations) = outer ∧
      Unwinds v k ⟨.finish loop (.error (.nonLocalReturn v k)), waiting, w⟩
        ⟨.finish ⟨home, below⟩ (.error (.nonLocalReturn v k)), ws, u⟩ := by
  -- By induction on the activations above the home: the innermost one passes the signal on.
  induction inner generalizing loop waiting w with
  | nil =>
    obtain ⟨current, suspended⟩ := loop
    cases hstack
    exact ⟨suspended, waiting, w, rfl, .refl rfl⟩
  | cons b inner ih =>
    obtain ⟨current, suspended⟩ := loop
    obtain ⟨rfl, hrest⟩ := List.cons.inj hstack
    have hinner' : ∀ b ∈ inner, b.marker ≠ k := fun b hb => hinner b (List.mem_cons_of_mem _ hb)
    have hpass : current.retire (.error (.nonLocalReturn v k)) w =
        (.error (.nonLocalReturn v k), current.left w) := by
      obtain ⟨x, hx, -⟩ | ⟨-, h⟩ := current.retire_cases (.error (.nonLocalReturn v k)) w
      · cases hx
        exact absurd rfl (hinner _ List.mem_cons_self)
      · exact h
    have hleft := left_marked current w
    have hstep : step ⟨.finish ⟨current, suspended⟩ (.error (.nonLocalReturn v k)), waiting, w⟩ = _ :=
      Footing.finish_eq ⟨current, suspended⟩ (.error (.nonLocalReturn v k)) waiting w
    rw [hpass] at hstep
    cases suspended with
    | cons sender rest =>
      obtain ⟨below, ws, u, hout, h⟩ :=
        ih ⟨sender, rest⟩ (w := current.left w) hrest hinner'
      refine ⟨below, ws, u, hout, .head rfl ?_ ?_⟩
      · rw [hstep]
        exact hleft
      · rw [hstep]
        exact h
    -- The loop closes, and the signal goes to those who wait for it.
    | nil =>
      have hne : waiting.flatMap (·.activations) ≠ [] := by
        rw [show waiting.flatMap (·.activations) = inner ++ home :: outer from hrest]
        simp
      obtain ⟨loop, ws₁, hloop, h₁⟩ := unwinds_loop (v := v) (k := k) hne
        { current.left w with reentry := (current.left w).reentry - 1 }
      obtain ⟨below, ws, u, hout, h₂⟩ := ih loop (hloop.trans hrest) hinner'
      refine ⟨below, ws, u, hout, .head rfl ?_ ?_⟩
      · rw [hstep]
        exact hleft.trans ⟨rfl, Nat.le_refl _⟩
      · rw [hstep]
        exact h₁.trans h₂

theorem retire_home {w : World} (hmarker : home.marker = k)
    (hroot : (w.code home.method).isBlock = false) :
    (home.retire (.error (.nonLocalReturn v k)) w).1 = .ok v := by
  subst hmarker
  obtain ⟨x, hx, -, h⟩ | ⟨hpass, -⟩ :=
    home.retire_cases (.error (.nonLocalReturn v home.marker)) w
  · cases hx
    rw [h]
  · have hblock := hpass v rfl
    rw [hroot] at hblock
    cases hblock

theorem handOver_untouched {loop : RunLoop} {w : World} (hp : (loop.current.handle.frame w).Proper)
    (waiting : List Waiting) : w.Untouched (handOver loop (.ok v) waiting w).world := by
  simp only [handOver, deliver, RunLoop.push, FrameHandle.push, Action.bind_apply,
    FrameHandle.modify_apply]
  cases hf : (loop.current.handle.frame w).push v with
  | error e => exact .of_marked ⟨rfl, Nat.le_refl _⟩
  | ok f => exact .of_put _ ((Frame.push_eq_ok hf).2.2.2 hp)

end Machine

namespace Activation

variable {D : Discipline} {a : Activation} {w : World} {left : List Value} {v : Value} {n : Nat}
  {r : FrameRef}

/-- Returning from a block takes the value off the stack. What becomes of it is up to the frame that
the block in argument zero leads to, which is the last one of the contexts. -/
theorem returnNonLocal_apply [D.Guards] (hw : w.Sound D) (ha : a.handle.Placed D a.marker a.method w)
    (hblock : (w.code a.method).isBlock) (hops : (a.handle.frame w).operands = left ++ [v])
    (hfollow : w.follow n (a.handle.frame w).outer = some r) (hr : r.index < w.frames.size)
    (hroot : (w.frames.get r).code.isBlock = false) :
    ∃ b handle w₁, (a.handle.frame w).slots[0]? = some (.block b) ∧ b.code = a.method ∧
      (a.handle.frame w).outer = some b.context ∧ w.Moved a.marker a.method w₁ ∧
      w.Untouched w₁ ∧ w₁.counters = w.counters ∧ (w.frames.get r).Continues (w₁.frames.get r) ∧
      a.returnNonLocal w = (if w₁.isLive (w.frames.get r).marker then do
          Action.count fun n => { n with nonLocalReturns := n.nonLocalReturns + 1 }
          Action.note (.unwinding a.method (w₁.frames.get r).method)
          return .unwind v (w.frames.get r).marker
        else do
          Action.count fun n => { n with escapedBlocks := n.escapedBlocks + 1 }
          let receiver ← (w₁.frames.get r).read .arguments 0
          Action.note (.escaped a.method receiver)
          return .callOut { a with handle } (← Action.escapedBlock receiver (.block b)) .complete :
        Action Effect) w₁ := by
  have hnil : D.Valid w .nil := Discipline.valid_of_no_block rfl
  obtain ⟨x, f, hf⟩ := Frame.pop_of_ne_nil ha.sound.proper (by rw [hops]; simp)
  obtain ⟨-, hpopped, hbindings⟩ := Frame.pop_eq_ok hf
  obtain rfl : x = v := by
    have heq := hpopped ha.sound.proper
    rw [hops] at heq
    exact (List.cons.inj (List.append_inj_right' heq rfl)).1.symm
  have hevolves : (a.handle.frame w).Evolves D.guarded (D.Valid w) f := (Frame.pop_evolves hnil hf).1
  obtain ⟨hp, hframe, hm, hs, hframes⟩ := ha.put hw hevolves
  have huntouched := World.Untouched.of_put a.handle (hbindings ha.sound.proper)
  have hcounters : (a.handle.put f w).2.counters = w.counters := by cases a.handle <;> rfl
  have hpop : a.handle.pop w = .ok (x, (a.handle.put f w).1) (a.handle.put f w).2 := by
    rw [FrameHandle.pop, FrameHandle.take_apply, hf]
  generalize (a.handle.put f w).1 = handle at hp hframe hpop
  generalize (a.handle.put f w).2 = w₁ at hp hframe hm hs hframes huntouched hcounters hpop
  have hcode : w₁.code a.method = w.code a.method := by rw [World.code, hm.codes, World.code]
  have hb : (handle.frame w₁).code.isBlock := by rw [hp.code, hcode, hblock]
  obtain ⟨b, home, hbcode, houter, hself, hhome, hlt, hmethod⟩ := hp.sound.home hb
  have hslot : (handle.frame w₁).slots[0]? = some (.block b) := hself Discipline.Guards.guards
  have hread := Frame.read_self hslot
  have hcontext := World.outerContext_of_follow hhome
  -- The frame that argument zero leads to is the one at the end of the links.
  obtain rfl : home = r := by
    rw [← World.follow_continues hframes, ← hevolves.outer, ← hframe] at hfollow
    refine World.follow_end hhome ((hs.frames home hlt).root hmethod).2 hfollow ?_
    rw [(hframes r).outer]
    exact ((hw.frames r hr).root hroot).2
  rw [hframe] at hslot houter
  have hslots : (a.handle.frame w).slots[0]? = some (.block b) :=
    (Frame.self_of_bindings (hbindings ha.sound.proper)).symm.trans hslot
  refine ⟨b, handle, w₁, hslots, hbcode.trans hp.method, hevolves.outer.symm.trans houter, hm,
    huntouched, hcounters, hframes home, ?_⟩
  simp only [returnNonLocal, Action.bind_apply, hpop, Action.get_apply, hcode, hblock,
    Bool.not_true, Bool.false_eq_true, if_false, hread, hcontext, Action.lift_ok,
    (hframes home).marker]

theorem returnNonLocal_unwinds [D.Guards] (hw : w.Sound D) (ha : a.handle.Placed D a.marker a.method w)
    (hblock : (w.code a.method).isBlock) (hops : (a.handle.frame w).operands = left ++ [v])
    (hfollow : w.follow n (a.handle.frame w).outer = some r) (hr : r.index < w.frames.size)
    (hroot : (w.frames.get r).code.isBlock = false) (hlive : w.frameIsLive r) :
    ∃ w', a.returnNonLocal w = .ok (.unwind v (w.frames.get r).marker) w' ∧ w.Untouched w' := by
  obtain ⟨b, handle, w₁, -, -, -, hm, huntouched, -, -, heq⟩ :=
    returnNonLocal_apply hw ha hblock hops hfollow hr hroot
  have hlive' : w₁.isLive (w.frames.get r).marker := by
    rwa [World.isLive, hm.markers]
  rw [heq, if_pos hlive']
  refine ⟨_, rfl, huntouched.trans (.of_marked ?_)⟩
  exact (World.count_marked w₁ _).trans (World.note_marked _ _)

theorem step_unwinds [D.Guards] (hw : w.Sound D) (ha : a.handle.Placed D a.marker a.method w)
    (hfetch : a.fetch w = .ok .returnNonLocal) (hblock : (w.code a.method).isBlock)
    (hops : (a.handle.frame w).operands = left ++ [v])
    (hfollow : w.follow n (a.handle.frame w).outer = some r) (hr : r.index < w.frames.size)
    (hroot : (w.frames.get r).code.isBlock = false) (hlive : w.frameIsLive r) :
    ∃ w', a.step w = .ok (.unwind v (w.frames.get r).marker) w' ∧ w.Untouched w' := by
  have hs := a.traced_still .returnNonLocal w
  have hm : w.Marked (a.traced .returnNonLocal w) := by
    unfold traced
    split
    · exact w.note_marked _
    · exact ⟨rfl, Nat.le_refl _⟩
  have hw' := traced_sound (a := a) hw .returnNonLocal
  rw [step_eq hfetch]
  generalize a.traced .returnNonLocal w = w' at hs hm hw' ⊢
  rw [← a.handle.frame_congr hs.frames] at hops hfollow
  rw [← World.follow_congr hs.frames] at hfollow
  rw [World.code, ← hs.codes] at hblock
  rw [← hs.frames] at hr hroot ⊢
  rw [World.frameIsLive, World.isLive, ← hs.markers, ← hs.frames] at hlive
  have hreturn := returnNonLocal_unwinds (a := { a with offset := a.offset + 1 }) hw' (ha.still hs)
    hblock hops hfollow hr hroot hlive
  obtain ⟨w'', hstep, huntouched⟩ := hreturn
  exact ⟨w'', hstep, .trans (.of_marked hm) huntouched⟩

end Activation

/-- A value was handed to the sender below in the loop, which goes on with it. If there is none, it was
answered to those who wait for the loop, and if that is a sender it goes on with it next, as long as
it has room. The senders have the operands that they had in the world `w`. -/
def Machine.Received (v : Value) (below : List Activation) (waiting : List Waiting) (w : World)
    (m : Machine) : Prop :=
  match below with
  | sender :: rest => m.Resumed sender rest waiting (sender.handle.frame w).operands (.ok v)
  | [] => (∃ u, m = ⟨.answer (.ok v), waiting, u⟩) ∧
    ∀ loop outer, waiting = .sender loop .push :: outer → loop.current.HasRoom w →
      m.step.Resumed loop.current loop.suspended outer (loop.current.handle.frame w).operands (.ok v)

/-- A value comes home in `count` steps. On the way it ends every activation above its home, and
nothing is run, sent or changed. The home has it for its result, and whoever waits for the home
receives it. -/
structure Machine.ComesHome (m : Machine) (v : Value) (home : Activation)
    (below : List Activation) (waiting : List Waiting) (count : Nat) : Prop where
  stack : ∃ above, m.activations = above ++ home :: (below ++ waiting.flatMap (·.activations))
  unwinds : ∀ j, 0 < j → j ≤ count → (m.after j).Unwinding v home.marker
  untouched : ∀ j ≤ count + 1, m.world.Untouched (m.after j).world
  completes : ∃ w, m.after count =
      ⟨.finish ⟨home, below⟩ (.error (.nonLocalReturn v home.marker)), waiting, w⟩ ∧
    (home.retire (.error (.nonLocalReturn v home.marker)) w).1 = .ok v
  received : (m.after (count + 1)).Received v below waiting m.world
  live : ∀ k, (m.after (count + 1)).world.isLive k ↔
    ∃ b ∈ below ++ waiting.flatMap (·.activations), b.marker = k
  dead : ∀ k, home.marker.index ≤ k.index → (m.after (count + 1)).world.isLive k = false

namespace Machine

variable {D : Discipline} {C : Contract D} {held : List Grant} {home sender : Activation}
  {below rest : List Activation} {waiting : List Waiting} {v : Value} {k : MarkerRef} {w u : World}
  {m m' : Machine}

theorem Unwinds.sound (h : m.Unwinds v k m') (hm : m.Sound C held) : m'.Sound C held := by
  obtain ⟨n, rfl, hall⟩ := h
  induction n with
  | zero => exact hm
  | succ n ih =>
    rw [after_succ]
    refine Sound.step (ih fun j hj => hall j (Nat.le_succ_of_le hj)) fun loop hrun => ?_
    have hn := (hall n n.le_succ).1
    rw [Unwinding, hrun] at hn
    exact hn.elim

theorem Sound.unwinds_home [D.Guards] {loop : RunLoop}
    (hm : Sound C held ⟨.finish loop (.error (.nonLocalReturn v k)), waiting, w⟩) :
    ∃ home above below ws u, home.marker = k ∧ (u.code home.method).isBlock = false ∧
      loop.activations ++ waiting.flatMap (·.activations) =
        above ++ home :: (below ++ ws.flatMap (·.activations)) ∧
      Unwinds v k ⟨.finish loop (.error (.nonLocalReturn v k)), waiting, w⟩
        ⟨.finish ⟨home, below⟩ (.error (.nonLocalReturn v k)), ws, u⟩ ∧
      u.Waits C held [home] below ws := by
  have ⟨hw, _, hhome⟩ := hm
  obtain ⟨home, hmem, hmarker, hmethod⟩ := hhome Discipline.Guards.guards
  subst hmarker
  obtain ⟨above, outer, hstack⟩ := List.append_of_mem hmem
  -- Markers descend, so no activation above the home has its marker.
  have habove : ∀ b ∈ above, b.marker ≠ home.marker := by
    have hless := hw.stack.descending
    rw [List.singleton_append, hstack] at hless
    intro b hb heq
    have hlt := (List.pairwise_append.mp hless).2.2 b hb home List.mem_cons_self
    rw [heq] at hlt
    exact Nat.lt_irrefl _ hlt
  obtain ⟨below, ws, u, rfl, hunwinds⟩ := Machine.unwinds_home (v := v) loop (w := w) hstack
    habove
  refine ⟨home, above, below, ws, u, rfl, ?_, hstack, hunwinds, (hunwinds.sound hm).1⟩
  obtain ⟨n, hn, hall⟩ := hunwinds
  have hmarked := (hall n (Nat.le_refl n)).2
  rw [hn] at hmarked
  rw [World.code, hmarked.codes]
  exact hmethod

def homeward (below : List Activation) (v : Value) (waiting : List Waiting) (w : World) : Machine :=
  match below with
  | [] => ⟨.answer (.ok v), waiting, { w with reentry := w.reentry - 1 }⟩
  | sender :: rest => handOver ⟨sender, rest⟩ (.ok v) waiting w

theorem finish_home (hmarker : home.marker = k) (hroot : (u.code home.method).isBlock = false) :
    step ⟨.finish ⟨home, below⟩ (.error (.nonLocalReturn v k)), waiting, u⟩ =
      homeward below v waiting (home.retire (.error (.nonLocalReturn v k)) u).2 := by
  change Machine.finish _ _ _ _ = _
  rw [Footing.finish_eq, retire_home hmarker hroot]
  rfl

theorem handOver_markers (loop : RunLoop) (v : Value) (waiting : List Waiting) (w : World) :
    (handOver loop (.ok v) waiting w).world.markers = w.markers := by
  simp only [handOver, deliver, RunLoop.push, FrameHandle.push, Action.bind_apply,
    FrameHandle.modify_apply]
  cases loop.current.handle.frame w |>.push v with
  | error e => rfl
  | ok f => cases loop.current.handle <;> rfl

theorem homeward_markers (below : List Activation) (v : Value) (waiting : List Waiting) (w : World) :
    (homeward below v waiting w).world.markers = w.markers := by
  cases below with
  | nil => rfl
  | cons sender rest => exact handOver_markers _ v waiting w

theorem homeward_untouched (h : w.Waits C held [] below waiting) :
    w.Untouched (homeward below v waiting w).world := by
  cases below with
  | nil => exact .of_marked ⟨rfl, Nat.le_refl _⟩
  | cons sender rest =>
    exact handOver_untouched (h.stack.placed sender List.mem_cons_self).sound.proper waiting

theorem handOver_hasRoom (hp : sender.handle.Placed D sender.marker sender.method u)
    (hroom : sender.HasRoom u)
    (hops : (sender.handle.frame u).operands = (sender.handle.frame w).operands) (v : Value) :
    (handOver ⟨sender, rest⟩ (.ok v) waiting u).Resumed sender rest waiting
      (sender.handle.frame w).operands (.ok v) := by
  rw [Activation.HasRoom, ← hp.code] at hroom
  rw [← hops]
  exact handOver_resumed hp.held hroom v

theorem homeward_received (h : u.Waits C held [] below waiting)
    (hops : ∀ b ∈ below ++ waiting.flatMap (·.activations),
      (b.handle.frame u).operands = (b.handle.frame w).operands ∧ (b.HasRoom w → b.HasRoom u)) :
    (homeward below v waiting u).Received v below waiting w := by
  cases below with
  | cons sender rest =>
    obtain ⟨hsame, -⟩ := hops sender List.mem_cons_self
    exact handOver_hasRoom (h.stack.placed sender List.mem_cons_self)
      (h.room sender List.mem_cons_self) hsame v
  | nil =>
    refine ⟨⟨_, rfl⟩, ?_⟩
    rintro loop outer rfl hroom
    obtain ⟨hsame, hkeeps⟩ := hops loop.current List.mem_cons_self
    have hleft : u.Marked { u with reentry := u.reentry - 1 } := ⟨rfl, Nat.le_refl _⟩
    have hp := (h.stack.placed loop.current List.mem_cons_self).marked hleft
    have hstep : step (homeward [] v (.sender loop .push :: outer) u) =
        handOver loop (.ok v) outer { u with reentry := u.reentry - 1 } :=
      answer_handOver loop (.ok v) outer _
    rw [hstep]
    exact handOver_hasRoom hp (hkeeps hroom) hsame v

theorem advance_comes_home [D.Guards] {a : Activation} {suspended : List Activation}
    (hm : Sound C held ⟨.run ⟨a, suspended⟩, waiting, w⟩) {w₁ : World}
    (hnext : step ⟨.run ⟨a, suspended⟩, waiting, w⟩ =
      ⟨.finish ⟨a, suspended⟩ (.error (.nonLocalReturn v k)), waiting, w₁⟩)
    (hm₁ : Sound C held ⟨.finish ⟨a, suspended⟩ (.error (.nonLocalReturn v k)), waiting, w₁⟩)
    (hmoved : w.Moved a.marker a.method w₁) (huntouched : w.Untouched w₁) :
    ∃ home below ws count, home.marker = k ∧
      ComesHome ⟨.run ⟨a, suspended⟩, waiting, w⟩ v home below ws count := by
  obtain ⟨home, above, below, ws, u, rfl, hmethod, hstack, ⟨n, hn, hall⟩, hu⟩ :=
    hm₁.unwinds_home
  have hmarked := (hall n (Nat.le_refl n)).2
  rw [hn] at hmarked
  obtain ⟨hretired, hmarkers⟩ := retire_marked home (.error (.nonLocalReturn v home.marker)) u
  have hdone : after (n + 2) ⟨.run ⟨a, suspended⟩, waiting, w⟩ =
      homeward below v ws (home.retire (.error (.nonLocalReturn v home.marker)) u).2 := by
    rw [after_succ, after, hnext, hn, finish_home rfl hmethod]
  generalize (home.retire (.error (.nonLocalReturn v home.marker)) u).2 = w₂ at *
  have hwaits := hu.retired hretired hmarkers
  have hlive (k : MarkerRef) : (homeward below v ws w₂).world.isLive k ↔
      ∃ b ∈ below ++ ws.flatMap (·.activations), b.marker = k := by
    rw [World.isLive, homeward_markers, ← World.isLive]
    exact hwaits.stack.live k
  refine ⟨home, below, ws, n + 1, rfl, ?_⟩
  constructor
  case stack =>
    rw [← activations_snapshot]
    exact ⟨above, hstack⟩
  case unwinds =>
    intro j hpos hj
    obtain ⟨j, rfl⟩ := Nat.exists_eq_add_one_of_ne_zero (Nat.ne_of_gt hpos)
    rw [after, hnext]
    exact (hall j (Nat.le_of_succ_le_succ hj)).1
  case untouched =>
    intro j hj
    obtain hj | rfl := Nat.lt_or_eq_of_le hj
    · cases j with
      | zero => exact .of_marked ⟨rfl, Nat.le_refl _⟩
      | succ j =>
        rw [after, hnext]
        exact huntouched.trans (.of_marked (hall j (by omega)).2)
    · rw [hdone]
      exact huntouched.trans (.trans (.of_marked (hmarked.trans hretired))
        (homeward_untouched hwaits))
  case completes =>
    refine ⟨u, ?_, retire_home rfl hmethod⟩
    rw [after, hnext, hn]
  case received =>
    rw [hdone]
    refine homeward_received hwaits fun b hb => ?_
    have hmem : b ∈ suspended ++ waiting.flatMap (·.activations) := by
      cases above with
      | nil =>
        have hrest : suspended ++ waiting.flatMap (·.activations) = _ := (List.cons.inj hstack).2
        rw [hrest]
        exact hb
      | cons c above =>
        have hrest : suspended ++ waiting.flatMap (·.activations) = _ := (List.cons.inj hstack).2
        rw [hrest]
        exact List.mem_append_right _ (List.mem_cons_of_mem _ hb)
    have hops : (b.handle.frame w₂).operands = (b.handle.frame w).operands := by
      rw [b.handle.frame_congr (hretired.frames.trans hmarked.frames)]
      exact World.Stacked.operands hm.1.stack hmoved hmem
    refine ⟨hops, fun hroom => ?_⟩
    exact hroom.mono (hm.1.stack.placed b (List.mem_cons_of_mem a hmem))
      (hmoved.extended.trans (hmarked.trans hretired).extended) hops
  case live =>
    rw [hdone]
    exact hlive
  case dead =>
    intro k hk
    rw [hdone, Bool.eq_false_iff]
    intro hl
    obtain ⟨b, hb, rfl⟩ := (hlive k).mp hl
    exact Nat.not_lt.mpr hk (List.rel_of_pairwise_cons hu.stack.descending hb)

end Machine

/-- A running activation of a block is about to return this value to the activation of the method that
the block is in, which is live. The frame of the method is the last one that links lead to. -/
structure Activation.Returning (a : Activation) (w : World) (v : Value) (r : FrameRef) : Prop where
  fetches : a.fetch w = .ok .returnNonLocal
  block : (w.code a.method).isBlock
  top : (a.handle.frame w).operands.getLast? = some v
  home : ∃ n, w.follow n (a.handle.frame w).outer = some r
  level : (w.frames.get r).code.level = 0
  live : w.frameIsLive r

/-- A return from a block whose home is still running reaches that home. -/
theorem Session.comes_home {held : List Grant} {m : Machine} (h : Session .leveled m held)
    {a : Activation} {suspended : List Activation} (hrun : m.control = .run ⟨a, suspended⟩)
    {v : Value} {r : FrameRef} (hret : a.Returning m.world v r) :
    ∃ home below waiting count, home.marker = (m.world.frames.get r).marker ∧
      m.ComesHome v home below waiting count := by
  obtain ⟨control, waiting, w⟩ := m
  cases hrun
  obtain ⟨hfetch, hblock, htop, ⟨n, hfollow⟩, hlevel, hlive⟩ := hret
  obtain ⟨left, hops⟩ := List.getLast?_eq_some_iff.mp htop
  have hm := h.sound Policy.leveled_keeps
  have hp := hm.1.stack.placed a List.mem_cons_self
  obtain ⟨outer, -, hencloses⟩ := Activation.encloses_of_placed hp
  have hroot : (w.frames.get r).code.isBlock = false :=
    Code.isBlock_eq_false_iff.mpr (by rw [hlevel]; rfl)
  obtain ⟨w₁, hstep, huntouched⟩ := Activation.step_unwinds hm.1.stack.sound hp hfetch hblock hops
    hfollow (hencloses.lt_of_follow hfollow) hroot hlive
  have hnext : Machine.step ⟨.run ⟨a, suspended⟩, waiting, w⟩ =
      ⟨.finish ⟨a, suspended⟩ (.error (.nonLocalReturn v (w.frames.get r).marker)), waiting, w₁⟩ := by
    simp only [Machine.step, Machine.advance, hstep]
  have hruns : Policy.leveled.runs ⟨.run ⟨a, suspended⟩, waiting, w⟩ := by
    rintro _ i ⟨⟩ hi area index level rfl
    rw [hfetch] at hi
    cases hi
  have hm₁ := (Session.step h hruns).sound Policy.leveled_keeps
  rw [hnext] at hm₁
  exact Machine.advance_comes_home hm hnext hm₁ ((Activation.step_brings hp.held).of_ok hstep)
    huntouched

set_option maxRecDepth 100000 in
theorem Session.comes_home_nested :
    ∃ m a suspended v r, Session .leveled m [] ∧ m.control = .run ⟨a, suspended⟩ ∧
      a.Returning m.world v r ∧ m.waiting ≠ [] ∧
      ∃ home below waiting count, home.marker = (m.world.frames.get r).marker ∧
        m.ComesHome v home below waiting count := by
  let m (n : Nat) : Machine :=
    ((HostCall.invoke (.compiled nested.standard.1) .nil []).machine nested.standard.2).after n
  have hrun : (nested.standalone && (List.range 8).all (fun j => Policy.leveled.runs (m j)) &&
      !(m 8).waiting.isEmpty && (m 8).next?.any fun p =>
        let w := (m 8).world
        let frame := p.1.current.handle.frame w
        p.2 = .returnNonLocal && (w.code p.1.current.method).isBlock &&
          frame.operands.getLast? = some (.boolean true) &&
          (w.follow 1 frame.outer).any fun r => (w.frames.get r).code.level = 0 && w.frameIsLive r) =
      true := by decide +kernel
  simp only [Bool.and_eq_true] at hrun
  obtain ⟨⟨⟨hstandalone, hruns⟩, hwaiting⟩, hrun⟩ := hrun
  have hsession : Session .leveled (m 8) [] :=
    (Session.request (Source.standalone_session hstandalone)
      (Source.standalone_allowed hstandalone)).after (n := 8) fun j hj => by
        simpa using List.all_eq_true.mp hruns j (List.mem_range.mpr hj)
  generalize m 8 = m' at *
  obtain ⟨⟨loop, i⟩, hnext, hrun⟩ := Option.any_eq_true _ _ |>.mp hrun
  obtain ⟨hcontrol, hfetch⟩ := Machine.next?_eq_some.mp hnext
  simp only [Bool.and_eq_true, decide_eq_true_eq] at hrun
  obtain ⟨⟨⟨rfl, hblock⟩, htop⟩, hhome⟩ := hrun
  obtain ⟨r, hfollow, hr⟩ := Option.any_eq_true _ _ |>.mp hhome
  obtain ⟨hlevel, hlive⟩ := Bool.and_eq_true_iff.mp hr
  have hret : loop.current.Returning m'.world (.boolean true) r :=
    ⟨hfetch, hblock, htop, ⟨1, hfollow⟩, of_decide_eq_true hlevel, hlive⟩
  refine ⟨m', loop.current, loop.suspended, _, r, hsession, hcontrol, hret, ?_,
    hsession.comes_home hcontrol hret⟩
  intro hnil
  rw [hnil] at hwaiting
  cases hwaiting

end MessageMachine
