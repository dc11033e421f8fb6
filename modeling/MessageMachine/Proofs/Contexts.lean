import MessageMachine.Proofs.Changing
import MessageMachine.Proofs.Leveling

namespace MessageMachine

variable {held : List Grant} {w w' : World} {f : Frame} {D : Discipline} {C : Contract D}

/-- Runs of any code. It may overwrite the blocks that it runs, so any fault may end it and returns may
escape. -/
def Contract.linked : Contract (.linked False) where
  faults _ := True
  counts _ _ _ _ := True
  program := fun _ _ => trivial
  guards := .inr fun _ => trivial
  mono := fun _ _ => id
  start := fun _ _ => trivial
  room := .inl fun _ _ => trivial

/-- A host may add any bodies, install and call those of level zero, and run any machine. -/
def Policy.linked : Policy := { Policy.leveled with runs := fun _ => True }

theorem Policy.linked_keeps : Policy.linked.Keeps Contract.linked where
  boot := World.boot_sound (D := .linked False)
    fun h => ⟨h.lt, Code.isBlock_eq_false_iff.mpr h.level⟩
  adds := Adds.sound
  calls := fun hcalls _ _ => Discipline.linked_known hcalls
  runs := by
    rintro ⟨control, waiting, w⟩ held loop hm - hrun
    cases hrun
    have hp := hm.1.stack.placed _ List.mem_cons_self
    exact ⟨.inl fun _ _ => trivial, fun _ _ => .inl fun _ _ => trivial, nofun,
      fun i _ => Activation.nests_linked hp i, fun _ _ _ _ => trivial⟩

/-- The value that an outcome brings. A fault brings none; those that it names are there for its
wording. -/
def Outcome.Brings : Outcome → Value → Prop
  | .ok v, x | .error (.nonLocalReturn v _), x => x = v
  | .error (.fault _), _ => False

def Iteration.blocks : Iteration → List Block
  | testing t b _ | repeating t b _ => [t, b]
  | counting b _ _ _ => [b]

namespace Machine

/-- The frames of a machine: those that blocks captured, and those of all activations. -/
inductive HasFrame (m : Machine) : Frame → Prop where
  | captured {r : FrameRef} (h : r.index < m.world.frames.size) : m.HasFrame (m.world.frames.get r)
  | active {a : Activation} (h : a ∈ m.activations) : m.HasFrame (a.handle.frame m.world)

/-- The values that there are in a machine and those that its host was given. -/
inductive HasValue (m : Machine) (held : List Grant) : Value → Prop where
  | stored {v : Value} (h : m.world.Stores v) : m.HasValue held v
  | literal {r : CodeRef} {v : Value} (h : v ∈ (m.world.code r).literals) : m.HasValue held v
  | slot {f : Frame} {v : Value} (hf : m.HasFrame f) (h : v ∈ f.slots) : m.HasValue held v
  | argument {c : Call} {v : Value} (hc : m.control = .call c) (h : v ∈ c.args) : m.HasValue held v
  | finished {loop : RunLoop} {o : Outcome} {v : Value} (ho : m.control = .finish loop o)
      (h : o.Brings v) : m.HasValue held v
  | answered {o : Outcome} {v : Value} (ho : m.control = .answer o) (h : o.Brings v) :
      m.HasValue held v
  | looping {i : Iteration} {b : Block} (hi : .iteration i ∈ m.waiting) (h : b ∈ i.blocks) :
      m.HasValue held (.block b)
  | given {v : Value} (h : .value v ∈ held) : m.HasValue held v

namespace Sound

variable {m : Machine}

theorem stacked (h : m.Sound C held) : m.world.Stacked D m.activations := by
  rw [← activations_snapshot]
  obtain ⟨control, waiting, w⟩ := m
  cases control with
  | run | finish | call | answer => exact h.1.stack

theorem frame (h : m.Sound C held) (hf : m.HasFrame f) : f.Sound D m.world := by
  cases hf with
  | captured hr => exact h.world.frames _ hr
  | active ha => exact (h.stacked.placed _ ha).sound

theorem waits (h : m.Sound C held) :
    ∃ running suspended, m.world.Waits C held running suspended m.waiting := by
  obtain ⟨control, waiting, w⟩ := m
  cases control with
  | run | finish | call | answer => exact ⟨_, _, h.1⟩

end Sound

end Machine

theorem Outcome.Sound.valid {o : Outcome} {as : List Activation} {v : Value} (h : o.Sound C w as)
    (hv : o.Brings v) : D.Valid w v := by
  match o with
  | .ok _ =>
    cases hv
    exact h
  | .error (.nonLocalReturn _ _) =>
    cases hv
    exact h.1

theorem Iteration.Holds.block {i : Iteration} {good : Value → Prop} {b : Block} (h : i.Holds good)
    (hb : b ∈ i.blocks) : good (.block b) := by
  cases i with
  | testing t body sense | repeating t body sense =>
    rcases List.mem_cons.mp hb with rfl | hb
    · exact h.1
    · cases List.mem_singleton.mp hb
      exact h.2
  | counting body start current limit =>
    cases List.mem_singleton.mp hb
    exact h

theorem Machine.Sound.value {m : Machine} (h : m.Sound C held) {v : Value}
    (hv : m.HasValue held v) : D.Valid m.world v := by
  obtain ⟨running, suspended, hw⟩ := h.waits
  cases hv with
  | stored hv => exact hv.valid h.world
  | literal hv => exact h.world.literals _ v hv
  | slot hf hv => exact (h.frame hf).slots v hv
  | looping hi hb => exact (hw.iterations _ hi).block hb
  | given hv => exact hw.held _ hv
  | argument hc hv =>
    obtain ⟨control, waiting, w⟩ := m
    cases hc
    exact h.2.2 v hv
  | finished ho hv | answered ho hv =>
    obtain ⟨control, waiting, w⟩ := m
    cases ho
    exact h.2.valid hv

namespace World

def level (w : World) (f : Frame) : Nat := (w.code f.method).level.toNat

/-- The frame this many links outward of a frame. -/
def outward (w : World) (f : Frame) : Nat → Option Frame
  | 0 => some f
  | links + 1 => (w.follow links f.outer).map w.frames.get

/-- A block has the level of its body, which is one more than that of the frame it captured. -/
structure Captures (w : World) (b : Block) : Prop where
  code_lt : b.code.index < w.codes.size
  context_lt : b.context.index < w.frames.size
  code : b.level = (w.code b.code).level
  context : b.level.toNat = w.level (w.frames.get b.context) + 1

/-- A frame has as many links outward as its level says, and each leads one level down. -/
structure Linked (w : World) (f : Frame) : Prop where
  links : ∀ {k : Nat}, (w.follow k f.outer).isSome ↔ k < w.level f
  captured : ∀ {k : Nat} {r : FrameRef}, w.follow k f.outer = some r →
    r.index < w.frames.size ∧ w.level (w.frames.get r) + (k + 1) = w.level f

/-- The receiver of a frame is the first argument of the method's frame that its links end in. -/
structure Receives (w : World) (f : Frame) (v : Value) : Prop where
  home : ∃ home, w.outward f (w.level f) = some home ∧ w.level home = 0 ∧
    home.read .arguments 0 = .ok v
  receiver : w.receiver f = .ok v

theorem Encloses.follow_eq_none {outer : List Shape} {o : Option FrameRef} (h : w.Encloses outer o)
    {k : Nat} (hk : outer.length ≤ k) : w.follow k o = none := by
  induction outer generalizing o k with
  | nil =>
    cases h
    cases k <;> rfl
  | cons s rest ih =>
    obtain ⟨r, rfl, -, -, -, hrest⟩ := h
    rw [List.length_cons] at hk
    obtain ⟨k, rfl⟩ := Nat.exists_eq_add_of_lt (Nat.lt_of_lt_of_le (Nat.succ_pos _) hk)
    rw [Nat.zero_add, World.follow]
    exact ih hrest (by omega)

namespace Sound

variable {guarded : Prop}

theorem linked (hw : w.Sound (.linked guarded)) (hf : f.Sound (.linked guarded) w) :
    w.Linked f := by
  obtain ⟨outer, hlen, ho⟩ := hf.encloses
  rw [hf.code, ← level] at hlen
  have hfollow {k : Nat} (hk : k < w.level f) : ∃ r, w.follow k f.outer = some r ∧
      r.index < w.frames.size ∧ w.level (w.frames.get r) + (k + 1) = w.level f := by
    obtain ⟨r, hr, hlt, -, hlevel⟩ := ho.follow (List.getElem?_eq_getElem (hlen ▸ hk))
    rw [(hw.frames r hlt).code, ← level] at hlevel
    exact ⟨r, hr, hlt, by omega⟩
  have hlinks {k : Nat} : (w.follow k f.outer).isSome ↔ k < w.level f := by
    refine ⟨fun h => Nat.lt_of_not_le fun hk => ?_, fun hk => ?_⟩
    · rw [ho.follow_eq_none (hlen ▸ hk)] at h
      cases h
    · obtain ⟨r, hr, -⟩ := hfollow hk
      rw [hr, Option.isSome_some]
  refine ⟨hlinks, fun hr => ?_⟩
  obtain ⟨r, hr', h⟩ := hfollow (hlinks.mp (by rw [hr, Option.isSome_some]))
  cases hr.symm.trans hr'
  exact h

theorem captures (hw : w.Sound (.linked guarded)) {b : Block}
    (hb : (Discipline.linked guarded).Valid w (.block b)) : w.Captures b := by
  have hfits := Discipline.valid_block.mp hb
  obtain ⟨hblock, hlevel, outer, hlen, ho⟩ := hfits
  cases outer with
  | nil => cases ho
  | cons s rest =>
    obtain ⟨r, hr, hlt, -, hcontext, -⟩ := ho
    cases hr
    rw [(hw.frames _ hlt).code, ← level] at hcontext
    exact ⟨World.lt_of_isBlock hblock, hlt, hlevel, by rw [hcontext, ← hlen, List.length_cons]⟩

theorem acyclic (hw : w.Sound (.linked guarded)) (k : Nat) (r : FrameRef) :
    w.follow (k + 1) (some r) ≠ some r := by
  rw [follow]
  intro hr
  by_cases hlt : r.index < w.frames.size
  · have hlevel := ((hw.linked (hw.frames r hlt)).captured hr).2
    omega
  · -- A reference to no frame at all leads nowhere.
    rw [Arena.get_of_le _ (Nat.le_of_not_lt hlt)] at hr
    cases k <;> cases hr

theorem receives (hw : w.Sound (.linked guarded)) (hf : f.Sound (.linked guarded) w) :
    ∃ self, w.Receives f self := by
  obtain ⟨self, hself⟩ := receiver_of_sound hw hf
  refine ⟨self, ⟨?_, hself⟩⟩
  have hlinked := hw.linked hf
  have hcode : f.code.level.toNat = w.level f := by rw [hf.code, level]
  unfold receiver readSlot at hself
  cases hn : w.level f with
  | zero =>
    have hzero : f.code.level = 0 := UInt8.toNat_inj.mp (by rw [hcode, hn, UInt8.toNat_zero])
    rw [if_pos hzero] at hself
    exact ⟨f, rfl, hn, hself⟩
  | succ n =>
    have hne : f.code.level ≠ 0 := by
      intro heq
      rw [heq, hn] at hcode
      cases hcode
    have hlt : n < w.level f := by omega
    obtain ⟨r, hr⟩ := Option.isSome_iff_exists.mp (hlinked.links.mpr hlt)
    have hlevel := (hlinked.captured hr).2
    rw [if_neg hne, outerContext, hcode, hn, Nat.add_sub_cancel, hr] at hself
    exact ⟨w.frames.get r, by rw [outward, hr, Option.map_some], by omega, hself⟩

end Sound

/-- A slot instruction finds no frame exactly if its level is beyond that of the running body. -/
theorem Linked.outerContext_missing (h : w.Linked f) {level l : UInt8} {m : CodeRef} :
    (level ≠ 0 ∧ w.outerContext f level = .error (.missingContext m l)) ↔
      w.level f < level.toNat ∧ m = f.method ∧ l = level := by
  have hpos : level ≠ 0 ↔ 0 < level.toNat := by
    rw [← UInt8.pos_iff_ne_zero, UInt8.lt_iff_toNat_lt, UInt8.toNat_zero]
  have hnone : w.follow (level.toNat - 1) f.outer = none ↔ w.level f ≤ level.toNat - 1 := by
    rw [← Option.not_isSome_iff_eq_none, h.links, Nat.not_lt]
  rw [outerContext_eq_error, hnone, hpos, Fault.missingContext.injEq]
  constructor
  · rintro ⟨hlt, hle, hml⟩
    exact ⟨by omega, hml⟩
  · rintro ⟨hlt, hml⟩
    exact ⟨by omega, by omega, hml⟩

theorem readSlot_missing {area : Area} {index : Nat} {level l : UInt8} {m : CodeRef} :
    w.readSlot f area index level = .error (.missingContext m l) ↔
      level ≠ 0 ∧ w.outerContext f level = .error (.missingContext m l) := by
  have hread (g : Frame) : g.read area index ≠ .error (.missingContext m l) := by
    unfold Frame.read
    split
    · split <;> nofun
    · nofun
  unfold readSlot
  split
  · next hl => simp [hl, hread]
  · next hl =>
    rw [and_iff_right hl]
    cases hr : w.outerContext f level with
    | error e =>
      change Except.error e = Except.error _ ↔ _
      rw [Except.error.injEq, Except.error.injEq]
    | ok r => exact iff_of_false (hread _) nofun

end World

namespace FrameHandle

theorem writeSlot_missing {a : FrameHandle} {area : Area} {index : Nat} {level l : UInt8} {x : Value}
    {m : CodeRef} :
    (∃ w', a.writeSlot area index level x w = .error (.missingContext m l) w') ↔
      level ≠ 0 ∧ w.outerContext (a.frame w) level = .error (.missingContext m l) := by
  have hwrite (g : Frame) : g.write area index x ≠ .error (.missingContext m l) := by
    unfold Frame.write
    split <;> nofun
  by_cases hl : level = 0
  · refine iff_of_false ?_ fun h => h.1 hl
    rintro ⟨w', h⟩
    rw [writeSlot, if_pos hl, modify_apply] at h
    cases hf : (a.frame w).write area index x with
    | ok g =>
      rw [hf] at h
      cases h
    | error e =>
      rw [hf] at h
      cases h
      exact hwrite _ hf
  · rw [writeSlot_eq a area index hl, and_iff_right hl]
    cases hr : w.outerContext (a.frame w) level with
    | error e => simp
    | ok r =>
      simp only [reduceCtorEq, iff_false]
      rintro ⟨w', h⟩
      cases hf : (w.frames.get r).write area index x with
      | ok g =>
        rw [hf] at h
        cases h
      | error e =>
        rw [hf] at h
        cases h
        exact hwrite _ hf

end FrameHandle

theorem Frame.Continues.read_self {f' : Frame} (hf : f.Continues f')
    (hself : f'.slots[0]? = f.slots[0]?) : f'.read .arguments 0 = f.read .arguments 0 := by
  simp only [Frame.read, Frame.areaSize, Frame.areaStart, Frame.noSlot, hf.code, hf.method,
    Nat.zero_add, hself]

theorem World.receiver_continues {f' : Frame} (hf : f.Continues f')
    (hself : f'.read .arguments 0 = f.read .arguments 0)
    (hframes : ∀ r, (w.frames.get r).Continues (w'.frames.get r))
    (hselves : ∀ r, (w'.frames.get r).read .arguments 0 = (w.frames.get r).read .arguments 0) :
    w'.receiver f' = w.receiver f := by
  unfold receiver readSlot
  rw [hf.code, outerContext_continues hf hframes, hself]
  split
  · rfl
  · cases w.outerContext f f.code.level with
    | error e => rfl
    | ok r => exact hselves r

theorem Frame.read_self_pop {f' : Frame} {x : Value} (h : f.pop = .ok (x, f')) :
    f'.read .arguments 0 = f.read .arguments 0 := by
  have hcontinues := (pop_eq_ok h).1
  by_cases harity : 0 < f.code.argCount
  · refine hcontinues.read_self ?_
    unfold pop at h
    split at h
    · cases h
    · next htop =>
      dsimp only at h
      split at h
      · cases h
        have hbase : f.code.argCount ≤ f.baseline := Nat.le_add_right _ _
        exact Array.getElem?_setIfInBounds_ne (by omega)
      · cases h
  · simp [read, areaSize, noSlot, hcontinues.code, hcontinues.method, harity]

theorem World.get_setFrame (w : World) {s : FrameRef} (hs : s.index < w.frames.size) (f : Frame)
    (r : FrameRef) : (w.setFrame s f).frames.get r = if s = r then f else w.frames.get r := by
  simp only [World.setFrame, Arena.get_set, hs, and_true]

namespace FrameHandle

theorem lt_of_eq_ok {α : Type} (op : Frame → Except Fault α) {s : FrameRef} {x : α}
    (hdefault : ∀ x, op default ≠ .ok x) (h : op ((shared s).frame w) = .ok x) :
    s.index < w.frames.size := by
  refine Nat.lt_of_not_le fun hle => hdefault x ?_
  rwa [frame, Arena.get_of_le _ hle] at h

/-- The frame that was put is the frame of the handle, if it comes from one that there is. -/
theorem frame_put {α : Type} (op : Frame → Except Fault α) {a : FrameHandle} {x : α}
    (hdefault : ∀ x, op default ≠ .ok x) (h : op (a.frame w) = .ok x) (f : Frame) :
    (a.put f w).1.frame (a.put f w).2 = f := by
  cases a with
  | own g => rfl
  | shared s => exact (w.get_setFrame (lt_of_eq_ok op hdefault h) f s).trans (if_pos rfl)

theorem receiver_pop {a : FrameHandle} {x : Value} (hf : (a.frame w).pop = .ok (x, f)) :
    (a.put f w).2.receiver ((a.put f w).1.frame (a.put f w).2) = w.receiver (a.frame w) := by
  have hcontinues := (Frame.pop_eq_ok hf).1
  have hself := Frame.read_self_pop hf
  rw [frame_put Frame.pop nofun hf]
  cases a with
  | own g => exact World.receiver_continues hcontinues hself (fun r => .refl _) fun _ => rfl
  | shared s =>
    have hs := lt_of_eq_ok Frame.pop nofun hf
    refine World.receiver_continues hcontinues hself (fun r => ?_) fun r => ?_ <;>
      simp only [put, w.get_setFrame hs] <;> split
    · next h => exact h ▸ hcontinues
    · exact .refl _
    · next h => exact h ▸ hself
    · rfl

end FrameHandle

namespace Activation

variable {a : Activation}

/-- Executes an instruction that takes this value for the receiver. -/
def executeFor (a : Activation) (self : Value) (offset : Nat) : Instruction → Action Effect
  | .pushField index => do
    return .resume { a with handle := ← a.handle.push (← readField self index) }
  | .pushGlobal literal => do
    let name ← a.symbolLiteral literal
    match (← get).global? name with
    | some v => return .resume { a with handle := ← a.handle.push v }
    | none => return .callOut a (← Action.unknownGlobal self name) .push
  | .popField index => do
    let (v, handle) ← a.handle.pop
    writeField self index v
    return .resume { a with handle }
  | i => a.execute offset i

theorem execute_eq_executeFor {self : Value} (hself : w.receiver (a.handle.frame w) = .ok self)
    (offset : Nat) (i : Instruction) : a.execute offset i w = a.executeFor self offset i w := by
  have hreceiver : a.handle.receiver w = .ok self w := by
    simp only [FrameHandle.receiver, Action.bind_apply, Action.get_apply, hself, Action.lift_ok]
  cases i with
  | pushField index =>
    simp only [execute, executeFor, Action.bind_apply, hreceiver]
    cases readField self index w <;> rfl
  | pushGlobal literal =>
    simp only [execute, executeFor, Action.bind_apply, symbolLiteral_apply, Action.get_apply]
    cases w.symbolLiteral a.method literal.toNat with
    | error e => rfl
    | ok name =>
      dsimp only
      cases w.global? name with
      | some v => rfl
      | none => simp only [Action.bind_apply, hreceiver]
  | popField index =>
    simp only [execute, executeFor, Action.bind_apply, FrameHandle.pop, FrameHandle.take_apply]
    cases hf : (a.handle.frame w).pop with
    | error e => rfl
    | ok xf =>
      obtain ⟨x, f⟩ := xf
      simp only [FrameHandle.receiver, Action.bind_apply, Action.get_apply, FrameHandle.receiver_pop hf,
        hself, Action.lift_ok]
      cases writeField self index x (a.handle.put f w).2 <;> rfl
  | _ => rfl

theorem step_eq_executeFor {self : Value} {i : Instruction} (hi : a.fetch w = .ok i)
    (hself : w.receiver (a.handle.frame w) = .ok self) :
    a.step w =
      { a with offset := a.offset + i.length }.executeFor self a.offset i (a.traced i w) := by
  have hs := a.traced_still i w
  rw [step_eq hi]
  refine execute_eq_executeFor (a := { a with offset := a.offset + i.length }) ?_ _ i
  rwa [World.receiver, World.readSlot_congr hs.frames, a.handle.frame_congr hs.frames]

section

variable {guarded : Prop} {area : Area} {index level l : UInt8} {m : CodeRef}

theorem execute_pushSlot_missing (offset : Nat) :
    (∃ w', a.execute offset (.pushSlot area index level) w = .error (.missingContext m l) w') ↔
      w.readSlot (a.handle.frame w) area index.toNat level = .error (.missingContext m l) := by
  have hpush (g : Frame) (x : Value) : g.push x ≠ .error (.missingContext m l) := by
    unfold Frame.push
    split <;> nofun
  simp only [execute, Action.bind_apply, FrameHandle.readSlot, Action.get_apply]
  cases w.readSlot (a.handle.frame w) area index.toNat level with
  | error e => simp
  | ok x =>
    simp only [Action.lift_ok, FrameHandle.push, FrameHandle.modify_apply, reduceCtorEq, iff_false]
    rintro ⟨w', h⟩
    cases hf : (a.handle.frame w).push x with
    | ok g =>
      rw [hf] at h
      cases h
    | error e =>
      rw [hf] at h
      cases h
      exact hpush _ x hf

theorem execute_popSlot_missing {x : Value} (hf : (a.handle.frame w).pop = .ok (x, f))
    (offset : Nat) :
    (∃ w', a.execute offset (.popSlot area index level) w = .error (.missingContext m l) w') ↔
      ∃ w', (a.handle.put f w).1.writeSlot area index.toNat level x (a.handle.put f w).2 =
        .error (.missingContext m l) w' := by
  simp only [execute, Action.bind_apply, FrameHandle.pop, FrameHandle.take_apply, hf]
  cases (a.handle.put f w).1.writeSlot area index.toNat level x (a.handle.put f w).2 with
  | error e v => simp
  | ok handle v => simp

/-- In a sound world an instruction with this level misses a context, and this one, exactly if its
level is beyond that of the running body. -/
theorem missing_iff (hw : w.Sound (.linked guarded))
    (ha : a.handle.Placed (.linked guarded) a.marker a.method w) :
    (level ≠ 0 ∧ w.outerContext (a.handle.frame w) level = .error (.missingContext m l)) ↔
      (w.code a.method).level < level ∧ m = a.method ∧ l = level := by
  rw [(hw.linked ha.sound).outerContext_missing, World.level, ha.method, UInt8.lt_iff_toNat_lt]

theorem step_pushSlot_missing (hw : w.Sound (.linked guarded))
    (ha : a.handle.Placed (.linked guarded) a.marker a.method w)
    (hi : a.fetch w = .ok (.pushSlot area index level)) :
    (∃ w', a.step w = .error (.missingContext m l) w') ↔
      (w.code a.method).level < level ∧ m = a.method ∧ l = level := by
  have hs := a.traced_still (.pushSlot area index level) w
  rw [step_eq hi, execute_pushSlot_missing, World.readSlot_missing, ← missing_iff hw ha,
    World.outerContext_congr hs.frames, a.handle.frame_congr hs.frames]

theorem step_popSlot_missing (hw : w.Sound (.linked guarded))
    (ha : a.handle.Placed (.linked guarded) a.marker a.method w)
    (hi : a.fetch w = .ok (.popSlot area index level)) (hops : (a.handle.frame w).operands ≠ []) :
    (∃ w', a.step w = .error (.missingContext m l) w') ↔
      (w.code a.method).level < level ∧ m = a.method ∧ l = level := by
  have hs := a.traced_still (.popSlot area index level) w
  have ha' := ha.still hs
  rw [← a.handle.frame_congr hs.frames] at hops
  obtain ⟨x, f, hf⟩ := Frame.pop_of_ne_nil ha'.sound.proper hops
  obtain ⟨-, hframe, -, -, hframes⟩ := ha'.put (traced_sound hw _)
    (Frame.pop_evolves (Discipline.valid_of_no_block rfl) hf).1
  let b : Activation := { a with offset := a.offset + (Instruction.popSlot area index level).length }
  rw [step_eq hi, execute_popSlot_missing (a := b) hf, FrameHandle.writeSlot_missing, hframe,
    World.outerContext_continues (Frame.pop_eq_ok hf).1 hframes, ← missing_iff hw ha,
    World.outerContext_congr hs.frames, a.handle.frame_congr hs.frames]

end

end Activation

/-- What holds of contexts in a machine and of the values that its host was given. -/
structure Machine.InContext (m : Machine) (held : List Grant) : Prop where
  blocks : ∀ {b : Block}, m.HasValue held (.block b) → m.world.Captures b
  linked : ∀ {f : Frame}, m.HasFrame f → m.world.Linked f
  acyclic : ∀ (k : Nat) (r : FrameRef), m.world.follow (k + 1) (some r) ≠ some r
  receives : ∀ {f : Frame}, m.HasFrame f → ∃ self, m.world.Receives f self
  pushSlot : ∀ {loop : RunLoop} {area : Area} {index level : UInt8}, m.control = .run loop →
    loop.current.fetch m.world = .ok (.pushSlot area index level) → ∀ {c : CodeRef} {l : UInt8},
    (∃ w', loop.current.step m.world = .error (.missingContext c l) w') ↔
      (m.world.code loop.current.method).level < level ∧ c = loop.current.method ∧ l = level
  popSlot : ∀ {loop : RunLoop} {area : Area} {index level : UInt8}, m.control = .run loop →
    loop.current.fetch m.world = .ok (.popSlot area index level) →
    (loop.current.handle.frame m.world).operands ≠ [] → ∀ {c : CodeRef} {l : UInt8},
    (∃ w', loop.current.step m.world = .error (.missingContext c l) w') ↔
      (m.world.code loop.current.method).level < level ∧ c = loop.current.method ∧ l = level
  selves : ∀ {loop : RunLoop} {i : Instruction} {self : Value}, m.control = .run loop →
    loop.current.fetch m.world = .ok i →
    m.world.Receives (loop.current.handle.frame m.world) self →
    loop.current.step m.world =
      { loop.current with offset := loop.current.offset + i.length }.executeFor self
        loop.current.offset i (loop.current.traced i m.world)

theorem Session.inContext {m : Machine} (h : Session .linked m held) : m.InContext held := by
  have hm := h.sound Policy.linked_keeps
  have hw := hm.world
  have hplaced {loop : RunLoop} (hrun : m.control = .run loop) :
      loop.current.handle.Placed (.linked False) loop.current.marker loop.current.method m.world := by
    refine hm.stacked.placed _ ?_
    rw [Machine.activations, Machine.loops, hrun]
    exact List.mem_append_left _ List.mem_cons_self
  exact {
    blocks := fun hb => hw.captures (hm.value hb)
    linked := fun hf => hw.linked (hm.frame hf)
    acyclic := hw.acyclic
    receives := fun hf => hw.receives (hm.frame hf)
    pushSlot := fun hrun hi => Activation.step_pushSlot_missing hw (hplaced hrun) hi
    popSlot := fun hrun hi hops => Activation.step_popSlot_missing hw (hplaced hrun) hi hops
    selves := fun _ hi hself => Activation.step_eq_executeFor hi hself.receiver }

def reaching : Source :=
  let inner := .block 0 [.pushSlot .arguments 0 3, .returnLocal]
  let outer := .block 0 [.pushBlock inner, .send "value", .returnLocal]
  .method "reaching" [.pushBlock outer, .send "value", .returnLocal]

set_option maxRecDepth 100000 in
theorem Session.inContext_reaching :
    ∃ (m : Machine) (loop : RunLoop), Session .linked m [] ∧ m.control = .run loop ∧
      (m.world.code loop.current.method).level = 2 ∧
      loop.current.fetch m.world = .ok (.pushSlot .arguments 0 3) ∧ m.InContext [] ∧
      ∃ w', loop.current.step m.world = .error (.missingContext loop.current.method 3) w' := by
  let w : World := reaching.standard.2
  let c : HostCall := .invoke (.compiled reaching.standard.1) .nil []
  let m : Machine := (c.machine w).after 4
  have hrun : (reaching.standalone && m.next?.any fun p =>
      p.2 = .pushSlot .arguments 0 3 && (m.world.code p.1.current.method).level = 2) = true := by
    decide +kernel
  obtain ⟨hstandalone, hnext⟩ := Bool.and_eq_true_iff.mp hrun
  obtain ⟨⟨loop, i⟩, hnext, hp⟩ := Option.any_eq_true _ _ |>.mp hnext
  obtain ⟨hi, hlevel⟩ := Bool.and_eq_true_iff.mp hp
  obtain ⟨hcontrol, hfetch⟩ := Machine.next?_eq_some.mp hnext
  cases of_decide_eq_true hi
  have hlevel := of_decide_eq_true hlevel
  have hboot : Session .linked ⟨.answer (.ok .nil), [], w⟩ [] :=
    .add (.boot World.boot_standard)
      (Adds.source (Bool.and_eq_true_iff.mp hstandalone).1 (Source.standalone_compile hstandalone).1)
  have hm : Session .linked m [] :=
    Session.after (.request (c := c) hboot (Source.standalone_allowed hstandalone)) fun _ _ => trivial
  have hcontext := hm.inContext
  refine ⟨m, loop, hm, hcontrol, hlevel, hfetch, hcontext, ?_⟩
  refine (hcontext.pushSlot hcontrol hfetch).mpr ⟨?_, rfl, rfl⟩
  rw [hlevel]
  decide

end MessageMachine
