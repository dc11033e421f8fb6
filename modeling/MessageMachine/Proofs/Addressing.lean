import MessageMachine.Proofs.Working

namespace MessageMachine

/-- The same frame, except in the slots that are named. -/
structure Frame.SameBut (named : Nat → Prop) (f f' : Frame) : Prop extends f.Continues f' where
  top : f'.top = f.top
  size : f'.slots.size = f.slots.size
  slots : ∀ i, ¬ named i → f'.slots[i]? = f.slots[i]?

namespace Frame

variable {named : Nat → Prop} {f f' : Frame} {area : Area} {index : Nat} {v : Value}

theorem SameBut.refl (f : Frame) : f.SameBut named f :=
  { Continues.refl f with top := rfl, size := rfl, slots := fun _ _ => rfl }

theorem SameBut.mono {wider : Nat → Prop} (h : f.SameBut named f') (hn : ∀ i, named i → wider i) :
    f.SameBut wider f' :=
  { h with slots := fun i hi => h.slots i fun hnamed => hi (hn i hnamed) }

theorem sameBut_of_write (h : f.write area index v = .ok f') :
    f.SameBut (· = f.areaStart area + index) f' := by
  obtain ⟨hc, -, -, hslots⟩ := write_eq_ok h
  refine { hc with top := ?_, size := ?_, slots := fun i hi => ?_ }
  · rw [(eq_of_write h).2.2]
  · rw [hslots, Array.size_setIfInBounds]
  · rw [hslots, Array.getElem?_setIfInBounds_ne (Ne.symm hi)]

theorem read_of_le (h : f.areaSize area ≤ index) : f.read area index = .error (f.noSlot area index) :=
  if_neg (Nat.not_lt.mpr h)

theorem write_of_le (h : f.areaSize area ≤ index) :
    f.write area index v = .error (f.noSlot area index) := by
  rw [write, if_neg]
  simp [Nat.not_lt.mpr h]

theorem read_of_write (h : f.write area index v = .ok f') : f'.read area index = .ok v := by
  obtain ⟨hc, -, hlt, hslots⟩ := write_eq_ok h
  have hin := (eq_of_write h).2.1
  have hsize : f'.areaSize area = f.areaSize area := by cases area <;> simp only [areaSize, hc.code]
  have hstart : f'.areaStart area = f.areaStart area := by
    cases area <;> simp only [areaStart, hc.code]
  rw [read, hsize, if_pos hlt, hstart, hslots, Array.getElem?_setIfInBounds_self_of_lt hin]

end Frame

namespace FrameHandle

variable {w w' : World} {a t : FrameHandle} {rs : List FrameRef}

/-- The handle is on a frame that there is. -/
def Stands (w : World) : FrameHandle → Prop
  | own f => f.Proper
  | shared r => r.index < w.frames.size ∧ (w.frames.get r).Proper

theorem Stands.proper (h : a.Stands w) : (a.frame w).Proper := by
  cases a with
  | own f => exact h
  | shared r => exact h.2

def context (w : World) (a : FrameHandle) : Nat → Option FrameHandle
  | 0 => some a
  | links + 1 => (w.follow links (a.frame w).outer).map shared

/-- The links of a frame lead outward through these frames and end there. -/
inductive Chain (w : World) : FrameHandle → List FrameRef → Prop
  | last {a : FrameHandle} : a.Stands w → (a.frame w).outer = none → Chain w a []
  | link {a : FrameHandle} {r : FrameRef} {rs : List FrameRef} :
      a.Stands w → (a.frame w).outer = some r → Chain w (shared r) rs → Chain w a (r :: rs)

theorem context_succ (w : World) (a : FrameHandle) (links : Nat) :
    a.context w (links + 1) = (a.frame w).outer.bind fun r => (shared r).context w links := by
  cases links with
  | zero => cases h : (a.frame w).outer <;> simp [context, World.follow, h]
  | succ links =>
    cases h : (a.frame w).outer with
    | none => simp [context, World.follow, h]
    | some r =>
      rw [context, h]
      rfl

theorem Chain.context_eq (h : Chain w a rs) (links : Nat) :
    a.context w links = (a :: rs.map shared)[links]? := by
  induction h generalizing links with
  | last hs ho =>
    cases links with
    | zero => rfl
    | succ links => rw [context_succ, ho]; rfl
  | link hs ho hchain ih =>
    cases links with
    | zero => rfl
    | succ links =>
      rw [context_succ, ho, Option.bind_some, ih]
      rfl

theorem Chain.context_isSome (h : Chain w a rs) {links : Nat} :
    (∃ t, a.context w links = some t) ↔ links ≤ rs.length := by
  rw [h.context_eq, ← Option.isSome_iff_exists, isSome_getElem?, List.length_cons, List.length_map,
    Nat.lt_succ_iff]

theorem Chain.context_stands (h : Chain w a rs) {links : Nat} (ht : a.context w links = some t) :
    t.Stands w := by
  induction h generalizing links with
  | last hs ho =>
    cases links with
    | zero =>
      cases ht
      exact hs
    | succ links =>
      rw [context_succ, ho] at ht
      cases ht
  | link hs ho hchain ih =>
    cases links with
    | zero =>
      cases ht
      exact hs
    | succ links =>
      rw [context_succ, ho] at ht
      exact ih ht

/-- Without a level this is the frame of the handle, and with one a frame that blocks captured. -/
theorem context_cases {level : UInt8} (ht : a.context w level.toNat = some t) :
    level = 0 ∧ t = a ∨
      level ≠ 0 ∧ ∃ r, t = shared r ∧ w.outerContext (a.frame w) level = .ok r := by
  by_cases hl : level = 0
  · subst hl
    cases ht
    exact .inl ⟨rfl, rfl⟩
  · obtain ⟨links, hlinks⟩ : ∃ links, level.toNat = links + 1 := by
      apply Nat.exists_eq_succ_of_ne_zero
      simpa using mt UInt8.toNat_inj.mp hl
    rw [hlinks, context] at ht
    obtain ⟨r, hr, rfl⟩ := Option.map_eq_some_iff.mp ht
    refine .inr ⟨hl, r, rfl, ?_⟩
    exact World.outerContext_of_follow (by rwa [hlinks, Nat.add_sub_cancel])

theorem outerContext_of_none {level : UInt8} (ht : a.context w level.toNat = none) :
    level ≠ 0 ∧ w.outerContext (a.frame w) level = .error (.missingContext (a.frame w).method level) := by
  have hl : level ≠ 0 := by
    rintro rfl
    cases ht
  obtain ⟨links, hlinks⟩ : ∃ links, level.toNat = links + 1 := by
    apply Nat.exists_eq_succ_of_ne_zero
    simpa using mt UInt8.toNat_inj.mp hl
  rw [hlinks, context, Option.map_eq_none_iff] at ht
  refine ⟨hl, ?_⟩
  rw [World.outerContext, hlinks, Nat.add_sub_cancel, ht]

section

variable {area : Area} {index : Nat} {level : UInt8} {v : Value}

theorem readSlot_of_context (ht : a.context w level.toNat = some t) :
    a.readSlot area index level w = match (t.frame w).read area index with
      | .ok x => .ok x w
      | .error e => .error e w := by
  have hread : w.readSlot (a.frame w) area index level = (t.frame w).read area index := by
    rcases context_cases ht with ⟨rfl, rfl⟩ | ⟨hl, r, rfl, hr⟩
    · rfl
    · rw [World.readSlot, if_neg hl, hr]
      rfl
  simp only [readSlot, Action.bind_apply, Action.get_apply, hread]
  cases (t.frame w).read area index <;> rfl

theorem readSlot_of_no_context (ht : a.context w level.toNat = none) :
    a.readSlot area index level w = .error (.missingContext (a.frame w).method level) w := by
  obtain ⟨hl, hr⟩ := outerContext_of_none ht
  simp only [readSlot, Action.bind_apply, Action.get_apply, World.readSlot, if_neg hl, hr]
  rfl

theorem writeSlot_of_context (ht : a.context w level.toNat = some t) :
    a.writeSlot area index level v w = match (t.frame w).write area index v with
      | .ok f => .ok (if level = 0 then (t.put f w).1 else a) (t.put f w).2
      | .error e => .error e w := by
  rcases context_cases ht with ⟨rfl, rfl⟩ | ⟨hl, r, rfl, hr⟩
  · rw [writeSlot, if_pos rfl, modify_apply]
    rfl
  · rw [writeSlot_eq a area index hl, hr]
    simp only [frame, put, if_neg hl]
    cases (w.frames.get r).write area index v <;> rfl

theorem writeSlot_of_no_context (ht : a.context w level.toNat = none) :
    a.writeSlot area index level v w = .error (.missingContext (a.frame w).method level) w := by
  obtain ⟨hl, hr⟩ := outerContext_of_none ht
  rw [writeSlot_eq a area index hl, hr]

/-- What writing a value to a slot of this frame, found some links outward, comes to. -/
structure Writes (a t : FrameHandle) (w : World) (area : Area) (index : Nat) (level : UInt8)
    (v : Value) (a' : FrameHandle) (w' : World) : Prop where
  /-- Reading the slot back answers the value. -/
  reads : a'.readSlot area index level w' = .ok v w'
  /-- So does reading it from any other frame whose links lead there. -/
  aliases : ∀ (b : FrameHandle) (r : FrameRef) (level' : UInt8), t = shared r →
    b.context w level'.toNat = some t → b.readSlot area index level' w' = .ok v w'
  captured : ∀ r, (w.frames.get r).SameBut
    (fun i => t = shared r ∧ i = (t.frame w).areaStart area + index) (w'.frames.get r)
  running : (a.frame w).SameBut
    (fun i => t = a ∧ i = (t.frame w).areaStart area + index) (a'.frame w')
  handle : ∀ r, a' = shared r ↔ a = shared r
  size : w'.frames.size = w.frames.size
  world : w' = { w with frames := w'.frames }

variable {f : Frame}

theorem put_frame (h : t.Stands w) (f : Frame) : (t.put f w).1.frame (t.put f w).2 = f := by
  cases t with
  | own g => rfl
  | shared r => simp only [put, frame, World.setFrame, Arena.get_set, true_and, if_pos h.1]

theorem put_captured (h : t.Stands w) (hf : (t.frame w).write area index v = .ok f) (r : FrameRef) :
    (w.frames.get r).SameBut (fun i => t = shared r ∧ i = (t.frame w).areaStart area + index)
      ((t.put f w).2.frames.get r) := by
  cases t with
  | own g => exact .refl _
  | shared s =>
    simp only [put, World.setFrame, Arena.get_set, h.1, and_true]
    split
    · next hsr =>
      subst hsr
      exact (Frame.sameBut_of_write hf).mono fun i hi => ⟨rfl, hi⟩
    · exact .refl _

theorem context_put (h : t.Stands w) (hf : (t.frame w).write area index v = .ok f)
    (b : FrameHandle) (links : Nat) : b.context (t.put f w).2 links = b.context w links := by
  have hframes := put_captured h hf
  cases links with
  | zero => rfl
  | succ links =>
    have houter : (b.frame (t.put f w).2).outer = (b.frame w).outer := by
      cases b with
      | own g => rfl
      | shared r => exact (hframes r).outer
    rw [context, context, houter, World.follow_continues fun r => (hframes r).toContinues]

theorem writes_of_context (hs : t.Stands w) (ht : a.context w level.toNat = some t)
    (hf : (t.frame w).write area index v = .ok f) :
    a.Writes t w area index level v (if level = 0 then (t.put f w).1 else a) (t.put f w).2 := by
  have halias (b : FrameHandle) (r : FrameRef) (level' : UInt8) (htr : t = shared r)
      (hb : b.context w level'.toNat = some t) :
      b.readSlot area index level' (t.put f w).2 = .ok v (t.put f w).2 := by
    rw [← context_put hs hf b] at hb
    have hframe := put_frame hs f
    subst htr
    rw [readSlot_of_context hb]
    change (match ((put (shared r) f w).1.frame _).read area index with
      | .ok x => EStateM.Result.ok x _
      | .error e => .error e _) = _
    rw [hframe, Frame.read_of_write hf]
  rcases context_cases ht with ⟨rfl, rfl⟩ | ⟨hl, r, rfl, -⟩
  · rw [if_pos rfl]
    refine {
      reads := ?_
      aliases := halias
      captured := put_captured hs hf
      running := ?_
      handle := fun r => ?_
      size := ?_
      world := ?_ }
    · rw [readSlot_of_context (t := (t.put f w).1) rfl, put_frame hs, Frame.read_of_write hf]
    · rw [put_frame hs]
      exact (Frame.sameBut_of_write hf).mono fun i hi => ⟨rfl, hi⟩
    all_goals cases t <;> simp [put, World.setFrame]
  · rw [if_neg hl]
    exact {
      reads := halias a r level rfl ht
      aliases := halias
      captured := put_captured hs hf
      running := by
        cases a with
        | own g => exact .refl g
        | shared s => exact put_captured hs hf s
      handle := fun r => Iff.rfl
      size := by simp [put, World.setFrame]
      world := rfl }

/-- Reading and writing by area, index and level through a frame from which this many links lead
outward. -/
structure Addresses (w : World) (a : FrameHandle) (links : Nat) (area : Area) (index : Nat)
    (level : UInt8) (v : Value) : Prop where
  /-- The slot can be written, and read, if there are as many links and the area of the frame found
  there is large enough. -/
  writes_iff : (∃ a' w', a.writeSlot area index level v w = .ok a' w') ↔
    level.toNat ≤ links ∧
      ∃ t, a.context w level.toNat = some t ∧ index < (t.frame w).areaSize area
  reads_iff : (∃ x, a.readSlot area index level w = .ok x w) ↔
    level.toNat ≤ links ∧
      ∃ t, a.context w level.toNat = some t ∧ index < (t.frame w).areaSize area
  writes : ∀ {a' : FrameHandle} {w' : World}, a.writeSlot area index level v w = .ok a' w' →
    ∃ t, a.context w level.toNat = some t ∧ a.Writes t w area index level v a' w'
  /-- A fault says whether links or slots are missing, and leaves everything as it was. -/
  fails : ∀ {e : Fault} {w' : World}, (a.writeSlot area index level v w = .error e w' ∨
      a.readSlot area index level w = .error e w') →
    w' = w ∧ (links < level.toNat ∧ e = .missingContext (a.frame w).method level ∨
      level.toNat ≤ links ∧
        ∃ t, a.context w level.toNat = some t ∧ e = (t.frame w).noSlot area index)
  /-- With a level, the frame found is that of the links that the program follows. -/
  outer : ∀ {r : FrameRef}, level ≠ 0 →
    (w.outerContext (a.frame w) level = .ok r ↔ a.context w level.toNat = some (shared r))
  /-- One more link from a frame is as many links from the frame that it captured. -/
  step : ∀ k, a.context w (k + 1) = (a.frame w).outer.bind fun r => (shared r).context w k

theorem outerContext_eq_ok {r : FrameRef} (hl : level ≠ 0) :
    w.outerContext (a.frame w) level = .ok r ↔ a.context w level.toNat = some (shared r) := by
  cases ht : a.context w level.toNat with
  | none =>
    rw [(outerContext_of_none ht).2]
    simp
  | some t =>
    rcases context_cases ht with ⟨rfl, -⟩ | ⟨-, s, rfl, hs⟩
    · exact absurd rfl hl
    · rw [hs]
      simp

theorem Chain.addresses_missing (h : Chain w a rs) (ht : a.context w level.toNat = none) :
    a.Addresses w rs.length area index level v := by
  have hlinks : rs.length < level.toNat := by
    rw [← Nat.not_le, ← h.context_isSome, ht]
    simp
  refine {
    writes_iff := ?_
    reads_iff := ?_
    writes := fun hok => ?_
    fails := fun herr => ?_
    outer := outerContext_eq_ok
    step := context_succ w a }
  · simp [writeSlot_of_no_context ht, Nat.not_le.mpr hlinks]
  · simp [readSlot_of_no_context ht, Nat.not_le.mpr hlinks]
  · rw [writeSlot_of_no_context ht] at hok
    cases hok
  · rw [writeSlot_of_no_context ht, readSlot_of_no_context ht] at herr
    rcases herr with herr | herr <;> cases herr <;> exact ⟨rfl, .inl ⟨hlinks, rfl⟩⟩

theorem Chain.addresses_outside (h : Chain w a rs) (ht : a.context w level.toNat = some t)
    (hi : (t.frame w).areaSize area ≤ index) : a.Addresses w rs.length area index level v := by
  have hlinks : level.toNat ≤ rs.length := h.context_isSome.mp ⟨t, ht⟩
  have hlt : ¬ index < (t.frame w).areaSize area := Nat.not_lt.mpr hi
  have hf : (t.frame w).write area index v = _ := Frame.write_of_le hi
  have hx := Frame.read_of_le hi
  refine {
    writes_iff := ?_
    reads_iff := ?_
    writes := fun hok => ?_
    fails := fun herr => ?_
    outer := outerContext_eq_ok
    step := context_succ w a }
  · simp [writeSlot_of_context ht, hf, ht, hlt]
  · simp [readSlot_of_context ht, hx, ht, hlt]
  · rw [writeSlot_of_context ht, hf] at hok
    cases hok
  · rw [writeSlot_of_context ht, readSlot_of_context ht, hf, hx] at herr
    rcases herr with herr | herr <;> cases herr <;> exact ⟨rfl, .inr ⟨hlinks, t, ht, rfl⟩⟩

theorem Chain.addresses_inside (h : Chain w a rs) (ht : a.context w level.toNat = some t)
    (hi : index < (t.frame w).areaSize area) : a.Addresses w rs.length area index level v := by
  have hlinks : level.toNat ≤ rs.length := h.context_isSome.mp ⟨t, ht⟩
  have hs : t.Stands w := h.context_stands ht
  obtain ⟨f, hf⟩ := Frame.write_of_lt hs.proper hi v
  obtain ⟨x, hx⟩ := Frame.read_of_lt hs.proper hi
  refine {
    writes_iff := ?_
    reads_iff := ?_
    writes := fun hok => ?_
    fails := fun herr => ?_
    outer := outerContext_eq_ok
    step := context_succ w a }
  · simp [writeSlot_of_context ht, hf, hlinks, ht, hi]
  · simp [readSlot_of_context ht, hx, hlinks, ht, hi]
  · rw [writeSlot_of_context ht, hf] at hok
    cases hok
    exact ⟨t, ht, writes_of_context hs ht hf⟩
  · rw [writeSlot_of_context ht, readSlot_of_context ht, hf, hx] at herr
    rcases herr with herr | herr <;> cases herr

/-- A slot is found by its area, its index and a number of links, and nothing else is changed when it
is written. -/
theorem Chain.addresses (h : Chain w a rs) (area : Area) (index : Nat) (level : UInt8) (v : Value) :
    a.Addresses w rs.length area index level v := by
  cases ht : a.context w level.toNat with
  | none => exact h.addresses_missing ht
  | some t =>
    by_cases hi : index < (t.frame w).areaSize area
    · exact h.addresses_inside ht hi
    · exact h.addresses_outside ht (Nat.le_of_not_lt hi)

theorem Chain.addresses_captured :
    let code : Code := ⟨⟨0, "at:"⟩, #[], #[], 1, 0, 0, by decide +kernel⟩
    let home : Frame := ⟨⟨0⟩, code, #[.nil, .integer 1, .nil], 3, ⟨0⟩, none⟩
    let block : Frame := ⟨⟨1⟩, { code with level := 1 }, #[.nil, .integer 2, .nil], 3, ⟨1⟩, some ⟨0⟩⟩
    let w : World := ((default : World).newFrame home).2
    ∃ a' w', (own block).writeSlot .locals 0 1 (.integer 7) w = .ok a' w' ∧
      (shared ⟨0⟩).readSlot .locals 0 0 w' = .ok (.integer 7) w' ∧
      (a'.frame w').slots[2]? = some .nil := by
  intro code home block w
  have harity : Symbol.arity ⟨0, "at:"⟩ = 2 := by decide +kernel
  have hhome : home.Proper := by
    constructor <;> simp [home, code, Frame.baseline, Code.maxStack, Code.baseline, Code.argCount, harity]
  have hblock : block.Proper := by
    constructor <;> simp [block, code, Frame.baseline, Code.maxStack, Code.baseline, Code.argCount, harity]
  have hchain : Chain w (own block) [⟨0⟩] := .link hblock rfl (.last ⟨by decide, hhome⟩ rfl)
  have h := hchain.addresses .locals 0 1 (.integer 7)
  obtain ⟨a', w', hw⟩ := h.writes_iff.mpr ⟨by decide, shared ⟨0⟩, rfl, by decide⟩
  obtain ⟨t, ht, hwrites⟩ := h.writes hw
  cases ht
  refine ⟨a', w', hw, hwrites.aliases (shared ⟨0⟩) ⟨0⟩ 0 rfl rfl, hwrites.running.slots 2 ?_⟩
  rintro ⟨⟨⟩, -⟩

end

end FrameHandle

end MessageMachine
