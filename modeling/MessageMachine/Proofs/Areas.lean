import MessageMachine.Proofs.Compiling
import MessageMachine.Proofs.Operands

namespace MessageMachine

/-- What is done to a frame by itself. -/
inductive Access where
  | push (v : Value)
  | pop
  | popN (count : Nat)
  | peek (offset : Nat)
  | reset
  | read (area : Area) (index : Nat)
  | write (area : Area) (index : Nat) (v : Value)

def Access.isWrite : Access → Bool
  | write _ _ _ => true
  | push _ | pop | popN _ | peek _ | reset | read _ _ => false

/-- Why an access fails. -/
inductive Refusal where
  | overflow
  | underflow
  | noSlot (area : Area) (index : Nat)

/-- The fault that a frame of this method and size reports. -/
def Refusal.fault (method : CodeRef) (size : Nat) : Refusal → Fault
  | overflow => .stackOverflow (.method (.compiled method)) size size
  | underflow => .stackUnderflow method
  | noSlot area index => .internal (.noSlot method area index)

/-- Arguments, locals and operands, each list with its oldest first. There may be `capacity` operands
and no more. -/
structure Areas where
  arguments : List Value
  locals : List Value
  operands : List Value
  capacity : Nat

namespace Areas

def get (s : Areas) : Area → List Value
  | .arguments => s.arguments
  | .locals => s.locals

def set (s : Areas) (area : Area) (vs : List Value) : Areas :=
  match area with
  | .arguments => { s with arguments := vs }
  | .locals => { s with locals := vs }

/-- What an access answers, and what it leaves behind. -/
def access (s : Areas) : Access → Except Refusal (List Value × Areas)
  | .push v =>
    if s.operands.length < s.capacity then .ok ([], { s with operands := s.operands ++ [v] })
    else .error .overflow
  | .pop =>
    match s.operands.getLast? with
    | some v => .ok ([v], { s with operands := s.operands.dropLast })
    | none => .error .underflow
  | .popN count =>
    if count ≤ s.operands.length then
      let rest := s.operands.length - count
      .ok (s.operands.drop rest, { s with operands := s.operands.take rest })
    else .error .underflow
  | .peek offset =>
    match s.operands.reverse[offset]? with
    | some v => .ok ([v], s)
    | none => .error .underflow
  | .reset => .ok ([], { s with operands := [] })
  | .read area index =>
    match (s.get area)[index]? with
    | some v => .ok ([v], s)
    | none => .error (.noSlot area index)
  | .write area index v =>
    if index < (s.get area).length then .ok ([], s.set area ((s.get area).set index v))
    else .error (.noSlot area index)

theorem access_leaves {s s' : Areas} {a : Access} {vs : List Value}
    (h : s.access a = .ok (vs, s')) :
    (a.isWrite = false → s'.arguments = s.arguments ∧ s'.locals = s.locals) ∧
    (a.isWrite = true → s'.operands = s.operands) := by
  cases a with
  | write area index v =>
    simp only [access] at h
    split at h <;> cases h
    cases area <;> simp [Access.isWrite, set]
  | reset =>
    cases h
    simp [Access.isWrite]
  | _ =>
    simp only [access] at h
    split at h <;> cases h
    simp [Access.isWrite]

end Areas

theorem Layout.counts_of_code? {l : Layout} {code : Code} (h : l.code? = .ok code) :
    code.argCount = l.argCount ∧ code.localCount = l.localCount ∧
      code.operandCapacity = l.maxStack - l.argCount - l.localCount ∧ code.maxStack = l.maxStack := by
  obtain ⟨hargs, -, hstack, -, rfl⟩ := code?_eq_ok h
  simp only [Code.argCount, Code.maxStack, Code.baseline, ← hargs, Nat.sub_sub, true_and]
  omega

theorem Layout.code?_eq_countOverflow {l : Layout} :
    l.code? = .error (.internal .countOverflow) ↔ l.argCount = l.signature.arity ∧ ¬ l.Fits := by
  have hjudged := l.code?_judged
  cases hcode : l.code? with
  | ok c =>
    obtain ⟨-, hfits, -⟩ := code?_eq_ok hcode
    simp [hfits]
  | error f =>
    rw [hcode] at hjudged
    cases hjudged with
    | arity h => simp [h]
    | word hargs h => simp [hargs, h]
    | room hargs hfits h => simp [hfits]

/-- The answers to some accesses, one after the other. One that fails changes nothing. -/
def accessAll {σ ε : Type} (access : σ → Access → Except ε (List Value × σ)) :
    List Access → σ → List (Except ε (List Value)) × σ
  | [], s => ([], s)
  | a :: as, s =>
    match access s a with
    | .ok (vs, s') => (accessAll access as s').map (.ok vs :: ·) id
    | .error e => (accessAll access as s).map (.error e :: ·) id

namespace Frame

def access (f : Frame) : Access → Except Fault (List Value × Frame)
  | .push v => do return ([], ← f.push v)
  | .pop => do
    let (v, f) ← f.pop
    return ([v], f)
  | .popN count => f.popN count
  | .peek offset => do return ([← f.peek offset], f)
  | .reset => return ([], f.reset)
  | .read area index => do return ([← f.read area index], f)
  | .write area index v => do return ([], ← f.write area index v)

/-- The areas that the slots of a frame fall into. -/
def areas (f : Frame) : Areas where
  arguments := f.bindings.take f.code.argCount
  locals := f.bindings.drop f.code.argCount
  operands := f.operands
  capacity := f.code.operandCapacity

structure Cleared (f : Frame) : Prop extends f.Proper where
  nil : ∀ i, f.top ≤ i → i < f.slots.size → f.slots[i]? = some .nil

variable {f f' : Frame}

theorem getElem?_clearSlots (slots : Array Value) (start n i : Nat) :
    (clearSlots slots start n)[i]? =
      if start ≤ i ∧ i < start + n ∧ i < slots.size then some .nil else slots[i]? := by
  induction n with
  | zero => simp [clearSlots, show ¬ (start ≤ i ∧ i < start ∧ i < slots.size) by omega]
  | succ n ih =>
    rw [clearSlots, Array.getElem?_setIfInBounds, size_clearSlots, ih]
    by_cases hi : start + n = i
    · subst hi
      by_cases hs : start + n < slots.size <;> simp [hs]
    · rw [if_neg hi]
      congr 1
      apply propext
      omega

theorem areas_congr (hc : f.Continues f') (hb : f'.bindings = f.bindings) :
    f'.areas = { f.areas with operands := f'.operands } := by
  simp only [areas, hb, hc.code]

theorem get_areas (f : Frame) (area : Area) :
    f.areas.get area = (f.bindings.drop (f.areaStart area)).take (f.areaSize area) := by
  cases area with
  | arguments => simp [Areas.get, areas, areaStart, areaSize]
  | locals =>
    simp only [Areas.get, areas, areaStart, areaSize]
    rw [List.take_of_length_le]
    simp only [bindings, baseline, Code.baseline, List.length_drop, List.length_take]
    omega

theorem length_get_areas (hf : f.Proper) (area : Area) :
    (f.areas.get area).length = f.areaSize area := by
  have hend := areaEnd_le hf area
  simp only [get_areas, bindings, List.length_take, List.length_drop, Array.length_toList]
  omega

theorem getElem?_get_areas (hf : f.Proper) {area : Area} {index : Nat}
    (h : index < f.areaSize area) :
    (f.areas.get area)[index]? = f.slots[f.areaStart area + index]? := by
  have hend := areaEnd_le hf area
  rw [get_areas, List.getElem?_take_of_lt h, List.getElem?_drop, bindings,
    List.getElem?_take_of_lt (by omega), Array.getElem?_toList]

theorem getElem?_reverse_operands (hf : f.Proper) {offset : Nat} (h : offset < f.depth) :
    f.operands.reverse[offset]? = f.slots[f.top - 1 - offset]? := by
  have htop := hf.top_le
  have hd : f.depth = f.top - f.baseline := rfl
  rw [List.getElem?_reverse (by rwa [length_operands hf]), length_operands hf, operands,
    List.getElem?_drop, List.getElem?_take_of_lt (by omega), Array.getElem?_toList]
  congr 1
  omega

inductive Agrees (f : Frame) :
    Except Fault (List Value × Frame) → Except Refusal (List Value × Areas) → Prop
  | ok (vs : List Value) {f' : Frame} : f.Continues f' → f'.Cleared →
      Agrees f (.ok (vs, f')) (.ok (vs, f'.areas))
  | error (r : Refusal) : Agrees f (.error (r.fault f.method f.slots.size)) (.error r)

theorem push_agrees (hf : f.Cleared) (v : Value) :
    f.Agrees (f.access (.push v)) (f.areas.access (.push v)) := by
  by_cases h : f.operands.length < f.code.operandCapacity
  · obtain ⟨f', hf'⟩ := push_of_lt hf.toProper h v
    obtain ⟨hc, hops, htop, hb⟩ := push_eq_ok hf'
    have hclear : f'.Cleared := by
      refine { hc.proper hf.toProper with nil := fun i hi hlt => ?_ }
      unfold push at hf'
      split at hf'
      · cases hf'
        have hlt : i < f.slots.size := by simpa using hlt
        have hne : f.top ≠ i := by
          have : f.top + 1 ≤ i := hi
          omega
        rw [Array.getElem?_setIfInBounds_ne hne]
        apply hf.nil i _ hlt
        exact Nat.le_of_succ_le hi
      · cases hf'
    have hacc : f.access (.push v) = .ok ([], f') := by rw [access, hf']; rfl
    have habs : f.areas.access (.push v) = .ok ([], f'.areas) := by
      rw [areas_congr hc (hb hf.toProper), hops hf.toProper]
      exact if_pos h
    rw [hacc, habs]
    exact .ok [] hc hclear
  · have htop : f.top = f.slots.size := by
      have hs := size_eq hf.toProper
      have hle := hf.top_le
      have hbase := hf.baseline_le
      rw [length_operands hf.toProper, depth] at h
      omega
    have hacc : f.access (.push v) = .error (Refusal.overflow.fault f.method f.slots.size) := by
      simp only [access, push, htop, Nat.lt_irrefl, if_false, Refusal.fault]
      rfl
    rw [hacc, show f.areas.access (.push v) = .error .overflow from if_neg h]
    exact .error .overflow

theorem pop_agrees (hf : f.Cleared) : f.Agrees (f.access .pop) (f.areas.access .pop) := by
  by_cases h : f.operands = []
  · have hacc : f.access .pop = .error (Refusal.underflow.fault f.method f.slots.size) := by
      have hdepth := length_operands hf.toProper
      rw [h, List.length_nil, depth] at hdepth
      rw [access, pop, if_pos (by omega)]
      rfl
    have habs : f.areas.access .pop = .error .underflow := by simp [Areas.access, areas, h]
    rw [hacc, habs]
    exact .error .underflow
  · obtain ⟨v, f', hf'⟩ := pop_of_ne_nil hf.toProper h
    obtain ⟨hc, hops, hb⟩ := pop_eq_ok hf'
    have hclear : f'.Cleared := by
      refine { hc.proper hf.toProper with nil := fun i hi hlt => ?_ }
      unfold pop at hf'
      split at hf'
      · cases hf'
      · dsimp only at hf'
        split at hf'
        · cases hf'
          have hlt : i < f.slots.size := by simpa using hlt
          have hi : f.top - 1 ≤ i := hi
          by_cases htop : f.top - 1 = i
          · rw [htop, Array.getElem?_setIfInBounds_self_of_lt hlt]
          · rw [Array.getElem?_setIfInBounds_ne htop]
            apply hf.nil i _ hlt
            omega
        · cases hf'
    have hacc : f.access .pop = .ok ([v], f') := by rw [access, hf']; rfl
    have habs : f.areas.access .pop = .ok ([v], f'.areas) := by
      rw [areas_congr hc (hb hf.toProper)]
      simp [Areas.access, areas, hops hf.toProper]
    rw [hacc, habs]
    exact .ok [v] hc hclear

theorem popN_agrees (hf : f.Cleared) (count : Nat) :
    f.Agrees (f.access (.popN count)) (f.areas.access (.popN count)) := by
  by_cases h : count ≤ f.operands.length
  · obtain ⟨vs, f', hf'⟩ := popN_of_le hf.toProper h
    obtain ⟨hc, hops, hlen, hb⟩ := popN_eq_ok hf'
    have hclear : f'.Cleared := by
      refine { hc.proper hf.toProper with nil := fun i hi hlt => ?_ }
      unfold popN at hf'
      split at hf'
      · cases hf'
      · dsimp only at hf'
        split at hf'
        · cases hf'
          have hlt : i < f.slots.size := by simpa [size_clearSlots] using hlt
          have hi : f.top - count ≤ i := hi
          rw [getElem?_clearSlots]
          split
          · rfl
          · apply hf.nil i _ hlt
            omega
        · cases hf'
    have habs : f.areas.access (.popN count) = .ok (vs, f'.areas) := by
      rw [areas_congr hc (hb hf.toProper)]
      simp [Areas.access, areas, hops hf.toProper, ← hlen hf.toProper]
    rw [habs, access, hf']
    exact .ok vs hc hclear
  · have hacc : f.access (.popN count) = .error (Refusal.underflow.fault f.method f.slots.size) := by
      rw [length_operands hf.toProper] at h
      rw [access, popN, if_pos (by omega)]
      rfl
    rw [hacc, show f.areas.access (.popN count) = .error .underflow from if_neg h]
    exact .error .underflow

theorem peek_agrees (hf : f.Cleared) (offset : Nat) :
    f.Agrees (f.access (.peek offset)) (f.areas.access (.peek offset)) := by
  by_cases h : offset < f.depth
  · obtain ⟨v, hv⟩ := peek_of_lt hf.toProper (by rwa [length_operands hf.toProper])
    have hget : f.operands.reverse[offset]? = some v := by
      rw [getElem?_reverse_operands hf.toProper h]
      rw [peek, if_neg (Nat.not_le.mpr h)] at hv
      split at hv
      · next hslot =>
        cases hv
        exact hslot
      · cases hv
    have habs : f.areas.access (.peek offset) = .ok ([v], f.areas) := by
      simp only [Areas.access, areas, hget]
    rw [habs, access, hv]
    exact .ok [v] (.refl f) hf
  · have hget : f.operands.reverse[offset]? = none := by
      rw [List.getElem?_eq_none]
      simpa [length_operands hf.toProper] using h
    have hacc : f.access (.peek offset) = .error (Refusal.underflow.fault f.method f.slots.size) := by
      rw [access, peek, if_pos (Nat.le_of_not_lt h)]
      rfl
    have habs : f.areas.access (.peek offset) = .error .underflow := by
      simp only [Areas.access, areas, hget]
    rw [hacc, habs]
    exact .error .underflow

theorem reset_continues (f : Frame) : f.Continues f.reset := by
  refine ⟨rfl, rfl, rfl, rfl, fun hf => ⟨?_, ?_, ?_⟩⟩
  · simpa [reset, size_clearSlots] using hf.size
  · exact Nat.le_refl _
  · simpa [reset, size_clearSlots] using baseline_le_size hf

theorem reset_agrees (hf : f.Cleared) : f.Agrees (f.access .reset) (f.areas.access .reset) := by
  have hc := reset_continues f
  have hclear : f.reset.Cleared := by
    refine { hc.proper hf.toProper with nil := fun i hi hlt => ?_ }
    have hlt : i < f.slots.size := by simpa [reset, size_clearSlots] using hlt
    have hi : f.baseline ≤ i := hi
    have hbase := hf.baseline_le
    change (clearSlots f.slots f.baseline f.depth)[i]? = _
    rw [getElem?_clearSlots]
    split
    · rfl
    · apply hf.nil i _ hlt
      rw [depth] at *
      omega
  have hb : f.reset.bindings = f.bindings := take_clearSlots f.slots (Nat.le_refl _) _
  have hops : f.reset.operands = [] := by simp [operands, reset, baseline]
  have habs : f.areas.access .reset = .ok ([], f.reset.areas) := by
    rw [areas_congr hc hb, hops]
    rfl
  rw [habs]
  exact .ok [] hc hclear

theorem read_agrees (hf : f.Cleared) (area : Area) (index : Nat) :
    f.Agrees (f.access (.read area index)) (f.areas.access (.read area index)) := by
  by_cases h : index < f.areaSize area
  · obtain ⟨v, hv⟩ := read_of_lt hf.toProper h
    have hget : (f.areas.get area)[index]? = some v := by
      rw [getElem?_get_areas hf.toProper h]
      rw [read, if_pos h] at hv
      split at hv
      · next hslot =>
        cases hv
        exact hslot
      · cases hv
    have habs : f.areas.access (.read area index) = .ok ([v], f.areas) := by
      simp only [Areas.access, hget]
    rw [habs, access, hv]
    exact .ok [v] (.refl f) hf
  · have hget : (f.areas.get area)[index]? = none := by
      rw [List.getElem?_eq_none]
      simpa [length_get_areas hf.toProper] using h
    have hacc : f.access (.read area index) =
        .error ((Refusal.noSlot area index).fault f.method f.slots.size) := by
      rw [access, read, if_neg h]
      rfl
    have habs : f.areas.access (.read area index) = .error (.noSlot area index) := by
      simp only [Areas.access, hget]
    rw [hacc, habs]
    exact .error (.noSlot area index)

theorem areas_write (hc : f.Continues f') (hops : f'.operands = f.operands)
    {area : Area} {index : Nat} {v : Value} (h : index < f.areaSize area)
    (hslots : f'.slots = f.slots.setIfInBounds (f.areaStart area + index) v) :
    f'.areas = f.areas.set area ((f.areas.get area).set index v) := by
  have hbind : f'.bindings = f.bindings.set (f.areaStart area + index) v := by
    rw [bindings, bindings, hslots, Array.toList_setIfInBounds, List.take_set, baseline, baseline,
      hc.code]
  cases area with
  | arguments =>
    have hlt : index < f.code.argCount := h
    simp only [areas, Areas.set, Areas.get, hc.code, hops, hbind, areaStart, Nat.zero_add,
      List.take_set, List.drop_set_of_lt hlt]
  | locals =>
    simp only [areas, Areas.set, Areas.get, hc.code, hops, hbind, areaStart, List.drop_set,
      if_neg (show ¬ f.code.argCount + index < f.code.argCount by omega), Nat.add_sub_cancel_left,
      List.take_set_of_le (Nat.le_add_right f.code.argCount index)]

theorem write_agrees (hf : f.Cleared) (area : Area) (index : Nat) (v : Value) :
    f.Agrees (f.access (.write area index v)) (f.areas.access (.write area index v)) := by
  by_cases h : index < f.areaSize area
  · obtain ⟨f', hf'⟩ := write_of_lt hf.toProper h v
    obtain ⟨hc, hops, -, hslots⟩ := write_eq_ok hf'
    have hend := (areaEnd_le hf.toProper area).1
    have hbase := hf.baseline_le
    have htop : f'.top = f.top := by rw [(eq_of_write hf').2.2]
    have hclear : f'.Cleared := by
      refine { hc.proper hf.toProper with nil := fun i hi hlt => ?_ }
      rw [hslots, Array.size_setIfInBounds] at hlt
      rw [htop] at hi
      rw [hslots, Array.getElem?_setIfInBounds_ne (by omega)]
      exact hf.nil i hi hlt
    have habs : f.areas.access (.write area index v) = .ok ([], f'.areas) := by
      rw [areas_write hc (hops hf.toProper) h hslots]
      exact if_pos (by rwa [length_get_areas hf.toProper])
    rw [habs, access, hf']
    exact .ok [] hc hclear
  · have hacc : f.access (.write area index v) =
        .error ((Refusal.noSlot area index).fault f.method f.slots.size) := by
      rw [access, write, if_neg (by simp [h])]
      rfl
    have habs : f.areas.access (.write area index v) = .error (.noSlot area index) :=
      if_neg (by rwa [length_get_areas hf.toProper])
    rw [hacc, habs]
    exact .error (.noSlot area index)

theorem access_agrees (hf : f.Cleared) (a : Access) : f.Agrees (f.access a) (f.areas.access a) := by
  cases a with
  | push v => exact push_agrees hf v
  | pop => exact pop_agrees hf
  | popN count => exact popN_agrees hf count
  | peek offset => exact peek_agrees hf offset
  | reset => exact reset_agrees hf
  | read area index => exact read_agrees hf area index
  | write area index v => exact write_agrees hf area index v

theorem accessAll_agrees (hf : f.Cleared) (as : List Access) :
    (accessAll access as f).1 =
        (accessAll Areas.access as f.areas).1.map
          (·.mapError (Refusal.fault f.method f.code.maxStack)) ∧
      (accessAll access as f).2.areas = (accessAll Areas.access as f.areas).2 ∧
      f.Continues (accessAll access as f).2 ∧ (accessAll access as f).2.Cleared := by
  induction as generalizing f with
  | nil => exact ⟨rfl, rfl, .refl f, hf⟩
  | cons a as ih =>
    have h := access_agrees hf a
    revert h
    generalize hr : f.access a = r
    generalize hs : f.areas.access a = s
    intro h
    cases h with
    | ok vs hc hclear =>
      obtain ⟨hans, hareas, hcont, hclear'⟩ := ih hclear
      simp only [accessAll, hr, hs, Prod.map_fst, Prod.map_snd, List.map_cons, id]
      refine ⟨?_, hareas, hc.trans hcont, hclear'⟩
      rw [hans, hc.method, hc.code]
      rfl
    | error refusal =>
      obtain ⟨hans, hareas, hcont, hclear'⟩ := ih hf
      simp only [accessAll, hr, hs, Prod.map_fst, Prod.map_snd, List.map_cons, id]
      refine ⟨?_, hareas, hcont, hclear'⟩
      rw [hans, hf.size]
      rfl

variable {method : CodeRef} {code : Code} {args : List Value} {marker : MarkerRef}
  {outer : Option FrameRef}

theorem create_cleared (h : create method code args marker outer = .ok f) : f.Cleared := by
  refine { (create_eq_ok h).2.1 with nil := fun i hi hlt => ?_ }
  unfold create at h
  split at h
  · next hlen =>
    cases h
    have hi : code.argCount + code.localCount ≤ i := hi
    rw [Array.getElem?_append_right (by simp [hlen]; omega), Array.getElem?_replicate, if_pos]
    simp only [Array.size_append, List.size_toArray, Array.size_replicate] at hlt ⊢
    omega
  · cases h

theorem areas_create (h : create method code args marker outer = .ok f) :
    f.areas = ⟨args, List.replicate code.localCount .nil, [], code.operandCapacity⟩ := by
  obtain ⟨hlen, -, hops, -, rfl, -, -, hb⟩ := create_eq_ok h
  simp [areas, hops, hb, ← hlen]

/-- An access that is no write leaves the arguments and the locals as they are, and a write leaves the
operands. -/
theorem access_leaves {vs : List Value} (hf : f.Cleared) {a : Access}
    (h : f.access a = .ok (vs, f')) :
    (a.isWrite = false →
      f'.areas.arguments = f.areas.arguments ∧ f'.areas.locals = f.areas.locals) ∧
    (a.isWrite = true → f'.areas.operands = f.areas.operands) := by
  have hagrees := access_agrees hf a
  rw [h] at hagrees
  generalize hs : f.areas.access a = s at hagrees
  cases hagrees with
  | ok _ hc hclear => exact Areas.access_leaves hs

/-- A layout with the arguments of its signature overflows exactly if its counts leave the machine word.
A frame of an accepted one behaves, under any accesses in any order, like a list of arguments, a list of
locals that are nil at first and a stack of operands of bounded depth. Its slots above the operands
stay nil. -/
theorem refines_areas (l : Layout) (method : CodeRef) (marker : MarkerRef) (outer : Option FrameRef) :
    (l.code? = .error (.internal .countOverflow) ↔ l.argCount = l.signature.arity ∧ ¬ l.Fits) ∧
    ∀ code args, l.code? = .ok code → args.length = l.argCount →
      l.Fits ∧ ∃ f, create method code args marker outer = .ok f ∧ ∀ accesses : List Access,
        let s : Areas :=
          ⟨args, List.replicate l.localCount .nil, [], l.maxStack - l.argCount - l.localCount⟩
        let (expected, s') := accessAll Areas.access accesses s
        let (answers, f') := accessAll access accesses f
        answers = expected.map (·.mapError (Refusal.fault method l.maxStack)) ∧
        f'.areas = s' ∧
        (f'.baseline ≤ f'.top ∧ f'.top ≤ f'.slots.size ∧
          ∀ i, f'.top ≤ i → i < f'.slots.size → f'.slots[i]? = some .nil) ∧
        ∀ a vs f'', f'.access a = .ok (vs, f'') →
          (a.isWrite = false →
            f''.areas.arguments = f'.areas.arguments ∧ f''.areas.locals = f'.areas.locals) ∧
          (a.isWrite = true → f''.areas.operands = f'.areas.operands) := by
  refine ⟨Layout.code?_eq_countOverflow, fun code args hcode hargs => ?_⟩
  obtain ⟨-, hfits, -⟩ := Layout.code?_eq_ok hcode
  obtain ⟨hcount, hlocals, hcapacity, hmax⟩ := Layout.counts_of_code? hcode
  obtain ⟨f, hf⟩ : ∃ f, create method code args marker outer = .ok f := by
    rw [create, if_pos (hargs.trans hcount.symm)]
    exact ⟨_, rfl⟩
  obtain ⟨-, -, -, hmethod, hfcode, -, -, -⟩ := create_eq_ok hf
  refine ⟨hfits, f, hf, fun accesses => ?_⟩
  obtain ⟨hanswers, hareas, -, hclear⟩ := accessAll_agrees (create_cleared hf) accesses
  rw [areas_create hf, hlocals, hcapacity] at hanswers hareas
  rw [hmethod, hfcode, hmax] at hanswers
  refine ⟨hanswers, hareas, ⟨hclear.baseline_le, hclear.top_le, hclear.nil⟩, fun a vs f'' h => ?_⟩
  exact access_leaves hclear h

theorem refines_areas_filling :
    let l : Layout := ⟨⟨0, "at:put:"⟩, #[], #[], 3, 1, 6, 0⟩
    ∃ f, (l.code? >>= fun code =>
        create ⟨0⟩ code [.nil, .integer 1, .integer 2] ⟨0⟩ none) = .ok f ∧
      (accessAll access [.push (.integer 7), .push (.integer 8), .push (.integer 9),
        .write .locals 0 (.integer 5), .popN 2, .pop, .read .locals 0, .read .locals 1] f).1 =
        [.ok [], .ok [], .error (Refusal.overflow.fault ⟨0⟩ 6), .ok [],
          .ok [.integer 7, .integer 8], .error (Refusal.underflow.fault ⟨0⟩ 6), .ok [.integer 5],
          .error ((Refusal.noSlot .locals 1).fault ⟨0⟩ 6)] := by
  intro l
  have harity : Symbol.arity ⟨0, "at:put:"⟩ = 3 := by decide +kernel
  have hfits : l.Fits := by decide
  obtain ⟨code, hl⟩ : ∃ code, l.code? = .ok code := by
    unfold Layout.code?
    simp [l, harity, hfits]
  have hargs : [Value.nil, .integer 1, .integer 2].length = l.argCount := rfl
  obtain ⟨-, f, hf, h⟩ := (refines_areas l ⟨0⟩ ⟨0⟩ none).2 code _ hl hargs
  refine ⟨f, ?_, (h _).1⟩
  rw [hl]
  exact hf

end Frame

end MessageMachine
