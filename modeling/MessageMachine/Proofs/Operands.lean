import MessageMachine.Frame

namespace MessageMachine

namespace Frame

/-- The slots of a frame fit its code, and its operands lie between the baseline and the end. -/
structure Proper (f : Frame) : Prop where
  size : f.slots.size = f.code.maxStack
  baseline_le : f.baseline ≤ f.top
  top_le : f.top ≤ f.slots.size

def operands (f : Frame) : List Value := (f.slots.toList.take f.top).drop f.baseline

def bindings (f : Frame) : List Value := f.slots.toList.take f.baseline

/-- A later state of the same frame. -/
structure Continues (f f' : Frame) : Prop where
  method : f'.method = f.method
  code : f'.code = f.code
  marker : f'.marker = f.marker
  outer : f'.outer = f.outer
  proper : f.Proper → f'.Proper

theorem Continues.refl (f : Frame) : f.Continues f := ⟨rfl, rfl, rfl, rfl, id⟩

theorem Continues.trans {f g h : Frame} (hfg : f.Continues g) (hgh : g.Continues h) :
    f.Continues h :=
  ⟨hgh.method.trans hfg.method, hgh.code.trans hfg.code, hgh.marker.trans hfg.marker,
    hgh.outer.trans hfg.outer, hgh.proper ∘ hfg.proper⟩

variable {f f' : Frame}

theorem baseline_le_size (hf : f.Proper) : f.baseline ≤ f.slots.size :=
  Nat.le_trans hf.baseline_le hf.top_le

theorem length_operands (hf : f.Proper) : f.operands.length = f.depth := by
  have := hf.top_le
  simp [operands, depth]
  omega

theorem size_eq (hf : f.Proper) : f.slots.size = f.baseline + f.code.operandCapacity := hf.size

theorem length_operands_le (hf : f.Proper) : f.operands.length ≤ f.code.operandCapacity := by
  have hs := size_eq hf
  have ht := hf.top_le
  rw [length_operands hf, depth]
  omega

theorem create_eq_ok {method : CodeRef} {code : Code} {args : List Value} {marker : MarkerRef}
    {outer : Option FrameRef} (h : create method code args marker outer = .ok f) :
    args.length = code.argCount ∧ f.Proper ∧ f.operands = [] ∧ f.method = method ∧
      f.code = code ∧ f.marker = marker ∧ f.outer = outer ∧
      f.bindings = args ++ List.replicate code.localCount .nil := by
  unfold create at h
  split at h
  · next hlen =>
    cases h
    refine ⟨hlen, ⟨?_, ?_, ?_⟩, ?_, rfl, rfl, rfl, rfl, ?_⟩
    · simp [Code.maxStack, Code.baseline, hlen]
      omega
    · exact Nat.le_refl _
    · simp [Code.baseline, hlen]
    · simp [operands, baseline]
    · simp only [bindings, baseline, Code.baseline, ← hlen, Array.toList_append,
        Array.toList_replicate, List.take_length_add_append, List.take_replicate]
      rw [Nat.min_eq_left (Nat.le_add_right _ _)]
  · cases h

theorem push_eq_ok {x : Value} (h : f.push x = .ok f') :
    f.Continues f' ∧ (f.Proper → f'.operands = f.operands ++ [x]) ∧ f'.top = f.top + 1 ∧
      (f.Proper → f'.bindings = f.bindings) := by
  unfold push at h
  split at h
  · next hlt =>
    cases h
    refine ⟨⟨rfl, rfl, rfl, rfl, fun hf => ⟨?_, ?_, ?_⟩⟩, fun hf => ?_, rfl, fun hf => ?_⟩
    · simpa using hf.size
    · exact Nat.le_succ_of_le hf.baseline_le
    · simpa using Nat.succ_le_of_lt hlt
    · have hb : f.code.baseline ≤ f.top := hf.baseline_le
      simp only [operands, baseline, Array.toList_setIfInBounds]
      rw [List.take_add_one, List.getElem?_set_self (by simpa using hlt), Option.toList_some,
        List.take_set_of_le (Nat.le_refl _), List.drop_append_of_le_length]
      simp only [List.length_take, Array.length_toList]
      omega
    · simp only [bindings, baseline, Array.toList_setIfInBounds]
      exact List.take_set_of_le hf.baseline_le
  · cases h

theorem push_of_lt (hf : f.Proper) (h : f.operands.length < f.code.operandCapacity) (x : Value) :
    ∃ f', f.push x = .ok f' := by
  have hb := hf.baseline_le
  have hs := size_eq hf
  rw [length_operands hf, depth] at h
  exact ⟨_, by rw [push, if_pos (by omega)]⟩

theorem pop_eq_ok {x : Value} (h : f.pop = .ok (x, f')) :
    f.Continues f' ∧ (f.Proper → f.operands = f'.operands ++ [x]) ∧
      (f.Proper → f'.bindings = f.bindings) := by
  unfold pop at h
  split at h
  · cases h
  · next hlt =>
    dsimp only at h
    split at h
    · next hx =>
      cases h
      have hlt : f.code.baseline < f.top := Nat.lt_of_not_le hlt
      refine ⟨⟨rfl, rfl, rfl, rfl, fun hf => ⟨?_, ?_, ?_⟩⟩, fun hf => ?_, fun hf => ?_⟩
      · simpa using hf.size
      · exact Nat.le_sub_one_of_lt hlt
      · simpa using Nat.le_trans (Nat.sub_le _ _) hf.top_le
      · have htop : f.top = f.top - 1 + 1 := by omega
        have hget : f.slots.toList[f.top - 1]? = some x := by simpa using hx
        simp only [operands, baseline, Array.toList_setIfInBounds]
        rw [List.take_set_of_le (Nat.le_refl _), htop, List.take_add_one, Nat.add_sub_cancel, hget,
          List.drop_append_of_le_length, Option.toList_some]
        have := hf.top_le
        simp only [List.length_take, Array.length_toList]
        omega
      · simp only [bindings, baseline, Array.toList_setIfInBounds]
        exact List.take_set_of_le (by omega)
    · cases h

theorem pop_of_ne_nil (hf : f.Proper) (h : f.operands ≠ []) : ∃ x f', f.pop = .ok (x, f') := by
  have hlen : 0 < f.depth := by
    rw [← length_operands hf]
    exact List.length_pos_iff.mpr h
  have ht := hf.top_le
  simp only [depth] at hlen
  obtain ⟨x, hx⟩ : ∃ x, f.slots[f.top - 1]? = some x :=
    ⟨_, Array.getElem?_eq_getElem (by omega)⟩
  simp only [pop, if_neg (show ¬ f.top ≤ f.baseline by omega), hx]
  exact ⟨x, _, rfl⟩

theorem size_clearSlots (slots : Array Value) (start n : Nat) :
    (clearSlots slots start n).size = slots.size := by
  induction n with
  | zero => rfl
  | succ n ih => simp [clearSlots, ih]

theorem take_clearSlots (slots : Array Value) {start k : Nat} (h : k ≤ start) (n : Nat) :
    (clearSlots slots start n).toList.take k = slots.toList.take k := by
  induction n with
  | zero => rfl
  | succ n ih =>
    rw [clearSlots, Array.toList_setIfInBounds, List.take_set_of_le (by omega), ih]

theorem popN_eq_ok {n : Nat} {xs : List Value} (h : f.popN n = .ok (xs, f')) :
    f.Continues f' ∧ (f.Proper → f.operands = f'.operands ++ xs) ∧ (f.Proper → xs.length = n) ∧
      (f.Proper → f'.bindings = f.bindings) := by
  unfold popN at h
  split at h
  · cases h
  · next hn =>
    dsimp only at h
    split at h
    · next htop =>
      cases h
      have hn : n ≤ f.top - f.baseline := Nat.le_of_not_lt hn
      refine ⟨⟨rfl, rfl, rfl, rfl, fun hf => ?_⟩, fun hf => ?_, fun hf => ?_, fun hf => ?_⟩
      · have hb : f.code.baseline ≤ f.top := hf.baseline_le
        refine ⟨by simpa only [size_clearSlots] using hf.size, ?_, ?_⟩
        · change f.code.baseline ≤ f.top - n
          simp only [baseline] at hn
          omega
        · simp only [size_clearSlots]
          omega
      · have hb := hf.baseline_le
        simp only [operands, take_clearSlots f.slots (Nat.le_refl _)]
        change List.drop f.baseline _ = List.drop f.baseline _ ++ _
        rw [Array.toList_extract, List.extract_eq_take_drop,
          ← List.take_append_drop (f.top - n) (f.slots.toList.take f.top),
          List.take_take, List.drop_append_of_le_length]
        · rw [Nat.min_eq_left (by omega), ← List.drop_take]
        · simp only [List.length_take, Array.length_toList]
          omega
      · have hb := hf.baseline_le
        simp
        omega
      · have hb := hf.baseline_le
        exact take_clearSlots f.slots (by simp only [baseline] at *; omega) n
    · cases h

theorem popN_of_le (hf : f.Proper) {n : Nat} (h : n ≤ f.operands.length) :
    ∃ xs f', f.popN n = .ok (xs, f') := by
  rw [length_operands hf] at h
  simp only [popN, if_neg (Nat.not_lt.mpr h), if_pos hf.top_le]
  exact ⟨_, _, rfl⟩

theorem peek_of_lt (hf : f.Proper) {offset : Nat} (h : offset < f.operands.length) :
    ∃ x, f.peek offset = .ok x := by
  rw [length_operands hf] at h
  have ht := hf.top_le
  have hd : f.depth = f.top - f.baseline := rfl
  obtain ⟨x, hx⟩ : ∃ x, f.slots[f.top - 1 - offset]? = some x :=
    ⟨_, Array.getElem?_eq_getElem (by omega)⟩
  exact ⟨x, by simp only [peek, if_neg (Nat.not_le.mpr h), hx]⟩

theorem areaEnd_le (hf : f.Proper) (area : Area) :
    f.areaStart area + f.areaSize area ≤ f.baseline ∧ f.baseline ≤ f.slots.size := by
  refine ⟨?_, baseline_le_size hf⟩
  cases area with
  | arguments =>
    simp only [areaStart, areaSize, baseline, Code.baseline]
    omega
  | locals => exact Nat.le_refl _

theorem read_of_lt (hf : f.Proper) {area : Area} {index : Nat} (h : index < f.areaSize area) :
    ∃ x, f.read area index = .ok x := by
  have hend := areaEnd_le hf area
  obtain ⟨x, hx⟩ : ∃ x, f.slots[f.areaStart area + index]? = some x :=
    ⟨_, Array.getElem?_eq_getElem (by omega)⟩
  exact ⟨x, by simp only [read, if_pos h, hx]⟩

theorem read_self {x : Value} (h : f.slots[0]? = some x) : f.read .arguments 0 = .ok x := by
  have hpos : 0 < f.areaSize .arguments := f.code.argCount_pos
  simp only [read, if_pos hpos, areaStart, Nat.zero_add, h]

theorem eq_of_write {area : Area} {index : Nat} {x : Value} (h : f.write area index x = .ok f') :
    index < f.areaSize area ∧ f.areaStart area + index < f.slots.size ∧
      f' = { f with slots := f.slots.setIfInBounds (f.areaStart area + index) x } := by
  unfold write at h
  split at h
  · next hlt =>
    cases h
    simp only [Bool.and_eq_true, decide_eq_true_eq] at hlt
    exact ⟨hlt.1, hlt.2, rfl⟩
  · cases h

theorem write_eq_ok {area : Area} {index : Nat} {x : Value} (h : f.write area index x = .ok f') :
    f.Continues f' ∧ (f.Proper → f'.operands = f.operands) ∧
      index < f.areaSize area ∧
      f'.slots = f.slots.setIfInBounds (f.areaStart area + index) x := by
  obtain ⟨hlt, -, rfl⟩ := eq_of_write h
  refine ⟨⟨rfl, rfl, rfl, rfl, fun hf => ⟨?_, hf.baseline_le, ?_⟩⟩, fun hf => ?_, hlt, rfl⟩
  · simpa using hf.size
  · simpa using hf.top_le
  · have hend := (areaEnd_le hf area).1
    simp only [operands, baseline, Array.toList_setIfInBounds]
    rw [List.take_set, List.drop_set_of_lt]
    simp only [baseline] at hend
    omega

theorem write_of_lt (hf : f.Proper) {area : Area} {index : Nat} (h : index < f.areaSize area)
    (x : Value) : ∃ f', f.write area index x = .ok f' := by
  have hend := areaEnd_le hf area
  rw [write, if_pos]
  · exact ⟨_, rfl⟩
  · simp only [Bool.and_eq_true, decide_eq_true_eq]
    omega

/-- A later state of the same frame, in which every slot that was good still is and, if blocks are
guarded, a block activation still has its block. -/
structure Evolves (guarded : Prop) (good : Value → Prop) (f f' : Frame) : Prop
    extends f.Continues f' where
  slots : (∀ v ∈ f.slots, good v) → ∀ v ∈ f'.slots, good v
  self : guarded → f.Proper → f.code.isBlock → f'.slots[0]? = f.slots[0]?

section

variable {guarded : Prop} {good : Value → Prop}

theorem slots_zero (f : Frame) : f.slots[0]? = f.bindings[0]? := by
  have hpos : 0 < f.baseline := Nat.lt_of_lt_of_le f.code.argCount_pos (Nat.le_add_right _ _)
  rw [bindings, List.getElem?_take_of_lt hpos, Array.getElem?_toList]

theorem self_of_bindings (h : f'.bindings = f.bindings) : f'.slots[0]? = f.slots[0]? := by
  rw [slots_zero, slots_zero, h]

theorem push_evolves {x : Value} (hx : good x) (h : f.push x = .ok f') : f.Evolves guarded good f' := by
  obtain ⟨hc, -, -, hb⟩ := push_eq_ok h
  refine ⟨hc, fun hs v hv => ?_, fun _ hp _ => self_of_bindings (hb hp)⟩
  unfold push at h
  split at h
  · cases h
    rcases Array.mem_or_eq_of_mem_setIfInBounds hv with hv | rfl
    · exact hs v hv
    · exact hx
  · cases h

theorem pop_evolves {x : Value} (hnil : good .nil) (h : f.pop = .ok (x, f')) :
    f.Evolves guarded good f' ∧ x ∈ f.slots := by
  obtain ⟨hc, -, hb⟩ := pop_eq_ok h
  unfold pop at h
  split at h
  · cases h
  · dsimp only at h
    split at h
    · next hget =>
      cases h
      refine ⟨⟨hc, fun hs v hv => ?_, fun _ hp _ => self_of_bindings (hb hp)⟩,
        Array.mem_of_getElem? hget⟩
      rcases Array.mem_or_eq_of_mem_setIfInBounds hv with hv | rfl
      · exact hs v hv
      · exact hnil
    · cases h

theorem mem_clearSlots {slots : Array Value} {start n : Nat} {v : Value}
    (h : v ∈ clearSlots slots start n) : v ∈ slots ∨ v = .nil := by
  induction n with
  | zero => exact .inl h
  | succ n ih =>
    rcases Array.mem_or_eq_of_mem_setIfInBounds h with h | h
    · exact ih h
    · exact .inr h

theorem popN_evolves {n : Nat} {xs : List Value} (hnil : good .nil) (h : f.popN n = .ok (xs, f')) :
    f.Evolves guarded good f' ∧ ∀ x ∈ xs, x ∈ f.slots := by
  obtain ⟨hc, -, -, hb⟩ := popN_eq_ok h
  unfold popN at h
  split at h
  · cases h
  · dsimp only at h
    split at h
    · cases h
      refine ⟨⟨hc, fun hs v hv => ?_, fun _ hp _ => self_of_bindings (hb hp)⟩, fun x hx => ?_⟩
      · rcases mem_clearSlots hv with hv | rfl
        · exact hs v hv
        · exact hnil
      · rw [Array.mem_toList_iff, Array.mem_extract_iff_getElem] at hx
        obtain ⟨k, hk, rfl⟩ := hx
        exact Array.getElem_mem _
    · cases h

theorem create_mem {method : CodeRef} {code : Code} {args : List Value} {marker : MarkerRef}
    {outer : Option FrameRef} (h : create method code args marker outer = .ok f) {v : Value}
    (hv : v ∈ f.slots) : v ∈ args ∨ v = .nil := by
  unfold create at h
  split at h
  · cases h
    rcases Array.mem_append.mp hv with hv | hv
    · exact .inl (by simpa using hv)
    · exact .inr (Array.mem_replicate.mp hv).2
  · cases h

theorem create_self {method : CodeRef} {code : Code} {args : List Value} {marker : MarkerRef}
    {outer : Option FrameRef} (h : create method code args marker outer = .ok f) :
    f.slots[0]? = args[0]? := by
  obtain ⟨hlen, -, -, -, -, -, -, hb⟩ := create_eq_ok h
  have hpos : 0 < args.length := hlen ▸ code.argCount_pos
  rw [slots_zero, hb, List.getElem?_append_left hpos]

theorem peek_mem {offset : Nat} {x : Value} (h : f.peek offset = .ok x) : x ∈ f.slots := by
  unfold peek at h
  split at h
  · cases h
  split at h
  · next hget =>
    cases h
    exact Array.mem_of_getElem? hget
  · cases h

theorem read_mem {area : Area} {index : Nat} {x : Value} (h : f.read area index = .ok x) :
    x ∈ f.slots := by
  unfold read at h
  split at h
  · split at h
    · next hget =>
      cases h
      exact Array.mem_of_getElem? hget
    · cases h
  · cases h

/-- Whether a store into a slot leaves the block of a block activation alone. -/
def Spares (f : Frame) (area : Area) (index : Nat) : Prop :=
  f.code.isBlock → area = .arguments → index ≠ 0

instance (f : Frame) (area : Area) (index : Nat) : Decidable (f.Spares area index) :=
  inferInstanceAs (Decidable (_ → _ → _))

theorem write_evolves {area : Area} {index : Nat} {x : Value} (hx : good x)
    (hs : guarded → f.Spares area index) (h : f.write area index x = .ok f') : f.Evolves guarded good f' := by
  obtain ⟨hc, -, -, hslots⟩ := write_eq_ok h
  refine ⟨hc, fun hg v hv => ?_, fun hguarded hp hb => ?_⟩
  · rw [hslots] at hv
    rcases Array.mem_or_eq_of_mem_setIfInBounds hv with hv | rfl
    · exact hg v hv
    · exact hx
  · have hne : f.areaStart area + index ≠ 0 := by
      cases area with
      | arguments => simpa [areaStart] using hs hguarded hb rfl
      | locals =>
        have := f.code.argCount_pos
        simp only [areaStart]
        omega
    rw [hslots, Array.getElem?_setIfInBounds_ne hne]

end

end Frame

end MessageMachine
