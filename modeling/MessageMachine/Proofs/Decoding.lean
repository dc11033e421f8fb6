import Mathlib.Data.Nat.Init
import MessageMachine.Proofs.Printing
import MessageMachine.Proofs.Reaching

namespace MessageMachine

theorem Instruction.ofOperands_congr {op : Opcode} {x x' y y' : UInt8}
    (hx : 1 < op.length → x = x') (hy : 2 < op.length → y = y') :
    ofOperands op x y = ofOperands op x' y' := by
  cases op
  case halt | dup | pop | returnLocal | returnNonLocal => rfl
  case pushLocal | pushArgument | popLocal | popArgument => rw [hx (by decide), hy (by decide)]
  all_goals
    rw [hx (by decide)]
    rfl

/-- Instructions read one after another, and where and why no other could be read. -/
structure Decoding where
  instructions : List (Nat × Instruction)
  stop : Nat
  reason : Undecodable

/-- Reads as many instructions as there are from an offset on. -/
def decodeFrom (bytes : Array UInt8) (offset : Nat) : Decoding :=
  match _h : fetch bytes offset with
  | .error reason => ⟨[], offset, reason⟩
  | .ok i =>
    let later := decodeFrom bytes (offset + i.length)
    { later with instructions := (offset, i) :: later.instructions }
termination_by bytes.size - offset
decreasing_by
  have := fetch_le _h
  omega

section

variable {bytes : Array UInt8} {offset : Nat} {b : UInt8} {rest : List UInt8} {op : Opcode}

theorem decodeFrom_ok {i : Instruction} (h : fetch bytes offset = .ok i) :
    decodeFrom bytes offset = { decodeFrom bytes (offset + i.length) with
      instructions := (offset, i) :: (decodeFrom bytes (offset + i.length)).instructions } := by
  rw [decodeFrom]
  split
  · next h' =>
    rw [h] at h'
    cases h'
  · next h' =>
    rw [h] at h'
    cases h'
    rfl

theorem decodeFrom_error {reason : Undecodable} (h : fetch bytes offset = .error reason) :
    decodeFrom bytes offset = ⟨[], offset, reason⟩ := by
  rw [decodeFrom]
  split
  · next h' =>
    rw [h] at h'
    cases h'
    rfl
  · next h' =>
    rw [h] at h'
    cases h'

theorem getElem?_of_drop (h : bytes.toList.drop offset = b :: rest) (n : Nat) :
    bytes[offset + n]? = (b :: rest)[n]? := by
  rw [← Array.getElem?_toList, ← List.getElem?_drop, h]

theorem size_of_drop (h : bytes.toList.drop offset = b :: rest) :
    bytes.size = offset + (rest.length + 1) := by
  have hlen := congrArg List.length h
  rw [List.length_drop, Array.length_toList, List.length_cons] at hlen
  omega

theorem getElem?_of_drop_cons (h : bytes.toList.drop offset = b :: rest) :
    bytes[offset]? = some b := getElem?_of_drop h 0

theorem drop_known (h : bytes.toList.drop offset = b :: rest) :
    bytes.toList.drop (offset + op.length) = rest.drop (op.length - 1) := by
  obtain ⟨n, hn⟩ := Nat.exists_eq_add_of_lt op.length_pos
  rw [Nat.zero_add] at hn
  rw [hn, ← List.drop_drop, h, List.drop_succ_cons, Nat.add_sub_cancel]

theorem sendOffsets_known (hb : Opcode.ofByte? b = some op) :
    sendOffsets offset (b :: rest) =
      (if op = .send then [offset] else []) ++
        if op.length ≤ rest.length + 1 then
          sendOffsets (offset + op.length) (rest.drop (op.length - 1))
        else [] := by
  have hlater {l : List Nat} : (if op = .send then offset :: l else l) =
      (if op = .send then [offset] else []) ++ l := by split <;> rfl
  rw [sendOffsets, hb]
  dsimp only
  rw [hlater]
  congr 1
  obtain hl | hl | hl := op.length_cases <;> rw [hl] <;>
    rcases rest with _ | ⟨x, _ | ⟨y, rest⟩⟩ <;> simp

theorem listingLines_known (hb : Opcode.ofByte? b = some op) :
    listingLines offset (b :: rest) =
      if op.length ≤ rest.length + 1 then
        .instruction offset (.ofOperands op (rest.getD 0 0) (rest.getD 1 0)) ::
          listingLines (offset + op.length) (rest.drop (op.length - 1))
      else [.truncated offset op] := by
  have hops {x x' y y' : UInt8} : (1 < op.length → x = x') → (2 < op.length → y = y') →
      Instruction.ofOperands op x y = .ofOperands op x' y' := Instruction.ofOperands_congr
  rw [listingLines, hb]
  dsimp only
  obtain hl | hl | hl := op.length_cases <;> rw [hl] at hops ⊢ <;>
    rcases rest with _ | ⟨x, _ | ⟨y, rest⟩⟩ <;> simp <;> exact hops (by simp) (by simp)

end

namespace Decoding

/-- The offsets of the sends that were read, and that of a send without its operand. -/
def sends (bytes : Array UInt8) (d : Decoding) : List Nat :=
  (d.instructions.filter fun p => p.2.opcode = .send).map Prod.fst ++
    if d.reason = .truncated ∧ bytes[d.stop]? = some Opcode.send.byte then [d.stop] else []

theorem mem_sends {bytes : Array UInt8} {d : Decoding} {offset : Nat} :
    offset ∈ d.sends bytes ↔ (∃ l, (offset, .send l) ∈ d.instructions) ∨
      (d.stop = offset ∧ d.reason = .truncated ∧ bytes[offset]? = some Opcode.send.byte) := by
  refine List.mem_append.trans (or_congr ?_ ?_)
  · constructor
    · intro h
      obtain ⟨⟨o, i⟩, hp, rfl⟩ := List.mem_map.mp h
      obtain ⟨hp, hi⟩ := List.mem_filter.mp hp
      cases i with
      | send l => exact ⟨l, hp⟩
      | pushSlot area index level | popSlot area index level => cases area <;> cases hi
      | _ => cases hi
    · rintro ⟨l, hl⟩
      exact List.mem_map.mpr ⟨(offset, .send l), List.mem_filter.mpr ⟨hl, rfl⟩, rfl⟩
  · split
    · next hcut =>
      rw [List.mem_singleton]
      constructor
      · rintro rfl
        exact ⟨rfl, hcut⟩
      · rintro ⟨rfl, -⟩
        rfl
    · next hcut =>
      refine iff_of_false List.not_mem_nil ?_
      rintro ⟨rfl, hreason⟩
      exact hcut hreason

/-- The lines of the instructions that were read. -/
def lines (d : Decoding) : List ListingLine := d.instructions.map fun p => .instruction p.1 p.2

/-- The lines from where reading stopped. -/
def remainder (bytes : Array UInt8) (d : Decoding) : List ListingLine :=
  match d.reason with
  | .unknownByte b =>
    .unknownByte d.stop b :: listingLines (d.stop + 1) (bytes.toList.drop (d.stop + 1))
  | .truncated => ((bytes[d.stop]?.bind Opcode.ofByte?).map (.truncated d.stop)).toList

end Decoding

/-- The offsets of the bytes that a line is about, in a bytecode of this many bytes. -/
def ListingLine.covers (size : Nat) : ListingLine → List Nat
  | instruction o i => List.range' o i.length
  | truncated o _ => List.range' o (size - o)
  | unknownByte o _ => [o]

/-- How the bytes from an offset on can begin, and what is read there. -/
inductive Begins (bytes : Array UInt8) (offset : Nat) : Except Undecodable Instruction → Prop where
  | nil (hdrop : bytes.toList.drop offset = []) : Begins bytes offset (.error .truncated)
  | unknown {b : UInt8} {rest : List UInt8} (hdrop : bytes.toList.drop offset = b :: rest)
      (hb : Opcode.ofByte? b = none) : Begins bytes offset (.error (.unknownByte b))
  | short {b : UInt8} {rest : List UInt8} {op : Opcode}
      (hdrop : bytes.toList.drop offset = b :: rest) (hb : Opcode.ofByte? b = some op)
      (hlt : ¬ op.length ≤ rest.length + 1) : Begins bytes offset (.error .truncated)
  | full {b : UInt8} {rest : List UInt8} {op : Opcode}
      (hdrop : bytes.toList.drop offset = b :: rest) (hb : Opcode.ofByte? b = some op)
      (hle : op.length ≤ rest.length + 1) :
      Begins bytes offset (.ok (.ofOperands op (rest.getD 0 0) (rest.getD 1 0)))

theorem getElem?_of_drop_nil {bytes : Array UInt8} {offset : Nat}
    (h : bytes.toList.drop offset = []) : bytes[offset]? = none := by
  rw [← Array.getElem?_toList, ← Nat.add_zero offset, ← List.getElem?_drop, h]
  rfl

theorem begins_fetch (bytes : Array UInt8) (offset : Nat) :
    Begins bytes offset (fetch bytes offset) := by
  cases hdrop : bytes.toList.drop offset with
  | nil =>
    simp only [fetch, getElem?_of_drop_nil hdrop]
    exact .nil hdrop
  | cons b rest =>
    have hget := getElem?_of_drop hdrop
    have hsize := size_of_drop hdrop
    cases hb : Opcode.ofByte? b with
    | none =>
      simp only [fetch, getElem?_of_drop_cons hdrop, hb]
      exact .unknown hdrop hb
    | some op =>
      simp only [fetch, getElem?_of_drop_cons hdrop, hb, Array.getD_eq_getD_getElem?, hget,
        List.getElem?_cons_succ, ← List.getD_eq_getElem?_getD]
      by_cases hle : op.length ≤ rest.length + 1
      · rw [if_neg (by omega)]
        exact .full hdrop hb hle
      · rw [if_pos (by omega)]
        exact .short hdrop hb hle

theorem sendOffsets_drop (bytes : Array UInt8) (offset : Nat) :
    sendOffsets offset (bytes.toList.drop offset) = (decodeFrom bytes offset).sends bytes := by
  induction offset using decodeFrom.induct bytes with
  | case1 offset reason h =>
    have hbegins := begins_fetch bytes offset
    rw [decodeFrom_error h]
    rw [h] at hbegins
    cases hbegins with
    | nil hdrop => simp [hdrop, sendOffsets, Decoding.sends, getElem?_of_drop_nil hdrop]
    | unknown hdrop hb =>
      rw [hdrop, sendOffsets, hb]
      rfl
    | @short b rest op hdrop hb hlt =>
      have hop : op = .send ↔ b = Opcode.send.byte := by
        refine ⟨fun h => h ▸ Opcode.eq_byte_of_ofByte? hb, fun h => ?_⟩
        rw [h, Opcode.ofByte?_byte] at hb
        exact (Option.some.inj hb).symm
      rw [hdrop, sendOffsets_known hb, if_neg hlt]
      simp [Decoding.sends, getElem?_of_drop_cons hdrop, hop]
  | case2 offset i h ih =>
    have hbegins := begins_fetch bytes offset
    rw [decodeFrom_ok h]
    rw [h] at hbegins
    cases hbegins with
    | full hdrop hb hle =>
      rw [Instruction.length, Instruction.opcode_ofOperands, drop_known hdrop] at ih
      rw [hdrop, sendOffsets_known hb, if_pos hle, ih]
      simp only [Decoding.sends, Instruction.length, Instruction.opcode_ofOperands,
        List.filter_cons, decide_eq_true_eq]
      split <;> rfl

theorem listingLines_drop (bytes : Array UInt8) (offset : Nat) :
    listingLines offset (bytes.toList.drop offset) =
      (decodeFrom bytes offset).lines ++ (decodeFrom bytes offset).remainder bytes := by
  induction offset using decodeFrom.induct bytes with
  | case1 offset reason h =>
    have hbegins := begins_fetch bytes offset
    rw [decodeFrom_error h]
    rw [h] at hbegins
    cases hbegins with
    | nil hdrop =>
      simp [hdrop, listingLines, Decoding.lines, Decoding.remainder, getElem?_of_drop_nil hdrop]
    | @unknown b rest hdrop hb =>
      have hrest : bytes.toList.drop (offset + 1) = rest := by
        rw [← List.drop_drop, hdrop, List.drop_succ_cons, List.drop_zero]
      rw [hdrop, listingLines, hb]
      simp only [Decoding.lines, Decoding.remainder, hrest, List.map_nil, List.nil_append]
    | short hdrop hb hlt =>
      rw [hdrop, listingLines_known hb, if_neg hlt]
      simp [Decoding.lines, Decoding.remainder, getElem?_of_drop_cons hdrop, hb]
  | case2 offset i h ih =>
    have hbegins := begins_fetch bytes offset
    rw [decodeFrom_ok h]
    rw [h] at hbegins
    cases hbegins with
    | full hdrop hb hle =>
      rw [Instruction.length, Instruction.opcode_ofOperands, drop_known hdrop] at ih
      rw [hdrop, listingLines_known hb, if_pos hle, ih]
      simp only [Decoding.lines, Decoding.remainder, Instruction.length,
        Instruction.opcode_ofOperands, List.map_cons, List.cons_append]

theorem decodeFrom_bounds (bytes : Array UInt8) (offset : Nat) :
    ∀ p ∈ (decodeFrom bytes offset).instructions,
      offset ≤ p.1 ∧ p.1 < (decodeFrom bytes offset).stop := by
  have hle (offset : Nat) : offset ≤ (decodeFrom bytes offset).stop := by
    induction offset using decodeFrom.induct bytes with
    | case1 offset reason h => exact Nat.le_of_eq (by rw [decodeFrom_error h])
    | case2 offset i h ih =>
      rw [decodeFrom_ok h]
      exact Nat.le_trans (Nat.le_add_right _ _) ih
  induction offset using decodeFrom.induct bytes with
  | case1 offset reason h =>
    rw [decodeFrom_error h]
    nofun
  | case2 offset i h ih =>
    have hpos := (fetch_le h).1
    have hstop := hle (offset + i.length)
    rw [decodeFrom_ok h]
    refine List.forall_mem_cons.mpr ⟨⟨Nat.le_refl _, by dsimp only; omega⟩, fun p hp => ?_⟩
    obtain ⟨hle', hlt⟩ := ih p hp
    exact ⟨Nat.le_trans (Nat.le_add_right _ _) hle', hlt⟩

theorem instructions_pairwise (bytes : Array UInt8) (offset : Nat) :
    (decodeFrom bytes offset).instructions.Pairwise fun p q => p.1 < q.1 := by
  induction offset using decodeFrom.induct bytes with
  | case1 offset reason h =>
    rw [decodeFrom_error h]
    exact .nil
  | case2 offset i h ih =>
    have hpos := (fetch_le h).1
    rw [decodeFrom_ok h]
    refine List.pairwise_cons.mpr ⟨fun p hp => ?_, ih⟩
    have := (decodeFrom_bounds bytes (offset + i.length) p hp).1
    dsimp only
    omega

theorem sends_pairwise (bytes : Array UInt8) (offset : Nat) :
    ((decodeFrom bytes offset).sends bytes).Pairwise (· < ·) := by
  refine List.pairwise_append.mpr ⟨?_, ?_, fun o ho o' ho' => ?_⟩
  · exact List.pairwise_map.mpr ((instructions_pairwise bytes offset).filter _)
  · split
    · exact List.pairwise_singleton _ _
    · exact .nil
  · obtain ⟨p, hp, rfl⟩ := List.mem_map.mp ho
    split at ho'
    · obtain rfl := List.mem_singleton.mp ho'
      exact (decodeFrom_bounds bytes offset p (List.mem_filter.mp hp).1).2
    · cases ho'

theorem covers_listingLines (offset : Nat) (bytes : List UInt8) :
    (listingLines offset bytes).flatMap (·.covers (offset + bytes.length)) =
      List.range' offset bytes.length := by
  induction hn : bytes.length using Nat.strong_induction_on generalizing offset bytes with
  | h n ih =>
    subst hn
    cases bytes with
    | nil => rfl
    | cons b rest =>
      rw [List.length_cons] at ih
      cases hb : Opcode.ofByte? b with
      | none =>
        have hrest := ih rest.length (Nat.lt_succ_self _) (offset + 1) rest rfl
        rw [Nat.add_assoc, Nat.add_comm 1] at hrest
        rw [listingLines, hb, List.length_cons]
        dsimp only
        rw [List.flatMap_cons, hrest, List.range'_succ]
        rfl
      | some op =>
        rw [listingLines_known hb, List.length_cons]
        split
        · next hle =>
          have hpos := op.length_pos
          have hlen : (rest.drop (op.length - 1)).length = rest.length + 1 - op.length := by
            rw [List.length_drop]
            omega
          have hrest := ih _ (by omega) (offset + op.length) (rest.drop (op.length - 1)) hlen
          rw [Nat.add_assoc, Nat.add_sub_cancel' hle] at hrest
          rw [List.flatMap_cons, hrest]
          simp only [ListingLine.covers, Instruction.length, Instruction.opcode_ofOperands]
          rw [List.range'_append_1, Nat.add_sub_cancel' hle]
        · rw [List.flatMap_singleton, ListingLine.covers, Nat.add_sub_cancel_left]

theorem length_listingLines_le (offset : Nat) (bytes : List UInt8) :
    (listingLines offset bytes).length ≤ bytes.length := by
  induction hn : bytes.length using Nat.strong_induction_on generalizing offset bytes with
  | h n ih =>
    subst hn
    cases bytes with
    | nil => exact Nat.le_refl _
    | cons b rest =>
      rw [List.length_cons] at ih ⊢
      cases hb : Opcode.ofByte? b with
      | none =>
        rw [listingLines, hb]
        exact Nat.succ_le_succ (ih _ (Nat.lt_succ_self _) (offset + 1) rest rfl)
      | some op =>
        rw [listingLines_known hb]
        split
        · have hlen := List.length_drop (i := op.length - 1) (l := rest)
          have hrest := ih _ (by omega) (offset + op.length) (rest.drop (op.length - 1)) rfl
          rw [List.length_cons]
          omega
        · exact Nat.succ_le_succ (Nat.zero_le _)

/-- Whatever can be read at an offset that execution gets to is read on the way from the start. -/
theorem Code.Reaches.mem_decodeFrom {c : Code} {offset n : Nat} {i : Instruction}
    (h : c.Reaches offset n) (hi : fetch c.bytecodes offset = .ok i) :
    (offset, i) ∈ (decodeFrom c.bytecodes 0).instructions := by
  have hsuffix : (decodeFrom c.bytecodes offset).instructions <:+
      (decodeFrom c.bytecodes 0).instructions := by
    clear hi
    induction h with
    | start => exact List.suffix_refl _
    | @next offset n i _ hi _ _ ih =>
      rw [decodeFrom_ok hi] at ih
      exact (List.suffix_cons _ _).trans ih
  refine hsuffix.subset ?_
  rw [decodeFrom_ok hi]
  exact List.mem_cons_self

theorem World.isSome_inlineCache? (w : World) (r : CodeRef) (offset : Nat) :
    (w.inlineCache? r offset).isSome ↔ offset ∈ (w.code r).sendSites := by
  unfold World.inlineCache?
  split
  · next h => simp [h]
  · next h => simp [h]

/-- What a line of a body becomes in a listing, with the listing of the body that is nested there. -/
def World.listed (w : World) (depth : Nat) (pad : String) (c : Code) (line : ListingLine) :
    List String :=
  (pad ++ "  " ++ Text.padLeft 4 ' ' (toString line.offset) ++ "  " ++ w.lineText c line) ::
    match line.nested? c with
    | some n => w.listingWithin depth (pad ++ "    ") n
    | none => []

/-- Of any bytecode, the sends that have an inline cache are those that are read from the start on, in
order, and the one that is cut off there if there is one; so every send that is ever executed has an
inline cache. A listing goes through the same instructions, then shows what stopped them, and goes on
after the byte that it does not know; its lines are about every byte once, and each shows in full what
was read there. -/
theorem decoders_agree (bytes : Array UInt8) :
    (sendOffsets 0 bytes.toList).Pairwise (· < ·) ∧
    (∀ offset, offset ∈ sendOffsets 0 bytes.toList ↔
      (∃ l, (offset, .send l) ∈ (decodeFrom bytes 0).instructions) ∨
      ((decodeFrom bytes 0).stop = offset ∧ (decodeFrom bytes 0).reason = .truncated ∧
        bytes[offset]? = some Opcode.send.byte)) ∧
    (∀ (w : World) (r : CodeRef), (w.code r).bytecodes = bytes →
      ∀ offset, (w.inlineCache? r offset).isSome ↔ offset ∈ sendOffsets 0 bytes.toList) ∧
    (∀ (q : Request) (w : World) (n : Nat) (loop : RunLoop) (l : UInt8),
      (w.code loop.current.method).bytecodes = bytes →
      ((q.machine w).after n).next? = some (loop, .send l) →
      (((q.machine w).after n).world.inlineCache? loop.current.method loop.current.offset).isSome) ∧
    (∀ (w : World) (r : CodeRef) (depth : Nat) (pad : String), (w.code r).bytecodes = bytes →
      w.listingWithin (depth + 1) pad r = (pad ++ w.headingText r) ::
        ((decodeFrom bytes 0).lines ++ (decodeFrom bytes 0).remainder bytes).flatMap
          (w.listed depth pad (w.code r))) ∧
    (∀ (w : World) (c : Code), w.Prints c) ∧
    (∀ offset, listingLines offset (bytes.toList.drop offset) =
      (decodeFrom bytes offset).lines ++ (decodeFrom bytes offset).remainder bytes) ∧
    (listingLines 0 bytes.toList).flatMap (·.covers bytes.size) = List.range bytes.size ∧
    (listingLines 0 bytes.toList).length ≤ bytes.size := by
  have hsends := sendOffsets_drop bytes 0
  rw [List.drop_zero] at hsends
  have hmem (offset : Nat) : offset ∈ sendOffsets 0 bytes.toList ↔
      (∃ l, (offset, .send l) ∈ (decodeFrom bytes 0).instructions) ∨
      ((decodeFrom bytes 0).stop = offset ∧ (decodeFrom bytes 0).reason = .truncated ∧
        bytes[offset]? = some Opcode.send.byte) := by
    rw [hsends]
    exact Decoding.mem_sends
  refine ⟨hsends ▸ sends_pairwise bytes 0, hmem, ?_, ?_, ?_, World.prints, listingLines_drop bytes,
    ?_, length_listingLines_le 0 bytes.toList⟩
  · rintro w r rfl offset
    exact w.isSome_inlineCache? r offset
  · rintro q w n loop l rfl hnext
    obtain ⟨hcontrol, hfetch⟩ := Machine.next?_eq_some.mp hnext
    have hreaches := ((Machine.counted_request q w n).running loop hcontrol).2
    have hread := hreaches.mem_decodeFrom (Activation.fetch_eq_ok hfetch)
    rw [q.code_after] at hread
    rw [World.isSome_inlineCache?, q.code_after]
    exact (hmem _).mpr (.inl ⟨l, hread⟩)
  · rintro w r depth pad rfl
    rw [← listingLines_drop, List.drop_zero]
    rfl
  · have hcovers := covers_listingLines 0 bytes.toList
    rwa [Array.length_toList, Nat.zero_add, ← List.range_eq_range'] at hcovers

set_option maxRecDepth 100000 in
theorem decoders_agree_comparing :
    ∃ (q : Request) (w : World) (n : Nat) (loop : RunLoop) (l : UInt8),
      ((q.machine w).after n).next? = some (loop, .send l) ∧
      (((q.machine w).after n).world.inlineCache? loop.current.method loop.current.offset).isSome := by
  let q : Request := .host (.send (.boolean true) "~=" [.nil])
  have hsends : ((q.machine World.standard).after 2).next?.any (fun p => p.2 = .send 0) = true := by
    decide +kernel
  obtain ⟨⟨loop, i⟩, hnext, hi⟩ := Option.any_eq_true _ _ |>.mp hsends
  obtain rfl : i = .send 0 := of_decide_eq_true hi
  exact ⟨q, World.standard, 2, loop, 0, hnext,
    (decoders_agree _).2.2.2.1 q World.standard 2 loop 0 rfl hnext⟩

end MessageMachine
