import MessageMachine.Listing

namespace MessageMachine

namespace Text

theorem takeWhile_toString_append (n : Nat) (s : List Char) :
    ((toString n).toList ++ s).takeWhile Char.isDigit =
      Nat.toDigits 10 n ++ s.takeWhile Char.isDigit := by
  rw [Nat.toString_eq_repr, Nat.toList_repr, List.takeWhile_append_of_pos]
  exact fun c => Nat.isDigit_of_mem_toDigits (by decide) (by decide)

theorem toString_append_inj {m n : Nat} {s t : List Char}
    (hs : s.takeWhile Char.isDigit = []) (ht : t.takeWhile Char.isDigit = [])
    (h : (toString m).toList ++ s = (toString n).toList ++ t) : m = n ∧ s = t := by
  have hdigits := congrArg (List.takeWhile Char.isDigit) h
  rw [takeWhile_toString_append, takeWhile_toString_append, hs, ht, List.append_nil,
    List.append_nil] at hdigits
  obtain rfl : m = n := calc
    m = Nat.ofDigitChars 10 (Nat.toDigits 10 m) 0 := Nat.ofDigitChars_ten_toDigits.symm
    _ = Nat.ofDigitChars 10 (Nat.toDigits 10 n) 0 := by rw [hdigits]
    _ = n := Nat.ofDigitChars_ten_toDigits
  exact ⟨rfl, List.append_cancel_left h⟩

theorem toList_hexByte (b : UInt8) : (hexByte b).toList =
    ['0', 'x', Nat.digitChar (b.toNat / 16), Nat.digitChar (b.toNat % 16)] := by
  have table : ∀ n : Fin 256, (hexByte (UInt8.ofNat n)).toList =
      ['0', 'x', Nat.digitChar (n / 16), Nat.digitChar (n % 16)] := by decide +kernel
  have hb := table ⟨b.toNat, b.toNat_lt⟩
  rwa [UInt8.ofNat_toNat] at hb

theorem hexByte_inj {a b : UInt8} (h : (hexByte a).toList = (hexByte b).toList) : a = b := by
  have hdigit : ∀ m n : Fin 16, Nat.digitChar m = Nat.digitChar n → m = n := by decide
  simp only [toList_hexByte, List.cons.injEq, and_true, true_and] at h
  have ha := a.toNat_lt
  have hb := b.toNat_lt
  have hhigh := hdigit ⟨a.toNat / 16, by omega⟩ ⟨b.toNat / 16, by omega⟩ h.1
  have hlow := hdigit ⟨a.toNat % 16, by omega⟩ ⟨b.toNat % 16, by omega⟩ h.2
  rw [Fin.mk.injEq] at hhigh hlow
  exact UInt8.toNat_inj.mp (by omega)

end Text

namespace Opcode

theorem length_cases (op : Opcode) : op.length = 1 ∨ op.length = 2 ∨ op.length = 3 := by
  cases op <;> decide

def column (op : Opcode) : List Char := (Text.padRight 16 ' ' op.mnemonic).toList

theorem length_column (op : Opcode) : op.column.length = 16 := by
  cases op <;> decide +kernel

theorem column_append_ne_cons (op : Opcode) (s t : List Char) : op.column ++ s ≠ '<' :: t := by
  have hhead : ∃ c rest, op.column = c :: rest ∧ c ≠ '<' := by
    cases op <;> exact ⟨_, _, rfl, by decide⟩
  obtain ⟨c, rest, hcolumn, hc⟩ := hhead
  rw [hcolumn]
  intro h
  exact hc (List.cons.inj h).1

theorem column_inj {op op' : Opcode} (h : op.column = op'.column) : op = op' := by
  have table : ∀ p ∈ all, ∀ p' ∈ all, p.column = p'.column → p = p' := by decide +kernel
  have hall (p : Opcode) : p ∈ all := by cases p <;> decide
  exact table op (hall op) op' (hall op') h

theorem column_append_inj {op op' : Opcode} {s t : List Char}
    (h : op.column ++ s = op'.column ++ t) : op = op' ∧ s = t := by
  obtain ⟨hcolumn, hrest⟩ := List.append_inj h (by rw [length_column, length_column])
  exact ⟨column_inj hcolumn, hrest⟩

end Opcode

namespace Instruction

theorem ofOperands_operands (i : Instruction) :
    ofOperands i.opcode (i.operands.getD 0 0) (i.operands.getD 1 0) = i := by
  cases i with
  | pushSlot area _ _ | popSlot area _ _ => cases area <;> rfl
  | _ => rfl

theorem eq_of_operands {i i' : Instruction} (hop : i.opcode = i'.opcode)
    (h : i.operands = i'.operands) : i = i' := by
  rw [← i.ofOperands_operands, ← i'.ofOperands_operands, hop, h]

theorem length_operands (i : Instruction) : i.operands.length + 1 = i.opcode.length :=
  i.length_encode

end Instruction

namespace World

/-- How the lines of a body read after their offsets: an instruction by the name of its opcode and its
operands, the last of which may stand for a literal, `<truncated>` in place of operands that are
missing, and `<invalid ..>` for a byte that is no opcode. -/
structure Prints (w : World) (c : Code) : Prop where
  plain : ∀ o i, i.operands = [] →
    w.lineText c (.instruction o i) = Text.padRight 16 ' ' i.opcode.mnemonic
  single : ∀ o i x, i.operands = [x] → i.opcode.hasLiteralOperand = false →
    w.lineText c (.instruction o i) =
      Text.padRight 16 ' ' i.opcode.mnemonic ++ " " ++ toString x.toNat
  literal : ∀ o i x, i.operands = [x] → i.opcode.hasLiteralOperand = true →
    w.lineText c (.instruction o i) =
      Text.padRight 16 ' ' i.opcode.mnemonic ++ " " ++ toString x.toNat ++ " ; " ++
        w.literalText c.literals[x.toNat]?
  pair : ∀ o i x y, i.operands = [x, y] →
    w.lineText c (.instruction o i) =
      Text.padRight 16 ' ' i.opcode.mnemonic ++ " " ++ toString x.toNat ++ ", " ++ toString y.toNat
  truncated : ∀ o op,
    w.lineText c (.truncated o op) = Text.padRight 16 ' ' op.mnemonic ++ " <truncated>"
  unknownByte : ∀ o b, w.lineText c (.unknownByte o b) = "<invalid " ++ Text.hexByte b ++ ">"
  /-- No two lines read the same. -/
  distinct : ∀ line line', line.offset = line'.offset →
    w.lineText c line = w.lineText c line' → line = line'

variable {w : World} {c : Code} {op : Opcode}

theorem operandText_inj {xs ys : List UInt8} (hlength : xs.length = ys.length)
    (hshort : xs.length ≤ 2) (h : w.operandText c op xs = w.operandText c op ys) : xs = ys := by
  have hlist := congrArg String.toList h
  match xs, ys with
  | [], [] => rfl
  | [x], [y] =>
    have hend (x : UInt8) : (if op.hasLiteralOperand then
        " ; " ++ w.literalText c.literals[x.toNat]? else "").toList.takeWhile Char.isDigit = [] := by
      split <;> simp
    simp only [operandText, String.toList_append, List.append_assoc] at hlist
    obtain ⟨hx, -⟩ :=
      Text.toString_append_inj (hend x) (hend y) (List.append_cancel_left hlist)
    rw [UInt8.toNat_inj.mp hx]
  | [x, x'], [y, y'] =>
    have hend (x : UInt8) :
        (", ".toList ++ (toString x.toNat).toList).takeWhile Char.isDigit = [] := by simp
    simp only [operandText, String.toList_append, List.append_assoc] at hlist
    obtain ⟨hx, hrest⟩ :=
      Text.toString_append_inj (hend x') (hend y') (List.append_cancel_left hlist)
    have hlast := List.append_cancel_left hrest
    rw [← List.append_nil (toString x'.toNat).toList,
      ← List.append_nil (toString y'.toNat).toList] at hlast
    obtain ⟨hx', -⟩ := Text.toString_append_inj rfl rfl hlast
    rw [UInt8.toNat_inj.mp hx, UInt8.toNat_inj.mp hx']

theorem operandText_ne_truncated (xs : List UInt8) : w.operandText c op xs ≠ " <truncated>" := by
  have hnumber (n : Nat) (s : String) : " " ++ toString n ++ s ≠ " <truncated>" := by
    intro h
    have hlist : (toString n).toList ++ s.toList = "<truncated>".toList := by
      simpa using congrArg (fun t : String => t.toList.tail) h
    have hdigits := congrArg (List.takeWhile Char.isDigit) hlist
    rw [Text.takeWhile_toString_append] at hdigits
    exact Nat.toDigits_ne_nil (List.append_eq_nil_iff.mp hdigits).1
  match xs with
  | [] => simp [operandText]
  | [x] => exact hnumber _ _
  | x :: y :: _ =>
    rw [operandText, String.append_assoc]
    exact hnumber _ _

theorem lineText_inj {line line' : ListingLine} (hoffset : line.offset = line'.offset)
    (h : w.lineText c line = w.lineText c line') : line = line' := by
  have hlist := congrArg String.toList h
  have htruncated (op : Opcode) (i : Instruction) : op.column ++ " <truncated>".toList ≠
      i.opcode.column ++ (w.operandText c i.opcode i.operands).toList := by
    intro h
    obtain ⟨-, htext⟩ := Opcode.column_append_inj h
    exact operandText_ne_truncated _ (String.toList_inj.mp htext.symm)
  cases line <;> cases line' <;> cases hoffset <;>
    simp only [lineText, String.toList_append] at hlist
  case instruction.instruction o i i' =>
    obtain ⟨hop, htext⟩ := Opcode.column_append_inj hlist
    have hlength := i.length_operands
    have hlength' := i'.length_operands
    have hcases := i.opcode.length_cases
    rw [hop] at htext
    rw [← hop] at hlength'
    rw [Instruction.eq_of_operands hop
      (operandText_inj (by omega) (by omega) (String.toList_inj.mp htext))]
  case instruction.truncated o i op => exact absurd hlist.symm (htruncated op i)
  case truncated.instruction o op i => exact absurd hlist (htruncated op i)
  case truncated.truncated o op op' => rw [(Opcode.column_append_inj hlist).1]
  case unknownByte.unknownByte o b b' =>
    have hhex := List.append_cancel_left (List.append_cancel_right hlist)
    rw [Text.hexByte_inj hhex]
  case instruction.unknownByte | truncated.unknownByte =>
    exact absurd hlist (Opcode.column_append_ne_cons _ _ _)
  case unknownByte.instruction | unknownByte.truncated =>
    exact absurd hlist.symm (Opcode.column_append_ne_cons _ _ _)

theorem prints (w : World) (c : Code) : w.Prints c where
  plain o i h := by simp [lineText, h, operandText]
  single o i x h hop := by simp [lineText, h, operandText, hop, String.append_assoc]
  literal o i x h hop := by simp [lineText, h, operandText, hop, String.append_assoc]
  pair o i x y h := by simp [lineText, h, operandText, String.append_assoc]
  truncated _ _ := rfl
  unknownByte _ _ := rfl
  distinct _ _ := lineText_inj

end World

end MessageMachine
