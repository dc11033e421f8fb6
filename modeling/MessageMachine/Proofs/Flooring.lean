import Mathlib.Data.Rat.Floor
import MessageMachine.Primitive.Atomic
import MessageMachine.Proofs.Action

namespace MessageMachine.Arithmetic

section

variable {x y q r : Int}

def Between (y r : Int) : Prop := 0 ≤ r ∧ r < y ∨ y < r ∧ r ≤ 0

theorem floor_div_eq (hx : x = q * y + r) (hr : Between y r) : ⌊(x : ℚ) / y⌋ = q := by
  have hnext : (q + 1) * y = q * y + y := by rw [add_mul, one_mul]
  rw [Int.floor_eq_iff]
  obtain ⟨hr, hlt⟩ | ⟨hlt, hr⟩ := hr
  · have hy : (0 : ℚ) < y := by exact_mod_cast lt_of_le_of_lt hr hlt
    rw [le_div_iff₀ hy, div_lt_iff₀ hy]
    exact_mod_cast (by omega : q * y ≤ x ∧ x < (q + 1) * y)
  · have hy : (y : ℚ) < 0 := by exact_mod_cast lt_of_lt_of_le hlt hr
    rw [le_div_iff_of_neg hy, div_lt_iff_of_neg hy]
    exact_mod_cast (by omega : x ≤ q * y ∧ (q + 1) * y < x)

/-- Rounding toward zero leaves a remainder smaller than the divisor, with the sign of the dividend. -/
theorem tmod_bounds (x : Int) (hy : y ≠ 0) :
    (x.tmod y).natAbs < y.natAbs ∧ (0 ≤ x → 0 ≤ x.tmod y) ∧ (x ≤ 0 → x.tmod y ≤ 0) := by
  refine ⟨?_, fun hx => Int.tmod_nonneg y hx, fun hx => ?_⟩
  · rw [Int.natAbs_tmod]
    exact Nat.mod_lt _ (Int.natAbs_pos.mpr hy)
  · have hneg := Int.tmod_nonneg y (Int.neg_nonneg_of_nonpos hx)
    rw [Int.neg_tmod] at hneg
    omega

def GoesUp (x y : Int) : Prop := x.tmod y ≠ 0 ∧ ¬(x < 0 ↔ y < 0)

instance (x y : Int) : Decidable (GoesUp x y) := inferInstanceAs (Decidable (_ ∧ _))

def corrected (x y : Int) : Int := if GoesUp x y then x.tdiv y - 1 else x.tdiv y

def correctedRemainder (x y : Int) : Int := if GoesUp x y then x.tmod y + y else x.tmod y

theorem corrected_eq (x y : Int) : x = corrected x y * y + correctedRemainder x y := by
  have h := Int.tmod_add_tdiv_mul x y
  unfold corrected correctedRemainder
  split
  · rw [sub_mul, one_mul]
    omega
  · omega

theorem correctedRemainder_between (x : Int) (hy : y ≠ 0) : Between y (correctedRemainder x y) := by
  obtain ⟨hlt, hpos, hneg⟩ := tmod_bounds x hy
  unfold correctedRemainder
  split
  · next hup =>
    obtain ⟨hne, hsigns⟩ := hup
    unfold Between
    omega
  · next hup =>
    unfold GoesUp at hup
    unfold Between
    omega

theorem corrected_eq_floor (x : Int) (hy : y ≠ 0) : corrected x y = ⌊(x : ℚ) / y⌋ :=
  (floor_div_eq (corrected_eq x y) (correctedRemainder_between x hy)).symm

theorem correctedRemainder_eq (x : Int) (hy : y ≠ 0) :
    correctedRemainder x y = x - y * ⌊(x : ℚ) / y⌋ := by
  have h := corrected_eq x y
  rw [← corrected_eq_floor x hy, mul_comm]
  omega

theorem natAbs_tdiv_le (hy : y ≠ 0) (h : x.tmod y ≠ 0) : (x.tdiv y).natAbs ≤ x.natAbs / 2 := by
  have hunit : y.natAbs ≠ 1 := by
    intro hone
    have hlt := (tmod_bounds x hy).1
    omega
  have htwo : 2 ≤ y.natAbs := by omega
  rw [Int.natAbs_tdiv]
  exact Nat.div_le_div_left htwo (by decide)

end

section

variable {a b : Int64}

theorem toInt_ne_zero (hb : b ≠ 0) : b.toInt ≠ 0 := by
  rwa [ne_eq, ← Int64.toInt_zero, Int64.toInt_inj]

theorem quotientFits_iff : quotientFits a b ↔ b ≠ 0 ∧ ¬(a = .minValue ∧ b = -1) := by
  simp [quotientFits, Decidable.imp_iff_not_or]

theorem signsDiffer_iff : signsDiffer a b ↔ ¬(a.toInt < 0 ↔ b.toInt < 0) := by
  simp [signsDiffer, Int64.lt_iff_toInt_lt]

theorem toInt_div_of_fits (h : quotientFits a b) : (a / b).toInt = a.toInt.tdiv b.toInt := by
  obtain ⟨-, hfits⟩ := quotientFits_iff.mp h
  by_cases ha : a = .minValue
  · exact Int64.toInt_div_of_ne_right a b fun hb => hfits ⟨ha, hb⟩
  · exact Int64.toInt_div_of_ne_left a b ha

theorem mod_ne_zero : (a % b != 0) ↔ a.toInt.tmod b.toInt ≠ 0 := by
  rw [← Int64.toInt_mod, bne_iff_ne, ne_eq, ne_eq, ← Int64.toInt_zero, Int64.toInt_inj]

theorem goesUp_iff : (a % b != 0 && signsDiffer a b) ↔ GoesUp a.toInt b.toInt := by
  rw [Bool.and_eq_true, mod_ne_zero, signsDiffer_iff, GoesUp]

/-- The remainder has the sign of the dividend, so either of them tells whether to correct. -/
theorem goesUp_iff_of_mod (hb : b ≠ 0) :
    (a % b != 0 && signsDiffer (a % b) b) ↔ GoesUp a.toInt b.toInt := by
  obtain ⟨-, hpos, hneg⟩ := tmod_bounds a.toInt (toInt_ne_zero hb)
  rw [Bool.and_eq_true, mod_ne_zero, signsDiffer_iff, Int64.toInt_mod, GoesUp]
  omega

theorem toInt_sub_one (h : quotientFits a b) (hup : GoesUp a.toInt b.toInt) :
    (a / b - 1).toInt = (a / b).toInt - 1 := by
  obtain ⟨hb, -⟩ := quotientFits_iff.mp h
  have hhalf := natAbs_tdiv_le (toInt_ne_zero hb) hup.1
  have hle := a.le_toInt
  have hlt := a.toInt_lt
  rw [Int64.toInt_sub, toInt_div_of_fits h, show (1 : Int64).toInt = 1 by decide]
  apply Int.bmod_eq_of_le <;> omega

theorem toInt_mod_add (hb : b ≠ 0) (hup : GoesUp a.toInt b.toInt) :
    (a % b + b).toInt = (a % b).toInt + b.toInt := by
  obtain ⟨hlt, hpos, hneg⟩ := tmod_bounds a.toInt (toInt_ne_zero hb)
  have hle := b.le_toInt
  have hlt := b.toInt_lt
  obtain ⟨-, hsigns⟩ := hup
  rw [Int64.toInt_add, Int64.toInt_mod]
  apply Int.bmod_eq_of_le <;> omega

theorem floorQuotient?_of_fits (h : quotientFits a b) :
    ∃ n : Int64, floorQuotient? a b = some n ∧ n.toInt = ⌊(a.toInt : ℚ) / b.toInt⌋ := by
  obtain ⟨hb, -⟩ := quotientFits_iff.mp h
  refine ⟨_, by rw [floorQuotient?, quotient?, if_pos h]; rfl, ?_⟩
  dsimp only
  rw [← corrected_eq_floor _ (toInt_ne_zero hb), corrected]
  by_cases hup : GoesUp a.toInt b.toInt
  · rw [if_pos (goesUp_iff.mpr hup), if_pos hup, toInt_sub_one h hup, toInt_div_of_fits h]
  · rw [if_neg (goesUp_iff.not.mpr hup), if_neg hup, toInt_div_of_fits h]

theorem floorRemainder?_of_fits (h : quotientFits a b) :
    ∃ n : Int64, floorRemainder? a b = some n ∧
      n.toInt = a.toInt - b.toInt * ⌊(a.toInt : ℚ) / b.toInt⌋ := by
  obtain ⟨hb, -⟩ := quotientFits_iff.mp h
  refine ⟨_, by rw [floorRemainder?, remainder?, if_pos h]; rfl, ?_⟩
  dsimp only
  rw [← correctedRemainder_eq _ (toInt_ne_zero hb), correctedRemainder]
  by_cases hup : GoesUp a.toInt b.toInt
  · rw [if_pos ((goesUp_iff_of_mod hb).mpr hup), if_pos hup, toInt_mod_add hb hup, Int64.toInt_mod]
  · rw [if_neg ((goesUp_iff_of_mod hb).not.mpr hup), if_neg hup, Int64.toInt_mod]

theorem floor_least : ⌊(Int64.minValue.toInt : ℚ) / (-1 : Int64).toInt⌋ = 2 ^ 63 :=
  floor_div_eq (r := 0) (by decide) (.inr ⟨by decide, le_refl 0⟩)

theorem floor_fits_iff (hb : b ≠ 0) :
    (-2 ^ 63 ≤ ⌊(a.toInt : ℚ) / b.toInt⌋ ∧ ⌊(a.toInt : ℚ) / b.toInt⌋ < 2 ^ 63) ↔ quotientFits a b := by
  constructor
  · rintro ⟨-, hlt⟩
    refine quotientFits_iff.mpr ⟨hb, ?_⟩
    rintro ⟨rfl, rfl⟩
    rw [floor_least] at hlt
    exact lt_irrefl _ hlt
  · intro h
    obtain ⟨n, -, hn⟩ := floorQuotient?_of_fits h
    rw [← hn]
    exact ⟨n.le_toInt, n.toInt_lt⟩

end

section

variable {a b : Int64} (more : List Value) (w : World)

theorem run_floorDivide : AtomicOperation.floorDivide.run (.integer a) (.integer b :: more) w =
    if b = 0 then .error (.primitiveFailed "/" .divisionByZero) w
    else (liftM (checked "/" (floorQuotient? a b)) : Action Value) w := by
  change (liftM (if b = 0 then Except.error (.primitiveFailed "/" .divisionByZero)
    else checked "/" (floorQuotient? a b)) : Action Value) w = _
  split <;> rfl

theorem run_modulo : AtomicOperation.modulo.run (.integer a) (.integer b :: more) w =
    if b = 0 then .error (.primitiveFailed "\\\\" .divisionByZero) w
    else (liftM (checked "\\\\" (floorRemainder? a b)) : Action Value) w := by
  change (liftM (modulo a b) : Action Value) w = _
  unfold modulo
  split <;> rfl

theorem floorDivide_answers (hb : b ≠ 0) (h : quotientFits a b) :
    ∃ n : Int64, n.toInt = ⌊(a.toInt : ℚ) / b.toInt⌋ ∧
      AtomicOperation.floorDivide.run (.integer a) (.integer b :: more) w = .ok (.integer n) w := by
  obtain ⟨n, hn, hfloor⟩ := floorQuotient?_of_fits h
  refine ⟨n, hfloor, ?_⟩
  rw [run_floorDivide, if_neg hb, hn]
  rfl

theorem floorDivide_refuses (hb : b ≠ 0) (h : ¬quotientFits a b) :
    AtomicOperation.floorDivide.run (.integer a) (.integer b :: more) w =
      .error (.primitiveFailed "/" .integerOverflow) w := by
  rw [run_floorDivide, if_neg hb, floorQuotient?, quotient?, if_neg h]
  rfl

theorem modulo_answers (hb : b ≠ 0) (h : quotientFits a b) :
    ∃ n : Int64, n.toInt = a.toInt - b.toInt * ⌊(a.toInt : ℚ) / b.toInt⌋ ∧
      AtomicOperation.modulo.run (.integer a) (.integer b :: more) w = .ok (.integer n) w := by
  obtain ⟨n, hn, hremainder⟩ := floorRemainder?_of_fits h
  refine ⟨n, hremainder, ?_⟩
  rw [run_modulo, if_neg hb, hn]
  rfl

theorem results_agree {q r : Int64}
    (hq : AtomicOperation.floorDivide.run (.integer a) (.integer b :: more) w = .ok (.integer q) w)
    (hr : AtomicOperation.modulo.run (.integer a) (.integer b :: more) w = .ok (.integer r) w) :
    a.toInt = q.toInt * b.toInt + r.toInt ∧ Between b.toInt r.toInt := by
  have hb : b ≠ 0 := by
    intro hb
    rw [run_floorDivide, if_pos hb] at hq
    cases hq
  have hfits : quotientFits a b := by
    by_contra h
    rw [floorDivide_refuses more w hb h] at hq
    cases hq
  obtain ⟨n, hn, hdivided⟩ := floorDivide_answers more w hb hfits
  obtain ⟨m, hm, hreduced⟩ := modulo_answers more w hb hfits
  rw [hdivided] at hq
  rw [hreduced] at hr
  cases hq
  cases hr
  rw [← corrected_eq_floor _ (toInt_ne_zero hb)] at hn
  rw [← correctedRemainder_eq _ (toInt_ne_zero hb)] at hm
  rw [hn, hm]
  exact ⟨corrected_eq _ _, correctedRemainder_between _ (toInt_ne_zero hb)⟩

end

/-- Division rounded down, of any two integers. Nothing can be divided by zero. Otherwise `/` answers the
quotient rounded down if it fits, and fails if not; and `\\` answers the remainder that goes with it,
unless the least integer is divided by minus one. These results fit together, and they come about
without any overflow on the way. -/
theorem division_floors (a b : Int64) (more : List Value) (w : World) :
    let divided := AtomicOperation.floorDivide.run (.integer a) (.integer b :: more) w
    let reduced := AtomicOperation.modulo.run (.integer a) (.integer b :: more) w
    let quotient := ⌊(a.toInt : ℚ) / b.toInt⌋
    let fits := -2 ^ 63 ≤ quotient ∧ quotient < 2 ^ 63
    (b = 0 → divided = .error (.primitiveFailed "/" .divisionByZero) w ∧
      reduced = .error (.primitiveFailed "\\\\" .divisionByZero) w) ∧
    (b ≠ 0 → fits → ∃ n : Int64, n.toInt = quotient ∧ divided = .ok (.integer n) w) ∧
    (b ≠ 0 → ¬fits → divided = .error (.primitiveFailed "/" .integerOverflow) w) ∧
    (b ≠ 0 → ¬(a = .minValue ∧ b = -1) → ∃ n : Int64, n.toInt = a.toInt - b.toInt * quotient ∧
      reduced = .ok (.integer n) w) ∧
    (∀ q r, divided = .ok (.integer q) w → reduced = .ok (.integer r) w →
      a.toInt = q.toInt * b.toInt + r.toInt ∧ (r ≠ 0 → (r < 0 ↔ b < 0)) ∧
        r.toInt.natAbs < b.toInt.natAbs) ∧
    (∀ q, quotient? a b = some q → q.toInt = a.toInt.tdiv b.toInt ∧
      (a % b).toInt = a.toInt.tmod b.toInt ∧
      (a % b != 0 && signsDiffer a b → (q - 1).toInt = q.toInt - 1)) ∧
    ∀ r, remainder? a b = some r → r.toInt = a.toInt.tmod b.toInt ∧
      (r != 0 && signsDiffer r b → (r + b).toInt = r.toInt + b.toInt) := by
  refine ⟨fun hb => ⟨?_, ?_⟩, fun hb hfits => ?_, fun hb hfits => ?_, fun hb hleast => ?_,
    fun q r hq hr => ?_, fun q hq => ?_, fun r hr => ?_⟩
  · rw [run_floorDivide, if_pos hb]
  · rw [run_modulo, if_pos hb]
  · exact floorDivide_answers more w hb ((floor_fits_iff hb).mp hfits)
  · exact floorDivide_refuses more w hb (mt (floor_fits_iff hb).mpr hfits)
  · exact modulo_answers more w hb (quotientFits_iff.mpr ⟨hb, hleast⟩)
  · obtain ⟨heq, hbetween⟩ := results_agree more w hq hr
    refine ⟨heq, fun hne => ?_, ?_⟩
    · have hr := toInt_ne_zero hne
      rw [Int64.lt_iff_toInt_lt, Int64.lt_iff_toInt_lt, Int64.toInt_zero]
      unfold Between at hbetween
      omega
    · unfold Between at hbetween
      omega
  · obtain ⟨hfits, ⟨⟩⟩ := Option.ite_none_right_eq_some.mp hq
    exact ⟨toInt_div_of_fits hfits, Int64.toInt_mod a b, fun hup => toInt_sub_one hfits (goesUp_iff.mp hup)⟩
  · obtain ⟨hfits, ⟨⟩⟩ := Option.ite_none_right_eq_some.mp hr
    obtain ⟨hb, -⟩ := quotientFits_iff.mp hfits
    exact ⟨Int64.toInt_mod a b, fun hup => toInt_mod_add hb ((goesUp_iff_of_mod hb).mp hup)⟩

theorem division_floors_least :
    AtomicOperation.floorDivide.run (.integer .minValue) [.integer 3] default =
        .ok (.integer (-3074457345618258603)) default ∧
      AtomicOperation.modulo.run (.integer .minValue) [.integer 3] default =
        .ok (.integer 1) default ∧
      Int64.minValue.toInt = (-3074457345618258603) * 3 + 1 := by
  have hfloor : ⌊(Int64.minValue.toInt : ℚ) / (3 : Int64).toInt⌋ = -3074457345618258603 :=
    floor_div_eq (r := 1) (by decide) (.inl (by decide))
  obtain ⟨-, hdivide, -, hreduce, hagree, -⟩ := division_floors .minValue 3 [] default
  obtain ⟨q, hq, hdivided⟩ := hdivide (by decide) (by rw [hfloor]; decide)
  obtain ⟨r, hr, hreduced⟩ := hreduce (by decide) (by decide)
  obtain rfl : q = -3074457345618258603 := Int64.toInt_inj.mp (by rw [hq, hfloor]; decide)
  obtain rfl : r = 1 := Int64.toInt_inj.mp (by rw [hr, hfloor]; decide)
  exact ⟨hdivided, hreduced, (hagree _ _ hdivided hreduced).1⟩

theorem least_refused :
    (-1 : Int64) ≠ 0 ∧
      Int64.minValue.toInt - (-1 : Int64).toInt *
        ⌊(Int64.minValue.toInt : ℚ) / (-1 : Int64).toInt⌋ = (0 : Int64).toInt ∧
      AtomicOperation.modulo.run (.integer .minValue) [.integer (-1)] default =
        .error (.primitiveFailed "\\\\" .integerOverflow) default := by
  refine ⟨by decide, ?_, rfl⟩
  rw [floor_least]
  decide

end MessageMachine.Arithmetic
