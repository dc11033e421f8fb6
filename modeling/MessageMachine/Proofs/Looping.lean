import Mathlib.Data.Nat.Find
import MessageMachine.Proofs.Leveling

namespace MessageMachine

/-- The integers from `start` up to `limit`, in order. -/
def integersFrom (start limit : Int64) : List Int64 :=
  (List.range (limit.toInt + 1 - start.toInt).toNat).map fun k : Nat => .ofInt (start.toInt + k)

section

variable {start limit i : Int64} {before rest : List Int64} {k : Nat}

theorem toInt_ofInt_add (hk : k < (limit.toInt + 1 - start.toInt).toNat) :
    (Int64.ofInt (start.toInt + k)).toInt = start.toInt + k := by
  have hle := start.le_toInt
  have hlt := limit.toInt_lt
  exact Int64.toInt_ofInt_of_le (by omega) (by omega)

theorem getElem?_integersFrom :
    (integersFrom start limit)[k]? = some i ↔ i.toInt = start.toInt + k ∧ i ≤ limit := by
  rw [integersFrom, List.getElem?_map, Option.map_eq_some_iff, Int64.le_iff_toInt_le]
  constructor
  · rintro ⟨j, hj, rfl⟩
    obtain ⟨hlt, hget⟩ := List.getElem?_eq_some_iff.mp hj
    rw [List.length_range] at hlt
    rw [List.getElem_range] at hget
    subst hget
    rw [toInt_ofInt_add hlt]
    omega
  · rintro ⟨hi, hle⟩
    refine ⟨k, List.getElem?_range (by omega), ?_⟩
    rw [← hi, Int64.ofInt_toInt]

theorem mem_integersFrom : i ∈ integersFrom start limit ↔ start ≤ i ∧ i ≤ limit := by
  rw [List.mem_iff_getElem?]
  simp only [getElem?_integersFrom, exists_and_right, Int64.le_iff_toInt_le]
  refine and_congr_left fun _ => ⟨?_, fun hle => ⟨(i.toInt - start.toInt).toNat, by omega⟩⟩
  rintro ⟨k, hk⟩
  omega

theorem pairwise_integersFrom (start limit : Int64) : (integersFrom start limit).Pairwise (· < ·) := by
  refine List.pairwise_map.mpr (List.pairwise_lt_range.imp_of_mem fun hj hk hlt => ?_)
  rw [Int64.lt_iff_toInt_lt, toInt_ofInt_add (List.mem_range.mp hj), toInt_ofInt_add (List.mem_range.mp hk)]
  omega

theorem head?_rest (h : integersFrom start limit = before ++ i :: rest) :
    rest.head? = if i < limit then some (i + 1) else none := by
  have hget : (integersFrom start limit)[before.length]? = some i := by simp [h]
  have hrest : rest.head? = (integersFrom start limit)[before.length + 1]? := by
    simp [h, List.getElem?_append_right, List.head?_eq_getElem?]
  obtain ⟨hi, -⟩ := getElem?_integersFrom.mp hget
  rw [hrest]
  split
  · next hlt =>
    have hsucc := Iteration.toInt_succ hlt
    rw [Int64.lt_iff_toInt_lt] at hlt
    refine getElem?_integersFrom.mpr ⟨?_, ?_⟩
    · push_cast
      omega
    · rw [Int64.le_iff_toInt_le]
      omega
  · next hge =>
    rw [Option.eq_none_iff_forall_ne_some]
    intro j hj
    obtain ⟨hj, hle⟩ := getElem?_integersFrom.mp hj
    rw [Int64.lt_iff_toInt_lt] at hge
    rw [Int64.le_iff_toInt_le] at hle
    push_cast at hj
    omega

theorem head?_integersFrom (start limit : Int64) :
    (integersFrom start limit).head? = if start ≤ limit then some start else none := by
  rw [List.head?_eq_getElem?]
  split
  · next hle => exact getElem?_integersFrom.mpr ⟨(Int.add_zero _).symm, hle⟩
  · next hgt =>
    rw [Option.eq_none_iff_forall_ne_some]
    intro j hj
    obtain ⟨hj, hle⟩ := getElem?_integersFrom.mp hj
    obtain rfl := Int64.toInt_inj.mp (hj.trans (Int.add_zero _))
    exact hgt hle

end

namespace Machine

/-- The machine has its outcome after this many steps, and not before. -/
structure EndsAfter (m : Machine) (n : Nat) (o : Outcome) (w : World) : Prop where
  before : ∀ j < n, (m.after j).outcome? = none
  last : m.after n = ⟨.answer o, [], w⟩

variable {m : Machine} {n fuel : Nat} {o : Outcome} {w : World}

theorem eq_of_outcome? (h : m.outcome? = some o) : m = ⟨.answer o, [], m.world⟩ := by
  obtain ⟨control, waiting, w⟩ := m
  cases control with
  | answer o' =>
    cases waiting with
    | nil =>
      cases h
      rfl
    | cons x rest => cases h
  | run | finish | call => cases h

theorem exists_endsAfter (h : (m.after n).outcome? = some o) :
    ∃ k ≤ n, m.EndsAfter k o (m.after n).world := by
  have hsome : ∃ k, (m.after k).outcome? ≠ none := ⟨n, by simp [h]⟩
  have hle : Nat.find hsome ≤ n := Nat.find_min' hsome (by simp [h])
  obtain ⟨o', ho'⟩ := Option.ne_none_iff_exists'.mp (Nat.find_spec hsome)
  obtain ⟨j, hj⟩ := Nat.exists_eq_add_of_le hle
  have hstays : m.after n = m.after (Nat.find hsome) := by
    rw [hj, after_add, after_of_outcome ho']
  refine ⟨_, hle, fun j hj => not_not.mp (Nat.find_min hsome hj), ?_⟩
  rw [hstays] at h ⊢
  exact eq_of_outcome? h

theorem EndsAfter.on (h : m.EndsAfter n o w) (below : List Waiting) :
    (m.on below).after n = ⟨.answer o, below, w⟩ := by
  rw [after_on h.before, h.last]
  rfl

theorem outcome?_on_cons (m : Machine) (x : Waiting) (below : List Waiting) :
    (m.on (x :: below)).outcome? = none := by
  obtain ⟨control, waiting, w⟩ := m
  cases control with
  | answer o => cases waiting <;> rfl
  | run | finish | call => rfl

theorem exists_endsAfter_of_on {x : Waiting} {below : List Waiting}
    (h : ((m.on (x :: below)).after n).outcome? = some o) : ∃ k o w, m.EndsAfter k o w := by
  by_contra hnever
  have hnone (j : Nat) : (m.after j).outcome? = none := by
    rw [Option.eq_none_iff_forall_ne_some]
    intro o ho
    obtain ⟨k, -, hk⟩ := exists_endsAfter ho
    exact hnever ⟨k, o, _, hk⟩
  rw [after_on fun j _ => hnone j, outcome?_on_cons] at h
  cases h

theorem run_after (h : m.run fuel = some (o, w)) (n : Nat) : (m.after n).run fuel = some (o, w) := by
  induction n generalizing m with
  | zero => exact h
  | succ n ih =>
    refine ih ?_
    cases ho : m.outcome? with
    | some o' => rwa [step_of_outcome ho]
    | none =>
      cases fuel with
      | zero => simp [Machine.run, ho] at h
      | succ fuel =>
        rw [run_succ ho] at h
        exact run_add h 1

end Machine

/-- The block is evaluated with each of these integers in turn, in the world that the evaluation before
has left, until one ends abruptly. Every evaluation takes one step more, to hand on its outcome. -/
inductive Block.EvaluatesEach (b : Block) : List Int64 → World → Nat → Except Abrupt Unit → World → Prop
  | done {w : World} : b.EvaluatesEach [] w 0 (.ok ()) w
  | next {i : Int64} {is : List Int64} {w v u : World} {k n : Nat} {x : Value} {o : Except Abrupt Unit} :
      (Machine.evaluate b [.integer i] [] w).EndsAfter k (.ok x) v → b.EvaluatesEach is v n o u →
      b.EvaluatesEach (i :: is) w (k + 1 + n) o u
  | stops {i : Int64} {is : List Int64} {w v : World} {k : Nat} {a : Abrupt} :
      (Machine.evaluate b [.integer i] [] w).EndsAfter k (.error a) v →
      b.EvaluatesEach (i :: is) w (k + 1) (.error a) v

namespace Machine

variable {b : Block} {start limit i : Int64} {before is rest : List Int64} {waiting : List Waiting}
  {w v : World} {k n : Nat} {x : Value} {a : Abrupt} {o : Except Abrupt Unit}

def looping (b : Block) (start limit : Int64) (waiting : List Waiting) : List Int64 → World → Machine
  | [], w => ⟨.answer (.ok (.integer start)), waiting, w⟩
  | i :: _, w => evaluate b [.integer i] (.iteration (.counting b start i limit) :: waiting) w

theorem looping_cons (b : Block) (start limit : Int64) (waiting : List Waiting) (i : Int64)
    (rest : List Int64) (w : World) : looping b start limit waiting (i :: rest) w =
      (evaluate b [.integer i] [] w).on (.iteration (.counting b start i limit) :: waiting) :=
  execute_on [] _ w _ _ _

theorem operate_count (b : Block) (start limit : Int64) (more : List Value) (waiting : List Waiting)
    (w : World) : operate .count (.integer start) (.integer limit :: .block b :: more) waiting w =
      looping b start limit waiting (integersFrom start limit) w := by
  change reply (Iteration.countFrom b start start limit) waiting w = _
  have hhead := head?_integersFrom start limit
  rw [Iteration.countFrom]
  split at hhead
  · next hle =>
    obtain ⟨rest, hrest⟩ := List.head?_eq_some_iff.mp hhead
    rw [if_pos hle, hrest]
    rfl
  · next hgt =>
    rw [if_neg hgt, List.head?_eq_none_iff.mp hhead]
    rfl

theorem looping_next (h : integersFrom start limit = before ++ i :: rest)
    (he : (evaluate b [.integer i] [] w).EndsAfter k (.ok x) v) :
    (looping b start limit waiting (i :: rest) w).after (k + 1) = looping b start limit waiting rest v := by
  rw [looping_cons, after_succ, he.on]
  change reply (if i < limit then Iteration.countFrom b start (i + 1) limit
    else .answer (.integer start)) waiting v = _
  have hhead := head?_rest h
  split at hhead
  · next hlt =>
    obtain ⟨rest, rfl⟩ := List.head?_eq_some_iff.mp hhead
    have hmem : i + 1 ∈ integersFrom start limit := by simp [h]
    rw [if_pos hlt, Iteration.countFrom, if_pos (mem_integersFrom.mp hmem).2]
    rfl
  · next hge =>
    rw [if_neg hge, List.head?_eq_none_iff.mp hhead]
    rfl

theorem looping_stops (he : (evaluate b [.integer i] [] w).EndsAfter k (.error a) v) :
    (looping b start limit waiting (i :: rest) w).after (k + 1) = ⟨.answer (.error a), waiting, v⟩ := by
  rw [looping_cons, after_succ, he.on]
  rfl

def loopingAfter (b : Block) (start limit : Int64) (waiting : List Waiting) (rest : List Int64) (v : World) :
    Except Abrupt Unit → Machine
  | .ok () => looping b start limit waiting rest v
  | .error a => ⟨.answer (.error a), waiting, v⟩

/-- A loop comes to what evaluating the block with some of its integers comes to, and goes on. -/
theorem looping_after (before : List Int64) (he : b.EvaluatesEach is w n o v)
    (h : integersFrom start limit = before ++ (is ++ rest)) :
    (looping b start limit waiting (is ++ rest) w).after n =
      loopingAfter b start limit waiting rest v o := by
  induction he generalizing before with
  | done => rfl
  | @next i is w v u k n x o hi _ ih =>
    rw [after_add, List.cons_append, looping_next (List.cons_append ▸ h) hi]
    exact ih (before ++ [i]) (h.trans (List.append_cons before i _))
  | stops hi => exact looping_stops hi

theorem looping_ends (he : b.EvaluatesEach (integersFrom start limit) w n o v) :
    (looping b start limit waiting (integersFrom start limit) w).after n =
      ⟨.answer (o.map fun _ => .integer start), waiting, v⟩ := by
  have hafter : (looping b start limit waiting (integersFrom start limit ++ []) w).after n =
      loopingAfter b start limit waiting [] v o := looping_after [] he (List.append_nil _).symm
  rw [List.append_nil] at hafter
  rw [hafter]
  cases o <;> rfl

theorem evaluatesEach_of_run {fuel : Nat} {r : Outcome}
    (h : integersFrom start limit = before ++ is)
    (hr : (looping b start limit [] is w).run fuel = some (r, v)) :
    ∃ n o, b.EvaluatesEach is w n o v ∧ r = o.map fun _ => .integer start := by
  induction is generalizing before w with
  | nil =>
    rw [looping, run_of_outcome? rfl] at hr
    cases hr
    exact ⟨0, .ok (), .done, rfl⟩
  | cons i rest ih =>
    obtain ⟨n, -, ho, -⟩ := after_of_run hr
    rw [looping_cons] at ho
    obtain ⟨k, o, u, he⟩ := exists_endsAfter_of_on ho
    have hlater := run_after hr (k + 1)
    cases o with
    | error a =>
      rw [looping_stops he, run_of_outcome? rfl] at hlater
      cases hlater
      exact ⟨k + 1, .error a, .stops he, rfl⟩
    | ok x =>
      rw [looping_next h he] at hlater
      obtain ⟨n, o, heach, hr⟩ := ih (h.trans (List.append_cons before i _)) hlater
      exact ⟨k + 1 + n, o, .next he heach, hr⟩

/-- The loop over these integers, on top of those who wait for it. -/
structure CountsUp (b : Block) (start limit : Int64) (waiting : List Waiting) (w : World)
    (m : Machine) : Prop where
  skips : limit < start → m = ⟨.answer (.ok (.integer start)), waiting, w⟩
  evaluates : ∀ {before i rest n v}, integersFrom start limit = before ++ i :: rest →
    b.EvaluatesEach before w n (.ok ()) v →
      ∀ j, (∀ k < j, ((evaluate b [.integer i] [] v).after k).outcome? = none) →
        m.after (n + j) = ((evaluate b [.integer i] [] v).after j).on
          (.iteration (.counting b start i limit) :: waiting)
  ends : ∀ {n o v}, b.EvaluatesEach (integersFrom start limit) w n o v →
    m.after n = ⟨.answer (o.map fun _ => .integer start), waiting, v⟩
  runs : waiting = [] → ∀ r v, (∃ fuel, m.run fuel = some (r, v)) ↔
    ∃ n o, b.EvaluatesEach (integersFrom start limit) w n o v ∧ r = o.map fun _ => .integer start

/-- A loop from one integer to another evaluates its block with each integer between them once, in
order, up to the first abrupt end. -/
theorem count_evaluates_each (b : Block) (start limit : Int64) (more : List Value)
    (waiting : List Waiting) (w : World) :
    (∀ i, i ∈ integersFrom start limit ↔ start ≤ i ∧ i ≤ limit) ∧
      (integersFrom start limit).Pairwise (· < ·) ∧
      CountsUp b start limit waiting w
        (operate .count (.integer start) (.integer limit :: .block b :: more) waiting w) := by
  rw [operate_count]
  refine ⟨fun i => mem_integersFrom, pairwise_integersFrom start limit, {
    skips := fun hlt => ?_
    evaluates := fun {before i rest n v} h he j hj => ?_
    ends := looping_ends
    runs := ?_ }⟩
  · have hhead := head?_integersFrom start limit
    rw [if_neg (Int64.not_le.mpr hlt), List.head?_eq_none_iff] at hhead
    rw [hhead]
    rfl
  · rw [h, after_add, looping_after [] he h, loopingAfter, looping_cons, after_on hj]
  · rintro rfl r v
    refine ⟨fun ⟨fuel, hr⟩ => evaluatesEach_of_run (List.nil_append _).symm hr, ?_⟩
    rintro ⟨n, o, he, rfl⟩
    have hlast : (looping b start limit [] (integersFrom start limit) w).after n = _ := looping_ends he
    have ho : ((looping b start limit [] (integersFrom start limit) w).after n).outcome? =
        some (o.map fun _ => .integer start) := by
      rw [hlast]
      rfl
    exact ⟨n, by rw [run_of_after ho (Nat.le_refl n), hlast]⟩

end Machine

def keeping : Source :=
  .mk .method "keeping" 1 none none [.pushBlock (.block 1 [.pushSlot .arguments 1 0,
    .popSlot .locals 0 1, .pushSlot .arguments 1 0, .returnLocal]), .returnLocal]

set_option maxRecDepth 100000 in
theorem Machine.count_evaluates_greatest : ∃ (b : Block) (w v : World) (n : Nat),
    b.EvaluatesEach [Int64.maxValue - 1, Int64.maxValue] w n (.ok ()) v ∧
      (v.frames.get b.context).slots[1]? = some (.integer Int64.maxValue) := by
  let start := Int64.maxValue - 1
  let made := keeping.standard.2.invoke 10 (.compiled keeping.standard.1) .nil []
  have hboth : integersFrom start Int64.maxValue = [start, Int64.maxValue] := by decide +kernel
  have hrun : (made.any fun p => (p.1.toOption.bind (·.block?)).any fun b =>
      (p.2.operate 100 .count (.integer start) [.integer Int64.maxValue, .block b]).any fun q =>
        q.1 = .ok (.integer start) &&
          (q.2.frames.get b.context).slots[1]? = some (.integer Int64.maxValue)) = true := by
    decide +kernel
  obtain ⟨⟨x, w⟩, -, hp⟩ := Option.any_eq_true _ _ |>.mp hrun
  obtain ⟨b, -, hp⟩ := Option.any_eq_true _ _ |>.mp hp
  obtain ⟨⟨r, v⟩, hr, hq⟩ := Option.any_eq_true _ _ |>.mp hp
  obtain ⟨hanswer, hkept⟩ := Bool.and_eq_true_iff.mp hq
  obtain ⟨-, -, hcounts⟩ := count_evaluates_each b start Int64.maxValue [] [] w
  obtain ⟨n, o, he, ho⟩ := (hcounts.runs rfl r v).mp ⟨100, hr⟩
  rw [hboth] at he
  cases of_decide_eq_true hanswer
  cases o with
  | error a => cases ho
  | ok u => exact ⟨b, w, v, n, he, of_decide_eq_true hkept⟩

end MessageMachine
