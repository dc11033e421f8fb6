import Mathlib.Data.Finset.Card
import MessageMachine.Symbol

namespace MessageMachine

namespace SymbolTable

/-- What a symbol table is asked. -/
inductive Query where
  | intern (name : String)
  | get (name : String)
deriving DecidableEq, Repr

namespace Query

def name : Query → String
  | intern name | get name => name

/-- The name that is made known by asking. -/
def interned? : Query → Option String
  | intern name => some name
  | get _ => none

theorem interned?_eq_some {q : Query} {name : String} :
    q.interned? = some name ↔ q = intern name := by
  cases q <;> simp [interned?]

end Query

/-- What a table answers, and the table after that. -/
def ask (t : SymbolTable) : Query → Option Symbol × SymbolTable
  | .intern name => (t.intern name).map some id
  | .get name => (t.get? name, t)

def after (t : SymbolTable) (qs : List Query) : SymbolTable := qs.foldl (fun t q => (t.ask q).2) t

/-- The answers to some queries, one after the other. -/
def answers : SymbolTable → List Query → List (Option Symbol)
  | _, [] => []
  | t, q :: qs => (t.ask q).1 :: answers (t.ask q).2 qs

variable {t : SymbolTable} {s s' : Symbol} {name : String} {names : List String} {q : Query}
  {qs : List Query} {i j : Nat}

theorem after_concat (t : SymbolTable) (qs : List Query) (q : Query) :
    t.after (qs ++ [q]) = ((t.after qs).ask q).2 := by
  simp only [after, List.foldl_append, List.foldl_cons, List.foldl_nil]

theorem getElem?_answers (t : SymbolTable) (qs : List Query) (i : Nat) :
    (t.answers qs)[i]? = qs[i]?.map fun q => ((t.after (qs.take i)).ask q).1 := by
  induction qs generalizing t i with
  | nil => rfl
  | cons q qs ih =>
    cases i with
    | zero => rfl
    | succ i => exact ih (t.ask q).2 i

theorem length_answers (t : SymbolTable) (qs : List Query) : (t.answers qs).length = qs.length := by
  induction qs generalizing t with
  | nil => rfl
  | cons q qs ih => exact congrArg (· + 1) (ih (t.ask q).2)

theorem get?_of_ask (h : (t.ask q).1 = some s) :
    q.name = s.name ∧ (t.ask q).2.get? s.name = some s := by
  cases q with
  | intern name =>
    have hs : (t.intern name).1 = s := Option.some.inj h
    have hname : s.name = name := hs ▸ t.name_intern name
    refine ⟨hname.symm, ?_⟩
    change (t.intern name).2.get? s.name = some s
    rw [get?_intern, if_pos hname.symm, hs]
  | get name =>
    have hname := name_of_get? h
    exact ⟨hname.symm, hname ▸ h⟩

theorem get?_ask_of_get? (h : t.get? name = some s) (q : Query) : (t.ask q).2.get? name = some s := by
  cases q with
  | intern other => exact get?_intern_of_get? h other
  | get other => exact h

theorem get?_after_of_get? (h : t.get? name = some s) (qs : List Query) :
    (t.after qs).get? name = some s := by
  induction qs generalizing t with
  | nil => exact h
  | cons q qs ih => exact ih (get?_ask_of_get? h q)

theorem ask_of_get? (h : t.get? q.name = some s) : (t.ask q).1 = some s := by
  cases q with
  | intern name =>
    change some (t.intern name).1 = some s
    rw [intern, show t.get? name = some s from h]
  | get name => exact h

/-- The table knows these names, each by one symbol, and its symbols are numbered as they came. -/
structure Knows (names : List String) (t : SymbolTable) : Prop where
  known : ∀ name, (∃ s, t.get? name = some s) ↔ name ∈ names
  nodup : (t.symbols.map (·.name)).Nodup
  numbered : t.symbols.map (·.index) = (List.range t.size).reverse

theorem mem_of_get? (h : t.get? name = some s) : s ∈ t.symbols := List.mem_of_find?_eq_some h

theorem get?_isSome : (∃ s, t.get? name = some s) ↔ name ∈ t.symbols.map (·.name) := by
  rw [← Option.isSome_iff_exists, get?, List.find?_isSome]
  simp

theorem Knows.empty : Knows [] SymbolTable.empty := by
  refine ⟨fun name => ?_, List.nodup_nil, rfl⟩
  simp

theorem Knows.intern (h : t.Knows names) (name : String) :
    (t.intern name).2.Knows (names ++ [name]) := by
  have hknown : ∀ other, (∃ s, (t.intern name).2.get? other = some s) ↔ other ∈ names ++ [name] := by
    intro other
    rw [get?_intern, List.mem_append, List.mem_singleton, ← h.known other]
    split
    · next heq => simp [heq]
    · next hne => simp [Ne.symm hne]
  refine ⟨hknown, ?_, ?_⟩ <;> rw [SymbolTable.intern] <;> split
  · exact h.nodup
  · next hnone =>
    refine List.nodup_cons.mpr ⟨fun hmem => ?_, h.nodup⟩
    obtain ⟨s, hs⟩ := get?_isSome.mpr hmem
    rw [hnone] at hs
    cases hs
  · exact h.numbered
  · change t.size :: t.symbols.map (·.index) = (List.range (t.size + 1)).reverse
    rw [List.range_succ, List.reverse_append, h.numbered]
    rfl

theorem Knows.ask (h : t.Knows names) (q : Query) :
    (t.ask q).2.Knows (names ++ q.interned?.toList) := by
  cases q with
  | intern name => exact h.intern name
  | get name =>
    rw [Query.interned?, Option.toList_none, List.append_nil]
    exact h

theorem Knows.after (h : t.Knows names) (qs : List Query) :
    (t.after qs).Knows (names ++ qs.filterMap (·.interned?)) := by
  induction qs generalizing t names with
  | nil => rwa [List.filterMap_nil, List.append_nil]
  | cons q qs ih =>
    have hall := ih (h.ask q)
    rw [List.append_assoc] at hall
    cases q <;> exact hall

theorem Knows.size_eq (h : t.Knows names) : t.size = names.toFinset.card := by
  have hsame : (t.symbols.map (·.name)).toFinset = names.toFinset := by
    ext name
    rw [List.mem_toFinset, List.mem_toFinset, ← get?_isSome, h.known]
  rw [← hsame, List.toFinset_card_of_nodup h.nodup, List.length_map, size]

theorem Knows.eq_of_index_eq (h : t.Knows names) (hs : s ∈ t.symbols) (hs' : s' ∈ t.symbols)
    (heq : s.index = s'.index) : s = s' := by
  refine List.inj_on_of_nodup_map ?_ hs hs' heq
  rw [h.numbered]
  exact List.nodup_reverse.mpr List.nodup_range

theorem get?_of_answer (h : (t.answers qs)[i]? = some (some s)) (hij : i < j) :
    (t.after (qs.take j)).get? s.name = some s := by
  rw [getElem?_answers, Option.map_eq_some_iff] at h
  obtain ⟨q, hq, hs⟩ := h
  obtain ⟨k, rfl⟩ := Nat.exists_eq_add_of_lt hij
  rw [Nat.add_right_comm, List.take_add, List.take_add_one, hq, after, List.foldl_append]
  refine get?_after_of_get? ?_ _
  have hafter := after_concat t (qs.take i) q
  rw [after] at hafter
  rw [Option.toList_some, hafter]
  exact (get?_of_ask hs).2

theorem get?_after_of_mem_answers (h : some s ∈ t.answers qs) : (t.after qs).get? s.name = some s := by
  obtain ⟨i, hi⟩ := List.getElem?_of_mem h
  have hlt : i < qs.length := by
    by_contra hle
    rw [getElem?_answers, List.getElem?_eq_none (Nat.le_of_not_lt hle)] at hi
    cases hi
  have hafter := get?_of_answer hi hlt
  rwa [List.take_length] at hafter

theorem mem_interned_take :
    name ∈ (qs.take i).filterMap (·.interned?) ↔ ∃ j < i, qs[j]? = some (.intern name) := by
  simp only [List.mem_filterMap, Query.interned?_eq_some, exists_eq_right]
  rw [List.mem_iff_getElem?]
  refine exists_congr fun j => ?_
  rw [List.getElem?_take]
  split
  · next hlt => exact (and_iff_right hlt).symm
  · next hle => simp [hle]

theorem after_filter (t : SymbolTable) (qs : List Query) :
    t.after (qs.filter (·.interned?.isSome)) = t.after qs := by
  induction qs generalizing t with
  | nil => rfl
  | cons q qs ih => cases q <;> exact ih _

def IsOperator (name : String) : Prop :=
  name ≠ "" ∧ ∀ c ∈ name.toList, c ∈ "~&|*/@+-=><,%\\".toList

theorem arity_of_operator (h : IsOperator s.name) : s.arity = 2 := by
  have hall : s.name.toList.all isOperatorChar = true := by
    rw [List.all_eq_true]
    intro c hc
    simpa [isOperatorChar] using h.2 c hc
  simp [Symbol.arity, selectorArity, selectorArityOf, hall, h.1]

theorem arity_of_not_operator (h : ¬ IsOperator s.name) : s.arity = s.name.toList.count ':' + 1 := by
  unfold Symbol.arity selectorArity selectorArityOf
  rw [if_neg, List.count_eq_length_filter]
  rw [Bool.and_eq_true, List.all_eq_true]
  rintro ⟨hempty, hall⟩
  refine h ⟨by simpa using hempty, fun c hc => ?_⟩
  simpa [isOperatorChar] using hall c hc

/-- Names and symbols belong together one to one, in the answers to these queries and in the table that
they leave. -/
structure OneToOne (qs : List Query) (answers : List (Option Symbol)) (t : SymbolTable) : Prop where
  /-- Every query is answered, with nothing or with a symbol of the name that was asked for. -/
  names : answers.length = qs.length ∧ ∀ (i : Nat) (q : Query) (s : Symbol),
    qs[i]? = some q → answers[i]? = some (some s) → s.name = q.name
  interns : ∀ (i : Nat) (name : String), qs[i]? = some (.intern name) →
    ∃ s, answers[i]? = some (some s)
  /-- A name has a symbol to get exactly when it was interned before. -/
  gets : ∀ (i : Nat) (name : String), qs[i]? = some (.get name) →
    ((∃ s, answers[i]? = some (some s)) ↔ ∃ j < i, qs[j]? = some (.intern name))
  /-- Two symbols are the same exactly when their names are. -/
  same : ∀ s s' : Symbol, some s ∈ answers → some s' ∈ answers →
    (s = s' ↔ s.name = s'.name) ∧ (s.index = s'.index ↔ s.name = s'.name)
  /-- A symbol that was answered once is answered for its name ever after. -/
  stays : ∀ (i j : Nat) (s : Symbol) (q : Query), i ≤ j → answers[i]? = some (some s) →
    qs[j]? = some q → q.name = s.name → answers[j]? = some (some s)
  /-- Without getting, the table would be the same. -/
  traceless : t = SymbolTable.empty.after (qs.filter (·.interned?.isSome))
  size : t.size = (qs.filterMap (·.interned?)).toFinset.card
  /-- Operators take two operands, and other selectors one more than they have colons. -/
  arity : ∀ s : Symbol, some s ∈ answers → 1 ≤ s.arity ∧ (IsOperator s.name → s.arity = 2) ∧
    (¬ IsOperator s.name → s.arity = s.name.toList.count ':' + 1)

/-- Whatever a new table is asked, names and symbols belong together one to one. -/
theorem symbols_one_to_one (qs : List Query) :
    OneToOne qs (empty.answers qs) (empty.after qs) := by
  have hknows (qs : List Query) : (empty.after qs).Knows (qs.filterMap (·.interned?)) :=
    Knows.empty.after qs
  refine {
    names := ⟨length_answers empty qs, fun i q s hq hs => ?_⟩
    interns := fun i name hq => ?_
    gets := fun i name hq => ?_
    same := fun s s' hs hs' => ?_
    stays := fun i j s q hij hs hq hname => ?_
    traceless := (after_filter empty qs).symm
    size := (hknows qs).size_eq
    arity := fun s _ => ⟨s.arity_pos, arity_of_operator, arity_of_not_operator⟩ }
  · rw [getElem?_answers, hq] at hs
    exact (get?_of_ask (Option.some.inj hs)).1.symm
  · rw [getElem?_answers, hq]
    exact ⟨_, rfl⟩
  · rw [getElem?_answers, hq, ← mem_interned_take, ← (hknows _).known]
    simp only [Option.map_some, Option.some.injEq]
    rfl
  · have hget := get?_after_of_mem_answers hs
    have hget' := get?_after_of_mem_answers hs'
    have heq (h : s.name = s'.name) : s = s' := by
      rw [h, hget'] at hget
      exact (Option.some.inj hget).symm
    refine ⟨⟨congrArg _, heq⟩, fun h => ?_, fun h => congrArg _ (heq h)⟩
    rw [(hknows qs).eq_of_index_eq (mem_of_get? hget) (mem_of_get? hget') h]
  · obtain rfl | hlt := Nat.eq_or_lt_of_le hij
    · exact hs
    · have hget := get?_of_answer hs hlt
      rw [getElem?_answers, hq]
      exact congrArg some (ask_of_get? (hname ▸ hget))

example : empty.answers [.get "at:", .intern "at:", .intern "+", .intern "at:", .get "at:"] =
    [none, some ⟨0, "at:"⟩, some ⟨1, "+"⟩, some ⟨0, "at:"⟩, some ⟨0, "at:"⟩] := by decide

end SymbolTable

end MessageMachine
