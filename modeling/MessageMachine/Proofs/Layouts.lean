import Mathlib.Algebra.GroupWithZero.Nat
import MessageMachine.Proofs.Contexts
import MessageMachine.Proofs.Chronicle
import MessageMachine.Proofs.Mirroring

namespace MessageMachine

namespace World

section

variable {α : Type} [DecidableEq α] {x : α} {xs : List α} {k : Nat}

def LastAt (x : α) (xs : List α) (k : Nat) : Prop := xs[k]? = some x ∧ ∀ j > k, xs[j]? ≠ some x

theorem lastIndexOf_eq_none : lastIndexOf x xs = none ↔ x ∉ xs := by
  induction xs with
  | nil => simp [lastIndexOf]
  | cons y ys ih =>
    rw [lastIndexOf, List.mem_cons]
    cases hys : lastIndexOf x ys with
    | some i =>
      have hmem : x ∈ ys := by
        by_contra hnot
        cases hys.symm.trans (ih.mpr hnot)
      simp [hmem]
    | none =>
      simp [ih.mp hys, eq_comm]

theorem lastIndexOf_eq_some : lastIndexOf x xs = some k ↔ LastAt x xs k := by
  induction xs generalizing k with
  | nil => simp [lastIndexOf, LastAt]
  | cons y ys ih =>
    rw [lastIndexOf]
    cases hys : lastIndexOf x ys with
    | some i =>
      obtain ⟨hi, hlast⟩ := ih.mp hys
      have hlater : LastAt x (y :: ys) (i + 1) := ⟨hi, fun j hj => by
        cases j with
        | zero => exact absurd hj (Nat.not_lt_zero _)
        | succ j => exact hlast j (Nat.lt_of_succ_lt_succ hj)⟩
      refine ⟨fun h => Option.some.inj h ▸ hlater, fun h => congrArg some ?_⟩
      -- Of two last positions neither is before the other.
      exact Nat.le_antisymm (Nat.le_of_not_lt fun hlt => h.2 _ hlt hlater.1)
        (Nat.le_of_not_lt fun hlt => hlater.2 _ hlt h.1)
    | none =>
      have hnone (j : Nat) : ys[j]? ≠ some x := fun hj =>
        lastIndexOf_eq_none.mp hys (List.mem_of_getElem? hj)
      cases k with
      | zero =>
        have hafter : ∀ j > 0, (y :: ys)[j]? ≠ some x := fun j hj => by
          obtain ⟨j, rfl⟩ := Nat.exists_eq_succ_of_ne_zero (Nat.pos_iff_ne_zero.mp hj)
          exact hnone j
        simp only [LastAt, List.getElem?_cons_zero, Option.some.injEq, and_iff_left hafter]
        by_cases hy : y = x <;> simp [hy]
      | succ k => by_cases hy : y = x <;> simp [LastAt, hy, hnone k]

end

variable {w w' w'' : World} {c d s : ClassRef} {cs before : List ClassRef} {name : Symbol} {i : Nat}

/-- Every field of an instance with the class that declares it, inherited ones first. -/
def layoutOf (w : World) (cs : List ClassRef) : List (ClassRef × Symbol) :=
  cs.reverse.flatMap fun c => (w.cls c).fields.map fun name => (c, name)

def layout (w : World) (c : ClassRef) : List (ClassRef × Symbol) := w.layoutOf (w.ancestors c)

theorem declaredCount_eq (w : World) (cs : List ClassRef) :
    w.declaredCount cs = (cs.map fun c => (w.cls c).fields.length).sum := by
  rw [declaredCount, ← List.foldl_map (f := fun c => (w.cls c).fields.length) (g := (· + ·)),
    List.sum_eq_foldl]

theorem declaredCount_cons (w : World) (c : ClassRef) (cs : List ClassRef) :
    w.declaredCount (c :: cs) = w.declaredCount cs + (w.cls c).fields.length := by
  simp only [declaredCount_eq, List.map_cons, List.sum_cons]
  exact Nat.add_comm _ _

theorem layoutOf_cons (w : World) (c : ClassRef) (cs : List ClassRef) :
    w.layoutOf (c :: cs) = w.layoutOf cs ++ (w.cls c).fields.map fun name => (c, name) := by
  simp [layoutOf]

theorem layoutOf_append (w : World) (before cs : List ClassRef) :
    w.layoutOf (before ++ cs) = w.layoutOf cs ++ w.layoutOf before := by
  simp [layoutOf]

theorem length_layoutOf (w : World) (cs : List ClassRef) :
    (w.layoutOf cs).length = w.declaredCount cs := by
  induction cs with
  | nil => rfl
  | cons c cs ih => rw [layoutOf_cons, List.length_append, List.length_map, declaredCount_cons, ih]

/-- A field is where its last declaration in the innermost class that declares it puts it. -/
theorem fieldIndexIn_eq_some : w.fieldIndexIn name cs = some i ↔
    ∃ before d after k, cs = before ++ d :: after ∧ (∀ e ∈ before, name ∉ (w.cls e).fields) ∧
      LastAt name (w.cls d).fields k ∧ i = w.declaredCount after + k := by
  induction cs with
  | nil => simp [fieldIndexIn]
  | cons c cs ih =>
    rw [fieldIndexIn]
    cases hown : lastIndexOf name (w.cls c).fields with
    | some own =>
      have hlast := lastIndexOf_eq_some.mp hown
      constructor
      · rintro ⟨⟩
        exact ⟨[], c, cs, own, rfl, nofun, hlast, rfl⟩
      · rintro ⟨before, d, after, k, hcs, hbefore, hk, rfl⟩
        cases before with
        | nil =>
          obtain ⟨rfl, rfl⟩ := List.cons.inj hcs
          have hsame := hown.symm.trans (lastIndexOf_eq_some.mpr hk)
          rw [Option.some.inj hsame]
        | cons e before =>
          obtain ⟨rfl, -⟩ := List.cons.inj hcs
          exact absurd (List.mem_of_getElem? hlast.1) (hbefore _ List.mem_cons_self)
    | none =>
      have hnot := lastIndexOf_eq_none.mp hown
      dsimp only
      rw [ih]
      constructor
      · rintro ⟨before, d, after, k, rfl, hbefore, hk, hi⟩
        exact ⟨c :: before, d, after, k, rfl, List.forall_mem_cons.mpr ⟨hnot, hbefore⟩, hk, hi⟩
      · rintro ⟨before, d, after, k, hcs, hbefore, hk, hi⟩
        cases before with
        | nil =>
          obtain ⟨rfl, rfl⟩ := List.cons.inj hcs
          exact absurd (List.mem_of_getElem? hk.1) hnot
        | cons e before =>
          obtain ⟨rfl, rfl⟩ := List.cons.inj hcs
          exact ⟨before, d, after, k, rfl, (List.forall_mem_cons.mp hbefore).2, hk, hi⟩

theorem fieldIndexIn_eq_none :
    w.fieldIndexIn name cs = none ↔ ∀ d ∈ cs, name ∉ (w.cls d).fields := by
  induction cs with
  | nil => simp [fieldIndexIn]
  | cons c cs ih =>
    rw [fieldIndexIn, List.forall_mem_cons, ← lastIndexOf_eq_none]
    cases lastIndexOf name (w.cls c).fields with
    | some own => simp
    | none => simp [ih]

theorem layoutOf_fieldIndexIn (h : w.fieldIndexIn name cs = some i) :
    ∃ d ∈ cs, (w.layoutOf cs)[i]? = some (d, name) := by
  obtain ⟨before, d, after, k, rfl, -, hk, rfl⟩ := fieldIndexIn_eq_some.mp h
  have hd : (w.layoutOf (d :: after))[w.declaredCount after + k]? = some (d, name) := by
    rw [layoutOf_cons, ← length_layoutOf, List.getElem?_append_right (Nat.le_add_right _ _),
      Nat.add_sub_cancel_left, List.getElem?_map, hk.1]
    rfl
  refine ⟨d, by simp, ?_⟩
  rw [layoutOf_append, List.getElem?_append_left (List.getElem?_eq_some_iff.mp hd).1, hd]

/-- How the fields of a class lie, behind those of its superclass. -/
structure LaidOut (w : World) (c : ClassRef) : Prop where
  chain : w.ancestors c = c :: match (w.cls c).superclass with
    | some s => w.ancestors s
    | none => []
  count : w.fieldCount c = ((w.ancestors c).map fun d => (w.cls d).fields.length).sum
  /-- The innermost class that declares a field places it, at its last declaration there. -/
  index : ∀ name i, w.fieldIndex? c name = some i ↔ ∃ before d after k,
    w.ancestors c = before ++ d :: after ∧ (∀ e ∈ before, name ∉ (w.cls e).fields) ∧
      LastAt name (w.cls d).fields k ∧ i = (after.map fun e => (w.cls e).fields.length).sum + k
  absent : ∀ name, w.fieldIndex? c name = none ↔ ∀ d ∈ w.ancestors c, name ∉ (w.cls d).fields
  below : ∀ name i, w.fieldIndex? c name = some i → i < w.fieldCount c
  distinct : ∀ name other i, w.fieldIndex? c name = some i → w.fieldIndex? c other = some i → name = other
  inherited : ∀ s, (w.cls c).superclass = some s → ∀ name, name ∉ (w.cls c).fields →
    w.fieldIndex? c name = w.fieldIndex? s name
  length : (w.layout c).length = w.fieldCount c
  named : ∀ name i, w.fieldIndex? c name = some i → ∃ d, (w.layout c)[i]? = some (d, name)
  /-- A place is the same field in instances of a class and of its subclasses. -/
  extends_ancestor : ∀ s ∈ w.ancestors c, w.layout s <+: w.layout c

theorem fieldIndexIn_lt (h : w.fieldIndexIn name cs = some i) : i < w.declaredCount cs := by
  obtain ⟨d, -, hd⟩ := layoutOf_fieldIndexIn h
  rw [← length_layoutOf]
  exact (List.getElem?_eq_some_iff.mp hd).1

theorem Ordered.ancestors_suffix (h : w.Ordered) (hs : s ∈ w.ancestors c) :
    w.ancestors s <:+ w.ancestors c := by
  induction c using h.induction with
  | h c ih =>
    rw [ancestors_eq h] at hs
    rcases List.mem_cons.mp hs with rfl | hs
    · exact List.suffix_refl _
    · rw [ancestors_eq h c]
      cases hsuper : (w.cls c).superclass with
      | none =>
        rw [hsuper] at hs
        cases hs
      | some p =>
        rw [hsuper] at hs
        exact (ih p hsuper hs).trans (List.suffix_cons _ _)

theorem Ordered.laidOut (h : w.Ordered) (c : ClassRef) : w.LaidOut c where
  chain := ancestors_eq h c
  count := w.declaredCount_eq _
  index name i := by
    simp only [← declaredCount_eq]
    exact fieldIndexIn_eq_some
  absent _ := fieldIndexIn_eq_none
  below _ _ := fieldIndexIn_lt
  distinct name other i hname hother := by
    obtain ⟨d, -, hd⟩ := layoutOf_fieldIndexIn hname
    obtain ⟨e, -, he⟩ := layoutOf_fieldIndexIn hother
    cases hd.symm.trans he
    rfl
  inherited s hs name hname := by
    rw [fieldIndex?, ancestors_eq h, hs, fieldIndexIn, lastIndexOf_eq_none.mpr hname]
    rfl
  length := w.length_layoutOf _
  named name i hi := by
    obtain ⟨d, -, hd⟩ := layoutOf_fieldIndexIn hi
    exact ⟨d, hd⟩
  extends_ancestor s hs := by
    obtain ⟨before, hbefore⟩ := h.ancestors_suffix hs
    rw [layout, layout, ← hbefore, layoutOf_append]
    exact List.prefix_append _ _

/-- Classes were added; those made before keep their superclass and their fields. -/
structure SameLayouts (w w' : World) : Prop where
  size_le : w.classes.size ≤ w'.classes.size
  superclass : ∀ d : ClassRef, d.index < w.classes.size → (w'.cls d).superclass = (w.cls d).superclass
  fields : ∀ d : ClassRef, d.index < w.classes.size → (w'.cls d).fields = (w.cls d).fields

theorem SameLayouts.of_classes (h : w'.classes = w.classes) : w.SameLayouts w' where
  size_le := Nat.le_of_eq (by rw [h])
  superclass d _ := by rw [cls, h, cls]
  fields d _ := by rw [cls, h, cls]

theorem SameLayouts.trans (h : w.SameLayouts w') (h' : w'.SameLayouts w'') : w.SameLayouts w'' where
  size_le := Nat.le_trans h.size_le h'.size_le
  superclass d hd :=
    (h'.superclass d (Nat.lt_of_lt_of_le hd h.size_le)).trans (h.superclass d hd)
  fields d hd := (h'.fields d (Nat.lt_of_lt_of_le hd h.size_le)).trans (h.fields d hd)

theorem SameLayouts.define (w : World) (name : String) (hs : s.index < w.classes.size)
    (fields : List String) : w.SameLayouts (w.define name s fields).2 := by
  obtain ⟨-, hd⟩ := w.define_defines name hs fields
  refine ⟨hd.size ▸ Nat.le_add_right _ _, fun d hlt => ?_, fun d hlt => ?_⟩ <;> rw [hd.old d hlt]

theorem SameLayouts.install (w : World) (c : ClassRef) (m : Method) : w.SameLayouts (w.install c m) := by
  obtain ⟨codes, primitives, heq, -⟩ := w.install_eq c m
  rw [heq]
  refine ⟨Nat.le_of_eq (Arena.size_set _ _ _).symm, fun d _ => ?_, fun d _ => ?_⟩ <;>
  · simp only [cls, flushMemos, Arena.get_set]
    split
    · next h => rw [h.1]
    · rfl

theorem Alters.sameLayouts {I : History} (h : w.Alters w' I) (hw : w.Tidy) : w.SameLayouts w' := by
  cases h with
  | prepare h => exact .of_classes h.classes
  | install h => exact (SameLayouts.of_classes h.classes).trans (.install _ _ _)
  | define h name hs fields =>
    have hlt := (hw.registered _).mp hs
    exact (SameLayouts.of_classes h.classes).trans (.define _ name (h.classes ▸ hlt) fields)

theorem Ordered.le_of_mem_ancestors (h : w.Ordered) (hd : d ∈ w.ancestors c) :
    d.index ≤ c.index := by
  induction c using h.induction with
  | h c ih =>
    rw [ancestors_eq h] at hd
    rcases List.mem_cons.mp hd with rfl | hd
    · exact Nat.le_refl _
    · cases hs : (w.cls c).superclass with
      | none =>
        rw [hs] at hd
        cases hd
      | some s =>
        rw [hs] at hd
        exact Nat.le_trans (ih s hs hd) (Nat.le_of_lt (h c s hs))

/-- A chain stays among the classes that were there, for a superclass is older than its subclass. -/
theorem SameLayouts.ancestors (h : w.SameLayouts w') (ho : w.Ordered) (hc : c.index < w.classes.size) :
    w'.ancestors c = w.ancestors c := by
  have hchain (n : Nat) : ∀ d : ClassRef, d.index < w.classes.size → w'.chain n d = w.chain n d := by
    induction n with
    | zero => exact fun _ _ => rfl
    | succ n ih =>
      intro d hd
      simp only [World.chain, h.superclass d hd]
      cases hs : (w.cls d).superclass with
      | none => rfl
      | some s => simp only [ih s (Nat.lt_trans (ho d s hs) hd)]
  exact hchain _ c hc

theorem layoutOf_congr (h : ∀ d ∈ cs, (w'.cls d).fields = (w.cls d).fields) :
    w'.layoutOf cs = w.layoutOf cs := by
  induction cs with
  | nil => rfl
  | cons c cs ih =>
    obtain ⟨hc, hcs⟩ := List.forall_mem_cons.mp h
    rw [layoutOf_cons, layoutOf_cons, ih hcs, hc]

theorem fieldIndexIn_congr (h : ∀ d ∈ cs, (w'.cls d).fields = (w.cls d).fields) (name : Symbol) :
    w'.fieldIndexIn name cs = w.fieldIndexIn name cs := by
  induction cs with
  | nil => rfl
  | cons c cs ih =>
    obtain ⟨hc, hcs⟩ := List.forall_mem_cons.mp h
    rw [fieldIndexIn, fieldIndexIn, hc, ih hcs, ← length_layoutOf, layoutOf_congr hcs, length_layoutOf]

theorem SameLayouts.keeps (h : w.SameLayouts w') (ho : w.Ordered) (hc : c.index < w.classes.size) :
    w'.layout c = w.layout c ∧ w'.fieldCount c = w.fieldCount c ∧
      ∀ name, w'.fieldIndex? c name = w.fieldIndex? c name := by
  have hfields (d : ClassRef) (hd : d ∈ w.ancestors c) : (w'.cls d).fields = (w.cls d).fields :=
    h.fields d (Nat.lt_of_le_of_lt (ho.le_of_mem_ancestors hd) hc)
  have hlayout : w'.layoutOf (w.ancestors c) = w.layoutOf (w.ancestors c) := layoutOf_congr hfields
  simp only [layout, fieldCount, fieldIndex?, h.ancestors ho hc, ← length_layoutOf, hlayout,
    fieldIndexIn_congr hfields, implies_true, and_self]

theorem Ranked.define_layout (h : w.Ranked) (name : String) (hs : s.index < w.classes.size)
    (fields : List String) : let (c, w') := w.define name s fields
    (w'.cls c).superclass = some s ∧ (w'.cls c).fields.map (·.name) = fields ∧
      w'.fieldCount c = w.fieldCount s + fields.length ∧
      w'.layout c = w.layout s ++ (w'.cls c).fields.map fun name => (c, name) := by
  have hordered := (h.define name hs fields).ordered
  obtain ⟨hlayout, hcount, -⟩ := (SameLayouts.define w name hs fields).keeps h.ordered hs
  obtain ⟨hnext, hd⟩ := w.define_defines name hs fields
  generalize w.define name s fields = p at *
  obtain ⟨c, w'⟩ := p
  obtain rfl : c = w.classes.next := hnext
  obtain ⟨n, ss, -, hnames, hcls⟩ := hd.added
  dsimp only at *
  have hchain : w'.ancestors w.classes.next = w.classes.next :: w'.ancestors s := by
    rw [ancestors_eq hordered, hcls]
  refine ⟨by rw [hcls], by rw [hcls, hnames], ?_, ?_⟩
  · rw [fieldCount, hchain, declaredCount_cons, hcls, ← hnames, List.length_map, ← hcount, fieldCount]
  · rw [layout, hchain, layoutOf_cons, ← hlayout, layout]

/-- Some time later: objects kept their class and their number of fields, and a new instance of a
class of that time has as many as that class said. -/
structure Shapes (w w' : World) : Prop extends w.SameLayouts w' where
  ordered : w.Ordered
  objects_le : w.objects.size ≤ w'.objects.size
  kept : ∀ r : ObjectRef, r.index < w.objects.size →
    (w'.objects.get r).cls = (w.objects.get r).cls ∧
      (w'.objects.get r).fields.size = (w.objects.get r).fields.size
  made : ∀ r : ObjectRef, w.objects.size ≤ r.index → r.index < w'.objects.size →
    (w'.objects.get r).cls.index < w.classes.size →
      (w'.objects.get r).fields.size = w.fieldCount (w'.objects.get r).cls

theorem Shapes.refl (h : w.Ordered) : w.Shapes w where
  toSameLayouts := .of_classes rfl
  ordered := h
  objects_le := Nat.le_refl _
  kept _ _ := ⟨rfl, rfl⟩
  made _ hle hlt := absurd hlt (Nat.not_lt.mpr hle)

theorem Shapes.extend (h : w.Shapes w') (hc : w'.SameLayouts w'') (ho : w'.SameShapes w'') :
    w.Shapes w'' where
  toSameLayouts := h.toSameLayouts.trans hc
  ordered := h.ordered
  objects_le := Nat.le_trans h.objects_le ho.size_le
  kept r hr := by
    obtain ⟨hcls, hsize⟩ := ho.kept r (Nat.lt_of_lt_of_le hr h.objects_le)
    obtain ⟨hcls', hsize'⟩ := h.kept r hr
    exact ⟨hcls.trans hcls', hsize.trans hsize'⟩
  made r hle hlt hd := by
    by_cases hold : r.index < w'.objects.size
    · obtain ⟨hcls, hsize⟩ := ho.kept r hold
      rw [hcls] at hd ⊢
      rw [hsize]
      exact h.made r hle hold hd
    -- What its class says now is what it said then.
    · rw [ho.made r (Nat.le_of_not_lt hold) hlt]
      exact (h.keeps h.ordered hd).2.1

theorem Shapes.rest (h : w.Shapes w') (hc : w''.classes = w'.classes)
    (ho : w''.objects = w'.objects) : w.Shapes w'' :=
  h.extend (.of_classes hc) (.of_objects ho)

instance : Lasting w.Shapes where
  congr h hs := h.extend (.of_classes hs.classes) hs.shapes
  count h _ := h.rest rfl rfl
  lookup {v} h c selector := by
    obtain ⟨found, memos, hv⟩ := v.lookupWithin_depends selector (c.index + 1) c
    rw [lookup, hv v rfl rfl]
    exact h.rest rfl rfl

end World

theorem HostChange.shapes {held : List Grant} {w w' : World} (h : HostChange held w w') :
    w.SameShapes w' := by
  cases h with
  | define name superclass fields => exact .of_objects (w.define_objects name superclass fields)
  | newInstance c => exact .newInstance w c
  | @setField r index v _ hv h =>
    have hset := World.SameShapes.setField w r index v
    rwa [h, Option.getD_some] at hset
  | primitive | intern | newString | newArray | setElement | setGlobal | takeTranscript
  | withoutCaches => exact .of_objects rfl

/-- Whatever a host does, and whatever code does, instances have the size that their class says. -/
theorem Chronicle.shapes {permits : World → Alteration → Prop} {w₀ : World} {H I : History}
    {m : Machine} (h : Chronicle permits w₀ H m) (hw : w₀.Logged I) : w₀.Shapes m.world := by
  induction h with
  | boot => exact .refl hw.tidy.ranked.ordered
  | step _ ih =>
    exact Machine.step_lasts ih fun _ _ c selector _ =>
      Action.resolve_lasts (fun h => h.rest rfl rfl) c selector
  | request _ r ih => exact r.machine_lasts ih
  | @alter _ _ v h a ha hp ih =>
    have htidy := (h.logged hw).tidy
    exact ih.extend ((World.alter_alters htidy ha).sameLayouts htidy)
      (.of_objects (v.alter_rests a).objects)
  | change _ hc hclasses _ ih => exact ih.extend (.of_classes hclasses) hc.shapes

namespace World

variable {w : World} {r : ObjectRef} {i : Nat}

theorem field?_setField {v : Value} (hi : i < (w.objects.get r).fields.size) (q : ObjectRef) (j : Nat) :
    ((w.setField? r i v).getD w).field? q j = if q = r ∧ j = i then some v else w.field? q j := by
  have hr : r.index < w.objects.size := by
    refine Nat.lt_of_not_le fun hle => ?_
    rw [Arena.get_of_le _ hle] at hi
    exact Nat.not_lt_zero _ hi
  have hget : ((w.setField? r i v).getD w).objects.get q = if q = r then { w.objects.get r with
      fields := (w.objects.get r).fields.setIfInBounds i v } else w.objects.get q := by
    rw [getD_setField?]
    dsimp only
    rw [if_pos hi, Arena.get_set]
    simp only [hr, and_true, eq_comm]
  rw [field?, hget]
  by_cases hq : q = r
  · subst hq
    simp only [if_true, true_and]
    by_cases hj : j = i
    · rw [if_pos hj, hj, Array.getElem?_setIfInBounds_self_of_lt hi]
    · rw [if_neg hj, Array.getElem?_setIfInBounds_ne (Ne.symm hj), field?]
  · simp only [hq, false_and, if_false, field?]

end World

namespace Activation

variable {a : Activation} {w : World} {r : ObjectRef} {i : UInt8}

/-- What the instructions for fields do in an activation that runs on an object with `n` fields. -/
structure Accesses (a : Activation) (w : World) (r : ObjectRef) (n : Nat) : Prop where
  push_fails : ∀ {i}, a.fetch w = .ok (.pushField i) →
    ((∃ v k w', a.step w = .error (.fieldAccess v k) w') ↔ n ≤ i.toNat)
  pushes : ∀ {i}, a.fetch w = .ok (.pushField i) → i.toNat < n →
    ∃ v, w.field? r i.toNat = some v ∧ ∀ f, (a.handle.frame w).push v = .ok f →
      ∃ b w', a.step w = .ok (.resume b) w' ∧ b.handle.frame w' = f
  /-- Without an operand to store it is for that reason that the instruction fails. -/
  pop_fails : ∀ {i}, a.fetch w = .ok (.popField i) →
    ((∃ v k w', a.step w = .error (.fieldAccess v k) w') ↔
      (∃ x f, (a.handle.frame w).pop = .ok (x, f)) ∧ n ≤ i.toNat)
  pops : ∀ {i x f}, a.fetch w = .ok (.popField i) → (a.handle.frame w).pop = .ok (x, f) →
    i.toNat < n → ∃ b w', a.step w = .ok (.resume b) w' ∧ b.handle.frame w' = f ∧
      ∀ q j, w'.field? q j = if q = r ∧ j = i.toNat then some x else w.field? q j

theorem step_pushField (hi : a.fetch w = .ok (.pushField i))
    (hself : w.receiver (a.handle.frame w) = .ok (.object r)) :
    a.step w = match w.field? r i.toNat with
      | none => .error (.fieldAccess (.object r) i.toNat) (a.traced (.pushField i) w)
      | some v => match (a.handle.frame w).push v with
        | .error e => .error e (a.traced (.pushField i) w)
        | .ok f =>
          let (handle, w') := a.handle.put f (a.traced (.pushField i) w)
          .ok (.resume { a with handle, offset := a.offset + (Instruction.pushField i).length }) w' := by
  obtain ⟨journal, htraced⟩ := a.traced_eq (.pushField i) w
  rw [step_eq_executeFor hi hself, htraced]
  simp only [executeFor, readField, Action.bind_apply, Action.get_apply]
  have hfield : World.field? { w with journal } r i.toNat = w.field? r i.toNat := rfl
  rw [hfield]
  cases w.field? r i.toNat with
  | none => rfl
  | some v =>
    simp only [Action.pure_apply, FrameHandle.push, FrameHandle.modify_apply]
    rw [a.handle.frame_congr (w := w) (v := { w with journal }) rfl]
    cases (a.handle.frame w).push v <;> rfl

theorem step_popField (hi : a.fetch w = .ok (.popField i))
    (hself : w.receiver (a.handle.frame w) = .ok (.object r)) :
    a.step w = match (a.handle.frame w).pop with
      | .error e => .error e (a.traced (.popField i) w)
      | .ok (x, f) =>
        let (handle, w') := a.handle.put f (a.traced (.popField i) w)
        if i.toNat < (w'.objects.get r).fields.size then
          .ok (.resume { a with handle, offset := a.offset + (Instruction.popField i).length })
            ((w'.setField? r i.toNat x).getD w')
        else .error (.fieldAccess (.object r) i.toNat) w' := by
  obtain ⟨journal, htraced⟩ := a.traced_eq (.popField i) w
  rw [step_eq_executeFor hi hself, htraced]
  simp only [executeFor, Action.bind_apply, FrameHandle.pop, FrameHandle.take_apply]
  rw [a.handle.frame_congr (w := w) (v := { w with journal }) rfl]
  cases (a.handle.frame w).pop with
  | error e => rfl
  | ok p =>
    obtain ⟨x, f⟩ := p
    dsimp only
    generalize a.handle.put f _ = p
    rw [writeField_apply]
    by_cases hlt : i.toNat < (p.2.objects.get r).fields.size
    · rw [if_pos hlt, if_pos hlt]
      rfl
    · rw [if_neg hlt, if_neg hlt]

theorem put_objects (a : Activation) (i : Instruction) (f : Frame) (w : World) :
    (a.handle.put f (a.traced i w)).2.objects = w.objects := by
  obtain ⟨journal, htraced⟩ := a.traced_eq i w
  rw [htraced]
  cases a.handle <;> rfl

/-- The frame that an operation on the operands makes is the one that the activation goes on with. -/
theorem frame_put_traced {α : Type} (op : Frame → Except Fault α) {y : α}
    (hdefault : ∀ y, op default ≠ .ok y) (h : op (a.handle.frame w) = .ok y) (f : Frame)
    (i : Instruction) :
    (a.handle.put f (a.traced i w)).1.frame (a.handle.put f (a.traced i w)).2 = f := by
  refine FrameHandle.frame_put op hdefault (x := y) ?_ f
  rw [a.handle.frame_congr (a.traced_still i w).frames, h]

theorem accesses {n : Nat} (hsize : (w.objects.get r).fields.size = n)
    (hself : w.receiver (a.handle.frame w) = .ok (.object r)) : a.Accesses w r n where
  push_fails {i} hi := by
    rw [step_pushField hi hself, ← hsize, ← Array.getElem?_eq_none_iff]
    change _ ↔ w.field? r i.toNat = none
    cases w.field? r i.toNat with
    | none => simp
    | some v =>
      dsimp only
      have hroom (u : Value) (k : Nat) : (a.handle.frame w).push v ≠ .error (.fieldAccess u k) := by
        unfold Frame.push
        split <;> nofun
      cases hpush : (a.handle.frame w).push v with
      | ok f => simp
      | error e =>
        simp only [reduceCtorEq, iff_false]
        rintro ⟨u, k, w', h⟩
        cases h
        exact hroom u k hpush
  pushes {i} hi hlt := by
    rw [step_pushField hi hself]
    obtain ⟨v, hv⟩ : ∃ v, w.field? r i.toNat = some v :=
      ⟨_, Array.getElem?_eq_getElem (hsize ▸ hlt)⟩
    refine ⟨v, hv, fun f hf => ?_⟩
    rw [hv]
    dsimp only
    rw [hf]
    exact ⟨_, _, rfl, a.frame_put_traced (·.push v) nofun hf f _⟩
  pop_fails {i} hi := by
    rw [step_popField hi hself]
    cases hpop : (a.handle.frame w).pop with
    | error e =>
      have hoperand (u : Value) (k : Nat) : (a.handle.frame w).pop ≠ .error (.fieldAccess u k) := by
        unfold Frame.pop
        split
        · nofun
        · dsimp only
          split <;> nofun
      simp only [reduceCtorEq, exists_false, false_and, iff_false]
      rintro ⟨u, k, w', h⟩
      cases h
      exact hoperand u k hpop
    | ok p =>
      obtain ⟨x, f⟩ := p
      dsimp only
      rw [a.put_objects, hsize]
      split
      · next hlt => simp [hlt]
      · next hge => simpa using hge
  pops {i _ f} hi hf hlt := by
    rw [step_popField hi hself, hf]
    dsimp only
    rw [a.put_objects, hsize, if_pos hlt]
    have hobjects := a.put_objects (.popField i) f w
    refine ⟨_, _, rfl, ?_, fun q j => ?_⟩
    · refine Eq.trans ?_ (a.frame_put_traced Frame.pop nofun hf f (.popField i))
      rw [World.getD_setField?]
      exact FrameHandle.frame_congr rfl _
    · rw [World.field?_setField (by rwa [hobjects, hsize])]
      simp only [World.field?, hobjects]

end Activation

namespace World

theorem standard_instances : ∀ i < standard.objects.size,
    (standard.objects.get ⟨i⟩).fields.size = standard.fieldCount (standard.objects.get ⟨i⟩).cls := by
  decide +kernel

theorem boot_instances {config : Config} {journal : Journal} {w : World}
    (hboot : World.boot config journal = .ok w) (r : ObjectRef) (hr : r.index < w.objects.size) :
    (w.objects.get r).fields.size = w.fieldCount (w.objects.get r).cls := by
  obtain ⟨hclasses, -, -, -, hobjects⟩ := boot_hierarchy hboot
  rw [fieldCount_congr hclasses, hobjects]
  exact standard_instances r.index (hobjects ▸ hr)

end World

/-- The layout of a subclass extends that of its superclass, and instances have the layout of their
class: those that a world starts with, and those made from some time on of a class that there is by
then. No instance of a class comes before the class, so this is every one. -/
theorem Chronicle.layouts_extend {config : Config} {journal : Journal} {w₀ w₁ : World}
    {H I : History} {o : Outcome} {m : Machine} (hboot : World.boot config journal = .ok w₀)
    (h₁ : Chronicle (fun _ _ => True) w₀ H ⟨.answer o, [], w₁⟩)
    (h₂ : Chronicle (fun _ _ => True) w₁ I m) :
    (∀ c, m.world.LaidOut c) ∧
    (∀ name s fields, s.index < m.world.classes.size → let (c, w) := m.world.define name s fields
      (w.cls c).superclass = some s ∧ (w.cls c).fields.map (·.name) = fields ∧
        w.fieldCount c = m.world.fieldCount s + fields.length ∧
        w.layout c = m.world.layout s ++ (w.cls c).fields.map fun name => (c, name)) ∧
    (∀ c : ClassRef, c.index < w₁.classes.size → m.world.layout c = w₁.layout c ∧
      m.world.fieldCount c = w₁.fieldCount c ∧
      ∀ name, m.world.fieldIndex? c name = w₁.fieldIndex? c name) ∧
    ∀ r : ObjectRef, r.index < m.world.objects.size →
      (m.world.objects.get r).cls.index < w₁.classes.size →
      r.index < w₀.objects.size ∨ w₁.objects.size ≤ r.index →
      (m.world.objects.get r).fields.size = m.world.fieldCount (m.world.objects.get r).cls ∧
      ∀ a : Activation, m.world.receiver (a.handle.frame m.world) = .ok (.object r) →
        a.Accesses m.world r (m.world.fieldCount (m.world.objects.get r).cls) := by
  have hlogged₁ := h₁.logged (World.boot_logged hboot)
  have hranked := (h₂.logged hlogged₁).tidy.ranked
  have hshapes₀ := h₁.shapes (World.boot_logged hboot)
  have hshapes := h₂.shapes hlogged₁
  have hsize (r : ObjectRef) (hr : r.index < m.world.objects.size)
      (hc : (m.world.objects.get r).cls.index < w₁.classes.size)
      (hmade : r.index < w₀.objects.size ∨ w₁.objects.size ≤ r.index) :
      (m.world.objects.get r).fields.size = m.world.fieldCount (m.world.objects.get r).cls := by
    rw [(hshapes.keeps hshapes.ordered hc).2.1]
    obtain hr₀ | hnew := hmade
    -- Booting makes an instance too, of a class that is never changed.
    · obtain ⟨hcls, hfields⟩ := hshapes.kept r (Nat.lt_of_lt_of_le hr₀ hshapes₀.objects_le)
      obtain ⟨hcls₀, hfields₀⟩ := hshapes₀.kept r hr₀
      have hold := (World.boot_ordinary hboot).objects r
      rw [hfields, hfields₀, hcls, hcls₀, (hshapes₀.keeps hshapes₀.ordered hold).2.1]
      exact World.boot_instances hboot r hr₀
    · exact hshapes.made r hnew hr hc
  exact ⟨hranked.ordered.laidOut, fun name s fields hs => hranked.define_layout name hs fields,
    fun c hc => hshapes.keeps hshapes.ordered hc, fun r hr hc hmade =>
      ⟨hsize r hr hc hmade, fun a hself => Activation.accesses (hsize r hr hc hmade) hself⟩⟩

def World.shadowing : List Alteration :=
  [.define "Point" CoreClass.object.ref ["x", "y", "x"], .define "Pixel" ⟨38⟩ ["y", "color"]]

set_option maxRecDepth 100000 in
theorem Chronicle.layouts_extend_shadowing : ∃ (w : World) (H : History) (m : Machine),
    Chronicle (fun _ _ => True) World.standard H ⟨.answer (.ok .nil), [], w⟩ ∧
    Chronicle (fun _ _ => True) w [] m ∧ m.world.LaidOut ⟨40⟩ ∧
    m.world.fieldCount ⟨40⟩ = 5 ∧ (m.world.objects.get ⟨1⟩).fields.size = 5 := by
  obtain ⟨hallows, hobjects, hclasses, hcount⟩ : World.standard.Allows World.shadowing ∧
      (World.standard.alterAll World.shadowing).objects.size = 1 ∧
      (World.standard.alterAll World.shadowing).classes.size = 42 ∧
      (World.standard.alterAll World.shadowing).fieldCount ⟨40⟩ = 5 := by decide +kernel
  have hboot : Chronicle (fun _ _ => True) World.standard [] ⟨.answer (.ok .nil), [], World.standard⟩ :=
    .boot
  have hdefined := hboot.all hallows fun _ _ _ => trivial
  generalize World.standard.alterAll World.shadowing = w at *
  have hmade : Chronicle (fun _ _ => True) w [] ⟨.answer (.ok .nil), [], (w.newInstance ⟨40⟩).2⟩ :=
    Chronicle.boot.newInstance ⟨40⟩
  have hget : ((w.newInstance ⟨40⟩).2.objects.get ⟨1⟩).cls = ⟨40⟩ := by
    simp [World.newInstance, Arena.get_push, Arena.next, hobjects]
  have hcount' : (w.newInstance ⟨40⟩).2.fieldCount ⟨40⟩ = 5 :=
    (World.fieldCount_congr (w.newInstance_classes _) _).trans hcount
  obtain ⟨hlaid, -, -, hinstances⟩ := Chronicle.layouts_extend World.boot_standard hdefined hmade
  obtain ⟨hsize, -⟩ := hinstances ⟨1⟩ (by simp [World.newInstance, hobjects])
    (by rw [hget]; simp [hclasses]) (.inr (by simp [hobjects]))
  rw [hget, hcount'] at hsize
  exact ⟨w, _, _, hdefined, hmade, hlaid _, hcount', hsize⟩

end MessageMachine
