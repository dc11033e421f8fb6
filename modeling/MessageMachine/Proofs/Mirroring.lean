import Mathlib.Data.List.Chain
import MessageMachine.Proofs.Booting
import MessageMachine.Proofs.Defining
import MessageMachine.Proofs.Signatures

namespace MessageMachine

namespace World

variable {w w' w₀ : World} {cs : List ClassRef}

/-- The worlds that a host makes of a world by defining classes and making instances, each with the
classes defined since then. -/
inductive Defined (w₀ : World) : World → List ClassRef → Prop where
  | refl : Defined w₀ w₀ []
  | define {w : World} {cs : List ClassRef} (h : Defined w₀ w cs) (name : String)
      {superclass : ClassRef} (hs : superclass.index < w.classes.size) (fields : List String) :
      Defined w₀ (w.define name superclass fields).2 (cs ++ [(w.define name superclass fields).1])
  | instantiate {w : World} {cs : List ClassRef} (h : Defined w₀ w cs) {c : ClassRef}
      (hc : c.index < w.classes.size) : Defined w₀ (w.newInstance c).2 cs

/-- Each of some classes has a metaclass of its own, in the place of the hierarchy that corresponds to
its own place; but for these metaclasses there are no other classes. -/
structure Mirrored (w : World) (cs : List ClassRef) : Prop where
  paired : ∀ c ∈ cs, ∃ m, (w.cls c).metaclass = some m ∧ (w.cls m).metaclass = none ∧
    (w.cls m).superclass =
      some (((w.cls c).superclass.bind fun s => (w.cls s).metaclass).getD CoreClass.cls.ref)
  own : ∀ c d m, (w.cls c).metaclass = some m → (w.cls d).metaclass = some m → c = d
  covered : ∀ c : ClassRef, c.index < w.classes.size ↔ c ∈ cs ∨ ∃ d ∈ cs, (w.cls d).metaclass = some c

structure Rooted (w : World) : Prop where
  tidy : w.Tidy
  core : w.HasCore
  rooted : ∀ c : ClassRef, c.index < w.classes.size → c ≠ CoreClass.object.ref →
    ∃ s, (w.cls c).superclass = some s
  nodup : w.registered.Nodup

theorem Mirrored.congr (h : w.Mirrored cs) (hclasses : w'.classes = w.classes) : w'.Mirrored cs := by
  have hcls (c : ClassRef) : w'.cls c = w.cls c := by rw [cls, hclasses, cls]
  refine ⟨?_, ?_, ?_⟩
  · simpa only [hcls] using h.paired
  · simpa only [hcls] using h.own
  · simpa only [hcls, hclasses] using h.covered

theorem Rooted.ordered (h : w.Rooted) : w.Ordered := h.tidy.ranked.ordered

theorem Rooted.define (h : w.Rooted) (name : String) {superclass : ClassRef}
    (hs : superclass.index < w.classes.size) (fields : List String) :
    (w.define name superclass fields).2.Rooted := by
  obtain ⟨-, -, hregistered, -⟩ := w.define_widens name superclass fields
  have htidy := h.tidy.define name ((h.tidy.registered _).mpr hs) fields
  obtain ⟨-, hd⟩ := w.define_defines name hs fields
  generalize (w.define name superclass fields).2 = w' at *
  refine ⟨htidy, fun c => ?_, fun c hc hne => ?_, ?_⟩
  · obtain ⟨hlt, hsuper⟩ := h.core c
    rw [hd.old _ hlt, hd.size]
    exact ⟨by omega, hsuper⟩
  · rcases hd.cases hc with hold | rfl | rfl
    · rw [hd.old c hold]
      exact h.rooted c hold hne
    · obtain ⟨n, ss, -, -, hcls⟩ := hd.added
      exact ⟨superclass, by rw [hcls]⟩
    · obtain ⟨k, hcls⟩ := hd.metaclass
      exact ⟨_, by rw [hcls]⟩
  · rw [hregistered]
    refine List.Nodup.append h.nodup (by simp) ?_
    rintro ⟨i⟩ hold hnew
    have hlt := (h.tidy.registered ⟨i⟩).mp hold
    simp only [List.mem_cons, Ref.mk.injEq, List.not_mem_nil, or_false] at hnew
    dsimp only at hlt
    omega

theorem Defines.metaclass_eq {name : String} {superclass : ClassRef} {fields : List String}
    (h : w.Defines w' name superclass fields) {c m : ClassRef} :
    (w'.cls c).metaclass = some m ↔ (c.index < w.classes.size ∧ (w.cls c).metaclass = some m) ∨
      (c = w.classes.next ∧ m = ⟨w.classes.size + 1⟩) := by
  by_cases hc : c.index < w'.classes.size
  · rcases h.cases hc with hold | rfl | rfl
    · have hne : c ≠ w.classes.next := by
        rintro rfl
        exact Nat.lt_irrefl _ hold
      simp [h.old c hold, hold, hne]
    · obtain ⟨n, ss, -, -, hcls⟩ := h.added
      rw [hcls]
      simp [Arena.next, eq_comm]
    · obtain ⟨k, hcls⟩ := h.metaclass
      simp only [hcls, Arena.next, Ref.mk.injEq]
      constructor
      · intro hnone
        cases hnone
      · rintro (⟨hlt, -⟩ | ⟨heq, -⟩) <;> omega
  · have hsize := h.size
    have hne : c ≠ w.classes.next := by
      rintro rfl
      simp only [Arena.next] at hc
      omega
    rw [cls_of_le (Nat.le_of_not_lt hc)]
    constructor
    · intro hnone
      cases hnone
    · rintro (⟨hold, -⟩ | ⟨heq, -⟩)
      · omega
      · exact absurd heq hne

theorem Mirrored.own_define {name : String} {superclass : ClassRef} {fields : List String}
    (h : w.Mirrored cs) (hr : w.Ranked) (hd : w.Defines w' name superclass fields) {c d m : ClassRef}
    (hcm : (w'.cls c).metaclass = some m) (hdm : (w'.cls d).metaclass = some m) : c = d := by
  rw [hd.metaclass_eq] at hcm hdm
  rcases hcm with ⟨hclt, hcm⟩ | ⟨rfl, rfl⟩
  · rcases hdm with ⟨hdlt, hdm⟩ | ⟨rfl, rfl⟩
    · exact h.own c d m hcm hdm
    · have hmlt := hr.metaclass_lt c _ hcm
      dsimp only at hmlt
      omega
  · rcases hdm with ⟨hdlt, hdm⟩ | ⟨rfl, -⟩
    · have hmlt := hr.metaclass_lt d _ hdm
      dsimp only at hmlt
      omega
    · rfl

theorem Mirrored.covered_define {name : String} {superclass : ClassRef} {fields : List String}
    (h : w.Mirrored cs) (hr : w.Ranked) (hd : w.Defines w' name superclass fields) (c : ClassRef) :
    c.index < w'.classes.size ↔ c ∈ cs ++ [w.classes.next] ∨
      ∃ d ∈ cs ++ [w.classes.next], (w'.cls d).metaclass = some c := by
  have hsize := hd.size
  constructor
  · intro hc
    rcases hd.cases hc with hold | rfl | rfl
    · rcases (h.covered c).mp hold with hmem | ⟨d, hmem, hdm⟩
      · exact .inl (List.mem_append_left _ hmem)
      · refine .inr ⟨d, List.mem_append_left _ hmem, hd.metaclass_eq.mpr (.inl ⟨?_, hdm⟩)⟩
        exact (h.covered d).mpr (.inl hmem)
    · exact .inl (List.mem_append_right _ (List.mem_singleton.mpr rfl))
    · refine .inr ⟨w.classes.next, List.mem_append_right _ (List.mem_singleton.mpr rfl), ?_⟩
      exact hd.metaclass_eq.mpr (.inr ⟨rfl, rfl⟩)
  · rintro (hmem | ⟨d, -, hdm⟩)
    · rcases List.mem_append.mp hmem with hmem | hmem
      · have hlt := (h.covered c).mpr (.inl hmem)
        omega
      · obtain rfl := List.mem_singleton.mp hmem
        simp only [Arena.next]
        omega
    · rcases hd.metaclass_eq.mp hdm with ⟨-, hm⟩ | ⟨-, rfl⟩
      · have hlt := hr.metaclass_lt d c hm
        omega
      · simp only
        omega

theorem Mirrored.define (h : w.Mirrored cs) (hr : w.Ranked) (name : String) {superclass : ClassRef}
    (hs : superclass.index < w.classes.size) (fields : List String) :
    (w.define name superclass fields).2.Mirrored (cs ++ [(w.define name superclass fields).1]) := by
  obtain ⟨hnext, hd⟩ := w.define_defines name hs fields
  rw [hnext]
  generalize (w.define name superclass fields).2 = w' at *
  refine ⟨fun c hc => ?_, fun c d m => h.own_define hr hd, h.covered_define hr hd⟩
  rcases List.mem_append.mp hc with hc | hc
  · have hlt := (h.covered c).mpr (.inl hc)
    obtain ⟨m, hm, hnone, hsuper⟩ := h.paired c hc
    have hmeta : w'.cls m = w.cls m := hd.old m (hr.metaclass_lt c m hm)
    have hbind : ((w.cls c).superclass.bind fun s => (w'.cls s).metaclass) =
        (w.cls c).superclass.bind fun s => (w.cls s).metaclass := by
      cases hsc : (w.cls c).superclass with
      | none => rfl
      | some s =>
        have hslt := Nat.lt_trans (hr.ordered c s hsc) hlt
        rw [Option.bind_some, Option.bind_some, hd.old s hslt]
    refine ⟨m, ?_, ?_, ?_⟩
    · rw [hd.old c hlt, hm]
    · rw [hmeta, hnone]
    · rw [hmeta, hsuper, hd.old c hlt, hbind]
  · obtain rfl := List.mem_singleton.mp hc
    obtain ⟨n, ss, -, -, hcls⟩ := hd.added
    obtain ⟨k, hmeta⟩ := hd.metaclass
    refine ⟨⟨w.classes.size + 1⟩, by rw [hcls], by rw [hmeta], ?_⟩
    rw [hcls, hmeta, Option.bind_some, hd.old superclass hs]

theorem mem_ancestors_self (w : World) (c : ClassRef) : c ∈ w.ancestors c := by
  unfold ancestors chain
  exact List.mem_cons_self

theorem Rooted.ancestors (h : w.Rooted) {c : ClassRef} (hc : c.index < w.classes.size) :
    (w.ancestors c).head? = some c ∧
      (w.ancestors c).IsChain (fun a b => (w.cls a).superclass = some b) ∧
      (w.ancestors c).getLast? = some CoreClass.object.ref := by
  induction c using h.ordered.induction with
  | h c ih =>
    rw [ancestors_eq h.ordered]
    cases hs : (w.cls c).superclass with
    | none =>
      have heq : c = CoreClass.object.ref := by
        by_contra hne
        obtain ⟨s, hs'⟩ := h.rooted c hc hne
        cases hs.symm.trans hs'
      simp [heq]
    | some s =>
      obtain ⟨hhead, hchain, hlast⟩ := ih s hs (Nat.lt_trans (h.ordered c s hs) hc)
      refine ⟨rfl, List.isChain_cons.mpr ⟨fun b hb => ?_, hchain⟩, ?_⟩
      · rw [hhead] at hb
        cases hb
        exact hs
      · rw [List.getLast?_cons, hlast]
        rfl

theorem Mirrored.mem (h : w.Mirrored cs) {c m : ClassRef} (hm : (w.cls c).metaclass = some m) :
    c ∈ cs := by
  have hlt : c.index < w.classes.size := by
    by_contra hge
    rw [cls_of_le (Nat.le_of_not_lt hge)] at hm
    cases hm
  obtain hc | ⟨d, hd, hdc⟩ := (h.covered c).mp hlt
  · exact hc
  · obtain ⟨m', hm', hnone, -⟩ := h.paired d hd
    cases hdc.symm.trans hm'
    cases hm.symm.trans hnone

theorem Mirrored.cls_mem_ancestors (h : w.Mirrored cs) (hr : w.Rooted) {c m : ClassRef}
    (hm : (w.cls c).metaclass = some m) : CoreClass.cls.ref ∈ w.ancestors m := by
  induction m using hr.ordered.induction generalizing c with
  | h m ih =>
    obtain ⟨m', hm', -, hsuper⟩ := h.paired c (h.mem hm)
    cases hm.symm.trans hm'
    rw [ancestors_eq hr.ordered, hsuper]
    refine List.mem_cons_of_mem m ?_
    dsimp only
    cases hbind : (w.cls c).superclass.bind fun s => (w.cls s).metaclass with
    | none => exact w.mem_ancestors_self _
    | some k =>
      obtain ⟨s, -, hk⟩ := Option.bind_eq_some_iff.mp hbind
      rw [hbind] at hsuper
      exact ih k hsuper hk

def Provides (w : World) (holder : ClassRef) (name : String) (op : AtomicOperation) : Prop :=
  ∃ s p, w.symbols.get? name = some s ∧ (w.primitives.get p).operation = .atomic op ∧
    (w.primitives.get p).holder = some holder ∧
    (w.cls holder).methods.find? s = some (.primitive p) ∧
    ∀ c, c ≠ holder → (w.cls c).methods.find? s = none

/-- A lookup in this class finds the primitive that the holder has for the selector. -/
def Reaches (w : World) (c holder : ClassRef) (name : String) (op : AtomicOperation) : Prop :=
  ∃ s p, w.symbols.get? name = some s ∧ (w.primitives.get p).operation = .atomic op ∧
    (w.primitives.get p).holder = some holder ∧ (w.lookup c s).1 = some (.primitive p)

theorem firstMethod_of_mem {s : Symbol} {holder : ClassRef} {m : Method}
    (hm : (w.cls holder).methods.find? s = some m)
    (hnone : ∀ c, c ≠ holder → (w.cls c).methods.find? s = none) {chain : List ClassRef}
    (h : holder ∈ chain) : w.firstMethod s chain = some m := by
  induction chain with
  | nil => cases h
  | cons c rest ih =>
    unfold firstMethod
    by_cases hc : c = holder
    · rw [hc, hm]
    · rw [hnone c hc]
      exact ih ((List.mem_cons.mp h).resolve_left fun heq => hc heq.symm)

theorem Provides.reaches {holder : ClassRef} {name : String} {op : AtomicOperation}
    (h : w.Provides holder name op) (hr : w.Rooted) {c : ClassRef} (hc : holder ∈ w.ancestors c) :
    w.Reaches c holder name op := by
  obtain ⟨s, p, hs, hop, hholder, hm, hnone⟩ := h
  obtain ⟨memos, heq, -⟩ := lookup_eq hr.ordered hr.tidy.memos c s
  refine ⟨s, p, hs, hop, hholder, ?_⟩
  rw [heq]
  exact firstMethod_of_mem hm hnone hc

theorem Provides.define {holder : ClassRef} {name : String} {op : AtomicOperation}
    (h : w.Provides holder name op) (hholder : holder.index < w.classes.size) (n : String)
    {superclass : ClassRef} (hs : superclass.index < w.classes.size) (fields : List String) :
    (w.define n superclass fields).2.Provides holder name op := by
  obtain ⟨s, p, hsymbol, hop, hheld, hm, hnone⟩ := h
  obtain ⟨hwidens, -, -, -, hprimitives⟩ := w.define_widens n superclass fields
  obtain ⟨-, hd⟩ := w.define_defines n hs fields
  have hsymbol' := w.define_symbols n superclass fields hsymbol
  generalize (w.define n superclass fields).2 = w' at *
  refine ⟨s, p, hsymbol', by rwa [hprimitives], by rwa [hprimitives], ?_, fun c hc => ?_⟩
  · rwa [hd.old holder hholder]
  · by_cases hlt : c.index < w.classes.size
    · rw [hd.old c hlt]
      exact hnone c hc
    · rw [hwidens.fresh c (Nat.le_of_not_lt hlt)]
      rfl

/-- The default handlers of what a program may handle itself. -/
def handlers : List (String × AtomicOperation) :=
  [("doesNotUnderstand:arguments:", .failNotUnderstood), ("unknownGlobal:", .failUnknownGlobal),
   ("escapedBlock:", .failEscapedBlock)]

def defaults : List (CoreClass × String × AtomicOperation) :=
  (.cls, "new", .newInstance) :: handlers.map fun e => (.object, e)

set_option maxRecDepth 100000 in
theorem standard_hierarchy :
    standard.classes.size = 38 ∧ standard.registered.Nodup ∧
    (∀ i < 38, i ≠ 0 → (standard.cls ⟨i⟩).superclass.isSome) ∧
    (∀ i < 19, (standard.cls ⟨i⟩).metaclass = some ⟨19 + i⟩ ∧
      (standard.cls ⟨19 + i⟩).metaclass = none ∧
      (standard.cls ⟨19 + i⟩).superclass = some (standard.metaSuperclass ⟨i⟩)) ∧
    ∀ i < standard.objects.size, (standard.objects.get ⟨i⟩).cls.index < 38 := by
  decide +kernel

set_option maxRecDepth 100000 in
theorem standard_defaults : ∀ e ∈ defaults, (standard.symbols.get? e.2.1).any fun s =>
    match (standard.cls e.1.ref).methods.find? s with
    | some (.primitive p) => (standard.primitives.get p).operation = .atomic e.2.2 &&
        (standard.primitives.get p).holder = some e.1.ref &&
        (List.range 38).all fun i =>
          i = e.1.ref.index || ((standard.cls ⟨i⟩).methods.find? s).isNone
    | _ => false := by
  decide +kernel

theorem standard_provides {e : CoreClass × String × AtomicOperation} (he : e ∈ defaults) :
    standard.Provides e.1.ref e.2.1 e.2.2 := by
  obtain ⟨hsize, -⟩ := standard_hierarchy
  obtain ⟨s, hs, h⟩ := (Option.any_eq_true _ _).mp (standard_defaults e he)
  split at h
  · next p hm =>
    simp only [Bool.and_eq_true, decide_eq_true_eq, List.all_eq_true, List.mem_range,
      Bool.or_eq_true, Option.isNone_iff_eq_none] at h
    obtain ⟨⟨hop, hholder⟩, hnone⟩ := h
    refine ⟨s, p, hs, hop, hholder, hm, fun ⟨i⟩ hi => ?_⟩
    by_cases hlt : i < 38
    · exact (hnone i hlt).resolve_left fun heq => hi (congrArg Ref.mk heq)
    · rw [cls_of_le (by rw [hsize]; exact Nat.le_of_not_lt hlt)]
      rfl
  · cases h

theorem standard_metaclass {c m : ClassRef} :
    (standard.cls c).metaclass = some m ↔ c.index < 19 ∧ m = ⟨19 + c.index⟩ := by
  obtain ⟨hsize, -, -, hpaired, -⟩ := standard_hierarchy
  obtain ⟨i⟩ := c
  by_cases hi : i < 19
  · simp [(hpaired i hi).1, hi, eq_comm]
  · have hnone : (standard.cls ⟨i⟩).metaclass = none := by
      by_cases hlt : i < 38
      · obtain ⟨k, rfl⟩ := Nat.exists_eq_add_of_le (Nat.le_of_not_lt hi)
        exact (hpaired k (by omega)).2.1
      · rw [cls_of_le (by rw [hsize]; exact Nat.le_of_not_lt hlt)]
        rfl
    simp [hnone, hi]

theorem standard_mirrored : standard.Mirrored (CoreClass.all.map (·.ref)) := by
  obtain ⟨hsize, -, -, hpaired, -⟩ := standard_hierarchy
  refine ⟨fun ⟨i⟩ hc => ?_, fun c d m hc hd => ?_, fun ⟨i⟩ => ?_⟩
  · obtain ⟨hmeta, hnone, hsuper⟩ := hpaired i (mem_coreRefs.mp hc)
    exact ⟨_, hmeta, hnone, hsuper⟩
  · obtain ⟨-, rfl⟩ := standard_metaclass.mp hc
    obtain ⟨-, heq⟩ := standard_metaclass.mp hd
    simp only [Ref.mk.injEq] at heq
    obtain ⟨i⟩ := c
    obtain ⟨j⟩ := d
    simp only at heq
    rw [show i = j by omega]
  · have hall : CoreClass.all.length = 19 := rfl
    simp only [hsize, mem_coreRefs, standard_metaclass, hall, Ref.mk.injEq]
    constructor
    · intro hi
      by_cases hlt : i < 19
      · exact .inl hlt
      · exact .inr ⟨⟨i - 19⟩, by simp only; omega, by simp only; omega, by simp only; omega⟩
    · rintro (hi | ⟨⟨j⟩, -, hj, rfl⟩)
      · omega
      · dsimp only at hj ⊢
        omega

section

variable {config : Config} {journal : Journal} (hboot : World.boot config journal = .ok w₀)
include hboot

theorem boot_hierarchy : w₀.classes = standard.classes ∧ w₀.registered = standard.registered ∧
    w₀.symbols = standard.symbols ∧ w₀.primitives = standard.primitives ∧
    w₀.objects = standard.objects := by
  rw [← w₀.boot_plain hboot]
  exact ⟨rfl, rfl, rfl, rfl, rfl⟩

theorem boot_rooted : w₀.Rooted := by
  obtain ⟨hsize, hnodup, hrooted, -⟩ := standard_hierarchy
  obtain ⟨hclasses, hregistered, -⟩ := boot_hierarchy hboot
  have hcls (c : ClassRef) : w₀.cls c = standard.cls c := by rw [cls, hclasses, cls]
  refine ⟨(boot_altered hboot).tidy (core_tidy config journal).1, (boot_keyed hboot).core,
    fun c hc hne => ?_, hregistered ▸ hnodup⟩
  rw [hclasses, hsize] at hc
  rw [hcls]
  exact Option.isSome_iff_exists.mp (hrooted c.index hc fun h => hne (congrArg Ref.mk h))

theorem boot_mirrored : w₀.Mirrored (CoreClass.all.map (·.ref)) :=
  standard_mirrored.congr (boot_hierarchy hboot).1

theorem boot_provides {e : CoreClass × String × AtomicOperation} (he : e ∈ defaults) :
    w₀.Provides e.1.ref e.2.1 e.2.2 := by
  obtain ⟨hclasses, -, hsymbols, hprimitives, -⟩ := boot_hierarchy hboot
  obtain ⟨s, p, h⟩ := standard_provides he
  refine ⟨s, p, ?_⟩
  simpa only [hsymbols, hprimitives, cls, hclasses] using h

end

structure Ordinary (w : World) (cs : List ClassRef) : Prop where
  rooted : w.Rooted
  mirrored : w.Mirrored cs
  provides : ∀ e ∈ defaults, w.Provides e.1.ref e.2.1 e.2.2
  objects : ∀ r : ObjectRef, (w.objects.get r).cls.index < w.classes.size

theorem boot_ordinary {config : Config} {journal : Journal}
    (hboot : World.boot config journal = .ok w₀) : w₀.Ordinary (CoreClass.all.map (·.ref)) := by
  refine ⟨boot_rooted hboot, boot_mirrored hboot, fun e he => boot_provides hboot he, fun ⟨i⟩ => ?_⟩
  obtain ⟨hsize, -, -, -, hobjects⟩ := standard_hierarchy
  obtain ⟨hclasses, -, -, -, hsame⟩ := boot_hierarchy hboot
  rw [hclasses, hsame, hsize]
  by_cases hi : i < standard.objects.size
  · exact hobjects i hi
  · rw [Arena.get_of_le _ (Nat.le_of_not_lt hi)]
    decide

theorem Ordinary.define (h : w.Ordinary cs) (name : String) {superclass : ClassRef}
    (hs : superclass.index < w.classes.size) (fields : List String) :
    (w.define name superclass fields).2.Ordinary
      (cs ++ [(w.define name superclass fields).1]) where
  rooted := h.rooted.define name hs fields
  mirrored := h.mirrored.define h.rooted.tidy.ranked name hs fields
  provides e he := (h.provides e he).define (h.rooted.core e.1).1 name hs fields
  objects r := by
    obtain ⟨-, hd⟩ := w.define_defines name hs fields
    rw [w.define_objects, hd.size]
    exact Nat.lt_add_right 2 (h.objects r)

theorem Ordinary.newInstance (h : w.Ordinary cs) {c : ClassRef} (hc : c.index < w.classes.size) :
    (w.newInstance c).2.Ordinary cs where
  rooted := ⟨⟨h.rooted.tidy.ranked.congr rfl, h.rooted.tidy.registered,
    .congr (w := w) rfl rfl h.rooted.tidy.memos⟩, h.rooted.core, h.rooted.rooted, h.rooted.nodup⟩
  mirrored := h.mirrored.congr rfl
  provides e he := by
    obtain ⟨s, p, hp⟩ := h.provides e he
    exact ⟨s, p, hp⟩
  objects r := by
    simp only [World.newInstance, Arena.get_push]
    split
    · exact hc
    · exact h.objects r

theorem Defined.ordinary {config : Config} {journal : Journal}
    (hboot : World.boot config journal = .ok w₀) (h : w₀.Defined w cs) :
    w.Ordinary (CoreClass.all.map (·.ref) ++ cs) := by
  induction h with
  | refl => simpa using boot_ordinary hboot
  | define h name hs fields ih =>
    rw [← List.append_assoc]
    exact ih.define name hs fields
  | instantiate h hc ih => exact ih.newInstance hc

theorem Ordinary.classOf_lt (h : w.Ordinary cs) (v : Value) :
    (w.classOf v).index < w.classes.size := by
  have hcore (c : CoreClass) : c.ref.index < w.classes.size := (h.rooted.core c).1
  cases v with
  | object r => exact h.objects r
  | cls c =>
    simp only [classOf]
    cases hm : (w.cls c).metaclass with
    | none => exact hcore .metaclass
    | some m => exact h.rooted.tidy.ranked.metaclass_lt c m hm
  | block b =>
    rw [w.classOf_block b]
    exact hcore _
  | boolean b => cases b <;> exact hcore _
  | method m => cases m <;> exact hcore _
  | _ => exact hcore _

/-- The class of a class is its metaclass, or the class of metaclasses, and descends from the class of
classes. -/
theorem Ordinary.cls_mem_ancestors (h : w.Ordinary cs) (c : ClassRef) :
    CoreClass.cls.ref ∈ w.ancestors (w.classOf (.cls c)) := by
  simp only [classOf]
  cases hm : (w.cls c).metaclass with
  | none =>
    rw [Option.getD_none, ancestors_eq h.rooted.ordered, (h.rooted.core .metaclass).2]
    exact List.mem_cons_of_mem _ (w.mem_ancestors_self _)
  | some m => exact h.mirrored.cls_mem_ancestors h.rooted hm

/-- After any definitions the metaclasses mirror the classes, every chain of superclasses ends in the
class of all objects, each class and metaclass is registered once, and lookups for any value find the
default handlers, and for any class the primitive that makes instances. -/
theorem definitions_mirror {config : Config} {journal : Journal}
    (hboot : World.boot config journal = .ok w₀) (h : w₀.Defined w cs) :
    w.Mirrored (CoreClass.all.map (·.ref) ++ cs) ∧
    (w.cls CoreClass.object.ref).superclass = none ∧
    (∀ c : ClassRef, c.index < w.classes.size → (w.ancestors c).head? = some c ∧
      (w.ancestors c).IsChain (fun a b => (w.cls a).superclass = some b) ∧
      (w.ancestors c).getLast? = some CoreClass.object.ref) ∧
    w.registered.Nodup ∧ (∀ c : ClassRef, c ∈ w.registered ↔ c.index < w.classes.size) ∧
    (∀ v, ∀ e ∈ handlers, w.Reaches (w.classOf v) CoreClass.object.ref e.1 e.2) ∧
    ∀ c, w.Reaches (w.classOf (.cls c)) CoreClass.cls.ref "new" .newInstance := by
  have hw := h.ordinary hboot
  refine ⟨hw.mirrored, (hw.rooted.core .object).2, fun c hc => hw.rooted.ancestors hc,
    hw.rooted.nodup, hw.rooted.tidy.registered, fun v e he => ?_, fun c => ?_⟩
  · have hdefault : (CoreClass.object, e) ∈ defaults :=
      List.mem_cons_of_mem _ (List.mem_map_of_mem he)
    refine (hw.provides _ hdefault).reaches hw.rooted ?_
    obtain ⟨-, -, hlast⟩ := hw.rooted.ancestors (hw.classOf_lt v)
    exact List.mem_of_getLast? hlast
  · exact (hw.provides _ List.mem_cons_self).reaches hw.rooted (hw.cls_mem_ancestors c)

/-- A class that takes the name of a core class, and an instance of a subclass of its metaclass. -/
theorem definitions_mirror_rebound : ∃ w cs, World.boot .standard .off = .ok standard ∧
    standard.Defined w cs ∧ cs.length = 2 ∧ w.Mirrored (CoreClass.all.map (·.ref) ++ cs) ∧
    w.Reaches (w.classOf (.object standard.objects.next)) CoreClass.object.ref "unknownGlobal:"
      .failUnknownGlobal := by
  obtain ⟨hsize, -⟩ := standard_hierarchy
  have hinteger : CoreClass.integer.ref.index < standard.classes.size := by
    rw [hsize]
    decide
  obtain ⟨-, hfirst⟩ := standard.define_defines "Integer" hinteger ["sign"]
  have hmeta : (⟨39⟩ : ClassRef).index <
      (standard.define "Integer" CoreClass.integer.ref ["sign"]).2.classes.size := by
    rw [hfirst.size, hsize]
    decide
  obtain ⟨-, hsecond⟩ := World.define_defines _ "Odd" hmeta []
  have hodd : (⟨40⟩ : ClassRef).index < ((standard.define "Integer" CoreClass.integer.ref
      ["sign"]).2.define "Odd" ⟨39⟩ []).2.classes.size := by
    rw [hsecond.size, hfirst.size, hsize]
    decide
  have hdefined := (Defined.refl.define "Integer" hinteger ["sign"]).define "Odd" hmeta []
    |>.instantiate hodd
  obtain ⟨hmirrored, -, -, -, -, hhandlers, -⟩ := definitions_mirror boot_standard hdefined
  exact ⟨_, _, boot_standard, hdefined, rfl, hmirrored,
    hhandlers _ ("unknownGlobal:", .failUnknownGlobal) (by decide)⟩

end World

end MessageMachine
