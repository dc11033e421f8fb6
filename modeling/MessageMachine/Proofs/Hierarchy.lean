import MessageMachine.Bootstrap
import MessageMachine.Proofs.Compiling
import MessageMachine.Proofs.Alike

namespace MessageMachine

/-- The primitives that every world starts with. -/
def CoreLibrary.entries : List PrimitiveEntry :=
  primitives ++ [⟨.array, "new:", .atomic .newArray, false⟩]

namespace World

/-- Superclasses come before their subclasses, metaclasses exist, and so does the class that the
metaclasses descend from. -/
structure Ranked (w : World) : Prop where
  ordered : w.Ordered
  metaclass_lt : ∀ c m, (w.cls c).metaclass = some m → m.index < w.classes.size
  root_lt : CoreClass.cls.ref.index < w.classes.size

def Cold (w : World) : Prop := w.memos = .empty ∧ w.caches = .empty

variable {w w' : World}

theorem Cold.coherent (h : w.Cold) (ho : w.Ordered) : w.Coherent := by
  obtain ⟨hmemos, hcaches⟩ := h
  refine ⟨ho, ?_, ?_⟩
  · intro c selector m hm
    rw [hmemos] at hm
    cases hm
  · intro r offset selector _ e he
    rw [cacheAt, hcaches] at he
    cases he

theorem Ranked.congr (h : w.Ranked) (hc : w'.classes = w.classes) : w'.Ranked where
  ordered := h.ordered.congr hc
  metaclass_lt := by simpa only [cls, hc] using h.metaclass_lt
  root_lt := by simpa only [hc] using h.root_lt

theorem Compiles.classes (h : w.Compiles w') : w'.classes = w.classes := by rw [h.same]

theorem Compiles.cold (h : w.Compiles w') (hw : w.Cold) : w'.Cold := by
  rw [h.same]
  exact hw

theorem Ordered.newClass (h : w.Ordered) (name : Symbol) {superclass : Option ClassRef}
    (hs : ∀ s, superclass = some s → s.index < w.classes.size) (fields : List Symbol) :
    (w.newClass name superclass fields).2.Ordered := by
  intro c s hcs
  simp only [World.newClass, cls, Arena.get_push] at hcs
  split at hcs
  · next hc =>
    rw [hc]
    exact hs s hcs
  · exact h c s hcs

theorem Ordered.setClass (h : w.Ordered) (c : ClassRef) {k : Class}
    (hk : k.superclass = (w.cls c).superclass) :
    Ordered { w with classes := w.classes.set c k } := by
  intro d s hs
  simp only [cls, Arena.get_set] at hs
  split at hs
  · next hd =>
    rw [hk] at hs
    exact hd.1 ▸ h c s hs
  · exact h d s hs

theorem Ranked.newClass (h : w.Ranked) (name : Symbol) {superclass : Option ClassRef}
    (hs : ∀ s, superclass = some s → s.index < w.classes.size) (fields : List Symbol) :
    (w.newClass name superclass fields).2.Ranked where
  ordered := h.ordered.newClass name hs fields
  metaclass_lt := by
    intro c m hm
    simp only [World.newClass, cls, Arena.get_push, Arena.size_push] at hm ⊢
    split at hm
    · cases hm
    · exact Nat.lt_succ_of_lt (h.metaclass_lt c m hm)
  root_lt := by
    simp only [World.newClass, Arena.size_push]
    exact Nat.lt_succ_of_lt h.root_lt

theorem Ranked.setClass (h : w.Ranked) (c : ClassRef) {k : Class}
    (hk : k.superclass = (w.cls c).superclass)
    (hm : ∀ m, k.metaclass = some m → m.index < w.classes.size) :
    Ranked { w with classes := w.classes.set c k } where
  ordered := h.ordered.setClass c hk
  metaclass_lt := by
    intro d m hd
    simp only [cls, Arena.get_set, Arena.size_set] at hd ⊢
    split at hd
    · exact hm m hd
    · exact h.metaclass_lt d m hd
  root_lt := by simpa only [Arena.size_set] using h.root_lt

theorem Ranked.setMethods (h : w.Ranked) (c : ClassRef) (methods : Table Symbol Method) :
    Ranked { w with classes := w.classes.set c { w.cls c with methods } } :=
  h.setClass c (k := { w.cls c with methods }) rfl (h.metaclass_lt c)

theorem Ranked.metaSuperclass_lt (h : w.Ranked) (c : ClassRef) :
    (w.metaSuperclass c).index < w.classes.size := by
  unfold metaSuperclass
  cases hs : (w.cls c).superclass with
  | none => exact h.root_lt
  | some s =>
    cases hm : (w.cls s).metaclass with
    | none => simpa [hm] using h.root_lt
    | some m => simpa [hm] using h.metaclass_lt s m hm

theorem register_eq (w : World) (c : ClassRef) :
    ∃ name v, w.Compiles v ∧
      let v := (v.newClass name (some (w.metaSuperclass c)) []).2
      w.register c = { v with
        classes := v.classes.set c { v.cls c with metaclass := some w.classes.next }
        registered := w.registered ++ [c, w.classes.next]
        globals := w.globals.insert (v.cls c).name (.cls c) } :=
  ⟨_, _, .intern w (w.className c ++ " class"), rfl⟩

theorem Ranked.register (h : w.Ranked) (c : ClassRef) : (w.register c).Ranked := by
  obtain ⟨name, v, hv, heq⟩ := w.register_eq c
  rw [heq]
  have hclasses := hv.classes
  have hnew : (v.newClass name (some (w.metaSuperclass c)) []).2.Ranked := by
    refine (h.congr hclasses).newClass name (fun s hs => ?_) []
    rw [hclasses]
    exact Option.some.inj hs ▸ h.metaSuperclass_lt c
  refine (hnew.setClass c (k := { World.cls _ c with metaclass := some w.classes.next }) rfl
    fun m hm => ?_).congr rfl
  rw [← Option.some.inj hm]
  simp only [World.newClass, Arena.size_push, hclasses, Arena.next]
  exact Nat.lt_succ_self _

theorem register_cold (hw : w.Cold) (c : ClassRef) : (w.register c).Cold := hw

theorem internAll_compiles (w : World) (names : List String) :
    w.Compiles (w.internAll names).2 := by
  induction names generalizing w with
  | nil => exact .refl w
  | cons name rest ih => exact (Compiles.intern w name).trans (ih _)

theorem note_classes (w : World) (e : Event) : (w.note e).classes = w.classes := by
  unfold note
  split <;> rfl

theorem note_cold (hw : w.Cold) (e : Event) : (w.note e).Cold := by
  unfold note
  split <;> exact hw

theorem Ranked.define (h : w.Ranked) (name : String) {superclass : ClassRef}
    (hs : superclass.index < w.classes.size) (fields : List String) :
    (w.define name superclass fields).2.Ranked := by
  have hnames := (w.internAll_compiles fields).trans (.intern _ name)
  refine Ranked.congr ?_ (note_classes _ _)
  refine Ranked.register (Ranked.newClass (h.congr hnames.classes) _ (fun s hs' => ?_) _) _
  rw [hnames.classes]
  exact Option.some.inj hs' ▸ hs

/-- Some bodies got a holder; all else is as before. -/
structure Reheld (w w' : World) : Prop where
  same : w' = { w with codes := w'.codes }
  size : w'.codes.size = w.codes.size
  code : ∀ r, w'.code r = w.code r
  holder : ∀ r, (w.codes.get r).holder.isSome → (w'.codes.get r).holder.isSome

theorem Reheld.refl (w : World) : w.Reheld w := ⟨rfl, rfl, fun _ => rfl, fun _ => id⟩

theorem Reheld.trans {w'' : World} (h : w.Reheld w') (h' : w'.Reheld w'') : w.Reheld w'' where
  same := by
    rw [h'.same, h.same]
  size := h'.size.trans h.size
  code := fun r => (h'.code r).trans (h.code r)
  holder := fun r hr => h'.holder r (h.holder r hr)

theorem Reheld.set (w : World) (r : CodeRef) (c : ClassRef) :
    w.Reheld { w with codes := w.codes.set r { w.codes.get r with holder := some c } } where
  same := rfl
  size := Arena.size_set _ _ _
  code := by
    intro s
    simp only [World.code, Arena.get_set]
    split
    · next h => rw [h.1]
    · rfl
  holder := by
    intro s hs
    simp only [Arena.get_set]
    split
    · rfl
    · exact hs

theorem foldl_reheld {α : Type} {f : World → α → World} (hf : ∀ v x, Reheld v (f v x))
    (xs : List α) (w : World) : w.Reheld (xs.foldl f w) := by
  induction xs generalizing w with
  | nil => exact .refl w
  | cons x xs ih => exact (hf w x).trans (ih _)

theorem setHolderWithin_reheld (c : ClassRef) (depth : Nat) (r : CodeRef) (w : World) :
    w.Reheld (setHolderWithin c depth r w) := by
  induction depth generalizing r w with
  | zero => exact .refl w
  | succ depth ih =>
    unfold setHolderWithin
    refine (Reheld.set w r c).trans (foldl_reheld (fun v x => ?_) _ _)
    split
    · exact ih _ v
    · exact .refl v

theorem flushMemos_cold (hw : w.Cold) : w.flushMemos.Cold := by
  refine ⟨?_, hw.2⟩
  simp only [flushMemos, hw.1]
  rfl

theorem install_compiled (w : World) (c : ClassRef) (r : CodeRef) :
    ∃ v, w.Reheld v ∧ w.install c (.compiled r) = flushMemos { v with
      classes := v.classes.set c { v.cls c with
        methods := (v.cls c).methods.insert (w.code r).signature (.compiled r) } } := by
  have h := setHolderWithin_reheld c (r.index + 1) r w
  refine ⟨_, h, ?_⟩
  rw [← h.code r]
  rfl

theorem install_primitive (w : World) (c : ClassRef) (p : PrimitiveRef) :
    ∃ primitives, w.install c (.primitive p) = flushMemos { w with
      primitives, classes := w.classes.set c { w.cls c with
        methods := (w.cls c).methods.insert
          ({ w with primitives }.signature (.primitive p)) (.primitive p) } } :=
  ⟨_, rfl⟩

theorem Ranked.install (h : w.Ranked) (c : ClassRef) (m : Method) : (w.install c m).Ranked := by
  cases m with
  | compiled r =>
    obtain ⟨v, hv, heq⟩ := w.install_compiled c r
    have hr : v.Ranked := h.congr (by rw [hv.same])
    rw [heq]
    exact (hr.setMethods c _).congr rfl
  | primitive p =>
    obtain ⟨primitives, heq⟩ := w.install_primitive c p
    rw [heq]
    exact (h.setMethods c _).congr rfl

theorem install_cold (hw : w.Cold) (c : ClassRef) (m : Method) : (w.install c m).Cold := by
  cases m with
  | compiled r =>
    obtain ⟨v, hv, heq⟩ := w.install_compiled c r
    rw [heq]
    refine flushMemos_cold ?_
    rw [hv.same]
    exact hw
  | primitive p =>
    obtain ⟨primitives, heq⟩ := w.install_primitive c p
    rw [heq]
    exact flushMemos_cold hw

theorem newCoreClass_ordered (cs : List CoreClass) (h : w.Ordered)
    (hm : ∀ c, (w.cls c).metaclass = none)
    (hs : ∀ i c s, cs[i]? = some c → c.superclass? = some s → s.ref.index < w.classes.size + i) :
    (cs.foldl newCoreClass w).Ordered ∧ (∀ c, ((cs.foldl newCoreClass w).cls c).metaclass = none) ∧
      (cs.foldl newCoreClass w).classes.size = w.classes.size + cs.length := by
  induction cs generalizing w with
  | nil => exact ⟨h, hm, rfl⟩
  | cons c cs ih =>
    have hsize : (w.newCoreClass c).classes.size = w.classes.size + 1 := Arena.size_push _ _
    have hordered : (w.newCoreClass c).Ordered := by
      refine Ordered.newClass (h.congr rfl) _ (fun s hsuper => ?_) []
      obtain ⟨s', hs', rfl⟩ := Option.map_eq_some_iff.mp hsuper
      exact hs 0 c s' rfl hs'
    have hmeta : ∀ d, ((w.newCoreClass c).cls d).metaclass = none := by
      intro d
      simp only [newCoreClass, newClass, World.cls, Arena.get_push]
      split
      · rfl
      · exact hm d
    obtain ⟨ho, hm', hsize'⟩ := ih hordered hmeta fun i d s hd hsuper => by
      have := hs (i + 1) d s hd hsuper
      omega
    refine ⟨ho, hm', ?_⟩
    rw [List.foldl_cons, hsize', hsize, List.length_cons, Nat.add_right_comm, Nat.add_assoc]

theorem superclass?_lt {i : Nat} {c s : CoreClass} (hc : CoreClass.all[i]? = some c)
    (hs : c.superclass? = some s) : s.ref.index < i := by
  have hall : ∀ p ∈ CoreClass.all.zipIdx,
      p.1.superclass?.all (fun s => s.ref.index < p.2) = true := by decide
  have h := hall (c, i) (List.mk_mem_zipIdx_iff_getElem?.mpr hc)
  rw [hs] at h
  simpa using h

theorem coreClasses_ranked (config : Config) (journal : Journal) :
    (CoreClass.all.foldl newCoreClass (empty config journal)).Ranked := by
  obtain ⟨ho, hm, hsize⟩ := newCoreClass_ordered (w := empty config journal) CoreClass.all
    (fun c s h => by cases h) (fun _ => rfl) fun i c s hc hs => by
      rw [show (empty config journal).classes.size = 0 from rfl, Nat.zero_add]
      exact superclass?_lt hc hs
  refine ⟨ho, fun c m h => ?_, ?_⟩
  · rw [hm c] at h
    cases h
  · rw [hsize]
    exact Nat.lt_of_lt_of_le (by decide : CoreClass.cls.ref.index < CoreClass.all.length)
      (Nat.le_add_left _ _)

theorem foldl_ensures {α : Type} (P : World → Prop) {f : World → α → World} (xs : List α)
    (hw : P w) (hf : ∀ v, ∀ x ∈ xs, P v → P (f v x)) : P (xs.foldl f w) := by
  induction xs generalizing w with
  | nil => exact hw
  | cons x xs ih =>
    exact ih (hf w x List.mem_cons_self hw) fun v y hy => hf v y (List.mem_cons_of_mem x hy)

theorem forM_ensures {α β : Type} (P : World → Prop) {f : α → Action β} {xs : List α} {u : Unit}
    (h : xs.forM (fun x => discard (f x)) w = .ok u w') (hw : P w)
    (hf : ∀ v v' b, ∀ x ∈ xs, P v → f x v = .ok b v' → P v') : P w' := by
  induction xs generalizing w with
  | nil =>
    cases h
    exact hw
  | cons x xs ih =>
    change (discard (f x) >>= fun _ => xs.forM fun x => discard (f x)) w = .ok u w' at h
    rw [Action.bind_apply, Action.discard_apply] at h
    cases hx : f x w with
    | error e v =>
      rw [hx] at h
      cases h
    | ok b v =>
      rw [hx] at h
      exact ih h (hf w v b x List.mem_cons_self hw hx)
        fun v v' b y hy => hf v v' b y (List.mem_cons_of_mem x hy)

section

variable {P : World → Prop} {config : Config} {journal : Journal}

theorem bare_ensures (hcore : P (CoreClass.all.foldl newCoreClass (empty config journal)))
    (hregister : ∀ v c, P v → P (v.register c))
    (hinstance : ∀ v c, P v → P (v.newInstance c).2)
    (hbind : ∀ v name x, x.block? = none → P v → P (v.bind name x))
    (hprimitive : ∀ v c, ∀ e ∈ CoreLibrary.entries, P v →
      P (v.installPrimitive c e.selector e.operation e.evaluatesBlock).2) :
    P (bare config journal) := by
  unfold bare
  dsimp only
  generalize hv : CoreLibrary.primitives.foldl installEntry _ = v
  have hp : P v := by
    rw [← hv]
    refine foldl_ensures P _ ?_ ?_
    · refine hbind _ _ _ rfl (hbind _ _ _ rfl (hbind _ _ _ rfl (hbind _ _ _ rfl ?_)))
      refine hinstance _ _ (foldl_ensures P _ hcore ?_)
      intro v c _ hp
      exact hregister v c.ref hp
    · intro v e he hp
      unfold installEntry
      exact hprimitive v _ e (List.mem_append_left _ he) hp
  unfold installClassPrimitive
  cases (v.cls CoreClass.array.ref).metaclass with
  | none => exact hp
  | some m =>
    have hnew : ⟨.array, "new:", .atomic .newArray, false⟩ ∈ CoreLibrary.entries := by
      unfold CoreLibrary.entries
      exact List.mem_append_right _ (List.mem_singleton.mpr rfl)
    have hinstalled := hprimitive v m _ hnew hp
    dsimp only at hinstalled
    exact hinstalled

/-- What holds of the core classes and is kept by every step of booting holds of the world that is
booted. -/
theorem boot_ensures (h : World.boot config journal = .ok w)
    (hcore : P (CoreClass.all.foldl newCoreClass (empty config journal)))
    (hregister : ∀ v c, P v → P (v.register c))
    (hinstance : ∀ v c, P v → P (v.newInstance c).2)
    (hbind : ∀ v name x, x.block? = none → P v → P (v.bind name x))
    (hprimitive : ∀ v c, ∀ e ∈ CoreLibrary.entries, P v →
      P (v.installPrimitive c e.selector e.operation e.evaluatesBlock).2)
    (hsource : ∀ v v' c m, ∀ s ∈ CoreLibrary.methods.map (·.2), P v →
      s.install c v = .ok m v' → P v') : P w := by
  unfold boot at h
  split at h
  · next u v hv =>
    cases h
    refine forM_ensures P hv (bare_ensures hcore hregister hinstance hbind hprimitive) ?_
    exact fun v v' m e he hp hi => hsource v v' e.1.ref m e.2 (List.mem_map_of_mem he) hp hi
  · cases h

end

theorem installPrimitive_eq (w : World) (c : ClassRef) (name : String) (op : Operation)
    (evaluatesBlock : Bool) :
    ∃ v p, w.Compiles v ∧ (w.installPrimitive c name op evaluatesBlock).2 =
      (v.newPrimitive p).2.install c (.primitive (v.newPrimitive p).1) :=
  ⟨_, _, .intern w name, rfl⟩

theorem install_source {s : Source} {c : ClassRef} {m : Method} (h : s.install c w = .ok m w') :
    ∃ r v u, s.compile w = .ok r v ∧ m = .compiled r ∧ w' = u.install c (.compiled r) ∧
      (u = v ∨ ∃ e, u = v.note e) := by
  simp only [Source.install, Action.bind_apply] at h
  cases hc : s.compile w with
  | error e v =>
    rw [hc] at h
    cases h
  | ok r v =>
    rw [hc] at h
    cases h
    refine ⟨r, v, _, rfl, rfl, rfl, ?_⟩
    split
    · exact .inr ⟨_, rfl⟩
    · exact .inl rfl

theorem compile_ranked {s : Source} {c : ClassRef} {m : Method} (hw : w.Ranked ∧ w.Cold)
    (h : s.install c w = .ok m w') : w'.Ranked ∧ w'.Cold := by
  obtain ⟨r, v, u, hc, -, rfl, hu⟩ := install_source h
  have hv : w.Compiles v := (s.build_compiles s.ownLevel w).of_ok hc
  have hvc : v.Ranked ∧ v.Cold := ⟨hw.1.congr hv.classes, hv.cold hw.2⟩
  have huc : u.Ranked ∧ u.Cold := by
    obtain rfl | ⟨e, rfl⟩ := hu
    · exact hvc
    · exact ⟨hvc.1.congr (note_classes v e), note_cold hvc.2 e⟩
  exact ⟨huc.1.install c _, install_cold huc.2 c _⟩

theorem coreClasses_cold (config : Config) (journal : Journal) :
    (CoreClass.all.foldl newCoreClass (empty config journal)).Cold :=
  foldl_ensures Cold CoreClass.all ⟨rfl, rfl⟩ fun _ _ _ hv => hv

theorem boot_ranked {config : Config} {journal : Journal} (h : World.boot config journal = .ok w) :
    w.Ranked ∧ w.Cold := by
  refine boot_ensures (P := fun w => w.Ranked ∧ w.Cold) h ?_ ?_ ?_ ?_ ?_ ?_
  · exact ⟨coreClasses_ranked config journal, coreClasses_cold config journal⟩
  · exact fun v c hv => ⟨hv.1.register c, register_cold hv.2 c⟩
  · exact fun v c hv => ⟨hv.1.congr rfl, hv.2⟩
  · exact fun v name x _ hv => ⟨hv.1.congr rfl, hv.2⟩
  · intro v c e _ hv
    obtain ⟨u, p, hu, heq⟩ := v.installPrimitive_eq c e.selector e.operation e.evaluatesBlock
    have hr : (u.newPrimitive p).2.Ranked := (hv.1.congr hu.classes).congr rfl
    have hc : (u.newPrimitive p).2.Cold := hu.cold hv.2
    rw [heq]
    exact ⟨hr.install c _, install_cold hc c _⟩
  · intro v v' c m s _ hv hi
    exact compile_ranked hv hi

theorem boot_coherent {config : Config} {journal : Journal}
    (h : World.boot config journal = .ok w) : w.Coherent :=
  (boot_ranked h).2.coherent (boot_ranked h).1.ordered

/-- The world that programs start in under the standard settings. -/
def standard : World :=
  match World.boot .standard .off with
  | .ok w => w
  | .error _ => default

set_option maxRecDepth 100000 in
theorem boot_standard : World.boot .standard .off = .ok standard := by
  have hboot : (World.boot .standard .off).toBool = true := by decide +kernel
  rw [standard]
  split
  · next h => exact h
  · next h =>
    rw [h] at hboot
    cases hboot

theorem standard_coherent : standard.Coherent := boot_coherent boot_standard

end World

end MessageMachine
