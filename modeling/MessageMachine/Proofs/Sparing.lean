import MessageMachine.Proofs.Booting
import MessageMachine.Proofs.Caching
import MessageMachine.Proofs.Naming
import MessageMachine.Proofs.Reifying

namespace MessageMachine

/-- Nothing is installed in these classes. -/
def Alteration.Spares (cs : List CoreClass) (w : World) (a : Alteration) : Prop :=
  ∀ i ∈ w.installs a, ∀ c ∈ cs, i.cls ≠ c.ref

namespace World

variable {w w' : World} {H I : History}

theorem latest?_append_of_ne {c : ClassRef} (hI : ∀ i ∈ I, i.cls ≠ c) (selector : Symbol) :
    w.latest? c selector (I ++ H) = w.latest? c selector H := by
  unfold latest?
  rw [List.find?_append, List.find?_eq_none.mpr, Option.none_or]
  intro i hi
  simp [hI i hi]

theorem Alters.find?_methods (h : w.Alters w' I) (hw : w.Logged H) {c : ClassRef}
    (hI : ∀ i ∈ I, i.cls ≠ c) (selector : Symbol) :
    (w'.cls c).methods.find? selector = (w.cls c).methods.find? selector := by
  rw [(h.logged hw).recorded.table, hw.recorded.table, latest?_append_of_ne hI]
  exact latest?_congr (fun i hi => h.retains.signature (hw.recorded.made i hi).2) c selector

theorem Alters.hasCore (h : w.Alters w' I) (hw : w.HasCore) : w'.HasCore := by
  intro c
  obtain ⟨hlt, hsuper⟩ := h.superclass (hw c).1
  exact ⟨hlt, hsuper.trans (hw c).2⟩

end World

namespace Chronicle

variable {permits : World → Alteration → Prop} {w₀ : World} {H I : History} {m : Machine}

theorem hasCore (h : Chronicle permits w₀ H m) (hw : w₀.Logged I) (hcore : w₀.HasCore) :
    m.world.HasCore := by
  induction h with
  | boot => exact hcore
  | step h ih => exact World.Keyed.HasCore.congr ih (Machine.step_prepares h.held (h.logged hw).finds).classes
  | request h r ih => exact World.Keyed.HasCore.congr ih (r.prepares (h.logged hw).finds).classes
  | alter h ha _ ih => exact (World.alter_alters (h.logged hw).tidy ha).hasCore ih
  | change _ _ hclasses _ ih => exact World.Keyed.HasCore.congr ih hclasses

theorem retains (h : Chronicle permits w₀ H m) (hw : w₀.Logged I) : w₀.Retains m.world := by
  induction h with
  | boot => exact .of_same rfl rfl
  | step h ih => exact ih.trans (Machine.step_prepares h.held (h.logged hw).finds).retains
  | request h r ih => exact ih.trans (r.prepares (h.logged hw).finds).retains
  | alter h ha _ ih => exact ih.trans (World.alter_alters (h.logged hw).tidy ha).retains
  | change h hc hclasses hprimitives ih =>
    exact ih.trans (hc.prepares (h.logged hw).tidy.memos hclasses hprimitives).retains

section

variable {cs : List CoreClass} {c : CoreClass}

theorem find?_methods (h : Chronicle (Alteration.Spares cs) w₀ H m) (hw : w₀.Logged I) (hc : c ∈ cs)
    (selector : Symbol) :
    (m.world.cls c.ref).methods.find? selector = (w₀.cls c.ref).methods.find? selector := by
  have same {v v' : World} (hclasses : v'.classes = v.classes) : v'.cls c.ref = v.cls c.ref := by
    rw [World.cls, hclasses, World.cls]
  induction h with
  | boot => rfl
  | step h ih => rw [same (Machine.step_prepares h.held (h.logged hw).finds).classes, ih]
  | request h r ih => rw [same (r.prepares (h.logged hw).finds).classes, ih]
  | alter h ha hp ih =>
    have hI := fun i hi => hp i hi c hc
    rw [(World.alter_alters (h.logged hw).tidy ha).find?_methods (h.logged hw) hI, ih]
  | change _ _ hclasses _ ih => rw [same hclasses, ih]

theorem method?_eq (h : Chronicle (Alteration.Spares cs) w₀ H m) (hw : w₀.Logged I)
    (hcore : w₀.HasCore) (hclosed : ∀ c ∈ cs, ∀ d, c.superclass? = some d → d ∈ cs) (hc : c ∈ cs)
    (selector : Symbol) : m.world.method? c.ref selector = w₀.method? c.ref selector := by
  have hlogged := h.logged hw
  induction hi : c.ref.index using Nat.strongRecOn generalizing c with
  | ind i ih =>
    rw [World.method?_eq hlogged.finds.ordered, World.method?_eq hw.finds.ordered, h.find?_methods hw hc,
      (h.hasCore hw hcore c).2, (hcore c).2]
    cases (w₀.cls c.ref).methods.find? selector with
    | some x => rfl
    | none =>
      cases hd : c.superclass? with
      | none => rfl
      | some d =>
        have hsuper : (w₀.cls c.ref).superclass = some d.ref := by rw [(hcore c).2, hd]; rfl
        exact ih d.ref.index (hi ▸ hw.finds.ordered _ _ hsuper) (hclosed c hc d hd) rfl

end

section

variable {config : Config} {journal : Journal} (hboot : World.boot config journal = .ok w₀)
include hboot

theorem retains_standard (h : Chronicle permits w₀ H m) : World.standard.Retains m.world := by
  rw [← World.boot_plain w₀ hboot]
  have hplain : (w₀.restage .plain).Retains w₀ := .of_same rfl rfl
  exact hplain.trans (h.retains (World.boot_logged hboot))

theorem intern_standard (h : Chronicle permits w₀ H m) {name : String} {s : Symbol}
    (hs : World.standard.Names name s) : (m.world.intern name).1 = s := by
  rw [← World.boot_plain w₀ hboot] at hs
  exact (h.names hs).intern

theorem method?_standard {cs : List CoreClass} (h : Chronicle (Alteration.Spares cs) w₀ H m)
    (hclosed : ∀ c ∈ cs, ∀ d, c.superclass? = some d → d ∈ cs) {c : CoreClass} (hc : c ∈ cs)
    (selector : Symbol) : m.world.method? c.ref selector = World.standard.method? c.ref selector := by
  rw [h.method?_eq (World.boot_logged hboot) (World.boot_keyed hboot).core hclosed hc,
    ← World.boot_plain w₀ hboot]
  exact (World.method?_congr (w := w₀) (v := w₀.restage .plain) rfl _ _).symm

theorem own_standard {cs : List CoreClass} (h : Chronicle (Alteration.Spares cs) w₀ H m) {c : CoreClass}
    (hc : c ∈ cs) {selector : Symbol} {x : Method}
    (hx : (World.standard.cls c.ref).methods.find? selector = some x) :
    m.world.method? c.ref selector = some x := by
  rw [← World.boot_plain w₀ hboot] at hx
  have hown : (w₀.cls c.ref).methods.find? selector = some x := hx
  rw [World.method?_eq (h.logged (World.boot_logged hboot)).finds.ordered,
    h.find?_methods (World.boot_logged hboot) hc, hown]

end

theorem cached_found (h : Chronicle permits w₀ H m) (hw : w₀.Logged I) (hcold : w₀.caches = .empty)
    {c : ClassRef} {selector : Symbol} {found : Option Method}
    (hfound : ∀ {H m}, Chronicle permits w₀ H m → m.world.method? c selector = found) :
    m.world.Cached fun c' s' x => c' = c → s' = selector → found = some x := by
  refine h.cached (R := fun _ c' s' x => c' = c → s' = selector → found = some x) hw hcold ?_ ?_ ?_
  · rintro _ _ hm _ _ x hx rfl rfl
    rw [← hfound hm, hx]
  · exact fun _ _ _ _ => id
  · exact fun _ _ _ _ _ _ => id

end Chronicle

end MessageMachine
