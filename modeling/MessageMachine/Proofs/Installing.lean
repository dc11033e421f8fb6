import MessageMachine.Proofs.Building
import MessageMachine.Proofs.Session

namespace MessageMachine

namespace World

variable {w w' : World} {outer : List Shape} {r : CodeRef}

theorem mem_of_literal {index : Nat} {v : Value} (h : w.literal r index = .ok v) :
    v ∈ (w.code r).literals := by
  unfold literal at h
  split at h
  · next hget =>
    cases h
    exact Array.mem_of_getElem? hget
  · cases h

def holdNested (c : ClassRef) (depth : Nat) (w : World) : Value → World
  | .method (.compiled nested) => w.setHolderWithin c depth nested
  | _ => w

theorem Checked.setHolderWithin (h : w.Checked False outer r) (c : ClassRef) {depth : Nat}
    (hdepth : r.index < depth) : (setHolderWithin c depth r w).Checked True outer r := by
  -- Nested bodies were made before the body, so their indices are below any bound on its own.
  induction depth generalizing outer r w with
  | zero => exact absurd hdepth (Nat.not_lt_zero _)
  | succ depth ih =>
    have hheld := Reheld.set w r c
    have hholder : (({ w with codes := w.codes.set r { w.codes.get r with holder := some c } } :
        World).codes.get r).holder.isSome := by
      simp only [Arena.get_set, h.lt, and_self, if_true, Option.isSome_some]
    change ((w.code r).literals.toList.foldl (holdNested c depth)
      { w with codes := w.codes.set r { w.codes.get r with holder := some c } }).Checked True outer r
    generalize { w with codes := w.codes.set r { w.codes.get r with holder := some c } } = v
      at hheld hholder ⊢
    have hstep (v : World) (x : Value) : v.Reheld (holdNested c depth v x) := by
      unfold holdNested
      split
      · exact setHolderWithin_reheld c depth _ v
      · exact .refl v
    -- A nested body gets its holder when its literal is reached, and keeps it from then on.
    have hnested {body : CodeRef} {env : List Shape} (hbody : w.Checked False env body)
        (hlt : body.index < r.index) (hmem : .method (.compiled body) ∈ (w.code r).literals) :
        ((w.code r).literals.toList.foldl (holdNested c depth) v).Checked True env body := by
      obtain ⟨pre, post, hsplit⟩ := List.append_of_mem (Array.mem_toList_iff.mpr hmem)
      rw [hsplit, List.foldl_append, List.foldl_cons]
      have hpre := hheld.trans (foldl_reheld hstep pre v)
      have hhere := ih (hbody.mono hpre.extended) (Nat.lt_of_lt_of_le hlt (Nat.le_of_lt_succ hdepth))
      exact Checked.mono (foldl_reheld hstep post _).extended hhere
    have hlast := foldl_reheld hstep (w.code r).literals.toList v
    generalize (w.code r).literals.toList.foldl (holdNested c depth) v = u at hnested hlast ⊢
    have hall := hheld.trans hlast
    have hcode := hall.code r
    have hchecked := h.mono hall.extended
    refine .mk hchecked.lt hchecked.level (fun _ => hlast.holder r hholder)
      (fun offset n hr => hchecked.fits hr) (fun offset n l body hr hfetch hbody => ?_)
      fun offset n l body hr hfetch hbody => hchecked.earlier hr hfetch hbody
    obtain ⟨hliteral, hblock⟩ := blockLiteral_eq_ok.mp hbody
    rw [literal_congr hcode] at hliteral
    rw [hall.code body] at hblock
    rw [hcode] at hr hfetch ⊢
    have hbody := blockLiteral_eq_ok.mpr ⟨hliteral, hblock⟩
    exact hnested (h.nested hr hfetch hbody) (h.earlier hr hfetch hbody) (mem_of_literal hliteral)

theorem install_codes (w : World) (c : ClassRef) (r : CodeRef) :
    (setHolderWithin c (r.index + 1) r w).Extends (w.install c (.compiled r)) :=
  .of_eq rfl rfl

theorem install_extends (w : World) (c : ClassRef) (r : CodeRef) :
    w.Extends (w.install c (.compiled r)) :=
  (setHolderWithin_reheld c _ r w).extended.trans (w.install_codes c r)

theorem Checked.install (h : w.Checked False outer r) (c : ClassRef) :
    (w.install c (.compiled r)).Checked True outer r :=
  (h.setHolderWithin c (Nat.lt_succ_self _)).mono (w.install_codes c r)

theorem install_markers (w : World) (c : ClassRef) (r : CodeRef) :
    (w.install c (.compiled r)).markers = w.markers := by
  obtain ⟨v, hv, heq⟩ := w.install_compiled c r
  rw [heq, flushMemos, hv.same]

end World

theorem CoreLibrary.methods_wellFormed :
    ∀ s ∈ methods.map (·.2), s.wellFormed (fun v => v.block?.isNone) [] := by decide

section

variable {D : Discipline} {w w' : World}

def World.Logs (w u : World) : Prop := u = w ∨ ∃ e, u = w.note e

theorem World.Logs.still {u : World} (h : w.Logs u) : w.Still u := by
  obtain rfl | ⟨e, rfl⟩ := h
  · exact .refl u
  · exact w.note_still e

theorem World.Logs.extended {u : World} (h : w.Logs u) : w.Extends u :=
  .of_eq h.still.codes h.still.frames

theorem World.Sound.installLogged (h : w.Sound D) {u : World} (hu : w.Logs u) (c : ClassRef)
    {r : CodeRef} (hroot : D.root (u.install c (.compiled r)) r) :
    (u.install c (.compiled r)).Sound D ∧ w.Extends (u.install c (.compiled r)) ∧
      (u.install c (.compiled r)).markers = w.markers := by
  have hsound : u.Sound D := by
    obtain rfl | ⟨e, rfl⟩ := hu
    · exact h
    · exact h.of_still (w.note_still e) (h.holds.note e)
  obtain ⟨hinstalled, he⟩ := hsound.install c r hroot
  refine ⟨hinstalled, hu.extended.trans he, ?_⟩
  rw [u.install_markers, hu.still.markers]

theorem World.installCode_eq (w : World) (c : ClassRef) (r : CodeRef) :
    ∃ u, w.Logs u ∧ w.installCode c r = u.install c (.compiled r) := by
  unfold installCode
  dsimp only
  split
  · exact ⟨_, .inr ⟨_, rfl⟩, rfl⟩
  · exact ⟨w, .inl rfl, rfl⟩

theorem World.Builds.sound {ok : Value → Bool} (h : w.Builds ok w') (hw : w.Sound D)
    (hok : ∀ v, ok v → D.Valid w v) : w'.Sound D := by
  refine hw.compiles h.toCompiles fun r hr v hv => ?_
  obtain hv | hv := h.literals r hr v hv
  · exact Discipline.valid_of_no_block hv
  · exact (hok v hv).mono h.extended

theorem Source.ownLevel_of_wellFormed {ok : Value → Bool} {s : Source} (h : s.wellFormed ok []) :
    s.ownLevel = 0 := by
  obtain ⟨kind, signature, localCount, level?, maxStack?, code⟩ := s
  simp only [Source.wellFormed, Bool.and_eq_true] at h
  cases kind with
  | method => rfl
  | block => cases h.1.1.2

variable (hD : ∀ {w r}, w.Checked True [] r → D.root w r)
include hD

theorem Source.install_sound {ok : Value → Bool} {s : Source} {c : ClassRef} {m : Method}
    (hs : s.wellFormed ok []) (hok : ∀ v, ok v → D.Valid w v) (hw : w.Sound D)
    (h : s.install c w = .ok m w') :
    w'.Sound D ∧ w.Extends w' ∧ w'.markers = w.markers := by
  obtain ⟨r, v, u, hc, -, rfl, hu⟩ := World.install_source h
  obtain ⟨hb, hchecked, -⟩ := (s.build_checked (by rw [ownLevel_of_wellFormed hs]; rfl) hs w).of_ok hc
  have hvu := World.Logs.extended hu
  obtain ⟨hsound, he, hmarkers⟩ :=
    (hb.sound hw hok).installLogged hu c (hD ((hchecked.mono hvu).install c))
  exact ⟨hsound, hb.extended.trans he, hmarkers.trans (by rw [hb.same])⟩

omit hD in
theorem World.coreClasses_sound (config : Config) (journal : Journal) :
    (CoreClass.all.foldl newCoreClass (empty config journal)).Sound D ∧
      (CoreClass.all.foldl newCoreClass (empty config journal)).markers = .empty := by
  refine foldl_ensures (fun w => w.Sound D ∧ w.markers = .empty) CoreClass.all ⟨?_, rfl⟩ ?_
  · have hnone (v : Value) : v ∉ (#[] : Array Value) := Array.not_mem_empty v
    refine ⟨⟨fun _ v hv => absurd hv (hnone v), fun _ v hv => absurd hv (hnone v), nofun, nofun,
      nofun, nofun⟩, fun r hr => absurd hr (Nat.not_lt_zero _), fun _ v hv => absurd hv (hnone v)⟩
  · intro w c _ ⟨hw, hmarkers⟩
    have hnames : w.Compiles (w.intern c.name).2 := .intern w c.name
    exact ⟨hw.stored rfl rfl rfl ((hw.holds.compiles hnames).newClass _ _ _), hmarkers⟩

theorem World.boot_sound {config : Config} {journal : Journal}
    (h : World.boot config journal = .ok w) : w.Sound D ∧ ∀ k, w.isLive k = false := by
  have hgood {w : World} (v : Value) (hv : v.block? = none) : D.Valid w v := D.valid_of_no_block hv
  suffices h : w.Sound D ∧ w.markers = .empty by
    refine ⟨h.1, fun k => ?_⟩
    rw [isLive, h.2]
    rfl
  refine boot_ensures (P := fun w => w.Sound D ∧ w.markers = .empty) h
    (coreClasses_sound config journal) ?_ ?_ ?_ ?_ ?_
  · rintro v c ⟨hv, hmarkers⟩
    exact ⟨hv.stored rfl rfl rfl (hv.holds.register c (hgood _ rfl)), hmarkers⟩
  · rintro v c ⟨hv, hmarkers⟩
    exact ⟨hv.stored rfl rfl rfl (hv.holds.newInstance c (hgood _ rfl)), hmarkers⟩
  · rintro v name x hx ⟨hv, hmarkers⟩
    have hnames : v.Compiles (v.intern name).2 := .intern v name
    exact ⟨hv.stored rfl rfl rfl ((hv.holds.compiles hnames).setGlobal _ (hgood x hx)), hmarkers⟩
  · rintro v c e - ⟨hv, hmarkers⟩
    exact ⟨hv.installPrimitive c e.selector e.operation e.evaluatesBlock, hmarkers⟩
  · rintro v v' c m s hs ⟨hv, hmarkers⟩ hi
    have hwf := CoreLibrary.methods_wellFormed s hs
    obtain ⟨hsound, -, hkept⟩ := Source.install_sound hD hwf
      (fun x hx => hgood x (Option.isNone_iff_eq_none.mp hx)) hv hi
    exact ⟨hsound, hkept.trans hmarkers⟩

end

end MessageMachine
