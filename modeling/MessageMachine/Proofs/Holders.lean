import MessageMachine.Proofs.Changing
import MessageMachine.Proofs.History

namespace MessageMachine

namespace World

variable {w w' w'' : World} {H : History} {c : ClassRef}

/-- The second method is the first one, or among the literals of it at any depth. -/
inductive Embeds (w : World) : Method → Method → Prop where
  | refl (m : Method) : Embeds w m m
  | literal {r n : CodeRef} {x : Method} (hn : .method (.compiled n) ∈ (w.code r).literals)
      (h : Embeds w (.compiled n) x) : Embeds w (.compiled r) x

/-- Bodies are made after the bodies among their literals. -/
def Nested (w : World) : Prop :=
  ∀ r n : CodeRef, .method (.compiled n) ∈ (w.code r).literals → n.index < r.index

theorem embeds_compiled {r : CodeRef} {x : Method} :
    w.Embeds (.compiled r) x ↔ x = .compiled r ∨
      ∃ n, .method (.compiled n) ∈ (w.code r).literals ∧ w.Embeds (.compiled n) x := by
  constructor
  · rintro (_ | ⟨hn, h⟩)
    · exact .inl rfl
    · exact .inr ⟨_, hn, h⟩
  · rintro (rfl | ⟨n, hn, h⟩)
    · exact .refl _
    · exact .literal hn h

theorem embeds_primitive {p : PrimitiveRef} {x : Method} :
    w.Embeds (.primitive p) x ↔ x = .primitive p := by
  constructor
  · rintro ⟨⟩
    rfl
  · rintro rfl
    exact .refl _

theorem Embeds.compiled {m x : Method} (h : w.Embeds m x) {r : CodeRef} (hm : m = .compiled r) :
    ∃ s, x = .compiled s := by
  induction h generalizing r with
  | refl => exact ⟨r, hm⟩
  | literal _ _ ih => exact ih rfl

theorem embeds_congr (hn : w.Nested)
    (hcode : ∀ r : CodeRef, w.Made (.compiled r) → w'.code r = w.code r) {m x : Method}
    (hm : w.Made m) : w'.Embeds m x ↔ w.Embeds m x := by
  constructor
  · intro h
    induction h with
    | refl => exact .refl _
    | @literal r n _ hmem _ ih =>
      rw [hcode r hm] at hmem
      exact .literal hmem (ih (Nat.lt_trans (hn r n hmem) hm))
  · intro h
    induction h with
    | refl => exact .refl _
    | @literal r n _ hmem _ ih =>
      refine .literal ?_ (ih (Nat.lt_trans (hn r n hmem) hm))
      rwa [hcode r hm]

/-- Bodies with the property got the class as their holder, and no others did. -/
structure Hands (w w' : World) (c : ClassRef) (P : CodeRef → Prop) : Prop extends w.Reheld w' where
  given : ∀ r, P r → (w'.codes.get r).holder = some c
  kept : ∀ r, ¬P r → (w'.codes.get r).holder = (w.codes.get r).holder

namespace Hands

variable {P Q : CodeRef → Prop}

theorem trans (h : w.Hands w' c P) (h' : w'.Hands w'' c Q) : w.Hands w'' c fun r => P r ∨ Q r where
  toReheld := h.toReheld.trans h'.toReheld
  given := fun r hr => by
    by_cases hq : Q r
    · exact h'.given r hq
    · rw [h'.kept r hq]
      exact h.given r (hr.resolve_right hq)
  kept := fun r hr => by
    obtain ⟨hp, hq⟩ := not_or.mp hr
    rw [h'.kept r hq, h.kept r hp]

theorem congr (h : w.Hands w' c P) (hPQ : ∀ r, P r ↔ Q r) : w.Hands w' c Q :=
  ⟨h.toReheld, fun r hr => h.given r ((hPQ r).mpr hr), fun r hr => h.kept r (mt (hPQ r).mp hr)⟩

theorem set {r : CodeRef} (hr : r.index < w.codes.size) :
    w.Hands { w with codes := w.codes.set r { w.codes.get r with holder := some c } } c (· = r) where
  toReheld := .set w r c
  given := by
    rintro _ rfl
    simp only [Arena.get_set, hr, and_self, if_true]
  kept := fun s hs => by
    simp only [Arena.get_set]
    rw [if_neg fun h => hs h.1.symm]

/-- Values that are no bodies change nothing, and each body hands out the class to what it embeds. -/
theorem foldl {u : World} (f : World → Value → World) (vs : List Value)
    (hother : ∀ v x, (∀ n, x ≠ .method (.compiled n)) → f v x = v)
    (hbody : ∀ v n, .method (.compiled n) ∈ vs → u.Reheld v →
      v.Hands (f v (.method (.compiled n))) c fun r => u.Embeds (.compiled n) (.compiled r))
    (hu : u.Reheld w) (h : w.Hands w' c P) : w.Hands (vs.foldl f w') c fun r => P r ∨
      ∃ n, .method (.compiled n) ∈ vs ∧ u.Embeds (.compiled n) (.compiled r) := by
  induction vs generalizing w' P with
  | nil => exact h.congr fun r => by simp
  | cons x vs ih =>
    have hrest := fun v n hn => hbody v n (List.mem_cons_of_mem x hn)
    by_cases hx : ∃ n, x = .method (.compiled n)
    · obtain ⟨n, rfl⟩ := hx
      have hhere := hbody w' n List.mem_cons_self (hu.trans h.toReheld)
      refine (ih hrest (h.trans hhere)).congr fun r => ?_
      simp only [List.mem_cons, Value.method.injEq, Method.compiled.injEq, or_assoc, or_and_right,
        exists_or, exists_eq_left]
    · have hne : ∀ n, x ≠ .method (.compiled n) := fun n hn => hx ⟨n, hn⟩
      rw [List.foldl_cons, hother w' x hne]
      refine (ih hrest h).congr fun r => ?_
      simp only [List.mem_cons, (hne _).symm, false_or]

end Hands

theorem setHolderWithin_hands {u : World} (hn : u.Nested) {depth : Nat} {r : CodeRef}
    (hdepth : r.index < depth) (hr : u.Made (.compiled r)) (hw : u.Reheld w) :
    w.Hands (setHolderWithin c depth r w) c fun x => u.Embeds (.compiled r) (.compiled x) := by
  induction depth generalizing r w with
  | zero => exact absurd hdepth (Nat.not_lt_zero _)
  | succ depth ih =>
    have hhere : w.Hands { w with codes := w.codes.set r { w.codes.get r with holder := some c } } c
        (· = r) := .set (hw.size.symm ▸ hr)
    have hall := Hands.foldl (u := u) (holdNested c depth) (w.code r).literals.toList
      (fun v x hx => ?_) (fun v n hmem hv => ?_) hw hhere
    · refine hall.congr fun x => ?_
      rw [embeds_compiled, Method.compiled.injEq]
      simp only [Array.mem_toList_iff, hw.code r]
    · unfold holdNested
      split
      · exact absurd rfl (hx _)
      · rfl
    · -- The bodies among the literals were made before, so they are within the remaining depth.
      rw [Array.mem_toList_iff, hw.code r] at hmem
      have hlt := hn r n hmem
      exact ih (Nat.lt_of_lt_of_le hlt (Nat.le_of_lt_succ hdepth)) (Nat.lt_trans hlt hr) hv

/-- Installing a method makes the class the holder of all that the method embeds, and of nothing
else. -/
theorem holder?_install (hn : w.Nested) {m : Method} (hm : w.Made m) (x : Method) :
    (w.Embeds m x → (w.install c m).holder? x = some c) ∧
      (¬w.Embeds m x → (w.install c m).holder? x = w.holder? x) := by
  have hsame : (w.install c m).holder? x = (w.setHolder c m).holder? x := by cases x <;> rfl
  rw [hsame]
  cases m with
  | compiled r =>
    have h : w.Hands (w.setHolder c (.compiled r)) c _ :=
      setHolderWithin_hands hn (Nat.lt_succ_self _) hm (.refl w)
    cases x with
    | compiled s => exact ⟨h.given s, h.kept s⟩
    | primitive p =>
      refine ⟨fun he => ?_, fun _ => ?_⟩
      · obtain ⟨s, hs⟩ := he.compiled rfl
        cases hs
      · rw [holder?, h.same]
        rfl
  | primitive p =>
    rw [embeds_primitive]
    cases x with
    | compiled s =>
      refine ⟨fun heq => ?_, fun _ => rfl⟩
      cases heq
    | primitive q =>
      have hp : p.index < w.primitives.size := hm
      simp only [holder?, setHolder, Arena.get_set, hp, and_true, Method.primitive.injEq]
      split
      · next heq => exact ⟨fun _ => rfl, fun hne => absurd heq.symm hne⟩
      · next hne => exact ⟨fun heq => absurd heq.symm hne, fun _ => rfl⟩

open Classical in
noncomputable def lastHolder? (w : World) (x : Method) (H : History) : Option ClassRef :=
  (H.find? fun i => w.Embeds i.method x).map (·.cls)

theorem lastHolder?_cons_pos {i : Installation} {x : Method} (h : w.Embeds i.method x) :
    w.lastHolder? x (i :: H) = some i.cls := by
  rw [lastHolder?, List.find?_cons_of_pos (by simpa using h)]
  rfl

theorem lastHolder?_cons_neg {i : Installation} {x : Method} (h : ¬w.Embeds i.method x) :
    w.lastHolder? x (i :: H) = w.lastHolder? x H := by
  rw [lastHolder?, List.find?_cons_of_neg (by simpa using h)]
  rfl

theorem lastHolder?_congr {x : Method}
    (h : ∀ i ∈ H, (w'.Embeds i.method x ↔ w.Embeds i.method x)) :
    w'.lastHolder? x H = w.lastHolder? x H := by
  induction H with
  | nil => rfl
  | cons i H ih =>
    obtain ⟨hi, hrest⟩ := List.forall_mem_cons.mp h
    by_cases he : w.Embeds i.method x
    · rw [lastHolder?_cons_pos he, lastHolder?_cons_pos (hi.mpr he)]
    · rw [lastHolder?_cons_neg he, lastHolder?_cons_neg (mt hi.mp he), ih hrest]

theorem lastHolder?_append {later earlier : History} {i : Installation} {x : Method}
    (h : w.Embeds i.method x) (hlater : ∀ j ∈ later, w.Embeds j.method x → j.cls = i.cls) :
    w.lastHolder? x (later ++ i :: earlier) = some i.cls := by
  induction later with
  | nil => exact lastHolder?_cons_pos h
  | cons j later ih =>
    obtain ⟨hj, hrest⟩ := List.forall_mem_cons.mp hlater
    rw [List.cons_append]
    by_cases he : w.Embeds j.method x
    · rw [lastHolder?_cons_pos he, hj he]
    · rw [lastHolder?_cons_neg he, ih hrest]

/-- Each method has the holder that a history gives it. -/
structure Held (w : World) (H : History) : Prop where
  nested : w.Nested
  holder : ∀ x, w.holder? x = w.lastHolder? x H

theorem Held.congr (hh : w.Held H) (hr : w.Recorded H) (hn : w'.Nested)
    (hcode : ∀ r : CodeRef, w.Made (.compiled r) → w'.code r = w.code r)
    (hholder : ∀ x, w'.holder? x = w.holder? x) : w'.Held H where
  nested := hn
  holder := fun x => by
    rw [hholder, hh.holder]
    exact (lastHolder?_congr fun i hi => embeds_congr hh.nested hcode (hr.made i hi).2).symm

theorem Held.prepares (hh : w.Held H) (hr : w.Recorded H) (h : w.Prepares w') : w'.Held H := by
  have hcode (r : CodeRef) (hr : w.Made (.compiled r)) : w'.code r = w.code r := by
    rw [code, h.codes r hr, code]
  refine hh.congr hr (fun r n hmem => ?_) hcode fun x => ?_
  · by_cases hr : r.index < w.codes.size
    · exact hh.nested r n (hcode r hr ▸ hmem)
    · exact h.below r (Nat.le_of_not_lt hr) n hmem
  -- What is new has no holder, and neither has what is not there yet.
  · cases x with
    | compiled r =>
      by_cases hr : r.index < w.codes.size
      · rw [holder?, h.codes r hr, holder?]
      · rw [holder?, h.unheld r (Nat.le_of_not_lt hr), holder?,
          Arena.get_of_le _ (Nat.le_of_not_lt hr)]
        rfl
    | primitive p =>
      by_cases hp : p.index < w.primitives.size
      · rw [holder?, h.primitives p hp, holder?]
      · rw [holder?, h.unheldPrimitive p (Nat.le_of_not_lt hp), holder?,
          Arena.get_of_le _ (Nat.le_of_not_lt hp)]
        rfl

theorem Held.define (hh : w.Held H) (hr : w.Recorded H) (name : String) (superclass : ClassRef)
    (fields : List String) : (w.define name superclass fields).2.Held H := by
  have hcodes := (w.define_keeps name superclass fields).1
  have hprimitives := (w.define_widens name superclass fields).2.2.2.2
  generalize (w.define name superclass fields).2 = v at *
  have hcode (r : CodeRef) : v.code r = w.code r := by rw [code, hcodes, code]
  refine hh.congr hr (fun r n hmem => hh.nested r n (hcode r ▸ hmem)) (fun r _ => hcode r) fun x => ?_
  cases x <;> simp only [holder?, hcodes, hprimitives]

theorem Held.install (hh : w.Held H) (hr : w.Recorded H) {m : Method} (hm : w.Made m) :
    (w.install c m).Held (⟨c, m⟩ :: H) := by
  have hcode (r : CodeRef) : (w.install c m).code r = w.code r := by
    cases m with
    | compiled s => exact (setHolderWithin_reheld c (s.index + 1) s w).code r
    | primitive p => rfl
  have hembeds {y x : Method} (hy : w.Made y) : (w.install c m).Embeds y x ↔ w.Embeds y x :=
    embeds_congr hh.nested (fun r _ => hcode r) hy
  refine ⟨fun r n hmem => hh.nested r n (hcode r ▸ hmem), fun x => ?_⟩
  obtain ⟨hgiven, hkept⟩ := holder?_install (c := c) hh.nested hm x
  by_cases he : w.Embeds m x
  · rw [hgiven he, lastHolder?_cons_pos ((hembeds hm).mpr he)]
  · rw [hkept he, lastHolder?_cons_neg (mt (hembeds hm).mp he), hh.holder]
    exact (lastHolder?_congr fun i hi => hembeds (hr.made i hi).2).symm

theorem Alters.held {I : History} (h : w.Alters w' I) (hr : w.Recorded H) (hh : w.Held H) :
    w'.Held (I ++ H) := by
  cases h with
  | prepare h => exact hh.prepares hr h
  | install h _ hm => exact (hh.prepares hr h).install (hr.prepares h) hm
  | define h name _ fields => exact (hh.prepares hr h).define (hr.prepares h) name _ fields

theorem Altered.held (h : w.Altered w' H) {I : History} (ht : w.Tidy) (hr : w.Recorded I)
    (hh : w.Held I) : w'.Held (H ++ I) := by
  induction h with
  | refl => exact hh
  | alter h ha ih =>
    rw [List.append_assoc]
    exact (alter_alters (h.tidy ht) ha).held (h.recorded ht hr) ih

theorem core_held (config : Config) (journal : Journal) : (core config journal).Held [] := by
  obtain ⟨-, -, -, hcodes, hprimitives⟩ := core_tidy config journal
  refine ⟨fun r n hmem => ?_, fun x => ?_⟩
  · rw [code, hcodes] at hmem
    exact absurd hmem (Array.not_mem_empty _)
  · cases x <;> simp only [holder?, hcodes, hprimitives] <;> rfl

end World

/-- A search that starts at a class, if there is one. -/
def Action.lookupFrom (c? : Option ClassRef) (selector : Symbol) : Action (Option Method) :=
  match c? with
  | some c => lookup c selector
  | none => pure none

theorem Activation.superSend_of_holder {w : World} {a : Activation} {c : ClassRef}
    (h : w.holder? (.compiled a.method) = some c) (selector : Symbol) :
    a.superSend selector w =
      (Action.lookupFrom (w.cls c).superclass selector >>= (a.enter · selector)) w := by
  unfold superSend Action.resolveSuper
  simp only [Action.bind_apply, Action.get_apply, h]
  cases (w.cls c).superclass <;> rfl

namespace World

/-- Whatever was defined and installed since a world was booted, the holder of each method is the class
of the most recent installation that reached it. So an entry of a class, and each body nested in it,
has that class as its holder unless it was installed in another one since, and super sends from it
start above the class, at any time while the world runs. -/
theorem holders_follow_history {config : Config} {journal : Journal} {w₀ w : World} {H : History}
    (hboot : World.boot config journal = .ok w₀) (h : w₀.Altered w H) :
    (∀ x, w.holder? x = w.lastHolder? x (H ++ CoreLibrary.history config journal)) ∧
    ∀ c, ∀ m ∈ (w.cls c).methods.values, ⟨c, m⟩ ∈ H ++ CoreLibrary.history config journal ∧
      ∀ later earlier, H ++ CoreLibrary.history config journal = later ++ ⟨c, m⟩ :: earlier →
        ∀ x, w.Embeds m x → (∀ i ∈ later, w.Embeds i.method x → i.cls = c) →
          w.holder? x = some c ∧
          ∀ (q : Request) (n : Nat) (a : Activation) (selector : Symbol), x = .compiled a.method →
            a.superSend selector ((q.machine w).after n).world =
              (Action.lookupFrom (w.cls c).superclass selector >>= (a.enter · selector))
                ((q.machine w).after n).world := by
  have hall := (boot_altered hboot).trans h
  have htidy := (core_tidy config journal).1
  have hr := hall.recorded htidy (core_recorded config journal)
  have hh := hall.held htidy (core_recorded config journal) (core_held config journal)
  rw [List.append_nil] at hr hh
  refine ⟨hh.holder, fun c m hm => ⟨?_, fun later earlier hsplit x hx hlater => ?_⟩⟩
  · obtain ⟨e, he, rfl⟩ := List.mem_map.mp hm
    have hfound := Table.find?_of_mem (hr.distinct c) he
    rw [hr.table] at hfound
    exact (latest?_eq_some hfound).1
  · have hholder : w.holder? x = some c := by
      rw [hh.holder, hsplit]
      exact lastHolder?_append hx hlater
    refine ⟨hholder, fun q n a selector heq => ?_⟩
    obtain ⟨-, hclasses, hcodes, -⟩ := q.fixed w n
    rw [Machine.world_snapshot] at hclasses hcodes
    rw [show (w.cls c).superclass = (((q.machine w).after n).world.cls c).superclass by
      rw [cls, cls, hclasses]]
    refine Activation.superSend_of_holder ?_ selector
    rw [heq] at hholder
    rw [holder?, hcodes]
    exact hholder

def reinstalled : List Alteration :=
  let block := .block 0 [.pushSlot .arguments 0 1, .superSend "kind", .returnLocal]
  [.define "First" CoreClass.object.ref [], .define "Second" CoreClass.object.ref [],
   .source ⟨38⟩ (.method "kind" [.pushBlock block, .send "value", .returnLocal]), .install ⟨40⟩ ⟨21⟩]

set_option maxRecDepth 100000 in
theorem reinstalled_altered :
    let w := standard.alterAll reinstalled
    standard.Altered w [⟨⟨40⟩, .compiled ⟨21⟩⟩, ⟨⟨38⟩, .compiled ⟨21⟩⟩] ∧
      (w.cls ⟨38⟩).methods.values = [.compiled ⟨21⟩] ∧
      (w.cls ⟨40⟩).methods.values = [.compiled ⟨21⟩] ∧
      .method (.compiled ⟨20⟩) ∈ (w.code ⟨21⟩).literals ∧
      w.holder? (.compiled ⟨21⟩) = some ⟨40⟩ := by
  have hrun : decide (standard.Allows reinstalled) = true ∧
      standard.log reinstalled = [⟨⟨40⟩, .compiled ⟨21⟩⟩, ⟨⟨38⟩, .compiled ⟨21⟩⟩] ∧
      ((standard.alterAll reinstalled).cls ⟨38⟩).methods.values = [.compiled ⟨21⟩] ∧
      ((standard.alterAll reinstalled).cls ⟨40⟩).methods.values = [.compiled ⟨21⟩] ∧
      .method (.compiled ⟨20⟩) ∈ ((standard.alterAll reinstalled).code ⟨21⟩).literals ∧
      (standard.alterAll reinstalled).holder? (.compiled ⟨21⟩) = some ⟨40⟩ := by decide +kernel
  obtain ⟨hallows, hlog, hrest⟩ := hrun
  have h := Altered.all .refl (of_decide_eq_true hallows)
  rw [hlog, List.append_nil] at h
  exact ⟨h, hrest⟩

theorem holders_follow_history_reinstalled :
    ∃ (w : World) (H : History) (m x : Method), World.boot .standard .off = .ok standard ∧
      standard.Altered w H ∧ w.holder? x = w.lastHolder? x (H ++ CoreLibrary.history .standard .off) ∧
      m ∈ (w.cls ⟨38⟩).methods.values ∧ m ∈ (w.cls ⟨40⟩).methods.values ∧ m ≠ x ∧ w.Embeds m x ∧
      w.holder? x = some ⟨40⟩ := by
  obtain ⟨h, hfirst, hsecond, hmem, -⟩ := reinstalled_altered
  obtain ⟨hlast, hentries⟩ := holders_follow_history boot_standard h
  refine ⟨_, _, .compiled ⟨21⟩, .compiled ⟨20⟩, boot_standard, h, hlast _, ?_, ?_, nofun,
    .literal hmem (.refl _), ?_⟩
  · rw [hfirst]
    exact List.mem_singleton_self _
  · rw [hsecond]
    exact List.mem_singleton_self _
  · have hentry := (hentries ⟨40⟩ (.compiled ⟨21⟩) (by rw [hsecond]; exact List.mem_singleton_self _)).2
    exact (hentry [] _ List.cons_append _ (.literal hmem (.refl _)) nofun).1

theorem not_held_by_each : ¬∀ (w : World) (H : History), standard.Altered w H →
    ∀ c, ∀ m ∈ (w.cls c).methods.values, w.holder? m = some c := by
  intro hall
  obtain ⟨h, hfirst, -, -, hholder⟩ := reinstalled_altered
  have hheld := hall _ _ h ⟨38⟩ (.compiled ⟨21⟩) (by rw [hfirst]; exact List.mem_singleton_self _)
  rw [hholder] at hheld
  cases hheld

end World

end MessageMachine
