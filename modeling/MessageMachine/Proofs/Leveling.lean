import MessageMachine.Proofs.Enclosing
import MessageMachine.Proofs.Installing

namespace MessageMachine

variable {guarded : Prop} {w w' : World}

theorem World.lt_of_isBlock {r : CodeRef} (h : (w.code r).isBlock) : r.index < w.codes.size := by
  by_cases hr : r.index < w.codes.size
  · exact hr
  · rw [World.code, Arena.get_of_le _ (Nat.le_of_not_lt hr)] at h
    cases h

/-- Any body of level zero runs as a method, and any other as a block over as many frames as its
level says. -/
def Discipline.linked (guarded : Prop) : Discipline where
  guarded := guarded
  root w r := r.index < w.codes.size ∧ (w.code r).isBlock = false
  fits w b := (w.code b.code).isBlock ∧ b.level = (w.code b.code).level ∧
    ∃ outer, outer.length = b.level.toNat ∧ w.Encloses outer (some b.context)
  root_mono := fun he ⟨hlt, hroot⟩ =>
    ⟨Nat.lt_of_lt_of_le hlt he.codes_le, by rw [he.code _ hlt, hroot]⟩
  fits_mono := fun {w w' b} he ⟨hb, hl, outer, hlen, ho⟩ => by
    have hcode := he.code b.code (World.lt_of_isBlock hb)
    exact ⟨by rw [hcode, hb], by rw [hcode, hl], outer, hlen, ho.mono he⟩
  root_lt := And.left
  fits_lt := fun h => World.lt_of_isBlock h.1
  not_isBlock := And.right
  isBlock := And.left
  level := fun h => h.2.1
  home := fun ⟨hb, hl, outer, hlen, ho⟩ => by
    rw [← hlen]
    refine ho.home fun hnil => ?_
    rw [hl] at hlen
    rw [hnil, List.length_nil] at hlen
    exact Nat.lt_irrefl _ (hlen ▸ Code.isBlock_iff.mp hb)

/-- Any bodies run that overwrite no block of a block activation. -/
abbrev Discipline.leveled : Discipline := .linked True

instance : Discipline.leveled.Guards := ⟨trivial⟩

/-- Runs of any code raise any faults, but no non-local return escapes them. -/
def Contract.leveled : Contract .leveled where
  faults := Fault.Raised
  counts _ _ _ _ := True
  program := by
    rintro f hf rfl
    cases hf
  guards := .inl trivial
  mono := fun _ _ => id
  start := fun _ _ => trivial
  room := .inl fun _ => id

theorem Frame.Sound.encloses {f : Frame} (h : f.Sound (.linked guarded) w) :
    ∃ outer, outer.length = f.code.level.toNat ∧ w.Encloses outer f.outer := by
  cases hb : f.code.isBlock with
  | false =>
    obtain ⟨-, houter⟩ := h.root hb
    exact ⟨[], (Code.isBlock_eq_false_iff.mp hb).symm, houter⟩
  | true =>
    obtain ⟨b, ⟨-, hl, outer, hlen, ho⟩, hcode, houter, -⟩ := h.self hb
    rw [hl, hcode, ← h.code] at hlen
    rw [houter]
    exact ⟨outer, hlen, ho⟩

namespace Activation

variable {a : Activation}

theorem encloses_of_placed (h : a.handle.Placed (.linked guarded) a.marker a.method w) :
    ∃ outer, outer.length = (w.code a.method).level.toNat ∧
      w.Encloses outer (a.handle.frame w).outer := by
  rw [← h.code]
  exact h.sound.encloses

theorem nests_linked (hp : a.handle.Placed (.linked guarded) a.marker a.method w)
    (i : Instruction) : a.Nests (.linked guarded) w i := by
  rintro l body rfl hbody hlevel serial r w' he hlt hget
  obtain ⟨outer, hlen, ho⟩ := encloses_of_placed hp
  have hb := (World.blockLiteral_eq_ok.mp hbody).2
  have hcode := he.code body (World.lt_of_isBlock hb)
  refine ⟨?_, ?_, (a.handle.frame w).code.shape :: outer, ?_, ?_⟩
  · rw [hcode, hb]
  · rw [hcode, hlevel]
  · -- The level of a block is not zero, so that of the running body did not wrap around.
    rw [Code.isBlock_iff, hlevel] at hb
    rw [List.length_cons, hlen]
    have hlt := (w.code a.method).level.toNat_lt
    rw [UInt8.toNat_add, UInt8.toNat_one] at hb ⊢
    omega
  · refine (ho.mono he).cons ?_ hlt hget
    rw [hp.code, hlen]

theorem keeps_leveled (hp : a.handle.Placed .leveled a.marker a.method w)
    (hspares : ∀ i, a.fetch w = .ok i → a.Spares w i) : a.Keeps .leveled w where
  fetches := .inl fun _ => id
  ready := fun _ _ => .inl fun _ => id
  spares := fun _ => hspares
  nests := fun i _ => nests_linked hp i
  counts := fun _ _ _ _ => trivial

end Activation

/-- Ways to add bodies: compiling sources and layouts whose constants the host may use, and
installing methods of level zero. -/
inductive Adds (held : List Grant) (w : World) : World → Prop where
  | source {s : Source} (hs : s.allowed fun v => Usable held v) {r : CodeRef} {w' : World}
      (h : s.compile w = .ok r w') : Adds held w w'
  | failed {s : Source} (hs : s.allowed fun v => Usable held v) {f : Fault} {w' : World}
      (h : s.compile w = .error f w') : Adds held w w'
  | layout {l : Layout} (hl : ∀ v ∈ l.literals, Usable held v) {r : CodeRef} {w' : World}
      (h : l.compile w = .ok r w') : Adds held w w'
  | install (c : ClassRef) {r : CodeRef} (hr : r.index < w.codes.size)
      (hlevel : (w.code r).level = 0) : Adds held w (w.installCode c r)

/-- A host may add any bodies, install and call those of level zero, and run machines that overwrite
no block of a block activation. -/
def Policy.leveled : Policy where
  adds := Adds
  calls _ w m := ∀ r, m = .compiled r → r.index < w.codes.size ∧ (w.code r).level = 0
  runs m := ∀ loop i, m.control = .run loop → loop.current.fetch m.world = .ok i →
    loop.current.Spares m.world i

instance (m : Machine) : Decidable (Policy.leveled.runs m) :=
  decidable_of_iff (∀ p ∈ m.next?, p.1.current.Spares m.world p.2)
    ⟨fun h loop i hrun hi => h (loop, i) (Machine.next?_eq_some.mpr ⟨hrun, hi⟩),
      fun h p hp => h p.1 p.2 (Machine.next?_eq_some.mp hp).1 (Machine.next?_eq_some.mp hp).2⟩

/-- Adding bodies compiles them over constants that the host may use, or installs a method. -/
theorem Adds.cases {held : List Grant} (h : Adds held w w') :
    w.Builds (fun v => decide (Usable held v)) w' ∨
      ∃ c r, r.index < w.codes.size ∧ (w.code r).level = 0 ∧ w' = w.installCode c r := by
  cases h with
  | source hs h => exact .inl ((Source.build_builds _ hs _ w).of_ok h).1
  | failed hs h => exact .inl ((Source.build_builds _ hs _ w).of_error h)
  | layout hl h =>
    refine .inl (Action.Ensures.of_ok (Layout.compile_builds fun v hv => .inr ?_) h).1
    simpa using hl v hv
  | install c hr hlevel => exact .inr ⟨c, _, hr, hlevel, rfl⟩

theorem Adds.sound {held : List Grant} (h : Adds held w w') (hw : w.Sound (.linked guarded))
    (hheld : ∀ g ∈ held, (Discipline.linked guarded).Grants w g) :
    w'.Sound (.linked guarded) ∧ w.Extends w' ∧ w'.markers = w.markers := by
  obtain hb | ⟨c, r, hr, hlevel, rfl⟩ := h.cases
  · refine ⟨hb.sound hw fun v hv => ?_, hb.extended, by rw [hb.same]⟩
    exact (of_decide_eq_true hv).valid hheld
  · obtain ⟨u, hu, heq⟩ := w.installCode_eq c r
    rw [heq]
    have he := hu.extended.trans (u.install_extends c r)
    have hroot : (Discipline.linked guarded).root w r :=
      ⟨hr, Code.isBlock_eq_false_iff.mpr (by rw [hlevel]; rfl)⟩
    exact hw.installLogged hu c ((Discipline.linked guarded).root_mono he hroot)

theorem Discipline.linked_known {m : Method}
    (h : ∀ r, m = .compiled r → r.index < w.codes.size ∧ (w.code r).level = 0) :
    (Discipline.linked guarded).Known w m := by
  intro r hr
  obtain ⟨hlt, hlevel⟩ := h r hr
  exact ⟨hlt, Code.isBlock_eq_false_iff.mpr (by rw [hlevel]; rfl)⟩

theorem Policy.leveled_keeps : Policy.leveled.Keeps Contract.leveled where
  boot := World.boot_sound (D := .leveled) fun h => ⟨h.lt, Code.isBlock_eq_false_iff.mpr h.level⟩
  adds := Adds.sound
  calls := fun hcalls _ _ => Discipline.linked_known hcalls
  runs := by
    rintro ⟨control, waiting, w⟩ held loop hm hr hrun
    cases hrun
    exact Activation.keeps_leveled (hm.1.stack.placed _ List.mem_cons_self) fun i hi =>
      hr loop i rfl hi

/-- No call ends with a non-local return that nobody took. -/
theorem Session.settles {held : List Grant} {o : Outcome}
    (h : Session .leveled ⟨.answer o, [], w⟩ held) {c : HostCall} (hc : c.Allowed .leveled held w)
    {fuel : Nat} {a : HostAnswer} (hrun : c.run fuel w = some (a, w'))
    (hruns : ∀ j < fuel, Policy.leveled.runs ((c.machine w).after j)) :
    a.settle ≠ .error (.internal .nonLocalReturnEscaped) := by
  obtain ⟨v, hv⟩ | ⟨f, hf, hraised⟩ := h.answer_cases Policy.leveled_keeps hc hrun hruns
  · rw [hv]
    nofun
  · rw [hf]
    exact fun heq => hraised (Except.error.inj heq)

/-- What a source compiles to in the world that programs start in, and the world with it. -/
def Source.standard (s : Source) : CodeRef × World :=
  (Action.result? s.compile World.standard).getD default

/-- The source compiles there, without any block that the host would need, to the body of a method. -/
def Source.standalone (s : Source) : Bool :=
  s.allowed (fun v => Usable [] v) &&
    (Action.result? s.compile World.standard).any fun p =>
      p.1.index < p.2.codes.size && (p.2.code p.1).level = 0

theorem Source.standalone_compile {s : Source} (h : s.standalone) :
    s.compile World.standard = .ok s.standard.1 s.standard.2 ∧
      s.standard.1.index < s.standard.2.codes.size ∧ (s.standard.2.code s.standard.1).level = 0 := by
  obtain ⟨-, h⟩ := Bool.and_eq_true_iff.mp h
  obtain ⟨p, hp, hr⟩ := Option.any_eq_true _ _ |>.mp h
  rw [Source.standard, hp, Option.getD_some]
  obtain ⟨hlt, hlevel⟩ := Bool.and_eq_true_iff.mp hr
  exact ⟨Action.result?_eq_some.mp hp, of_decide_eq_true hlt, of_decide_eq_true hlevel⟩

theorem Source.standalone_installs {s : Source} (h : s.standalone) (c : ClassRef) :
    s.install c World.standard =
      .ok (.compiled s.standard.1) (s.standard.2.installCode c s.standard.1) := by
  rw [Source.install, Action.bind_apply, (standalone_compile h).1]
  rfl

theorem Source.standalone_session {s : Source} (h : s.standalone) :
    Session .leveled ⟨.answer (.ok .nil), [], s.standard.2⟩ [] :=
  .add (.boot World.boot_standard)
    (Adds.source (Bool.and_eq_true_iff.mp h).1 (standalone_compile h).1)

theorem Source.standalone_allowed {s : Source} (h : s.standalone) :
    (HostCall.invoke (.compiled s.standard.1) .nil []).Allowed .leveled [] s.standard.2 := by
  refine HostCall.invoke_allowed ?_
  rintro _ ⟨⟩
  exact (standalone_compile h).2

/-- The world after the sources were compiled and installed in a class one by one, if they are methods
that need no block from the host. -/
def Source.installed? (c : ClassRef) : List Source → World → Option World
  | [], w => some w
  | s :: rest, w =>
    match Action.result? s.compile w with
    | some (r, w) =>
      if s.allowed (fun v => Usable [] v) ∧ r.index < w.codes.size ∧ (w.code r).level = 0 then
        installed? c rest (w.installCode c r)
      else none
    | none => none

theorem Source.installed_session {c : ClassRef} {ss : List Source} {o : Outcome}
    (h : Session .leveled ⟨.answer o, [], w⟩ []) (hi : installed? c ss w = some w') :
    Session .leveled ⟨.answer o, [], w'⟩ [] := by
  induction ss generalizing w with
  | nil =>
    cases hi
    exact h
  | cons s rest ih =>
    unfold installed? at hi
    split at hi
    · next r w₁ hcompile =>
      split at hi
      · next hchecks =>
        obtain ⟨hallowed, hlt, hlevel⟩ := hchecks
        have hcompiled := Session.add h (Adds.source hallowed (Action.result?_eq_some.mp hcompile))
        exact ih (.add hcompiled (.install c hlt hlevel)) hi
      · cases hi
    · cases hi

/-- A method that answers from a block within a block. -/
def nested : Source :=
  let inner := .block 0 [.pushConstant (.boolean true), .returnNonLocal]
  let outer := .block 0 [.pushBlock inner, .pushSymbol "value", .send "perform:", .returnLocal]
  .method "nested" [.pushBlock outer, .send "value", .returnLocal]

def diverted : Source :=
  let inner := .block 0 [.pushSlot .arguments 0 1, .popSlot .arguments 0 0,
    .pushConstant (.boolean true), .returnNonLocal]
  let outer := .block 0 [.pushBlock inner, .send "value", .returnLocal]
  .method "diverted" [.pushBlock outer, .send "value", .returnLocal]

set_option maxRecDepth 100000 in
theorem Session.settles_nested :
    ∃ (w w' : World) (c : HostCall) (a : HostAnswer),
      Session .leveled ⟨.answer (.ok .nil), [], w⟩ [] ∧ c.Allowed .leveled [] w ∧
      c.run 20 w = some (a, w') ∧ (∀ j < 20, Policy.leveled.runs ((c.machine w).after j)) ∧
      a.settle = .ok (.boolean true) ∧ a.settle ≠ .error (.internal .nonLocalReturnEscaped) := by
  let w : World := nested.standard.2
  let c : HostCall := .invoke (.compiled nested.standard.1) .nil []
  have hrun : (nested.standalone &&
      (List.range 20).all (fun j => Policy.leveled.runs ((c.machine w).after j)) &&
      (c.run 20 w).any fun r => r.1.settle = .ok (.boolean true)) = true := by decide +kernel
  simp only [Bool.and_eq_true] at hrun
  obtain ⟨⟨hstandalone, hall⟩, hanswer⟩ := hrun
  obtain ⟨⟨a, w'⟩, hcall, ha⟩ := Option.any_eq_true _ _ |>.mp hanswer
  have hsession := Source.standalone_session hstandalone
  have hallowed := Source.standalone_allowed hstandalone
  have hruns (j : Nat) (hj : j < 20) : Policy.leveled.runs ((c.machine w).after j) := by
    simpa using List.all_eq_true.mp hall j (List.mem_range.mpr hj)
  exact ⟨w, w', c, a, hsession, hallowed, hcall, hruns, of_decide_eq_true ha,
    hsession.settles hallowed hcall hruns⟩

set_option maxRecDepth 100000 in
/-- A block that runs in place of another one has another home, and nobody takes a return to that. -/
theorem Session.diverted_escapes :
    ∃ (w w' : World) (c : HostCall) (a : HostAnswer),
      Session .leveled ⟨.answer (.ok .nil), [], w⟩ [] ∧ c.Allowed .leveled [] w ∧
      c.run 20 w = some (a, w') ∧ a.settle = .error (.internal .nonLocalReturnEscaped) := by
  let w : World := diverted.standard.2
  let c : HostCall := .invoke (.compiled diverted.standard.1) .nil []
  have hrun : (diverted.standalone && (c.run 20 w).any fun r =>
      r.1.settle = .error (.internal .nonLocalReturnEscaped)) = true := by decide +kernel
  obtain ⟨hstandalone, hanswer⟩ := Bool.and_eq_true_iff.mp hrun
  obtain ⟨⟨a, w'⟩, hcall, ha⟩ := Option.any_eq_true _ _ |>.mp hanswer
  exact ⟨w, w', c, a, Source.standalone_session hstandalone,
    Source.standalone_allowed hstandalone, hcall, of_decide_eq_true ha⟩

end MessageMachine
