import MessageMachine.Proofs.Booting
import MessageMachine.Proofs.Failing

namespace MessageMachine

open MessageMachine.Action
open World (Kept)

/-- The body of a method or of a block. -/
def Value.isBody : Value → Bool
  | method (.compiled _) => true
  | _ => false

/-- A host builds a body of its own for every method that it installs, and uses none as a constant. -/
def Alteration.Fresh : Alteration → Prop
  | install _ _ => False
  | source _ s => s.allowed fun v => !v.isBody
  | define _ _ _ | intern _ | build _ | layout _ | primitive _ _ _ _ | classPrimitive _ _ _ | flush
  | lookup _ _ => True

instance : (a : Alteration) → Decidable a.Fresh
  | .install _ _ => isFalse id
  | .source _ s => inferInstanceAs (Decidable (s.allowed (fun v => !v.isBody) = true))
  | .define _ _ _ | .intern _ | .build _ | .layout _ | .primitive _ _ _ _ | .classPrimitive _ _ _
  | .flush | .lookup _ _ => isTrue trivial

namespace World

/-- From this place on, bodies have none among their literals that were made before it. -/
structure Closed (base : Nat) (w : World) : Prop where
  size_le : base ≤ w.codes.size
  literals : ∀ r : CodeRef, base ≤ r.index → ∀ n : CodeRef,
    .method (.compiled n) ∈ (w.code r).literals → base ≤ n.index

variable {base : Nat} {w w' : World}

instance : Kept (Closed base) where
  congr := fun h hs => ⟨by rw [hs.codes]; exact h.size_le, fun r hr n hn => by
    rw [code, hs.codes] at hn
    exact h.literals r hr n hn⟩

theorem closed_size (w : World) : w.Closed w.codes.size where
  size_le := Nat.le_refl _
  literals := fun r hr n hn => by
    rw [code, Arena.get_of_le _ hr] at hn
    exact absurd hn (Array.not_mem_empty _)

theorem Closed.newCode (h : w.Closed base) {c : Code}
    (hc : ∀ n : CodeRef, .method (.compiled n) ∈ c.literals → base ≤ n.index) :
    (w.newCode c).2.Closed base where
  size_le := by
    simp only [World.newCode, Arena.size_push]
    exact Nat.le_succ_of_le h.size_le
  literals := fun r hr n hn => by
    simp only [code, World.newCode, Arena.get_push] at hn
    split at hn
    · exact hc n hn
    · exact h.literals r hr n hn

theorem Closed.installCode (h : w.Closed base) (c : ClassRef) (r : CodeRef) :
    (w.installCode c r).Closed base := by
  obtain ⟨u, hu, heq⟩ := w.installCode_eq c r
  obtain ⟨v, hv, hinstall⟩ := u.install_compiled c r
  have hcodes : u.codes = w.codes := hu.still.codes
  rw [heq, hinstall]
  refine ⟨?_, fun s hs n hn => h.literals s hs n ?_⟩
  · change base ≤ v.codes.size
    rw [hv.size, hcodes]
    exact h.size_le
  · change .method (.compiled n) ∈ (v.code s).literals at hn
    rwa [hv.code, code, hcodes] at hn

theorem Closed.embeds (h : w.Closed base) {m x : Method} (hx : w.Embeds m x) {r : CodeRef}
    (hm : m = .compiled r) (hr : base ≤ r.index) : ∃ s, x = .compiled s ∧ base ≤ s.index := by
  induction hx generalizing r with
  | refl => exact ⟨r, hm, hr⟩
  | literal hn _ ih =>
    cases hm
    exact ih rfl (h.literals _ hr _ hn)

end World

variable {base : Nat}

theorem Layout.compile_closed {l : Layout}
    (h : ∀ n : CodeRef, .method (.compiled n) ∈ l.literals → base ≤ n.index) :
    Lasts (World.Closed base) l.compile fun r => base ≤ r.index := by
  unfold compile
  cases hc : l.code? with
  | error f => exact .throw f
  | ok c =>
    obtain ⟨-, -, -, -, rfl⟩ := code?_eq_ok hc
    exact fun w hw => ⟨hw.newCode h, hw.size_le⟩

theorem LiteralSource.values_closed (blocks : Array CodeRef) (ls : Array LiteralSource) :
    Lasts (World.Closed base) (ls.mapM (value blocks))
      fun vs => ∀ v ∈ vs, ∃ src ∈ ls, src.Makes blocks v := by
  have value (l : LiteralSource) : Lasts (World.Closed base) (l.value blocks) fun v => l.Makes blocks v := by
    cases l with
    | constant v => exact .pure rfl
    | symbol name => exact .bind (.intern name) fun s hs => .pure ⟨s, rfl, hs⟩
    | block n => exact .pure rfl
  have values (ls : List LiteralSource) : Lasts (World.Closed base) (ls.mapM (LiteralSource.value blocks))
      fun vs => ∀ v ∈ vs, ∃ src ∈ ls, src.Makes blocks v := by
    induction ls with
    | nil => exact .pure nofun
    | cons l ls ih =>
      rw [List.mapM_cons]
      refine .bind (value l) fun v hv => .bind ih fun vs hvs => .pure ?_
      refine List.forall_mem_cons.mpr ⟨⟨l, List.mem_cons_self, hv⟩, fun x hx => ?_⟩
      obtain ⟨src, hsrc, hm⟩ := hvs x hx
      exact ⟨src, List.mem_cons_of_mem l hsrc, hm⟩
  rw [Array.mapM_eq_mapM_toList, map_eq_pure_bind]
  refine .bind (values ls.toList) fun vs hvs => .pure fun v hv => ?_
  obtain ⟨src, hs, hm⟩ := hvs v (List.mem_toArray.mp hv)
  exact ⟨src, Array.mem_toList_iff.mp hs, hm⟩

mutual

theorem Source.build_closed (s : Source) (h : s.allowed fun v => !v.isBody) (level : UInt8) :
    Lasts (World.Closed base) (s.build level) fun r => base ≤ r.index := by
  obtain ⟨kind, signature, localCount, level?, maxStack?, code⟩ := s
  rw [Source.allowed] at h
  unfold Source.build
  dsimp only
  split
  · exact .throw _
  split
  · exact .throw _
  refine .bind (buildBlocks_closed code h _) fun blocks ⟨hlen, hblocks⟩ => ?_
  refine .bind (LiteralSource.values_closed _ _) fun literals hmem => ?_
  refine .bind (Lasts.intern signature) fun s _ => Layout.compile_closed fun n hn => ?_
  obtain ⟨src, hs, hm⟩ := hmem _ hn
  cases src with
  | constant x =>
    have hx := Emission.items_allowed h _ hs
    obtain rfl : .method (.compiled n) = x := hm
    cases hx
  | symbol name =>
    obtain ⟨s, hs, -⟩ := hm
    cases hs
  | block i =>
    have hi : i < blocks.length := by
      rw [hlen, ← Emission.blockCount_items]
      exact Emission.items_block_lt code hs
    have hr : blocks.toArray.getD i default ∈ blocks := by
      simp only [Array.getD, List.size_toArray, hi, dif_pos]
      exact List.getElem_mem hi
    cases hm
    exact hblocks _ hr

theorem buildBlocks_closed (code : List SourceItem) (h : allAllowed (fun v => !v.isBody) code)
    (level : UInt8) : Lasts (World.Closed base) (buildBlocks level code) fun rs =>
      rs.length = code.countP (·.isBlock) ∧ ∀ r ∈ rs, base ≤ r.index := by
  match code with
  | [] => exact .pure ⟨rfl, nofun⟩
  | item :: rest =>
    rw [allAllowed, Bool.and_eq_true] at h
    unfold buildBlocks
    refine .bind (buildBlock_closed item h.1 level) fun here ⟨hlen, hhere⟩ => ?_
    refine .bind (buildBlocks_closed rest h.2 level) fun later ⟨hlen', hlater⟩ => .pure ⟨?_, ?_⟩
    · rw [List.length_append, hlen, hlen', List.countP_cons, Nat.add_comm]
    · exact fun r hr => (List.mem_append.mp hr).elim (hhere r) (hlater r)

theorem buildBlock_closed (item : SourceItem) (h : item.allowed fun v => !v.isBody) (level : UInt8) :
    Lasts (World.Closed base) (buildBlock level item) fun rs =>
      (rs.length = if item.isBlock then 1 else 0) ∧ ∀ r ∈ rs, base ≤ r.index := by
  match item with
  | .pushBlock s =>
    rw [SourceItem.allowed] at h
    unfold buildBlock
    exact .bind (Source.build_closed s h level) fun r hr => .pure ⟨rfl, List.forall_mem_singleton.mpr hr⟩
  | .halt | .dup | .pop | .returnLocal | .returnNonLocal | .pushSlot .. | .popSlot .. | .pushField _
  | .popField _ | .pushConstant _ | .pushSymbol _ | .pushGlobal _ | .send _ | .superSend _ | .raw _ =>
    unfold buildBlock
    exact .pure ⟨rfl, nofun⟩

end

namespace World

variable {w w' : World} {H I : History}

def Separate (w : World) (H : History) : Prop :=
  H.Pairwise fun i j => ∀ x, w.Embeds i.method x → ¬w.Embeds j.method x

theorem Embeds.made (hn : w.Nested) {m x : Method} (h : w.Embeds m x) (hm : w.Made m) : w.Made x := by
  induction h with
  | refl => exact hm
  | literal hmem _ ih => exact ih (Nat.lt_trans (hn _ _ hmem) hm)

theorem Retains.embeds (hw : w.Logged H) (h : w.Retains w') {i : Installation} (hi : i ∈ H)
    (x : Method) : w'.Embeds i.method x ↔ w.Embeds i.method x :=
  embeds_congr hw.held.nested (fun r hr => h.code r hr) (hw.recorded.made i hi).2

theorem Separate.retain (h : w.Separate H) (hw : w.Logged H) (hr : w.Retains w') : w'.Separate H := by
  refine List.Pairwise.imp_of_mem (fun {i j} hi hj hij x hx => ?_) h
  rw [hr.embeds hw hj]
  exact hij x ((hr.embeds hw hi x).mp hx)

theorem Separate.install (h : w.Separate H) (hw : w.Logged H) (hr : w.Retains w')
    (hI : I.length ≤ 1) (hnew : ∀ i ∈ I, ∀ x, w'.Embeds i.method x → ¬w.Made x) :
    w'.Separate (I ++ H) := by
  have hI' : I.Pairwise fun i j => ∀ x, w'.Embeds i.method x → ¬w'.Embeds j.method x := by
    match I, hI with
    | [], _ => exact .nil
    | [i], _ => exact List.pairwise_singleton _ _
  refine List.pairwise_append.mpr ⟨hI', h.retain hw hr, fun i hi j hj x hx hx' => ?_⟩
  rw [hr.embeds hw hj] at hx'
  exact hnew i hi x hx (hx'.made hw.held.nested (hw.recorded.made j hj).2)

theorem Separate.holder? (h : w.Separate H) (hw : w.Logged H) {c : ClassRef} {m x : Method}
    (hm : ⟨c, m⟩ ∈ H) (hx : w.Embeds m x) : w.holder? x = some c := by
  obtain ⟨later, earlier, hsplit⟩ := List.append_of_mem hm
  rw [hw.held.holder, hsplit]
  refine lastHolder?_append (i := ⟨c, m⟩) hx fun j hj hx' => ?_
  rw [Separate, hsplit] at h
  exact absurd hx ((List.pairwise_append.mp h).2.2 j hj _ List.mem_cons_self x hx')

end World

theorem Alteration.Fresh.installs {w : World} {a : Alteration} (h : a.Fresh) :
    (w.installs a).length ≤ 1 ∧
      ∀ i ∈ w.installs a, ∀ x, (w.alter a).Embeds i.method x → ¬w.Made x := by
  cases a with
  | define | intern | build | layout | flush | lookup => exact ⟨Nat.zero_le _, nofun⟩
  | install c r => exact h.elim
  | primitive c selector op evaluatesBlock =>
    refine ⟨Nat.le_refl _, fun i hi x hx => ?_⟩
    obtain rfl := List.mem_singleton.mp hi
    obtain rfl := World.embeds_primitive.mp hx
    exact Nat.lt_irrefl _
  | classPrimitive c selector op =>
    simp only [World.installs, World.alter]
    cases (w.cls c).metaclass with
    | none => exact ⟨Nat.zero_le _, fun i hi => absurd hi List.not_mem_nil⟩
    | some m =>
      refine ⟨Nat.le_refl _, fun i hi x hx => ?_⟩
      obtain rfl := List.mem_singleton.mp hi
      obtain rfl := World.embeds_primitive.mp hx
      exact Nat.lt_irrefl _
  | source c s =>
    have hclosed := s.build_closed h s.ownLevel w w.closed_size
    simp only [World.installs, World.alter, Action.leaves, Source.install, Action.bind_apply]
    cases hs : s.compile w with
    | error f v => exact ⟨Nat.zero_le _, fun i hi => absurd hi List.not_mem_nil⟩
    | ok r v =>
      refine ⟨Nat.le_refl _, fun i hi x hx => ?_⟩
      obtain rfl := List.mem_singleton.mp hi
      obtain ⟨hv, hr⟩ := hclosed.of_ok hs
      obtain ⟨n, rfl, hn⟩ := (hv.installCode c r).embeds hx rfl hr
      exact Nat.not_lt.mpr hn

theorem Chronicle.separate {w₀ : World} {H I : History} {m : Machine}
    (h : Chronicle (fun _ a => a.Fresh) w₀ H m) (hw : w₀.Logged I) (hs : w₀.Separate I) :
    m.world.Separate (H ++ I) := by
  induction h with
  | boot => exact hs
  | step h ih =>
    exact ih.retain (h.logged hw) (Machine.step_prepares h.held (h.logged hw).finds).retains
  | request h r ih => exact ih.retain (h.logged hw) (r.prepares (h.logged hw).finds).retains
  | alter h ha hp ih =>
    obtain ⟨hlen, hnew⟩ := hp.installs
    rw [List.append_assoc]
    exact ih.install (h.logged hw) (World.alter_alters (h.logged hw).tidy ha).retains hlen hnew
  | change h hc hclasses hprimitives ih =>
    exact ih.retain (h.logged hw)
      (hc.prepares (h.logged hw).tidy.memos hclasses hprimitives).retains

theorem World.boot_separate {config : Config} {journal : Journal} {w : World}
    (h : World.boot config journal = .ok w) : w.Separate (CoreLibrary.history config journal) := by
  obtain ⟨htidy, hcore, -⟩ := World.core_tidy config journal
  have hlogged : (World.core config journal).Logged [] :=
    ⟨htidy, World.core_recorded config journal, World.core_held config journal⟩
  have hall := (Chronicle.boot : Chronicle (fun _ a => a.Fresh) (core config journal) _ _).all
    (World.allows_alterations htidy hcore fun a ha => ha) fun a ha _ => ?_
  · have hseparate := hall.separate hlogged .nil
    rwa [List.append_nil, List.append_nil, ← World.boot_eq h] at hseparate
  -- The core library has no bodies among its constants.
  have hconstants : ∀ e ∈ CoreLibrary.methods, e.2.allowed fun v => !v.isBody := by decide
  rcases List.mem_append.mp ha with ha | ha
  · obtain ⟨e, -, rfl⟩ := List.mem_map.mp ha
    trivial
  rcases List.mem_cons.mp ha with rfl | ha
  · trivial
  · obtain ⟨e, he, rfl⟩ := List.mem_map.mp ha
    exact hconstants e he

namespace World

variable {w : World} {H : History}

theorem Logged.inherited? (h : w.Logged H) (c : ClassRef) (selector : Symbol) :
    w.inherited? c selector = (w.ancestors c).tail.findSome? fun d => w.latest? d selector H := by
  rw [World.inherited?, ancestors_eq h.finds.ordered, List.tail_cons]
  cases (w.cls c).superclass with
  | none => rfl
  | some s => exact h.method? s selector

end World

namespace Machine

variable {m : Machine} {loop : RunLoop} {l : UInt8} {selector : Symbol} {c : ClassRef}

theorem step_superSend_withSites (hnext : m.next? = some (loop, .superSend l))
    (caches : Table (CodeRef × Nat) InlineCache) :
    Machine.step { m with world := m.world.withSites caches } =
      { m.step with world := m.step.world.withSites caches } := by
  obtain ⟨hcontrol, hfetch⟩ := next?_eq_some.mp hnext
  obtain ⟨control, waiting, w⟩ := m
  cases hcontrol
  have hfetch' : loop.current.fetch (w.withSites caches) = .ok (.superSend l) := hfetch
  have hexecute : Ignores (World.withSites caches)
      (Activation.execute { loop.current with offset := loop.current.offset + 2 }
        loop.current.offset (.superSend l)) :=
    .bind (.get_bind (fun _ => rfl) fun _ => .lift _) fun _ => Activation.superSend_ignores _ _
  have hstep : loop.current.step (w.withSites caches) =
      inside (World.withSites caches) (loop.current.step w) := by
    rw [Activation.step_eq hfetch', Activation.step_eq hfetch, World.traced_withSites]
    exact hexecute _
  simp only [step, advance]
  rw [hstep]
  cases loop.current.step w with
  | error f v => rfl
  | ok e v => cases e <;> rfl

/-- A super send that finds nothing takes receiver and arguments off the stack and calls the handler
of the receiver, or fails if there is none. -/
theorem step_superSend_fails (hm : m.snapshot.Held) (hfinds : m.world.Finds)
    (hnext : m.next? = some (loop, .superSend l))
    (hselector : m.world.symbolLiteral loop.current.method l.toNat = .ok selector)
    (hholder : m.world.holder? (.compiled loop.current.method) = some c)
    (hnone : m.world.inherited? c selector = none) {left args : List Value} {receiver : Value}
    (hops : (loop.current.handle.frame m.world).operands = left ++ receiver :: args)
    (harity : args.length + 1 = selector.arity) :
    ∃ sender w', (sender.handle.frame w').operands = left ∧
      w'.arrays = m.world.arrays.push args.toArray ∧
      m.step = match m.world.method? (m.world.classOf receiver) m.world.handler with
        | some x => ⟨.call ⟨x, [receiver, .symbol selector, .array m.world.arrays.next]⟩,
            .sender ⟨sender, loop.suspended⟩ .push :: m.waiting, w'⟩
        | none => ⟨.finish loop (.error (.fault (.messageNotUnderstood receiver (.symbol selector)))),
            m.waiting, w'⟩ := by
  obtain ⟨hcontrol, hfetch⟩ := next?_eq_some.mp hnext
  obtain ⟨control, waiting, w⟩ := m
  cases hcontrol
  have hheld := hm loop.current List.mem_cons_self
  obtain ⟨v, hv, hstep⟩ := Activation.step_superSend hfinds hfetch hselector hholder
  rw [hnone] at hstep
  obtain ⟨handle, w', -, hleft, -, hw', hadvance⟩ :=
    Machine.advance_fails (w := w) hheld hfinds hv hstep hops harity
  refine ⟨{ loop.current with handle, offset := loop.current.offset + 2 }, w', hleft, ?_, ?_⟩
  · exact congrArg World.arrays hw'
  · refine Eq.trans (hadvance waiting) ?_
    cases w.method? (w.classOf receiver) w.handler <;> rfl

end Machine

/-- Super sends are resolved where they are defined. Whatever a host does that builds bodies afresh,
whatever runs, and whichever class the running code was found through: code of a method that was
installed in a class, and every method found in the table of a class was, enters what its super sends
find above that class, the method installed there most recently. No inline cache is read or changed.
If there is nothing to find, the receiver that was taken off the stack is told so. -/
theorem superSend_starts_above_definition {config : Config} {journal : Journal} {w₀ : World}
    (hboot : World.boot config journal = .ok w₀) {H : History} {m : Machine}
    (h : Chronicle (fun _ a => a.Fresh) w₀ H m) {loop : RunLoop} {l : UInt8} {selector : Symbol}
    (hnext : m.next? = some (loop, .superSend l))
    (hselector : m.world.symbolLiteral loop.current.method l.toNat = .ok selector)
    {c : ClassRef} {x : Method} (hx : ⟨c, x⟩ ∈ H ++ CoreLibrary.history config journal)
    (hcode : m.world.Embeds x (.compiled loop.current.method)) :
    let above := (m.world.ancestors c).tail
    let target := above.findSome? fun d =>
      m.world.latest? d selector (H ++ CoreLibrary.history config journal)
    (∀ d s y, (m.world.cls d).methods.find? s = some y →
      ⟨d, y⟩ ∈ H ++ CoreLibrary.history config journal) ∧
    (∃ w, m.world.Unseen w ∧ loop.current.step m.world =
      Activation.enter { loop.current with offset := loop.current.offset + 2 } target selector w) ∧
    (∀ caches, Machine.step { m with world := m.world.withSites caches } =
      { m.step with world := m.step.world.withSites caches }) ∧
    ∀ left args receiver, target = none →
      (loop.current.handle.frame m.world).operands = left ++ receiver :: args →
      args.length + 1 = selector.arity →
      ∃ sender w, (sender.handle.frame w).operands = left ∧
        w.arrays = m.world.arrays.push args.toArray ∧
        m.step = match m.world.method? (m.world.classOf receiver) m.world.handler with
          | some y => ⟨.call ⟨y, [receiver, .symbol selector, .array m.world.arrays.next]⟩,
              .sender ⟨sender, loop.suspended⟩ .push :: m.waiting, w⟩
          | none => ⟨.finish loop (.error (.fault (.messageNotUnderstood receiver
              (.symbol selector)))), m.waiting, w⟩ := by
  have hlogged := h.logged (World.boot_logged hboot)
  have hseparate := h.separate (World.boot_logged hboot) (World.boot_separate hboot)
  have hholder := hseparate.holder? hlogged hx hcode
  intro above target
  have htarget : m.world.inherited? c selector = target := hlogged.inherited? c selector
  refine ⟨fun d s y => hlogged.mem, ?_, Machine.step_superSend_withSites hnext, ?_⟩
  · rw [← htarget]
    exact Activation.step_superSend hlogged.finds (Machine.next?_eq_some.mp hnext).2 hselector hholder
  · intro left args receiver hnone hops harity
    exact Machine.step_superSend_fails h.held hlogged.finds hnext hselector hholder
      (htarget.trans hnone) hops harity

namespace World

/-- Three classes, each below the one before. The one in the middle overrides a method of the first,
and in a block sends the message on to the class above. -/
def layered : List Alteration :=
  let block := .block 0 [.pushSlot .arguments 0 1, .superSend "kind", .returnLocal]
  [.define "First" CoreClass.object.ref [], .define "Second" ⟨38⟩ [], .define "Third" ⟨40⟩ [],
   .source ⟨38⟩ (CoreLibrary.answer "kind" (.boolean true)),
   .source ⟨40⟩ (.method "kind" [.pushBlock block, .send "value", .returnLocal])]

end World

/-- An instance of the last class was asked, and the block is about to send the message on. -/
def Machine.sendingAbove : Machine :=
  let (third, w) := (World.standard.alterAll World.layered).newInstance ⟨42⟩
  ((Request.host (.send third "kind" [])).machine w).after 3

set_option maxRecDepth 100000 in
theorem superSend_starts_above_definition_layered :
    ∃ (H : History) (loop : RunLoop) (l : UInt8) (selector : Symbol) (x : Method),
      World.boot .standard .off = .ok World.standard ∧
      Chronicle (fun _ a => a.Fresh) World.standard H .sendingAbove ∧
      Machine.sendingAbove.next? = some (loop, .superSend l) ∧
      Machine.sendingAbove.world.symbolLiteral loop.current.method l.toNat = .ok selector ∧
      ⟨⟨40⟩, x⟩ ∈ H ++ CoreLibrary.history .standard .off ∧ x ≠ .compiled loop.current.method ∧
      Machine.sendingAbove.world.Embeds x (.compiled loop.current.method) ∧
      ∃ w, Machine.sendingAbove.world.Unseen w ∧ loop.current.step Machine.sendingAbove.world =
        Activation.enter { loop.current with offset := loop.current.offset + 2 }
          (some (.compiled ⟨20⟩)) selector w := by
  have hevaluated : World.standard.Allows World.layered ∧ (∀ a ∈ World.layered, a.Fresh) ∧
      World.standard.log World.layered = [⟨⟨40⟩, .compiled ⟨22⟩⟩, ⟨⟨38⟩, .compiled ⟨20⟩⟩] ∧
      (Machine.sendingAbove.next?.any fun next =>
        decide (next.2 = .superSend 0) && decide (next.1.current.method = ⟨21⟩) &&
        (Machine.sendingAbove.world.symbolLiteral ⟨21⟩ 0).toOption.any fun selector =>
          decide (Machine.sendingAbove.world.inherited? ⟨40⟩ selector = some (.compiled ⟨20⟩))) = true ∧
      .method (.compiled ⟨21⟩) ∈ (Machine.sendingAbove.world.code ⟨22⟩).literals := by
    decide +kernel
  obtain ⟨hallows, hfresh, hlog, hruns, hliteral⟩ := hevaluated
  have hchronicle : Chronicle (fun _ a => a.Fresh) World.standard _ .sendingAbove :=
    (((Chronicle.all .boot hallows fun a ha _ => hfresh a ha).newInstance ⟨42⟩).request _).after 3
  rw [hlog, List.append_nil] at hchronicle
  have hmem : (⟨⟨40⟩, .compiled ⟨22⟩⟩ : Installation) ∈
      [⟨⟨40⟩, .compiled ⟨22⟩⟩, ⟨⟨38⟩, .compiled ⟨20⟩⟩] ++ CoreLibrary.history .standard .off :=
    List.mem_cons_self
  simp only [Option.any_eq_true, Bool.and_eq_true, decide_eq_true_eq] at hruns
  obtain ⟨⟨loop, i⟩, hnext, ⟨hi, hmethod⟩, selector, hselector, htarget⟩ := hruns
  subst hi
  have hsymbol : Machine.sendingAbove.world.symbolLiteral loop.current.method (0 : UInt8).toNat =
      .ok selector := by
    rw [hmethod]
    exact eq_ok_of_toOption hselector
  have hembeds : Machine.sendingAbove.world.Embeds (.compiled ⟨22⟩) (.compiled loop.current.method) := by
    rw [hmethod]
    exact .literal hliteral (.refl _)
  have hlogged := hchronicle.logged (World.boot_logged World.boot_standard)
  obtain ⟨-, ⟨w, hw, hstep⟩, -⟩ :=
    superSend_starts_above_definition World.boot_standard hchronicle hnext hsymbol hmem hembeds
  rw [← hlogged.inherited?, htarget] at hstep
  refine ⟨_, loop, 0, selector, _, World.boot_standard, hchronicle, hnext, hsymbol, hmem, ?_, hembeds, w,
    hw, hstep⟩
  rw [hmethod]
  decide

end MessageMachine
