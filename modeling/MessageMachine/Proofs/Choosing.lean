import MessageMachine.Proofs.Evaluating
import MessageMachine.Proofs.Forwarding
import MessageMachine.Proofs.Staying

namespace MessageMachine

/-- The conditional messages of booleans. -/
inductive Conditional where
  | ifTrue | ifFalse | ifTrueIfFalse | ifFalseIfTrue | and | or
deriving DecidableEq, Repr

/-- What a conditional comes to: evaluating one of its arguments, or a constant. -/
inductive Choice where
  | argument (index : Nat)
  | constant (x : Value)

namespace Conditional

def all : List Conditional := [ifTrue, ifFalse, ifTrueIfFalse, ifFalseIfTrue, and, or]

theorem mem_all (c : Conditional) : c ∈ all := by
  cases c <;> decide

def selector : Conditional → String
  | ifTrue => "ifTrue:"
  | ifFalse => "ifFalse:"
  | ifTrueIfFalse => "ifTrue:ifFalse:"
  | ifFalseIfTrue => "ifFalse:ifTrue:"
  | and => "and:"
  | or => "or:"

def params : Conditional → Nat
  | ifTrueIfFalse | ifFalseIfTrue => 2
  | ifTrue | ifFalse | and | or => 1

def choice : Conditional → Bool → Choice
  | ifTrue, true | ifFalse, false | ifTrueIfFalse, true | ifFalseIfTrue, false => .argument 0
  | ifTrueIfFalse, false | ifFalseIfTrue, true => .argument 1
  | and, true | or, false => .argument 0
  | ifTrue, false | ifFalse, true => .constant .nil
  | and, false => .constant (.boolean false)
  | or, true => .constant (.boolean true)

theorem arity_selector (c : Conditional) : selectorArity c.selector = c.params + 1 := by
  have hall : ∀ c ∈ all, selectorArity c.selector = c.params + 1 := by decide +kernel
  exact hall c c.mem_all

theorem lt_of_choice {c : Conditional} {t : Bool} {i : Nat} (h : c.choice t = .argument i) :
    i < c.params ∧ c.params ≤ 2 := by
  cases c <;> cases t <;> cases h <;> decide

end Conditional

/-- The classes that a conditional goes through. -/
def CoreClass.choosing : List CoreClass := [true, false, block1]

def CoreClass.ofBoolean : Bool → CoreClass
  | .true => true
  | .false => false

theorem CoreClass.ofBoolean_choosing (t : Bool) : ofBoolean t ∈ choosing := by
  cases t <;> decide

theorem World.classOf_boolean (w : World) (t : Bool) :
    w.classOf (.boolean t) = (CoreClass.ofBoolean t).ref := by
  cases t <;> rfl

instance {c : Code} {selector : Symbol} {i : Instruction} : Decidable (c.Forwards selector i) :=
  decidable_of_iff (fetch c.bytecodes 0 = .ok i ∧ fetch c.bytecodes i.length = .ok (.send 0) ∧
      fetch c.bytecodes (i.length + 2) = .ok .returnLocal ∧
      c.literals[0]? = some (.symbol selector) ∧ 0 < c.operandCapacity)
    ⟨fun ⟨first, second, third, literal, capacity⟩ => ⟨first, second, third, literal, capacity⟩,
      fun h => ⟨h.first, h.second, h.third, h.literal, h.capacity⟩⟩

def Code.Chooses (c : Code) (value : Symbol) : Choice → Prop
  | .argument i => c.Forwards value (.pushSlot .arguments (.ofNat (i + 1)) 0)
  | .constant x => c.Returns (.pushConstant 0) ∧ c.literals[0]? = some x

instance {c : Code} {value : Symbol} : DecidablePred (c.Chooses value)
  | .argument _ => inferInstanceAs (Decidable (c.Forwards _ _))
  | .constant _ => inferInstanceAs (Decidable (_ ∧ _))

namespace World

def Chooses (w : World) (value : Symbol) (params : Nat) (choice : Choice) : Option Method → Prop
  | some (.compiled r) =>
    r.index < w.codes.size ∧ (w.code r).argCount = params + 1 ∧ (w.code r).Chooses value choice
  | some (.primitive _) | none => False

instance {w : World} {value : Symbol} {params : Nat} {choice : Choice} :
    DecidablePred (w.Chooses value params choice)
  | some (.compiled _) => inferInstanceAs (Decidable (_ ∧ _))
  | some (.primitive _) | none => inferInstanceAs (Decidable False)

theorem standard_chooses : ∀ c ∈ Conditional.all, ∀ t, standard.Chooses (standard.intern "value").1
    c.params (c.choice t)
    ((standard.cls (CoreClass.ofBoolean t).ref).methods.find? (standard.intern c.selector).1) := by
  decide +kernel

theorem standard_evaluates : standard.Responds 0 0
    ((standard.cls CoreClass.block1.ref).methods.find? (standard.intern "value").1) := by
  decide +kernel

theorem standard_selectors :
    ∀ c ∈ Conditional.all, standard.Names c.selector (standard.intern c.selector).1 := by
  unfold Names
  decide +kernel

theorem arity_value (w : World) : (w.intern "value").1.arity = 1 := by
  change selectorArity _ = 1
  rw [show (w.intern "value").1.name = "value" from SymbolTable.name_intern _ _]
  decide +kernel

end World

/-- In `u` an activation more than in `v` was started on the footing. The loop that it runs in is not
counted. -/
structure Footing.Enters (b : Footing) (v u : World) : Prop where
  same : v.EqualUpToTraces { u with markers := v.markers, depth := v.depth, reentry := v.reentry }
  markers : u.markers = v.markers.push true
  depth : u.depth = v.depth + 1
  reentry : u.reentry + 1 = (b.opened v).reentry

namespace Chronicle

variable {config : Config} {journal : Journal} {w₀ : World} {H : History} {m : Machine}
  (hboot : World.boot config journal = .ok w₀)
include hboot

theorem value_standard (h : Chronicle (Alteration.Spares CoreClass.choosing) w₀ H m) :
    (m.world.intern "value").1 = (World.standard.intern "value").1 :=
  h.intern_standard hboot (World.standard_names.1 0 (by decide))

theorem chooses (h : Chronicle (Alteration.Spares CoreClass.choosing) w₀ H m) (c : Conditional) (t : Bool) :
    ∃ r, m.world.method? (m.world.classOf (.boolean t)) (m.world.intern c.selector).1 =
        some (.compiled r) ∧
      (m.world.code r).argCount = c.params + 1 ∧
      (m.world.code r).Chooses (m.world.intern "value").1 (c.choice t) ∧
      m.world.Cached fun d s x => d = m.world.classOf (.boolean t) →
        s = (m.world.intern c.selector).1 → some (.compiled r) = some x := by
  have hstandard := World.standard_chooses c c.mem_all t
  rw [m.world.classOf_boolean, h.intern_standard hboot (World.standard_selectors c c.mem_all),
    h.value_standard hboot]
  generalize hfind : (World.standard.cls (CoreClass.ofBoolean t).ref).methods.find?
    (World.standard.intern c.selector).1 = found at hstandard
  match found with
  | some (.compiled r) =>
    obtain ⟨hr, hargCount, hchooses⟩ := hstandard
    have hcode := (h.retains_standard hboot).code r hr
    have hfound {H' : History} {m' : Machine}
        (h' : Chronicle (Alteration.Spares CoreClass.choosing) w₀ H' m') :=
      h'.own_standard hboot (CoreClass.ofBoolean_choosing t) hfind
    refine ⟨r, hfound h, by rw [hcode]; exact hargCount, by rw [hcode]; exact hchooses, ?_⟩
    exact h.cached_found (World.boot_logged hboot) (World.boot_ranked hboot).2.2 hfound

theorem evaluates (h : Chronicle (Alteration.Spares CoreClass.choosing) w₀ H m) {b : Block}
    (hparams : (m.world.code b.code).argCount = 1) {v : World} {φ : Footing} {n : Nat}
    (hasks : m.Asks (.block b) (m.world.intern "value").1 [] v φ n) (hroom : φ.HasRoom m.world) :
    ∃ callee w, v.Activates b.code [.block b] (some b.context) callee w ∧ m.after n = φ.start callee w := by
  have hclass : m.world.classOf (.block b) = CoreClass.block1.ref := by
    rw [World.classOf_block, hparams]
    rfl
  have harity := m.world.arity_value.symm
  have hstandard := World.standard_evaluates
  rw [h.value_standard hboot] at hasks harity
  generalize hfind : (World.standard.cls CoreClass.block1.ref).methods.find?
    (World.standard.intern "value").1 = found at hstandard
  have hresponds := (h.retains_standard hboot).responds hstandard
  match found with
  | some (.primitive q) =>
    obtain ⟨-, -, hevaluates, hop⟩ := hresponds
    have hfound {H' : History} {m' : Machine}
        (h' : Chronicle (Alteration.Spares CoreClass.choosing) w₀ H' m') :=
      h'.own_standard hboot (c := .block1) (by decide) hfind
    have hcached := h.cached_found (World.boot_logged hboot) (World.boot_ranked hboot).2.2 hfound
    rw [← hclass] at hcached
    exact hasks.activates (h.logged (World.boot_logged hboot)).finds hcached (hclass ▸ hfound h)
      (.block rfl hevaluates hop) hparams.symm harity hroom
  | some (.compiled r) => exact absurd rfl hresponds.2.1
  | none => exact absurd rfl hresponds.1

/-- A body that was just started, and forwards the message `value` to a block without parameters,
delegates to it from the third step on. -/
theorem forwards_block (h : Chronicle (Alteration.Spares CoreClass.choosing) w₀ H m) {v w : World}
    {φ : Footing} {n : Nat} {r : CodeRef} {args : List Value} {callee : Activation} {i : Instruction}
    {b : Block} (hactivates : v.Activates r args none callee w) (hafter : m.after n = φ.start callee w)
    (hbody : (v.code r).Forwards (m.world.intern "value").1 i) (hx : v.Supplies r args i (.block b))
    (hparams : (v.code b.code).argCount = 1) (hsome : 0 < v.frames.size)
    (hdepth : v.depth + 1 < v.config.maxCallDepth) :
    ∃ sender u, φ.Enters v u ∧ sender.marker = v.markers.next ∧
      (m.after (n + 2)).Delegates (.evaluate b [] [] u) sender φ v.reentry := by
  obtain ⟨f, journal, hproper, hfcode, hops, hstep⟩ := hactivates.supplies hbody.first hbody.capacity hx φ
  let w₁ : World := { w with journal }
  let a : Activation := ⟨.own f, r, v.markers.next, i.length⟩
  have hm : m.after (n + 1) = φ.start a w₁ := by
    rw [Machine.after_succ, hafter]
    exact hstep
  have h₁ : Chronicle (Alteration.Spares CoreClass.choosing) w₀ H (φ.start a w₁) := hm ▸ h.after (n + 1)
  have hcode : w₁.code r = v.code r := hactivates.code r
  have hmarkers : w₁.markers = v.markers.push true := hactivates.markers
  have hframes : w₁.frames = v.frames := (congrArg World.frames hactivates.world :)
  have hconfig : w₁.config = v.config := (congrArg World.config hactivates.world :)
  have hlater : w₁.depth = v.depth + 1 := hactivates.depth
  -- The block that was supplied is sent the message, and its body starts.
  have hsends : fetch (w₁.code r).bytecodes i.length = .ok (.send 0) := hcode ▸ hbody.second
  have hselector : w₁.symbolLiteral r (0 : UInt8).toNat = .ok (m.world.intern "value").1 := by
    simp only [World.symbolLiteral, World.literal, hcode, UInt8.toNat_zero, hbody.literal]
    rfl
  have hvalue := (h.value_standard hboot).trans (h₁.value_standard hboot).symm
  obtain ⟨f', hproper', hfcode', hops', hasks⟩ :=
    Footing.start_asks v.markers.next hproper hops hsends hselector (m.world.arity_value) φ
  rw [hvalue] at hasks
  have hparams' : ((φ.start a w₁).world.code b.code).argCount = 1 := by
    change ((φ.opened w₁).code b.code).argCount = 1
    rw [Footing.opened_code]
    change (w.code b.code).argCount = 1
    rw [hactivates.code, hparams]
  have hroom : (φ.opened w₁).depth < (φ.opened w₁).config.maxCallDepth := by
    rw [← hlater, ← hconfig] at hdepth
    cases φ <;> exact hdepth
  obtain ⟨callee', w', hactivates', hafter'⟩ := h₁.evaluates hboot hparams' hasks ⟨hroom, trivial⟩
  -- Its sender is the activation that was started last, so what it comes to is not returned to the sender.
  have hlast : a.marker.index + 1 = (φ.opened w₁).markers.size := by
    have hsize : w₁.markers.size = v.markers.size + 1 := by rw [hmarkers, Arena.size_push]
    cases φ <;> exact hsize.symm
  have huncaptured : w₁.Uncaptured v.markers.next := by
    have hall := h₁.uncaptured hboot rfl rfl hlast
    cases φ <;> exact hall (by change 0 < w₁.frames.size; rw [hframes]; exact hsome)
  have hlimits : w₁.depth ≤ w₁.config.maxCallDepth ∧
      (φ.opened w₁).reentry ≤ w₁.config.maxReentryDepth := by
    have hall := h₁.within_limits hboot
    cases φ <;> exact hall
  have hlt : v.markers.next.index < w₁.markers.size := by
    rw [hmarkers, Arena.size_push]
    exact Nat.lt_succ_self _
  obtain ⟨u, hu, hdelegates⟩ := hactivates'.delegates (h₁.reentry_pos hboot (List.cons_ne_nil _ _)) hlimits.2 hlimits.1
    hproper' hops' (by rw [hfcode', hfcode]; exact hbody.capacity) (hcode ▸ hbody.third) hlt huncaptured
  have hreentry : w₁.reentry = v.reentry := (congrArg World.reentry hactivates.world :)
  refine ⟨⟨.own f', r, v.markers.next, i.length + 2⟩, u, ⟨?_, ?_, ?_, ?_⟩, rfl, ?_⟩
  · refine hactivates.world.trans ?_
    rw [← hreentry]
    cases φ <;> exact (congrArg (fun x : World =>
      { x with markers := v.markers, depth := v.depth, reentry := w₁.reentry }) hu :)
  · rw [← hmarkers]
    cases φ <;> exact (congrArg World.markers hu :)
  · rw [← hlater]
    cases φ <;> exact (congrArg World.depth hu :)
  · cases φ <;> simp only [Footing.opened, ← hreentry] <;> exact (congrArg World.reentry hu :)
  · rw [Machine.after_succ, hm, ← hreentry]
    rw [show (φ.start a w₁).step = _ from hafter']
    exact hdelegates

end Chronicle

/-- A block without parameters over a captured frame. -/
def World.Thunk (w : World) (x : Value) : Prop :=
  ∃ b, x = .block b ∧ (w.code b.code).argCount = 1 ∧ b.context.index < w.frames.size

/-- Conditionals evaluate exactly what they choose. As long as nothing is installed in the classes of the
booleans and of blocks without parameters, whatever else a host does and whatever runs: after the method
of the conditional has started, taken the chosen block and sent it `value`, the machine does what
evaluating the block on its own does, instruction by instruction, and then passes its outcome on, be it a
value, a failure or a return to some method. If no block is chosen the constant is answered in three
steps. But for the dead marker of its activation the conditional itself leaves nothing behind. -/
theorem conditional_evaluates_choice {config : Config} {journal : Journal} {w₀ : World}
    (hboot : World.boot config journal = .ok w₀) {H : History} {m : Machine}
    (h : Chronicle (Alteration.Spares CoreClass.choosing) w₀ H m) (c : Conditional) (t : Bool)
    {args : List Value} (hargs : args.length = c.params) (hblocks : ∀ x ∈ args, m.world.Thunk x)
    {v : World} {φ : Footing} {n : Nat}
    (hasks : m.Asks (.boolean t) (m.world.intern c.selector).1 args v φ n) (hroom : φ.HasRoom m.world)
    (hdepth : m.world.depth + 1 < m.world.config.maxCallDepth) :
    match c.choice t with
    | .argument i => ∃ b sender u, args[i]? = some (.block b) ∧ φ.Enters v u ∧
        sender.marker = v.markers.next ∧
        (m.after (n + 2)).Delegates (.evaluate b [] [] u) sender φ v.reentry
    | .constant x => ∃ u, φ.Receives u (.ok x) (m.after (n + 3)) ∧
        v.EqualUpToTraces { u with markers := v.markers } ∧
        u.markers = (v.markers.push true).set v.markers.next false := by
  have hsame := hasks.same
  obtain ⟨r, hmethod, hargCount, hchooses, hcached⟩ := h.chooses hboot c t
  have harity : args.length + 1 = (m.world.intern c.selector).1.arity := by
    rw [hargs, ← c.arity_selector]
    exact congrArg selectorArity (SymbolTable.name_intern _ _).symm
  have hcount : (Value.boolean t :: args).length = (m.world.code r).argCount := by
    rw [List.length_cons, hargs, hargCount]
  have hframes := hasks.frames_size
  obtain ⟨callee, w, hactivates, hafter⟩ := hasks.activates (h.logged (World.boot_logged hboot)).finds
    hcached hmethod (.compiled r) hcount harity hroom
  have hcode (r' : CodeRef) : v.code r' = m.world.code r' := (congrArg (World.code · r') hsame :)
  rw [← hcode] at hchooses
  cases hchoice : c.choice t with
  | constant x =>
    rw [hchoice] at hchooses
    obtain ⟨hbody, hliteral⟩ := hchooses
    have hx : v.literal r (0 : UInt8).toNat = .ok x := by
      simp only [World.literal, UInt8.toNat_zero, hliteral]
    obtain ⟨u, hreceives, hleft, hmarkers⟩ := hactivates.answers hbody (.constant hx) φ
    refine ⟨u, ?_, hleft, hmarkers⟩
    rw [Machine.after_add, hafter]
    exact hreceives
  | argument i =>
    rw [hchoice] at hchooses
    obtain ⟨hi, hle⟩ := Conditional.lt_of_choice hchoice
    have hlt : i < args.length := hargs ▸ hi
    obtain ⟨b, hb, hparams, hcontext⟩ := hblocks _ (List.getElem_mem hlt)
    have harg : args[i]? = some (.block b) := by rw [List.getElem?_eq_getElem hlt, hb]
    have hindex : (UInt8.ofNat (i + 1)).toNat = i + 1 := by
      rw [UInt8.toNat_ofNat']
      omega
    have hsupplies : v.Supplies r (.boolean t :: args) (.pushSlot .arguments (.ofNat (i + 1)) 0)
        (.block b) := .argument (by rw [hindex]; exact harg)
    have hv : v.depth + 1 < v.config.maxCallDepth := by
      rw [hsame]
      exact hdepth
    obtain ⟨sender, u, hall⟩ := h.forwards_block hboot hactivates hafter hchooses hsupplies
      (by rw [hcode, hparams]) (hframes ▸ Nat.zero_lt_of_lt hcontext) hv
    exact ⟨b, sender, u, harg, hall⟩

/-- A method that lets `true` choose between two blocks. -/
def Alteration.choosing : Alteration :=
  let answering (n : Int64) : SourceItem := .pushBlock (.block 0 [.pushConstant (.integer n), .returnLocal])
  .build (.method "ask" [.pushConstant (.boolean true), answering 3, answering 4,
    .send "ifTrue:ifFalse:", .returnLocal])

/-- The method was invoked, and is about to ask. -/
def Machine.choosing : Machine :=
  ((Request.host (.invoke (.compiled ⟨22⟩) .nil [])).machine (World.standard.alterAll [.choosing])).after 3

def Block.offered (n : Nat) : Block := ⟨n, ⟨20 + n⟩, ⟨0⟩, 1⟩

set_option maxRecDepth 100000 in
theorem conditional_evaluates_choice_once :
    ∃ (H : History) (v : World) (φ : Footing) (sender : Activation) (u : World),
      World.boot .standard .off = .ok World.standard ∧
      Chronicle (Alteration.Spares CoreClass.choosing) World.standard H .choosing ∧
      (∀ x ∈ [Value.block (.offered 0), .block (.offered 1)], Machine.choosing.world.Thunk x) ∧
      Machine.choosing.Asks (.boolean true) (Machine.choosing.world.intern "ifTrue:ifFalse:").1
        [.block (.offered 0), .block (.offered 1)] v φ 1 ∧
      φ.HasRoom Machine.choosing.world ∧
      Machine.choosing.world.depth + 1 < Machine.choosing.world.config.maxCallDepth ∧
      φ.Enters v u ∧ (Machine.choosing.after 3).Delegates (.evaluate (.offered 0) [] [] u) sender φ v.reentry := by
  have hruns : World.standard.Allows [.choosing] ∧
      (Machine.choosing.world.code ⟨20⟩).argCount = 1 ∧ (Machine.choosing.world.code ⟨21⟩).argCount = 1 ∧
      0 < Machine.choosing.world.frames.size ∧
      Machine.choosing.sends (.boolean true) "ifTrue:ifFalse:"
        [.block (.offered 0), .block (.offered 1)] = true ∧
      Machine.choosing.world.depth + 1 < Machine.choosing.world.config.maxCallDepth := by
    decide +kernel
  obtain ⟨hallows, hfirst, hsecond, hcaptured, hsends, hdepth⟩ := hruns
  obtain ⟨H, hchronicle⟩ :
      ∃ H, Chronicle (Alteration.Spares CoreClass.choosing) World.standard H .choosing := by
    refine ⟨_, Chronicle.after (.request (Chronicle.all .boot hallows fun a ha v => ?_) _) _⟩
    rw [List.mem_singleton.mp ha]
    exact nofun
  have hblocks : ∀ x ∈ [Value.block (.offered 0), .block (.offered 1)], Machine.choosing.world.Thunk x := by
    intro x hx
    obtain rfl | hx := List.mem_cons.mp hx
    · exact ⟨_, rfl, hfirst, hcaptured⟩
    · obtain rfl := List.mem_singleton.mp hx
      exact ⟨_, rfl, hsecond, hcaptured⟩
  obtain ⟨v, sender, suspended, hasks⟩ := Machine.asks_of_sends hsends
  have hroom : (Footing.send sender suspended Machine.choosing.waiting).HasRoom Machine.choosing.world :=
    ⟨Nat.lt_of_le_of_lt (Nat.le_add_right _ 1) hdepth, trivial⟩
  obtain ⟨b, callee, u, hb, henters, -, hdelegates⟩ := conditional_evaluates_choice World.boot_standard
    hchronicle .ifTrueIfFalse true rfl hblocks hasks hroom hdepth
  cases hb
  exact ⟨H, v, _, callee, u, World.boot_standard, hchronicle, hblocks, hasks, hroom, hdepth, henters,
    hdelegates⟩

end MessageMachine
