import MessageMachine.Proofs.Answering
import MessageMachine.Proofs.Naming

namespace MessageMachine

/-- The classes of blocks that code can make, with their superclasses. -/
def CoreClass.blocks : List CoreClass := [object, block, block1, block2, block3]

theorem CoreClass.blocks_closed : ∀ c ∈ blocks, ∀ d, c.superclass? = some d → d ∈ blocks := by
  decide

instance {c : Code} {i : Instruction} : Decidable (c.Returns i) :=
  decidable_of_iff (fetch c.bytecodes 0 = .ok i ∧ fetch c.bytecodes i.length = .ok .returnLocal ∧
      0 < c.operandCapacity)
    ⟨fun ⟨first, second, capacity⟩ => ⟨first, second, capacity⟩,
      fun h => ⟨h.first, h.second, h.capacity⟩⟩

namespace World

/-- What blocks with `p` parameters find for the message with `k` arguments: their own message
evaluates them, they answer themselves if there are no arguments, and nothing else is found. -/
def Responds (w : World) (p k : Nat) : Option Method → Prop
  | some (.primitive q) => k = p ∧ q.index < w.primitives.size ∧
      (w.primitives.get q).evaluatesBlock ∧ (w.primitives.get q).operation = .evaluate
  | some (.compiled r) => k = 0 ∧ p ≠ 0 ∧ r.index < w.codes.size ∧ (w.code r).argCount = 1 ∧
      (w.code r).Returns (.pushSlot .arguments 0 0)
  | none => k ≠ 0 ∧ k ≠ p

def Refuses (w : World) : Option Method → Prop
  | some (.primitive q) =>
    q.index < w.primitives.size ∧ (w.primitives.get q).operation = .atomic .failNotUnderstood
  | some (.compiled _) | none => False

instance {w : World} {p k : Nat} : DecidablePred (w.Responds p k)
  | some (.primitive _) => inferInstanceAs (Decidable (_ ∧ _))
  | some (.compiled _) => inferInstanceAs (Decidable (_ ∧ _))
  | none => inferInstanceAs (Decidable (_ ∧ _))

instance {w : World} : DecidablePred w.Refuses
  | some (.primitive _) => inferInstanceAs (Decidable (_ ∧ _))
  | some (.compiled _) | none => inferInstanceAs (Decidable False)

theorem standard_responds : ∀ p < 3, ∀ k < 3, standard.Responds p k
    (standard.method? (CoreClass.ofBlocks (p + 1)).ref (standard.intern (Source.blockSignature k)).1) := by
  decide +kernel

theorem standard_refuses : ∀ p < 3,
    standard.Refuses (standard.method? (CoreClass.ofBlocks (p + 1)).ref standard.handler) := by
  decide +kernel

theorem standard_names :
    (∀ k < 3, standard.Names (Source.blockSignature k) (standard.intern (Source.blockSignature k)).1) ∧
      standard.Names "doesNotUnderstand:arguments:" standard.handler := by
  unfold Names
  decide +kernel

variable {w w' : World}

theorem Retains.responds (h : w.Retains w') {p k : Nat} {x : Option Method} (hx : w.Responds p k x) :
    w'.Responds p k x := by
  match x with
  | some (.primitive q) =>
    obtain ⟨hk, hq, hevaluates, hop⟩ := hx
    obtain ⟨holder, heq⟩ := h.primitive q hq
    refine ⟨hk, h.made (m := .primitive q) hq, ?_⟩
    rw [heq]
    exact ⟨hevaluates, hop⟩
  | some (.compiled r) =>
    obtain ⟨hk, hp, hr, hbody⟩ := hx
    refine ⟨hk, hp, h.made (m := .compiled r) hr, ?_⟩
    rw [h.code r hr]
    exact hbody
  | none => exact hx

theorem Retains.refuses (h : w.Retains w') {x : Option Method} (hx : w.Refuses x) : w'.Refuses x := by
  match x with
  | some (.primitive q) =>
    obtain ⟨hq, hop⟩ := hx
    obtain ⟨holder, heq⟩ := h.primitive q hq
    refine ⟨h.made (m := .primitive q) hq, ?_⟩
    rw [heq]
    exact hop

end World

namespace Chronicle

variable {config : Config} {journal : Journal} {w₀ : World} {H : History} {m : Machine}

theorem responds (hboot : World.boot config journal = .ok w₀)
    (h : Chronicle (Alteration.Spares CoreClass.blocks) w₀ H m) {p k : Nat} (hp : p < 3) (hk : k < 3) :
    m.world.Responds p k (m.world.method? (CoreClass.ofBlocks (p + 1)).ref
      (m.world.intern (Source.blockSignature k)).1) := by
  have hclass : ∀ p < 3, CoreClass.ofBlocks (p + 1) ∈ CoreClass.blocks := by decide
  rw [h.intern_standard hboot (World.standard_names.1 k hk),
    h.method?_standard hboot CoreClass.blocks_closed (hclass p hp)]
  exact (h.retains_standard hboot).responds (World.standard_responds p hp k hk)

theorem refuses (hboot : World.boot config journal = .ok w₀)
    (h : Chronicle (Alteration.Spares CoreClass.blocks) w₀ H m) {p : Nat} (hp : p < 3) :
    m.world.Refuses (m.world.method? (CoreClass.ofBlocks (p + 1)).ref m.world.handler) := by
  have hclass : ∀ p < 3, CoreClass.ofBlocks (p + 1) ∈ CoreClass.blocks := by decide
  rw [World.handler, h.intern_standard hboot World.standard_names.2,
    h.method?_standard hboot CoreClass.blocks_closed (hclass p hp)]
  exact (h.retains_standard hboot).refuses (World.standard_refuses p hp)

theorem cached_block (hboot : World.boot config journal = .ok w₀)
    (h : Chronicle (Alteration.Spares CoreClass.blocks) w₀ H m) {p : Nat} (hp : p < 3)
    (selector : Symbol) : m.world.Cached fun c s x => c = (CoreClass.ofBlocks (p + 1)).ref →
      s = selector → m.world.method? (CoreClass.ofBlocks (p + 1)).ref selector = some x := by
  have hclass : ∀ p < 3, CoreClass.ofBlocks (p + 1) ∈ CoreClass.blocks := by decide
  rw [h.method?_standard hboot CoreClass.blocks_closed (hclass p hp)]
  exact h.cached_found (World.boot_logged hboot) (World.boot_ranked hboot).2.2
    fun hm => hm.method?_standard hboot CoreClass.blocks_closed (hclass p hp) selector

end Chronicle

theorem Machine.refusal_receives {q : PrimitiveRef} {w : World}
    (hop : (w.primitives.get q).operation = .atomic .failNotUnderstood) (b : Footing) (receiver : Value)
    (selector : Symbol) (arguments : Value) :
    ∃ j ≤ 2, b.Receives w (.error (.fault (.messageNotUnderstood receiver (.symbol selector))))
      (after j ⟨.call ⟨.primitive q, [receiver, .symbol selector, arguments]⟩, b.awaiting, w⟩) := by
  obtain ⟨j, hj, hreceives⟩ :=
    b.answer_receives (.error (.fault (.messageNotUnderstood receiver (.symbol selector)))) w
  refine ⟨1 + j, Nat.add_le_add_left hj 1, ?_⟩
  rw [after_add]
  have hstep : after 1 ⟨.call ⟨.primitive q, [receiver, .symbol selector, arguments]⟩, b.awaiting, w⟩ =
      ⟨.answer (.error (.fault (.messageNotUnderstood receiver (.symbol selector)))), b.awaiting, w⟩ := by
    change operate (w.primitives.get q).operation receiver [.symbol selector, arguments] b.awaiting w = _
    rw [hop]
    rfl
  rw [hstep]
  exact hreceives

/-- A block is evaluated with its own number of arguments only. As long as nothing is installed in the
classes of blocks and in their superclasses, whatever else a host does and whatever runs: the message
of the `value` family with as many arguments as the block has parameters starts the body once, with
the block and the arguments. Any other such message with arguments becomes a call of the handler of
failed sends, and fails. Without arguments, a block with parameters answers itself. -/
theorem block_evaluated_with_own_arguments {config : Config} {journal : Journal} {w₀ : World}
    (hboot : World.boot config journal = .ok w₀) {H : History} {m : Machine}
    (h : Chronicle (Alteration.Spares CoreClass.blocks) w₀ H m) {b : Block} {p : Nat} (hp : p < 3)
    (hparams : (m.world.code b.code).argCount = p + 1) {args : List Value} (hargs : args.length < 3)
    {v : World} {φ : Footing} {n : Nat}
    (hasks : m.Asks (.block b) (m.world.intern (Source.blockSignature args.length)).1 args v φ n)
    (hroom : φ.HasRoom m.world) :
    (args.length = p → ∃ callee w, v.Activates b.code (.block b :: args) (some b.context) callee w ∧
      m.after n = φ.start callee w) ∧
    (args.length ≠ p → args ≠ [] → ∃ q w,
      let selector := (m.world.intern (Source.blockSignature args.length)).1
      v.Reifies args w ∧ (w.primitives.get q).operation = .atomic .failNotUnderstood ∧
      m.step = ⟨.call ⟨.primitive q, [.block b, .symbol selector, .array m.world.arrays.next]⟩,
        φ.awaiting, w⟩ ∧
      ∃ j ≤ 3, φ.Receives w (.error (.fault (.messageNotUnderstood (.block b) (.symbol selector))))
        (m.after j)) ∧
    (args.length ≠ p → args = [] → ∃ r callee w u, r ≠ b.code ∧
      v.Activates r [.block b] none callee w ∧ m.after n = φ.start callee w ∧
      φ.Receives u (.ok (.block b)) (m.after (n + 3)) ∧ v.EqualUpToTraces { u with markers := v.markers } ∧
      u.markers = (v.markers.push true).set v.markers.next false) := by
  have hsame := hasks.same
  have hfinds := (h.logged (World.boot_logged hboot)).finds
  have hresponds := h.responds hboot hp hargs
  have hcached := h.cached_block hboot hp (m.world.intern (Source.blockSignature args.length)).1
  have hclass : m.world.classOf (.block b) = (CoreClass.ofBlocks (p + 1)).ref := by
    rw [World.classOf_block, hparams]
  have harity : args.length + 1 = (m.world.intern (Source.blockSignature args.length)).1.arity := by
    have hall : ∀ k < 3, k + 1 = selectorArity (Source.blockSignature k) := by decide +kernel
    rw [hall _ hargs]
    exact congrArg selectorArity (SymbolTable.name_intern _ _).symm
  generalize (m.world.intern (Source.blockSignature args.length)).1 = selector at *
  generalize hfound : m.world.method? (CoreClass.ofBlocks (p + 1)).ref selector = found at *
  rw [← hclass] at hfound hcached
  match found with
  | some (.primitive q) =>
    obtain ⟨hk, -, hevaluates, hop⟩ := hresponds
    refine ⟨fun _ => ?_, fun hne => absurd hk hne, fun hne => absurd hk hne⟩
    exact hasks.activates hfinds hcached hfound (.block rfl hevaluates hop)
      (by rw [List.length_cons, hk, hparams]) harity hroom
  | some (.compiled r) =>
    obtain ⟨hk, hne, -, hr, hbody⟩ := hresponds
    obtain rfl := List.length_eq_zero_iff.mp hk
    refine ⟨fun hp => absurd hp.symm hne, fun _ hargs => absurd rfl hargs, fun _ _ => ?_⟩
    obtain ⟨callee, w, hactivates, hafter⟩ := hasks.activates hfinds hcached hfound
      (.compiled r) hr.symm harity hroom
    have hcode : v.code r = m.world.code r := (congrArg (World.code · r) hsame :)
    rw [← hcode] at hbody
    obtain ⟨u, hreceives, hleft, hmarkers⟩ := hactivates.answers hbody (.argument rfl) φ
    refine ⟨r, callee, w, u, ?_, hactivates, hafter, ?_, hleft, hmarkers⟩
    · rintro rfl
      omega
    · rw [Machine.after_add, hafter]
      exact hreceives
  | none =>
    obtain ⟨hk, hne⟩ := hresponds
    refine ⟨fun hp => absurd hp hne, fun _ _ => ?_, fun _ hargs => absurd (congrArg List.length hargs) hk⟩
    obtain ⟨u, hu, hstep⟩ := hasks.reified hfinds
      (h.cached_isSome (World.boot_logged hboot) (World.boot_ranked hboot).2.2) hfound harity
    have hprimitives : u.primitives = m.world.primitives := by
      rw [hu, hsame]
    have hrefuses := h.refuses hboot hp
    rw [← hclass] at hrefuses
    generalize m.world.method? (m.world.classOf (.block b)) m.world.handler = x at hrefuses hstep
    match x with
    | some (.primitive q) =>
      have hop : (u.primitives.get q).operation = .atomic .failNotUnderstood := by
        rw [hprimitives]
        exact hrefuses.2
      obtain ⟨j, hj, hreceives⟩ := Machine.refusal_receives hop φ (.block b) selector
        (.array m.world.arrays.next)
      refine ⟨q, u, hu, hop, hstep, 1 + j, Nat.add_le_add_left hj 1, ?_⟩
      rw [Machine.after_add, show m.after 1 = m.step from rfl, hstep]
      exact hreceives

/-- A method that makes a block with a parameter and sends it these arguments. -/
def Alteration.valuing (args : List Value) : Alteration :=
  .build (.method "ask" (.pushBlock (.block 1 [.pushSlot .arguments 1 0, .returnLocal]) ::
    args.map .pushConstant ++ [.send (Source.blockSignature args.length), .returnLocal]))

/-- The method was invoked, and is about to send them. -/
def Machine.valuing (args : List Value) : Machine :=
  let w := World.standard.alterAll [.valuing args]
  ((Request.host (.invoke (.compiled ⟨21⟩) .nil [])).machine w).after (1 + args.length)

def Block.valued : Block := ⟨0, ⟨20⟩, ⟨0⟩, 1⟩

theorem Machine.valuing_chronicle {args : List Value} (h : World.standard.Allows [.valuing args]) :
    ∃ H, Chronicle (Alteration.Spares CoreClass.blocks) World.standard H (.valuing args) := by
  refine ⟨_, Chronicle.after (.request (Chronicle.all .boot h fun a ha v => ?_) _) _⟩
  rw [List.mem_singleton.mp ha]
  exact nofun

/-- The message of this name is about to be sent by the code that runs. -/
def Machine.sends (m : Machine) (receiver : Value) (name : String) (args : List Value) : Bool :=
  match m.next? with
  | some (loop, .send l) =>
    (m.world.symbolLiteral loop.current.method l.toNat).toOption.any fun selector =>
      decide ((m.world.intern name).1 = selector) &&
        ((loop.current.handle.popN selector.arity).result? m.world).any fun p =>
          decide (p.1.1 = receiver :: args)
  | _ => false

theorem Machine.asks_of_sends {m : Machine} {receiver : Value} {name : String} {args : List Value}
    (h : m.sends receiver name args = true) :
    ∃ v sender suspended, m.Asks receiver (m.world.intern name).1 args v
      (.send sender suspended m.waiting) 1 := by
  unfold sends at h
  split at h
  · next loop l hnext =>
    simp only [Option.any_eq_true, Bool.and_eq_true, decide_eq_true_eq] at h
    obtain ⟨selector, hselector, hs, ⟨⟨xs, handle⟩, w⟩, hpop, hxs⟩ := h
    subst hs hxs
    exact ⟨_, _, _, .send hnext (eq_ok_of_toOption hselector) (Action.result?_eq_some.mp hpop)⟩
  · cases h

set_option maxRecDepth 100000 in
theorem block_evaluated_with_own_arguments_once :
    ∃ (H : History) (v : World) (φ : Footing) (callee : Activation) (w : World),
      World.boot .standard .off = .ok World.standard ∧
      Chronicle (Alteration.Spares CoreClass.blocks) World.standard H (.valuing [.integer 3]) ∧
      ((Machine.valuing [.integer 3]).world.code Block.valued.code).argCount = 1 + 1 ∧
      (Machine.valuing [.integer 3]).Asks (.block .valued)
        ((Machine.valuing [.integer 3]).world.intern "value:").1 [.integer 3] v φ 1 ∧
      φ.HasRoom (Machine.valuing [.integer 3]).world ∧
      v.Activates ⟨20⟩ [.block .valued, .integer 3] (some ⟨0⟩) callee w ∧
      (Machine.valuing [.integer 3]).after 1 = φ.start callee w := by
  have hruns : World.standard.Allows [.valuing [.integer 3]] ∧
      ((Machine.valuing [.integer 3]).world.code Block.valued.code).argCount = 1 + 1 ∧
      (Machine.valuing [.integer 3]).sends (.block .valued) (Source.blockSignature [Value.integer 3].length)
        [.integer 3] = true ∧
      (Machine.valuing [.integer 3]).world.depth <
        (Machine.valuing [.integer 3]).world.config.maxCallDepth := by
    decide +kernel
  obtain ⟨hallows, hparams, hsends, hdepth⟩ := hruns
  obtain ⟨H, hchronicle⟩ := Machine.valuing_chronicle hallows
  obtain ⟨v, sender, suspended, hasks⟩ := Machine.asks_of_sends hsends
  have hroom : (Footing.send sender suspended (Machine.valuing [.integer 3]).waiting).HasRoom
      (Machine.valuing [.integer 3]).world := ⟨hdepth, trivial⟩
  obtain ⟨callee, w, hactivates, hafter⟩ := (block_evaluated_with_own_arguments World.boot_standard
    hchronicle (p := 1) (by decide) hparams (by decide) hasks hroom).1 rfl
  exact ⟨H, v, _, callee, w, World.boot_standard, hchronicle, hparams, hasks, hroom, hactivates, hafter⟩

set_option maxRecDepth 100000 in
/-- A block with a parameter is sent the message without arguments: it answers itself, and nothing tells
it that it did not understand. -/
theorem block_answers_itself :
    ∃ (H : History) (v : World) (φ : Footing),
      World.boot .standard .off = .ok World.standard ∧
      Chronicle (Alteration.Spares CoreClass.blocks) World.standard H (.valuing []) ∧
      ((Machine.valuing []).world.code Block.valued.code).argCount = 1 + 1 ∧
      (Machine.valuing []).Asks (.block .valued) ((Machine.valuing []).world.intern "value").1 [] v φ 1 ∧
      φ.HasRoom (Machine.valuing []).world ∧
      ((Machine.valuing []).after 6).outcome?.bind (·.toOption) = some (.block .valued) ∧
      ((Machine.valuing []).after 6).world.counters.doesNotUnderstand = 0 := by
  have hruns : World.standard.Allows [.valuing []] ∧
      ((Machine.valuing []).world.code Block.valued.code).argCount = 1 + 1 ∧
      (Machine.valuing []).sends (.block .valued) "value" [] = true ∧
      (Machine.valuing []).world.depth < (Machine.valuing []).world.config.maxCallDepth ∧
      ((Machine.valuing []).after 6).outcome?.bind (·.toOption) = some (.block .valued) ∧
      ((Machine.valuing []).after 6).world.counters.doesNotUnderstand = 0 := by
    decide +kernel
  obtain ⟨hallows, hparams, hsends, hdepth, hanswers⟩ := hruns
  obtain ⟨H, hchronicle⟩ := Machine.valuing_chronicle hallows
  obtain ⟨v, sender, suspended, hasks⟩ := Machine.asks_of_sends hsends
  exact ⟨H, v, _, World.boot_standard, hchronicle, hparams, hasks, ⟨hdepth, trivial⟩, hanswers⟩

end MessageMachine
