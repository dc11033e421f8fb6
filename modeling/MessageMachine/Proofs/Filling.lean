import Mathlib.Data.List.Nodup
import Mathlib.Logic.Function.Basic
import Mathlib.Logic.Relation
import MessageMachine.Proofs.Defining
import MessageMachine.Proofs.Lasting
import MessageMachine.Proofs.Session

namespace MessageMachine

open Relation

namespace InlineCache

variable {k : InlineCache} {c : ClassRef}

def learn (k : InlineCache) (c : ClassRef) : Option Method → InlineCache
  | none => k
  | some m => (k.fill c m).2

theorem length_entries_le (k : InlineCache) : k.entries.length ≤ 2 := by
  cases k <;> simp [entries]

theorem learn_of_full (h : k.entries.length = 2) (found : Option Method) : k.learn c found = k := by
  cases found with
  | none => rfl
  | some m =>
    cases k with
    | full primary fallback => rfl
    | cold | single => cases h

theorem learn_cases (k : InlineCache) (c : ClassRef) (found : Option Method) :
    k.learn c found = k ∨
      ∃ m, found = some m ∧ (k.learn c found).entries = k.entries ++ [⟨c, m⟩] := by
  cases found with
  | none => exact .inl rfl
  | some m =>
    cases k with
    | full primary fallback => exact .inl rfl
    | cold | single => exact .inr ⟨m, rfl, rfl⟩

theorem find?_eq_none : k.find? c = none ↔ c ∉ k.classes := by
  simp only [find?, classes, Option.map_eq_none_iff, List.find?_eq_none, decide_eq_true_eq,
    List.mem_map, not_exists, not_and]

/-- A class is found with the method that was recorded for it, if no other entry has this class. -/
theorem find?_of_mem (hk : k.classes.Nodup) {e : CacheEntry} (he : e ∈ k.entries) :
    k.find? e.cls = some e.method := by
  cases k with
  | cold => cases he
  | single primary =>
    obtain rfl := List.mem_singleton.mp he
    simp [find?, entries]
  | full primary fallback =>
    obtain rfl | rfl : e = primary ∨ e = fallback := by simpa [entries] using he
    · simp [find?, entries]
    · have hne : primary.cls ≠ e.cls := by simpa [classes, entries] using hk
      simp [find?, entries, hne]

end InlineCache

namespace World

variable {w w' v : World}

def sites (w : World) (site : CodeRef × Nat) : InlineCache := w.cacheAt site.1 site.2

theorem sites_congr (h : w'.caches = w.caches) : w'.sites = w.sites := by
  funext site
  rw [sites, cacheAt, h, sites, cacheAt]

theorem sites_insert (w : World) (site : CodeRef × Nat) (k : InlineCache) :
    sites { w with caches := w.caches.insert site k } = Function.update w.sites site k := by
  funext site'
  simp only [sites, cacheAt, Table.find?_insert, Function.update_apply, eq_comm (a := site')]
  split <;> rfl

/-- A lookup depends on the classes and on what is remembered, and changes only what is remembered. -/
theorem lookupWithin_depends (w : World) (selector : Symbol) (n : Nat) (c : ClassRef) :
    ∃ found memos, ∀ v : World, v.classes = w.classes → v.memos = w.memos →
      v.lookupWithin selector n c = (found, { v with memos }) := by
  have hcls {v : World} (hclasses : v.classes = w.classes) (c : ClassRef) : v.cls c = w.cls c := by
    rw [cls, hclasses, cls]
  have hkept {v : World} (hmemos : v.memos = w.memos) : v = { v with memos := w.memos } := by
    rw [← hmemos]
  induction n generalizing c with
  | zero => exact ⟨none, w.memos, fun v _ hmemos => congrArg (Prod.mk none) (hkept hmemos)⟩
  | succ n ih =>
    cases hmemo : w.memos.find? (c, selector) with
    | some m =>
      refine ⟨some m, w.memos, fun v _ hmemos => ?_⟩
      rw [lookupWithin, hmemos, hmemo]
      exact congrArg (Prod.mk (some m)) (hkept hmemos)
    | none =>
      cases hown : (w.cls c).methods.find? selector with
      | some m =>
        refine ⟨some m, w.memos.insert (c, selector) m, fun v hclasses hmemos => ?_⟩
        rw [lookupWithin, hmemos, hmemo, hcls hclasses, hown]
        simp only [remember, hmemos]
      | none =>
        cases hsuper : (w.cls c).superclass with
        | none =>
          refine ⟨none, w.memos, fun v hclasses hmemos => ?_⟩
          rw [lookupWithin, hmemos, hmemo, hcls hclasses, hown, hsuper]
          exact congrArg (Prod.mk none) (hkept hmemos)
        | some s =>
          obtain ⟨_ | m, memos, hs⟩ := ih s
          · refine ⟨none, memos, fun v hclasses hmemos => ?_⟩
            rw [lookupWithin, hmemos, hmemo, hcls hclasses, hown, hsuper]
            simp only [hs v hclasses hmemos]
          · refine ⟨some m, memos.insert (c, selector) m, fun v hclasses hmemos => ?_⟩
            rw [lookupWithin, hmemos, hmemo, hcls hclasses, hown, hsuper]
            simp only [hs v hclasses hmemos, remember]

/-- What was counted and what inline caches recorded is as before. -/
structure SameCounts (w w' : World) : Prop where
  counters : w'.counters = w.counters
  caches : w'.caches = w.caches

/-- Moreover no object was made or changed. -/
structure Rests (w w' : World) : Prop extends w.SameCounts w' where
  objects : w'.objects = w.objects

theorem Rests.trans {w'' : World} (h : w.Rests w') (h' : w'.Rests w'') : w.Rests w'' where
  counters := h'.counters.trans h.counters
  caches := h'.caches.trans h.caches
  objects := h'.objects.trans h.objects

theorem lookup_rests (w : World) (c : ClassRef) (selector : Symbol) :
    w.Rests (w.lookup c selector).2 := by
  obtain ⟨found, memos, h⟩ := w.lookupWithin_depends selector (c.index + 1) c
  rw [lookup, h w rfl rfl]
  exact ⟨⟨rfl, rfl⟩, rfl⟩

theorem lookup_caches (w : World) (c : ClassRef) (selector : Symbol) :
    (w.lookup c selector).2.caches = w.caches := (w.lookup_rests c selector).caches

theorem lookup_congr (hclasses : v.classes = w.classes) (hmemos : v.memos = w.memos) (c : ClassRef)
    (selector : Symbol) : (v.lookup c selector).1 = (w.lookup c selector).1 := by
  obtain ⟨found, memos, h⟩ := w.lookupWithin_depends selector (c.index + 1) c
  rw [lookup, h v hclasses hmemos, lookup, h w rfl rfl]

theorem Compiles.rests (h : w.Compiles w') : w.Rests w' := by
  rw [h.same]
  exact ⟨⟨rfl, rfl⟩, rfl⟩

theorem note_rests (w : World) (e : Event) : w.Rests (w.note e) := by
  unfold note
  split <;> exact ⟨⟨rfl, rfl⟩, rfl⟩

theorem install_rests (w : World) (c : ClassRef) (m : Method) : w.Rests (w.install c m) := by
  obtain ⟨codes, primitives, heq, -⟩ := w.install_eq c m
  rw [heq]
  exact ⟨⟨rfl, rfl⟩, rfl⟩

theorem installCode_rests (w : World) (c : ClassRef) (r : CodeRef) :
    w.Rests (w.installCode c r) := by
  obtain ⟨u, hu, heq⟩ := w.installCode_eq c r
  rw [heq]
  obtain rfl | ⟨e, rfl⟩ := hu
  · exact install_rests _ _ _
  · exact (w.note_rests e).trans (install_rests _ _ _)

/-- Defining classes and installing methods fills no inline cache, empties none, counts nothing and
leaves the objects alone. -/
theorem alter_rests (w : World) (a : Alteration) : w.Rests (w.alter a) := by
  have compiled {α : Type} {x : Action α} (hx : x.Compiles w) : w.Rests (x.leaves w) := by
    unfold Action.leaves
    cases hrun : x w with
    | ok a v => exact (hx.of_ok hrun).rests
    | error f v => exact (hx.of_error hrun).rests
  cases a with
  | define name superclass fields =>
    obtain ⟨symbols, globals, classes, registered, journal, h⟩ := w.define_same name superclass fields
    rw [alter, h]
    exact ⟨⟨rfl, rfl⟩, rfl⟩
  | intern name => exact ⟨⟨rfl, rfl⟩, rfl⟩
  | build s => exact compiled (s.build_compiles s.ownLevel w)
  | layout l => exact compiled (l.compile_compiles w)
  | install c r => exact w.installCode_rests c r
  | source c s =>
    have hcompile := s.build_compiles s.ownLevel w
    simp only [alter, Action.leaves, Source.install, Action.bind_apply]
    cases hs : s.compile w with
    | ok r v => exact (hcompile.of_ok hs).rests.trans (v.installCode_rests c r)
    | error f v => exact (hcompile.of_error hs).rests
  | primitive c selector op evaluatesBlock => exact ⟨⟨rfl, rfl⟩, rfl⟩
  | classPrimitive c selector op =>
    simp only [alter, installClassPrimitive]
    cases (w.cls c).metaclass <;> exact ⟨⟨rfl, rfl⟩, rfl⟩
  | flush => exact ⟨⟨rfl, rfl⟩, rfl⟩
  | lookup c selector => exact w.lookup_rests c selector

theorem alter_caches (w : World) (a : Alteration) : (w.alter a).caches = w.caches :=
  (w.alter_rests a).caches

def HasCaches (caches : Table (CodeRef × Nat) InlineCache) (w : World) : Prop := w.caches = caches

instance {caches : Table (CodeRef × Nat) InlineCache} : Lasting (HasCaches caches) where
  congr := fun hw h => h.caches.trans hw
  count := fun hw _ => hw
  lookup := fun hw c selector => (lookup_caches _ c selector).trans hw

/-- Nothing was looked up: what lookups left behind and what was counted are as before, but for the
number of frames. -/
structure Enters (w w' : World) : Prop where
  memos : w'.memos = w.memos
  caches : w'.caches = w.caches
  counters : ∃ frames, w'.counters = { w.counters with frames }

end World

/-- Nor does anything else that a host does, but for forgetting all that lookups left behind. -/
theorem HostChange.counts {held : List Grant} {w w' : World} (h : HostChange held w w')
    (hkeeps : w' ≠ w.withoutCaches) : w.SameCounts w' := by
  cases h with
  | define name superclass fields => exact (w.alter_rests (.define name superclass fields)).toSameCounts
  | primitive c name op evaluatesBlock =>
    exact (w.alter_rests (.primitive c name op evaluatesBlock)).toSameCounts
  | setField _ h =>
    obtain ⟨objects, rfl⟩ := World.eq_of_setField? h
    exact ⟨rfl, rfl⟩
  | withoutCaches => exact absurd rfl hkeeps
  | intern | newString | newInstance | newArray | setElement | setGlobal | takeTranscript =>
    exact ⟨rfl, rfl⟩

namespace Action

variable {w : World} {method : CodeRef} {offset : Nat} {c : ClassRef}

def hit (w : World) : World :=
  w.count fun n => { n with sends := n.sends + 1, cacheHits := n.cacheHits + 1 }

theorem Lasts.leaves {α : Type} {P : World → Prop} {x : Action α} {Q : α → Prop}
    (hx : Lasts P x Q) (hw : P w) : P (x.leaves w) := by
  unfold Action.leaves
  cases hrun : x w with
  | ok a v => exact ((hx w hw).of_ok hrun).1
  | error f v => exact (hx w hw).of_error hrun

theorem resolve_hit {m : Method} (h : (w.cacheAt method offset).find? c = some m)
    (selector : Symbol) : resolve method offset c selector w = .ok (some m) (hit w) := by
  have hsite (f : Counters → Counters) : ((w.count f).cacheAt method offset).find? c = some m := h
  simp only [resolve, bind_apply, count_apply, get_apply, hsite]
  rfl

def offer (method : CodeRef) (offset : Nat) (c : ClassRef) (m : Method) :
    Action (Option Method) := do
  let (fill, cache) := ((← get).cacheAt method offset).fill c m
  if fill = .saturated then
    count fun n => { n with saturatedMisses := n.saturatedMisses + 1 }
  else modify fun w => { w with caches := w.caches.insert (method, offset) cache }
  note (.cached method offset c m fill)
  return some m

theorem offer_sites (w : World) (method : CodeRef) (offset : Nat) (c : ClassRef) (m : Method) :
    ∃ w', offer method offset c m w = .ok (some m) w' ∧
      w'.sites = Function.update w.sites (method, offset) ((w.cacheAt method offset).fill c m).2 := by
  have noted (v : World) (e : Event) : (v.note e).sites = v.sites :=
    World.sites_congr (World.SameRecords.note v e).caches
  simp only [offer, bind_apply, get_apply]
  generalize hk : w.cacheAt method offset = k
  split
  · next hfull =>
    refine ⟨_, rfl, (noted _ _).trans ?_⟩
    cases k with
    | full primary fallback =>
      exact (Function.update_eq_self_iff.mpr hk.symm).symm
    | cold | single => cases hfull
  · exact ⟨_, rfl, (noted _ _).trans (w.sites_insert _ _)⟩

def missed (w : World) : World :=
  w.count fun n =>
    { n with sends := n.sends + 1, cacheMisses := n.cacheMisses + 1, lookups := n.lookups + 1 }

theorem resolve_of_miss (h : (w.cacheAt method offset).find? c = none) (selector : Symbol) :
    resolve method offset c selector w =
      match (missed w).lookup c selector with
      | (none, v) => .ok none v
      | (some m, v) => offer method offset c m v := by
  have hsite (f : Counters → Counters) : ((w.count f).cacheAt method offset).find? c = none := h
  simp only [resolve, lookup, bind_apply, count_apply, get_apply, update_apply, hsite]
  change (match ((missed w).lookup c selector).1 with
    | none => _
    | some m => _ : Action (Option Method)) ((missed w).lookup c selector).2 = _
  cases (missed w).lookup c selector with
  | mk found u => cases found <;> rfl

/-- A class that the site does not know is looked up, and what was found is offered to the site. -/
theorem resolve_miss (h : (w.cacheAt method offset).find? c = none) (selector : Symbol) :
    ∃ w', resolve method offset c selector w = .ok (w.lookup c selector).1 w' ∧
      w'.sites = Function.update w.sites (method, offset)
        ((w.cacheAt method offset).learn c (w.lookup c selector).1) := by
  have hfound : ((missed w).lookup c selector).1 = (w.lookup c selector).1 :=
    World.lookup_congr (v := missed w) (w := w) rfl rfl c selector
  have hsites : ((missed w).lookup c selector).2.sites = w.sites :=
    World.sites_congr ((missed w).lookup_caches c selector)
  rw [resolve_of_miss h, ← hfound]
  generalize (missed w).lookup c selector = p at hsites ⊢
  obtain ⟨found, u⟩ := p
  have hcache : u.cacheAt method offset = w.cacheAt method offset :=
    congrFun hsites (method, offset)
  cases found with
  | none => exact ⟨u, rfl, hsites.trans (Function.update_eq_self _ _).symm⟩
  | some m =>
    obtain ⟨w', hoffer, hfilled⟩ := offer_sites u method offset c m
    refine ⟨w', hoffer, hfilled.trans ?_⟩
    rw [hcache]
    exact congrArg (Function.update · _ _) hsites

end Action

theorem World.Enters.congr {w v v' : World} (h : w.Enters v) (hmemos : v'.memos = v.memos)
    (hcaches : v'.caches = v.caches)
    (hcounters : ∃ frames, v'.counters = { v.counters with frames }) : w.Enters v' where
  memos := hmemos.trans h.memos
  caches := hcaches.trans h.caches
  counters := by
    obtain ⟨frames, hframes⟩ := hcounters
    obtain ⟨_, hbefore⟩ := h.counters
    exact ⟨frames, by rw [hframes, hbefore]⟩

namespace Activation

open MessageMachine.Action

variable {a : Activation} {w : World} {l : UInt8} {selector : Symbol} {receiver : Value}

theorem start_enters (r : CodeRef) (args : List Value) (outer : Option FrameRef) :
    Lasts w.Enters (start r args outer) fun _ => True := by
  have changed {f : World → World} (hmemos : ∀ v, (f v).memos = v.memos)
      (hcaches : ∀ v, (f v).caches = v.caches)
      (hcounters : ∀ v, ∃ frames, (f v).counters = { v.counters with frames }) :
      Lasts w.Enters (modify f : Action PUnit) fun _ => True :=
    fun v hv => ⟨hv.congr (hmemos v) (hcaches v) (hcounters v), trivial⟩
  refine .get_bind fun v => ?_
  split
  · exact .throw _
  have hframe : Lasts w.Enters (makeFrame r args outer) fun _ => True := by
    refine .get_bind fun v => .lift_bind fun f _ => .bind (Q := fun _ => True) ?_ fun _ _ => .pure trivial
    exact changed (f := fun v => v.newMarker.2) (fun _ => rfl) (fun _ => rfl) fun _ => ⟨_, rfl⟩
  refine .bind hframe fun f _ => .bind (changed ?_ ?_ ?_) fun _ _ =>
    .bind (changed ?_ ?_ ?_) fun _ _ => .pure trivial
  all_goals intro v
  · rfl
  · rfl
  · exact ⟨_, rfl⟩
  · rfl
  · rfl
  · exact ⟨_, rfl⟩

theorem enter_found (a : Activation) (m : Method) (selector : Symbol) :
    Lasts w.Enters (a.enter (some m) selector) fun _ => True := by
  have hpop : Lasts w.Enters (a.handle.popN selector.arity) fun _ => True := by
    intro v hv
    unfold Action.Ensures FrameHandle.popN
    rw [FrameHandle.take_apply]
    cases (a.handle.frame v).popN selector.arity with
    | ok p =>
      refine ⟨?_, trivial⟩
      cases a.handle with
      | own => exact hv
      | shared => exact hv.congr rfl rfl ⟨_, rfl⟩
    | error f => exact hv
  refine .bind hpop fun ⟨args, handle⟩ _ => ?_
  match m with
  | .compiled r => exact .bind (start_enters _ _ _) fun _ _ => .pure trivial
  | .primitive p =>
    refine .get_bind fun v => ?_
    split
    · exact .bind (start_enters _ _ _) fun _ _ => .pure trivial
    · exact .pure trivial

theorem traced_eq (a : Activation) (i : Instruction) (w : World) :
    ∃ journal, a.traced i w = { w with journal } := by
  unfold traced World.note
  split
  · split
    · exact ⟨_, rfl⟩
    · exact ⟨w.journal, rfl⟩
  · exact ⟨w.journal, rfl⟩

theorem step_resolves (hfetch : a.fetch w = .ok (.send l))
    (hselector : w.symbolLiteral a.method l.toNat = .ok selector)
    (hreceiver : (a.handle.frame w).peek (selector.arity - 1) = .ok receiver) :
    ∃ journal, a.step w =
      (do
        let target ← resolve a.method a.offset (w.classOf receiver) selector
        enter { a with offset := a.offset + 2 } target selector) { w with journal } := by
  obtain ⟨journal, htraced⟩ := a.traced_eq (.send l) w
  refine ⟨journal, ?_⟩
  have hs : World.symbolLiteral { w with journal } a.method l.toNat = .ok selector := hselector
  have hr : (a.handle.frame { w with journal }).peek (selector.arity - 1) = .ok receiver := by
    rw [← hreceiver]
    cases a.handle <;> rfl
  rw [step_eq hfetch, htraced]
  simp only [execute, send, bind_apply, symbolLiteral_apply, hs, FrameHandle.peek_apply, hr, get_apply]
  rfl

theorem step_fails (hfetch : a.fetch w = .ok (.send l))
    (hfails : ∀ selector receiver, w.symbolLiteral a.method l.toNat = .ok selector →
      (a.handle.frame w).peek (selector.arity - 1) ≠ .ok receiver) :
    ∃ f journal, a.step w = .error f { w with journal } := by
  obtain ⟨journal, htraced⟩ := a.traced_eq (.send l) w
  have hliteral : World.symbolLiteral { w with journal } a.method l.toNat =
      w.symbolLiteral a.method l.toNat := rfl
  have hframe : a.handle.frame { w with journal } = a.handle.frame w := by
    cases a.handle <;> rfl
  rw [step_eq hfetch, htraced]
  simp only [execute, send, bind_apply, symbolLiteral_apply, hliteral]
  cases hselector : w.symbolLiteral a.method l.toNat with
  | error f => exact ⟨f, journal, rfl⟩
  | ok selector =>
    simp only [FrameHandle.peek_apply, hframe]
    cases hreceiver : (a.handle.frame w).peek (selector.arity - 1) with
    | error f => exact ⟨f, journal, rfl⟩
    | ok receiver => exact absurd hreceiver (hfails selector receiver hselector)

end Activation

namespace Machine

/-- The machine is about to execute a send at this site, of this selector to this receiver. -/
structure Sends (m : Machine) (loop : RunLoop) (site : CodeRef × Nat) (selector : Symbol)
    (receiver : Value) : Prop where
  site : site = (loop.current.method, loop.current.offset)
  asks : ∃ l, m.next? = some (loop, .send l) ∧
    m.world.symbolLiteral loop.current.method l.toNat = .ok selector
  receives : (loop.current.handle.frame m.world).peek (selector.arity - 1) = .ok receiver

/-- The send is served by its site: it enters this method, counts one hit and looks nothing up. -/
structure Hits (m : Machine) (loop : RunLoop) (selector : Symbol) (target : Method) : Prop where
  entered : ∃ w, loop.current.step m.world =
    Activation.enter { loop.current with offset := loop.current.offset + 2 } (some target) selector w
  memos : m.step.world.memos = m.world.memos
  caches : m.step.world.caches = m.world.caches
  counters : ∃ frames, m.step.world.counters = { m.world.counters with
    sends := m.world.counters.sends + 1, cacheHits := m.world.counters.cacheHits + 1, frames }

variable {m m' : Machine} {loop : RunLoop} {site : CodeRef × Nat} {selector : Symbol}
  {receiver : Value}

theorem world_advance (loop : RunLoop) (waiting : List Waiting) (w : World) :
    (advance loop waiting w).world = loop.current.step.leaves w := by
  unfold advance Action.leaves
  cases loop.current.step w with
  | ok e v => cases e <;> rfl
  | error f v => rfl

theorem world_step (hcontrol : m.control = .run loop) :
    m.step.world = loop.current.step.leaves m.world := by
  obtain ⟨control, waiting, w⟩ := m
  cases hcontrol
  exact world_advance loop waiting w

theorem Sends.step_resolves (h : m.Sends loop site selector receiver) :
    m.step.world = loop.current.step.leaves m.world ∧ ∃ journal, loop.current.step m.world =
      (do
        let target ← Action.resolve site.1 site.2 (m.world.classOf receiver) selector
        Activation.enter { loop.current with offset := loop.current.offset + 2 } target selector)
        { m.world with journal } := by
  obtain ⟨rfl, ⟨l, hnext, hselector⟩, hreceiver⟩ := h
  obtain ⟨hcontrol, hfetch⟩ := next?_eq_some.mp hnext
  exact ⟨world_step hcontrol, Activation.step_resolves hfetch hselector hreceiver⟩

theorem Sends.hits (h : m.Sends loop site selector receiver) {target : Method}
    (hsite : (m.world.sites site).find? (m.world.classOf receiver) = some target) :
    m.Hits loop selector target := by
  obtain ⟨hworld, journal, hstep⟩ := h.step_resolves
  rw [Action.bind_apply, Action.resolve_hit (w := { m.world with journal }) hsite] at hstep
  have henters : World.Enters (Action.hit { m.world with journal }) m.step.world := by
    have hentered := (Activation.enter_found { loop.current with offset := loop.current.offset + 2 }
      target selector).leaves (w := Action.hit { m.world with journal }) ⟨rfl, rfl, _, rfl⟩
    rw [hworld, Action.leaves, hstep]
    exact hentered
  exact ⟨⟨_, hstep⟩, henters.memos, henters.caches, henters.counters⟩

theorem Sends.learns (h : m.Sends loop site selector receiver)
    (hsite : (m.world.sites site).find? (m.world.classOf receiver) = none) :
    m.step.world.sites = Function.update m.world.sites site
      ((m.world.sites site).learn (m.world.classOf receiver)
        (m.world.lookup (m.world.classOf receiver) selector).1) := by
  obtain ⟨hworld, journal, hstep⟩ := h.step_resolves
  obtain ⟨v, hresolve, hsites⟩ := Action.resolve_miss (w := { m.world with journal }) hsite selector
  rw [Action.bind_apply, hresolve] at hstep
  have hfound := World.lookup_congr (v := { m.world with journal }) (w := m.world) rfl rfl
    (m.world.classOf receiver) selector
  have hentered : World.HasCaches v.caches m.step.world := by
    have hlasts := (Activation.enter_lasts (P := World.HasCaches v.caches)
      { loop.current with offset := loop.current.offset + 2 }
      (World.lookup { m.world with journal } (m.world.classOf receiver) selector).1 selector).leaves
      (w := v) rfl
    rw [hworld, Action.leaves, hstep]
    exact hlasts
  rw [World.sites_congr hentered, hsites, hfound]
  rfl

/-- A step changes no inline cache but that of a send which does not know the class of its receiver. -/
theorem step_caches (m : Machine) : m.step.world.caches = m.world.caches ∨
    ∃ loop site selector receiver, m.Sends loop site selector receiver ∧
      (m.world.sites site).find? (m.world.classOf receiver) = none := by
  by_cases hsend : ∃ loop l, m.next? = some (loop, .send l)
  · obtain ⟨loop, l, hnext⟩ := hsend
    obtain ⟨hcontrol, hfetch⟩ := next?_eq_some.mp hnext
    by_cases hreceives : ∃ selector receiver,
        m.world.symbolLiteral loop.current.method l.toNat = .ok selector ∧
          (loop.current.handle.frame m.world).peek (selector.arity - 1) = .ok receiver
    · obtain ⟨selector, receiver, hselector, hreceiver⟩ := hreceives
      have hsends : m.Sends loop (loop.current.method, loop.current.offset) selector receiver :=
        ⟨rfl, ⟨l, hnext, hselector⟩, hreceiver⟩
      cases hsite : (m.world.sites (loop.current.method, loop.current.offset)).find?
          (m.world.classOf receiver) with
      | some target => exact .inl (hsends.hits hsite).caches
      | none => exact .inr ⟨loop, _, selector, receiver, hsends, hsite⟩
    · refine .inl ?_
      obtain ⟨f, journal, hstep⟩ := Activation.step_fails hfetch fun selector receiver hs hr =>
        hreceives ⟨selector, receiver, hs, hr⟩
      rw [world_step hcontrol, Action.leaves, hstep]
  · exact .inl (step_lasts (P := World.HasCaches m.world.caches) rfl fun loop l _ _ hnext =>
      absurd ⟨loop, l, hnext⟩ hsend)

/-- What a send finds for the class of its receiver becomes the next entry of its site. -/
structure Records (m : Machine) (site : CodeRef × Nat) (e : CacheEntry) : Prop where
  found : ∃ loop selector receiver, m.Sends loop site selector receiver ∧
    m.world.classOf receiver = e.cls ∧ (m.world.lookup e.cls selector).1 = some e.method
  fresh : e.cls ∉ (m.world.sites site).classes
  entries : (m.step.world.sites site).entries = (m.world.sites site).entries ++ [e]
  others : ∀ other, other ≠ site → m.step.world.sites other = m.world.sites other

theorem Sends.records (h : m.Sends loop site selector receiver)
    (hsite : (m.world.sites site).find? (m.world.classOf receiver) = none) :
    m.step.world.sites = m.world.sites ∨
      ∃ method, m.Records site ⟨m.world.classOf receiver, method⟩ := by
  have hlearns := h.learns hsite
  obtain hsame | ⟨method, hfound, hentries⟩ := (m.world.sites site).learn_cases
    (m.world.classOf receiver) (m.world.lookup (m.world.classOf receiver) selector).1
  · exact .inl (by rw [hlearns, hsame, Function.update_eq_self])
  · refine .inr ⟨method, ⟨loop, selector, receiver, h, rfl, hfound⟩,
      InlineCache.find?_eq_none.mp hsite, ?_, fun other hother => ?_⟩
    · rw [hlearns, Function.update_self, hentries]
    · rw [hlearns, Function.update_of_ne hother]

theorem step_sites (m : Machine) :
    m.step.world.sites = m.world.sites ∨ ∃ site e, m.Records site e := by
  obtain hcaches | ⟨loop, site, selector, receiver, hsends, hsite⟩ := m.step_caches
  · exact .inl (World.sites_congr hcaches)
  · exact (hsends.records hsite).imp_right fun ⟨method, h⟩ => ⟨site, _, h⟩

theorem Sends.spares (h : m.Sends loop site selector receiver)
    (hspared : ((m.world.sites site).entries.length = 2 ∧
        m.world.classOf receiver ∉ (m.world.sites site).classes) ∨
      (m.world.lookup (m.world.classOf receiver) selector).1 = none) :
    m.step.world.sites = m.world.sites := by
  cases hsite : (m.world.sites site).find? (m.world.classOf receiver) with
  | some target => exact World.sites_congr (h.hits hsite).caches
  | none =>
    rw [h.learns hsite]
    refine Function.update_eq_self_iff.mpr ?_
    obtain ⟨hfull, -⟩ | hfails := hspared
    · exact InlineCache.learn_of_full hfull _
    · rw [hfails, InlineCache.learn]

/-- What happens to a machine: it makes a step, or, while it waits for its host, it is asked for
something, classes and methods are altered, or the host changes something else. A host cannot empty
the inline caches. -/
inductive Move : Machine → Machine → Prop where
  | step (m : Machine) : Move m m.step
  | request (o : Outcome) (w : World) (r : Request) : Move ⟨.answer o, [], w⟩ (r.machine w)
  | alter (o : Outcome) (w : World) (a : Alteration) :
      Move ⟨.answer o, [], w⟩ ⟨.answer o, [], w.alter a⟩
  | change (o : Outcome) {w w' : World} {held : List Grant} (h : HostChange held w w')
      (hkeeps : w' ≠ w.withoutCaches) : Move ⟨.answer o, [], w⟩ ⟨.answer o, [], w'⟩

/-- What a machine may have become, whatever its host did. -/
abbrev Later : Machine → Machine → Prop := ReflTransGen Move

theorem Later.after (m : Machine) (n : Nat) : m.Later (m.after n) := by
  induction n with
  | zero => exact .refl
  | succ n ih =>
    rw [after_succ]
    exact ih.tail (.step _)

theorem Later.request {o : Outcome} (h : m.Later m') (ho : m'.outcome? = some o) (r : Request) :
    m.Later (r.machine m'.world) := by
  obtain ⟨control, waiting, w⟩ := m'
  match control, waiting with
  | .answer o, [] => exact h.tail (.request o w r)
  | .run _, _ | .finish _ _, _ | .call _, _ | .answer _, _ :: _ => cases ho

theorem Move.cases_site (h : Move m m') (site : CodeRef × Nat) :
    m'.world.sites site = m.world.sites site ∨ m' = m.step ∧ ∃ e, m.Records site e := by
  have kept (h : m'.world.caches = m.world.caches) :
      m'.world.sites site = m.world.sites site := congrFun (World.sites_congr h) site
  cases h with
  | request o w r => exact .inl (kept (r.machine_lasts (P := World.HasCaches w.caches) rfl))
  | alter o w a => exact .inl (kept (w.alter_caches a))
  | change o h hkeeps => exact .inl (kept (h.counts hkeeps).caches)
  | step =>
    obtain hsame | ⟨other, e, hrecords⟩ := m.step_sites
    · exact .inl (congrFun hsame site)
    · by_cases hsite : site = other
      · exact .inr ⟨rfl, e, hsite ▸ hrecords⟩
      · exact .inl (hrecords.others site hsite)

theorem Later.entries_prefix (h : m.Later m') (site : CodeRef × Nat) :
    (m.world.sites site).entries <+: (m'.world.sites site).entries := by
  induction h with
  | refl => exact List.prefix_rfl
  | tail _ hmove ih =>
    refine ih.trans ?_
    obtain hsame | ⟨rfl, e, hrecords⟩ := hmove.cases_site site
    · exact hsame ▸ List.prefix_rfl
    · exact hrecords.entries ▸ List.prefix_append _ _

theorem Records.nodup {e : CacheEntry} (h : m.Records site e)
    (hm : (m.world.sites site).classes.Nodup) : (m.step.world.sites site).classes.Nodup := by
  rw [InlineCache.classes, h.entries, List.map_append, List.map_singleton, ← List.concat_eq_append]
  exact .concat h.fresh hm

theorem Later.nodup (h : m.Later m') (hm : (m.world.sites site).classes.Nodup) :
    (m'.world.sites site).classes.Nodup := by
  induction h with
  | refl => exact hm
  | tail _ hmove ih =>
    obtain hsame | ⟨rfl, e, hrecords⟩ := hmove.cases_site site
    · rwa [hsame]
    · exact hrecords.nodup ih

/-- Between the two machines, this entry was recorded behind these ones. -/
def Recorded (m m' : Machine) (site : CodeRef × Nat) (earlier : List CacheEntry) (e : CacheEntry) :
    Prop :=
  ∃ m₁, m.Later m₁ ∧ m₁.Records site e ∧ (m₁.world.sites site).entries = earlier ∧
    m₁.step.Later m'

theorem Recorded.move {m'' : Machine} {earlier : List CacheEntry} {e : CacheEntry}
    (h : m.Recorded m' site earlier e) (hmove : Move m' m'') : m.Recorded m'' site earlier e := by
  obtain ⟨m₁, hm₁, hrecords, hearlier, hsince⟩ := h
  exact ⟨m₁, hm₁, hrecords, hearlier, hsince.tail hmove⟩

theorem Later.recorded (h : m.Later m') (hm : m.world.sites site = .cold)
    {earlier later : List CacheEntry} {e : CacheEntry}
    (hentries : (m'.world.sites site).entries = earlier ++ e :: later) :
    m.Recorded m' site earlier e := by
  induction h generalizing later with
  | refl =>
    rw [hm, InlineCache.entries] at hentries
    cases earlier <;> cases hentries
  | @tail m' _ hlater hmove ih =>
    obtain hsame | ⟨rfl, e', hrecords⟩ := hmove.cases_site site
    · exact (ih (hsame ▸ hentries)).move hmove
    · rw [hrecords.entries] at hentries
      -- Either this is the entry that was recorded last, or it was there before.
      rcases later.eq_nil_or_concat with rfl | ⟨later, last, rfl⟩
      · obtain ⟨hearlier, he⟩ := List.append_inj' hentries rfl
        cases he
        exact ⟨m', hlater, hrecords, hearlier, .refl⟩
      · rw [List.concat_eq_append, ← List.cons_append, ← List.append_assoc] at hentries
        exact (ih (List.append_inj' hentries rfl).1).move hmove

end Machine

/-- Inline caches are filled once. After booting, whatever runs and whatever the host does, a site has
at most two entries, of different classes. Each is what a send at this site found for the class of its
receiver, looked up when it was recorded, and it went behind the entries that were there before. It
stays, and serves every later send to a receiver of its class. Nothing is recorded for a third class,
nor for a class without such a method. -/
theorem sites_filled_once {config : Config} {journal : Journal} {w₀ : World}
    (hboot : World.boot config journal = .ok w₀) {m : Machine}
    (hm : Machine.Later ⟨.answer (.ok .nil), [], w₀⟩ m) (site : CodeRef × Nat) :
    (m.world.sites site).entries.length ≤ 2 ∧
    (m.world.sites site).classes.Nodup ∧
    (∀ earlier e later, (m.world.sites site).entries = earlier ++ e :: later →
      Machine.Recorded ⟨.answer (.ok .nil), [], w₀⟩ m site earlier e) ∧
    (∀ m', m.Later m' →
      (m.world.sites site).entries <+: (m'.world.sites site).entries ∧
      ∀ e ∈ (m.world.sites site).entries, ∀ loop selector receiver,
        m'.Sends loop site selector receiver → m'.world.classOf receiver = e.cls →
          m'.Hits loop selector e.method) ∧
    (∀ loop selector receiver, m.Sends loop site selector receiver →
      ((m.world.sites site).entries.length = 2 ∧
          m.world.classOf receiver ∉ (m.world.sites site).classes) ∨
        (m.world.lookup (m.world.classOf receiver) selector).1 = none →
      m.step.world.sites = m.world.sites) := by
  have hcold : w₀.sites site = .cold := by
    rw [World.sites, World.cacheAt, (World.boot_ranked hboot).2.2]
    rfl
  have hnodup : (m.world.sites site).classes.Nodup := hm.nodup (by
    rw [hcold]
    exact List.nodup_nil)
  refine ⟨InlineCache.length_entries_le _, hnodup, fun _ _ _ => hm.recorded hcold,
    fun m' hlater => ⟨hlater.entries_prefix site, ?_⟩, fun _ _ _ hsends => hsends.spares⟩
  intro e he loop selector receiver hsends hclass
  have hkept : e ∈ (m'.world.sites site).entries := (hlater.entries_prefix site).mem he
  refine hsends.hits ?_
  rw [hclass]
  exact InlineCache.find?_of_mem (hlater.nodup hnodup) hkept

namespace Machine

/-- A comparison that has been answered. Its method sends another message to the receiver. -/
def compared : Machine :=
  ((Request.host (.send (.boolean true) "~=" [.nil])).machine World.standard).after 11

/-- The same comparison once more, about to send that message. -/
def comparingAgain : Machine :=
  ((Request.host (.send (.boolean true) "~=" [.nil])).machine compared.world).after 2

end Machine

set_option maxRecDepth 100000 in
theorem sites_filled_once_comparing :
    Machine.Later ⟨.answer (.ok .nil), [], World.standard⟩ .compared ∧
    Machine.compared.Later .comparingAgain ∧
    ∃ site, ∃ e ∈ (Machine.compared.world.sites site).entries, ∃ loop selector receiver,
      Machine.comparingAgain.Sends loop site selector receiver ∧
      Machine.comparingAgain.world.classOf receiver = e.cls ∧
      Machine.comparingAgain.Hits loop selector e.method := by
  have hm : Machine.Later ⟨.answer (.ok .nil), [], World.standard⟩ .compared :=
    .trans (.single (.request _ _ _)) (Machine.Later.after _ 11)
  obtain ⟨hanswers, hsends⟩ : Machine.compared.outcome?.isSome = true ∧
      (Machine.comparingAgain.next?.any fun next => decide (next.2 = .send 0) &&
        (Machine.comparingAgain.world.symbolLiteral next.1.current.method 0).toOption.any
          fun selector => ((next.1.current.handle.frame Machine.comparingAgain.world).peek
              (selector.arity - 1)).toOption.any fun receiver =>
            (Machine.compared.world.sites (next.1.current.method, next.1.current.offset)).entries.any
              fun e => Machine.comparingAgain.world.classOf receiver = e.cls) = true := by
    decide +kernel
  obtain ⟨o, ho⟩ := Option.isSome_iff_exists.mp hanswers
  have hlater : Machine.compared.Later .comparingAgain :=
    .trans (Machine.Later.request .refl ho _) (Machine.Later.after _ 2)
  simp only [Option.any_eq_true, List.any_eq_true, Bool.and_eq_true, decide_eq_true_eq] at hsends
  obtain ⟨⟨loop, i⟩, hnext, rfl, selector, hselector, receiver, hreceiver, e, he, hclass⟩ := hsends
  have h : Machine.comparingAgain.Sends loop (loop.current.method, loop.current.offset) selector
      receiver :=
    ⟨rfl, ⟨0, hnext, eq_ok_of_toOption hselector⟩, eq_ok_of_toOption hreceiver⟩
  refine ⟨hm, hlater, _, e, he, loop, selector, receiver, h, hclass, ?_⟩
  exact ((sites_filled_once World.boot_standard hm _).2.2.2.1 _ hlater).2 e he _ _ _ h hclass

end MessageMachine
