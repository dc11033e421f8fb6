import MessageMachine.Proofs.Arities
import MessageMachine.Proofs.Holders

namespace MessageMachine

/-- The machines that a host can bring about from a world while it alters classes and methods only as
it is permitted, each with the history since then. -/
inductive Chronicle (permits : World → Alteration → Prop) (w₀ : World) : History → Machine → Prop where
  | boot : Chronicle permits w₀ [] ⟨.answer (.ok .nil), [], w₀⟩
  | step {H : History} {m : Machine} (h : Chronicle permits w₀ H m) : Chronicle permits w₀ H m.step
  | request {H : History} {o : Outcome} {w : World} (h : Chronicle permits w₀ H ⟨.answer o, [], w⟩)
      (r : Request) : Chronicle permits w₀ H (r.machine w)
  | alter {H : History} {o : Outcome} {w : World} (h : Chronicle permits w₀ H ⟨.answer o, [], w⟩)
      {a : Alteration} (ha : a.Allowed w) (hp : permits w a) :
      Chronicle permits w₀ (w.installs a ++ H) ⟨.answer o, [], w.alter a⟩
  | change {H : History} {o : Outcome} {w w' : World} {held : List Grant}
      (h : Chronicle permits w₀ H ⟨.answer o, [], w⟩) (hc : HostChange held w w')
      (hclasses : w'.classes = w.classes) (hprimitives : w'.primitives = w.primitives) :
      Chronicle permits w₀ H ⟨.answer o, [], w'⟩

theorem Chronicle.after {permits : World → Alteration → Prop} {w₀ : World} {H : History} {m : Machine}
    (h : Chronicle permits w₀ H m) (n : Nat) : Chronicle permits w₀ H (m.after n) := by
  induction n with
  | zero => exact h
  | succ n ih =>
    rw [Machine.after_succ]
    exact ih.step

theorem Chronicle.all {permits : World → Alteration → Prop} {w₀ : World} {H : History} {o : Outcome}
    {w : World} (h : Chronicle permits w₀ H ⟨.answer o, [], w⟩) {as : List Alteration}
    (has : w.Allows as) (hp : ∀ a ∈ as, ∀ v, permits v a) :
    Chronicle permits w₀ (w.log as ++ H) ⟨.answer o, [], w.alterAll as⟩ := by
  induction as generalizing w H with
  | nil => exact h
  | cons a as ih =>
    rw [World.log, List.append_assoc]
    exact ih (.alter h has.1 (hp a List.mem_cons_self w)) has.2
      fun b hb => hp b (List.mem_cons_of_mem a hb)

theorem World.newInstance_classes (w : World) (c : ClassRef) : (w.newInstance c).2.classes = w.classes :=
  rfl

theorem Chronicle.newInstance {permits : World → Alteration → Prop} {w₀ : World} {H : History}
    {o : Outcome} {w : World} (h : Chronicle permits w₀ H ⟨.answer o, [], w⟩) (c : ClassRef) :
    Chronicle permits w₀ H ⟨.answer o, [], (w.newInstance c).2⟩ :=
  .change h (.newInstance c : HostChange [] _ _) (w.newInstance_classes c) rfl

namespace World

variable {w w' : World} {H : History} {I : History}

structure Finds (w : World) : Prop where
  ordered : w.Ordered
  memos : w.MemosValid

instance : Lasting Finds where
  congr := fun h hs => ⟨h.ordered.congr hs.classes, h.memos.congr hs.classes hs.memos⟩
  count := fun {w} h _ => ⟨h.ordered.congr rfl, MemosValid.congr (w := w) rfl rfl h.memos⟩
  lookup := fun h c selector => by
    obtain ⟨memos, heq, hvalid⟩ := lookup_eq h.ordered h.memos c selector
    rw [heq]
    exact ⟨h.ordered.congr rfl, hvalid⟩

theorem Finds.fill (h : w.Finds) (caches : Table (CodeRef × Nat) InlineCache) :
    Finds { w with caches } := ⟨h.ordered.congr rfl, MemosValid.congr (w := w) rfl rfl h.memos⟩

theorem Finds.lookup (h : w.Finds) (c : ClassRef) (selector : Symbol) :
    (w.lookup c selector).1 = w.method? c selector := by
  obtain ⟨memos, heq, -⟩ := lookup_eq h.ordered h.memos c selector
  rw [heq]

theorem Prepares.of_same (hcodes : w'.codes = w.codes) (hprimitives : w'.primitives = w.primitives)
    (hclasses : w'.classes = w.classes) (hregistered : w'.registered = w.registered)
    (hmemos : w'.MemosValid) : w.Prepares w' where
  toGrows := .of_same hcodes hprimitives
  classes := hclasses
  registered := hregistered
  memos := hmemos

end World

theorem Snapshot.registered_preserved (cs : List ClassRef) :
    Preserved fun s => s.world.registered = cs where
  retire := fun s _ h => by
    obtain ⟨_ | a, going, n, w⟩ := s <;> exact h
  change := fun {worker s s'} _ hc h => by
    cases hc with
    | works _ hb => exact hb.leads.moved.registered.trans h
    | ends _ hm => exact hm.registered.trans h
    | still hs => exact hs.registered.trans h
    | starts hb =>
      rw [hb.world]
      exact h
    | opens | closes => exact h

namespace Machine

theorem finds_step {m : Machine} (h : m.world.Finds) : m.step.world.Finds :=
  step_lasts h fun _ _ c selector _ => Action.resolve_lasts (fun h => h.fill _) c selector

theorem step_prepares {m : Machine} (hheld : m.snapshot.Held) (h : m.world.Finds) :
    m.world.Prepares m.step.world := by
  have hfixed := ((Snapshot.fixed_preserved m.world).step hheld
    (by rw [← m.world_snapshot]; exact ⟨rfl, rfl, rfl, rfl⟩)).2
  have hregistered := ((Snapshot.registered_preserved m.world.registered).step hheld
    (by rw [m.world_snapshot])).2
  obtain ⟨-, hclasses, hcodes, hprimitives⟩ := hfixed
  rw [world_snapshot] at hclasses hcodes hprimitives hregistered
  exact .of_same hcodes hprimitives hclasses hregistered (finds_step h).memos

end Machine

theorem Request.prepares {w : World} (h : w.Finds) (r : Request) : w.Prepares (r.machine w).world := by
  obtain ⟨-, hclasses, hcodes, hprimitives⟩ := r.fixed w 0
  have hregistered := ((Snapshot.registered_preserved w.registered).request rfl r 0).2
  rw [Machine.world_snapshot] at hclasses hcodes hprimitives hregistered
  exact .of_same hcodes hprimitives hclasses hregistered (r.machine_lasts h).memos

theorem HostChange.prepares {held : List Grant} {w w' : World} (h : HostChange held w w')
    (hw : w.MemosValid) (hclasses : w'.classes = w.classes)
    (hprimitives : w'.primitives = w.primitives) : w.Prepares w' := by
  have hrest : w'.registered = w.registered ∧ (w'.memos = w.memos ∨ w'.memos = .empty) := by
    cases h with
    | define name superclass fields =>
      have hsize := (w.define_widens name superclass fields).2.1
      rw [hclasses] at hsize
      omega
    | primitive c name op evaluatesBlock =>
      exact absurd hprimitives (w.installPrimitive_primitives_ne c name op evaluatesBlock)
    | setField _ h =>
      obtain ⟨objects, rfl⟩ := World.eq_of_setField? h
      exact ⟨rfl, .inl rfl⟩
    | withoutCaches => exact ⟨rfl, .inr rfl⟩
    | intern | newString | newInstance | newArray | setElement | setGlobal | takeTranscript =>
      exact ⟨rfl, .inl rfl⟩
  refine .of_same h.keeps.1 hprimitives hclasses hrest.1 ?_
  obtain hmemos | hmemos := hrest.2
  · exact hw.congr hclasses hmemos
  · intro c selector m hm
    rw [hmemos] at hm
    cases hm

namespace World

variable {w w' : World} {H I : History} {c : ClassRef} {selector : Symbol} {m : Method}

structure Logged (w : World) (H : History) : Prop where
  tidy : w.Tidy
  recorded : w.Recorded H
  held : w.Held H

theorem Prepares.logged (h : w.Prepares w') (hw : w.Logged H) : w'.Logged H :=
  ⟨h.tidy hw.tidy, hw.recorded.prepares h, hw.held.prepares hw.recorded h⟩

theorem Alters.logged (h : w.Alters w' I) (hw : w.Logged H) : w'.Logged (I ++ H) :=
  ⟨h.tidy hw.tidy, h.recorded hw.tidy hw.recorded, h.held hw.recorded hw.held⟩

theorem boot_logged {config : Config} {journal : Journal} (h : World.boot config journal = .ok w) :
    w.Logged (CoreLibrary.history config journal) := by
  have htidy := (core_tidy config journal).1
  have hr := (boot_altered h).recorded htidy (core_recorded config journal)
  have hh := (boot_altered h).held htidy (core_recorded config journal) (core_held config journal)
  rw [List.append_nil] at hr hh
  exact ⟨(boot_altered h).tidy htidy, hr, hh⟩

theorem Logged.finds (h : w.Logged H) : w.Finds := ⟨h.tidy.ranked.ordered, h.tidy.memos⟩

/-- A lookup finds the method most recently installed in the first class of the chain with one. -/
theorem Logged.method? (h : w.Logged H) (c : ClassRef) (selector : Symbol) :
    w.method? c selector = (w.ancestors c).findSome? fun d => w.latest? d selector H :=
  firstMethod_eq h.recorded selector _

theorem Logged.found (h : w.Logged H) (hm : w.method? c selector = some m) :
    w.Made m ∧ w.signature m = selector ∧ ∃ d ∈ w.ancestors c, ⟨d, m⟩ ∈ H := by
  rw [h.method?, List.findSome?_eq_some_iff] at hm
  obtain ⟨before, d, after, hsplit, hd, -⟩ := hm
  obtain ⟨hmem, hs⟩ := latest?_eq_some hd
  exact ⟨(h.recorded.made _ hmem).2, hs, d, by simp [hsplit], hmem⟩

theorem Logged.mem (h : w.Logged H) (hm : (w.cls c).methods.find? selector = some m) : ⟨c, m⟩ ∈ H := by
  rw [h.recorded.table] at hm
  exact (latest?_eq_some hm).1

end World

namespace Chronicle

variable {permits : World → Alteration → Prop} {w₀ : World} {H I : History} {m : Machine}

theorem held (h : Chronicle permits w₀ H m) : m.snapshot.Held := by
  induction h with
  | @step _ m _ ih =>
    exact ((Snapshot.registered_preserved m.snapshot.world.registered).step ih rfl).1
  | @request _ _ w _ r _ => exact ((Snapshot.registered_preserved w.registered).request rfl r 0).1
  | boot | alter | change => exact nofun

theorem logged (h : Chronicle permits w₀ H m) (hw : w₀.Logged I) : m.world.Logged (H ++ I) := by
  induction h with
  | boot => exact hw
  | step h ih => exact (Machine.step_prepares h.held ih.finds).logged ih
  | request _ r ih => exact (r.prepares ih.finds).logged ih
  | alter _ ha _ ih =>
    rw [List.append_assoc]
    exact (World.alter_alters ih.tidy ha).logged ih
  | change _ hc hclasses hprimitives ih =>
    exact (hc.prepares ih.tidy.memos hclasses hprimitives).logged ih

end Chronicle

namespace World

variable {w w' : World} {I : History}

theorem Prepares.retains (h : w.Prepares w') : w.Retains w' where
  made := h.toGrows.made
  code := fun r hr => by rw [World.code, h.codes r hr, World.code]
  primitive := fun p hp => ⟨_, h.primitives p hp⟩

theorem install_retains (w : World) (c : ClassRef) (m : Method) : w.Retains (w.install c m) :=
  (w.setHolder_retains c m).1.trans (.of_same rfl rfl)

theorem Alters.retains (h : w.Alters w' I) : w.Retains w' := by
  cases h with
  | prepare h => exact h.retains
  | install h hc hm => exact h.retains.trans (install_retains _ _ _)
  | @define u h name superclass hs fields =>
    refine h.retains.trans (.of_same (u.define_keeps name superclass fields).1 ?_)
    exact (u.define_widens name superclass fields).2.2.2.2

/-- Whatever the inline caches recorded for a class is like this, given the selector of the send. -/
def Cached (R : ClassRef → Symbol → Method → Prop) (w : World) : Prop :=
  ∀ r offset, ∀ e ∈ (w.cacheAt r offset).entries, r.index < w.codes.size ∧
    ∀ s, w.selectorAt? r offset = some s → R e.cls s e.method

variable {R S : ClassRef → Symbol → Method → Prop}

theorem Cached.cold (h : w.caches = .empty) : w.Cached R := by
  intro r offset e he
  rw [cacheAt, h] at he
  cases he

theorem Cached.retain (h : w.Cached R) (hw : w.Retains w') (hcaches : w'.caches = w.caches)
    (hR : ∀ c s m, R c s m → S c s m) : w'.Cached S := by
  intro r offset e he
  rw [cacheAt, hcaches] at he
  obtain ⟨hlt, hr⟩ := h r offset e he
  refine ⟨hw.made (m := .compiled r) hlt, fun s hs => hR _ _ _ (hr s ?_)⟩
  rwa [← hw.selectorAt? hlt]

theorem Cached.find? (h : w.Cached R) {r : CodeRef} {offset : Nat} {c : ClassRef} {s : Symbol}
    {m : Method} (hs : w.selectorAt? r offset = some s) (hm : (w.cacheAt r offset).find? c = some m) :
    R c s m :=
  (h r offset _ (mem_entries_of_find? hm)).2 s hs

end World

namespace Machine

variable {R : ClassRef → Symbol → Method → Prop} {m : Machine}

theorem step_cached (hheld : m.snapshot.Held) (hfinds : m.world.Finds) (h : m.world.Cached R)
    (hR : ∀ c s x, m.world.method? c s = some x → R c s x) : m.step.world.Cached R := by
  have hkeeps := (step_prepares hheld hfinds).retains
  intro r offset e he
  have hold (he : e ∈ (m.world.sites (r, offset)).entries) : r.index < m.step.world.codes.size ∧
      ∀ s, m.step.world.selectorAt? r offset = some s → R e.cls s e.method := by
    obtain ⟨hlt, hr⟩ := h r offset e he
    refine ⟨hkeeps.made (m := .compiled r) hlt, fun s hs => hr s ?_⟩
    rwa [← hkeeps.selectorAt? hlt]
  change e ∈ (m.step.world.sites (r, offset)).entries at he
  obtain hsame | ⟨site, e', hrecords⟩ := m.step_sites
  · exact hold (hsame ▸ he)
  by_cases hsite : (r, offset) = site
  · subst hsite
    rw [hrecords.entries] at he
    obtain hbefore | hnew := List.mem_append.mp he
    · exact hold hbefore
    obtain rfl := List.mem_singleton.mp hnew
    obtain ⟨loop, selector, receiver, ⟨hplace, ⟨l, hnext, hselector⟩, -⟩, -, hfound⟩ := hrecords.found
    obtain ⟨-, hfetch⟩ := next?_eq_some.mp hnext
    cases hplace
    have hmade := Activation.made_of_fetch hfetch
    refine ⟨hkeeps.made hmade, fun s hs => hR _ _ _ ?_⟩
    rw [hkeeps.selectorAt? hmade] at hs
    simp only [World.selectorAt?, Activation.fetch_eq_ok hfetch, hselector] at hs
    cases hs
    rw [← hfinds.lookup]
    exact hfound
  · exact hold (hrecords.others _ hsite ▸ he)

end Machine

/-- Whatever can be found at some time is like this from then on, and so is all that inline caches
recorded. -/
theorem Chronicle.cached {permits : World → Alteration → Prop} {w₀ : World} {H I : History}
    {m : Machine} {R : World → ClassRef → Symbol → Method → Prop} (h : Chronicle permits w₀ H m)
    (hw : w₀.Logged I) (hcold : w₀.caches = .empty)
    (hfound : ∀ {H m}, Chronicle permits w₀ H m → ∀ c s x, m.world.method? c s = some x → R m.world c s x)
    (hclasses : ∀ {v v' : World}, v'.classes = v.classes → ∀ c s x, R v c s x → R v' c s x)
    (halter : ∀ {H o v a}, Chronicle permits w₀ H ⟨.answer o, [], v⟩ → a.Allowed v → permits v a →
      ∀ c s x, R v c s x → R (v.alter a) c s x) :
    m.world.Cached (R m.world) := by
  induction h with
  | boot => exact .cold hcold
  | @step _ m h ih =>
    have hstep := Machine.step_prepares h.held (h.logged hw).finds
    have hsame := Machine.step_cached h.held (h.logged hw).finds ih (hfound h)
    exact hsame.retain (.of_same rfl rfl) rfl (hclasses hstep.classes)
  | request h r ih =>
    have hstep := r.prepares (h.logged hw).finds
    exact ih.retain hstep.retains (r.machine_lasts (P := World.HasCaches _) rfl)
      (hclasses hstep.classes)
  | @alter _ _ w h a ha hp ih =>
    exact ih.retain (World.alter_alters (h.logged hw).tidy ha).retains (w.alter_caches a)
      (halter h ha hp)
  | @change _ _ w w' _ h hc hc' hprimitives ih =>
    by_cases hforget : w' = w.withoutCaches
    · exact .cold (by rw [hforget]; rfl)
    · exact ih.retain (hc.prepares (h.logged hw).tidy.memos hc' hprimitives).retains
        (hc.counts hforget).caches (hclasses hc')

end MessageMachine
