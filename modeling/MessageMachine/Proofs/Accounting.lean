import Mathlib.Algebra.BigOperators.Group.Finset.Basic
import MessageMachine.Proofs.Filling
import MessageMachine.Proofs.History

namespace MessageMachine

open MessageMachine.Action
open World (Kept)

/-- How often something happened that the counters account for. -/
structure Ledger where
  /-- A send looked up a method for a class that its site did not know, and found none. -/
  unfound : Nat
  dispatches : Nat
  /-- A super send was executed by a body whose holder has a superclass. -/
  superSends : Nat
  starts : Nat
  returns : Nat
  escapes : Nat
deriving DecidableEq, Repr

namespace Ledger

instance : Zero Ledger := ⟨⟨0, 0, 0, 0, 0, 0⟩⟩

instance : Add Ledger where
  add k l := ⟨k.unfound + l.unfound, k.dispatches + l.dispatches, k.superSends + l.superSends,
    k.starts + l.starts, k.returns + l.returns, k.escapes + l.escapes⟩

theorem add_assoc (j k l : Ledger) : j + k + l = j + (k + l) := by
  simp only [HAdd.hAdd, Add.add, mk.injEq]
  exact ⟨Nat.add_assoc _ _ _, Nat.add_assoc _ _ _, Nat.add_assoc _ _ _, Nat.add_assoc _ _ _,
    Nat.add_assoc _ _ _, Nat.add_assoc _ _ _⟩

def ofUnfound (b : Bool) : Ledger := { (0 : Ledger) with unfound := b.toNat }

def ofDispatch (b : Bool) : Ledger := { (0 : Ledger) with dispatches := b.toNat }

def ofSuperSend (b : Bool) : Ledger := { (0 : Ledger) with superSends := b.toNat }

def ofStart (b : Bool) : Ledger := { (0 : Ledger) with starts := b.toNat }

/-- A block looked for the activation that it was to return from, and found it alive or not. -/
def ofDecision (live : Bool) : Ledger :=
  { (0 : Ledger) with returns := live.toNat, escapes := (!live).toNat }

end Ledger

namespace World

variable {w w' : World}

/-- The number of entries in all inline caches. -/
def occupied (w : World) : Nat := ∑ site ∈ w.caches.keys.toFinset, (w.sites site).occupancy

theorem occupied_congr (h : w'.caches = w.caches) : w'.occupied = w.occupied := by
  rw [occupied, sites_congr h, h, occupied]

theorem sites_of_notMem {site : CodeRef × Nat} (h : site ∉ w.caches.keys) : w.sites site = .cold := by
  rw [Table.mem_keys_iff, Option.not_isSome_iff_eq_none] at h
  rw [sites, cacheAt, h, Option.getD_none]

theorem occupied_insert (w : World) (site : CodeRef × Nat) (k : InlineCache) :
    occupied { w with caches := w.caches.insert site k } + (w.sites site).occupancy =
      w.occupied + k.occupancy := by
  have hkeys : (w.caches.insert site k).keys.toFinset = insert site w.caches.keys.toFinset := by
    ext other
    rw [List.mem_toFinset, Table.mem_keys_iff, Table.find?_insert, Finset.mem_insert,
      List.mem_toFinset, Table.mem_keys_iff]
    by_cases h : site = other
    · simp [h]
    · simp [h, Ne.symm h]
  have hothers : ∀ other ∈ w.caches.keys.toFinset.erase site,
      (Function.update w.sites site k other).occupancy = (w.sites other).occupancy := by
    intro other hother
    rw [Function.update_of_ne (Finset.ne_of_mem_erase hother)]
  have hbefore : (w.sites site).occupancy +
      ∑ other ∈ w.caches.keys.toFinset.erase site, (w.sites other).occupancy = w.occupied := by
    by_cases hsite : site ∈ w.caches.keys.toFinset
    · exact Finset.add_sum_erase _ (fun other => (w.sites other).occupancy) hsite
    · rw [Finset.erase_eq_of_notMem hsite,
        sites_of_notMem fun h => hsite (List.mem_toFinset.mpr h), occupied]
      exact Nat.zero_add _
  rw [← hbefore, occupied, sites_insert]
  change ∑ other ∈ (w.caches.insert site k).keys.toFinset, _ + _ = _
  rw [hkeys, ← Finset.add_sum_erase _ _ (Finset.mem_insert_self _ _),
    Finset.erase_insert_eq_erase, Finset.sum_congr rfl hothers, Function.update_self]
  omega

/-- The counters account for what happened since inline caches had this many entries. -/
structure Accounts (occupied : Nat) (l : Ledger) (w : World) : Prop where
  sends : w.counters.sends = w.counters.cacheHits + w.counters.cacheMisses
  misses : w.counters.cacheMisses + occupied =
    w.occupied + w.counters.saturatedMisses + l.unfound
  lookups : w.counters.lookups = w.counters.cacheMisses + w.counters.doesNotUnderstand +
    l.dispatches + l.superSends
  frames : w.counters.frames = l.starts
  returns : w.counters.nonLocalReturns = l.returns
  escapes : w.counters.escapedBlocks = l.escapes

variable {o : Nat} {l : Ledger}

theorem Accounts.congr (h : w.Accounts o l) (hcounters : w'.counters = w.counters)
    (hcaches : w'.caches = w.caches) : w'.Accounts o l := by
  obtain ⟨hsends, hmisses, hlookups, hframes, hreturns, hescapes⟩ := h
  rw [← hcounters] at *
  rw [← occupied_congr hcaches] at hmisses
  exact ⟨hsends, hmisses, hlookups, hframes, hreturns, hescapes⟩

theorem Accounts.congr_count {f : Counters → Counters} (h : (w.count f).Accounts o l)
    (hcounters : w'.counters = w.counters) (hcaches : w'.caches = w.caches) :
    (w'.count f).Accounts o l := h.congr (congrArg f hcounters) hcaches

instance : Kept (Accounts o l) where
  congr := fun h hs => h.congr hs.counters hs.caches

end World

variable {w v : World} {o : Nat} {l : Ledger} {α β : Type}

namespace Action

def Books (x : Action α) (w : World) (o : Nat) (l : Ledger) : Prop :=
  x.Ensures w (fun _ v => v.Accounts o l) fun _ v => v.Accounts o l

theorem Lasts.books {x : Action α} {Q : α → Prop} (hx : Lasts (World.Accounts o l) x Q)
    (hw : w.Accounts o l) : x.Books w o l :=
  (hx w hw).mono (fun _ _ h => h.1) fun _ _ => id

/-- One more lookup would settle the accounts. -/
def Due (o : Nat) (l : Ledger) (w : World) : Prop :=
  World.Accounts o l (w.count fun n => { n with lookups := n.lookups + 1 })

instance : Kept (Due o l) where
  congr := fun h hs => World.Accounts.congr_count h hs.counters hs.caches

theorem lookup_accounts (hw : Due o l w) (c : ClassRef) (selector : Symbol) :
    (Action.lookup c selector).Ensures w (fun _ v => v.Accounts o l) fun _ _ => False := by
  refine .bind (Q := fun _ v => v.Accounts o l) hw fun _ v hv => ?_
  have hcounts := v.lookup_rests c selector
  exact hv.congr hcounts.counters hcounts.caches

theorem doesNotUnderstand_books (hw : w.Accounts o l) (receiver : Value) (selector : Symbol)
    (args : List Value) : (doesNotUnderstand receiver selector args).Books w o l := by
  have kept {v : World} {γ : Type} {f : World → γ × World} (hv : Due o l v)
      (hf : ∀ v : World, v.SameRecords (f v).2) :
      (Action.update f).Ensures v (fun _ v => Due o l v) fun _ _ => False :=
    Kept.congr (P := Due o l) hv (hf v)
  refine Ensures.after (P := Due o l) ?_ fun _ v hv => Ensures.after (kept hv ?_) fun arguments v hv => ?_
  · refine { hw with lookups := ?_ }
    have hlookups := hw.lookups
    change w.counters.lookups + 1 =
      w.counters.cacheMisses + (w.counters.doesNotUnderstand + 1) + l.dispatches + l.superSends
    omega
  · exact fun _ => .elsewhere
  refine Ensures.after (P := Due o l) (Kept.congr (P := Due o l) hv (.note v _)) fun _ v hv => ?_
  refine Ensures.after (P := Due o l) (kept hv fun v => .intern v _) fun handler v hv => ?_
  refine .get_bind (Ensures.after (lookup_accounts hv _ _) fun m v hv => ?_)
  cases m with
  | none => exact hv
  | some m => exact hv

theorem dispatch_books (hw : w.Accounts o l) (receiver : Value) (selector : Symbol)
    (args : List Value) : (dispatch receiver selector args).Books w o (l + .ofDispatch true) := by
  have hdue : Due o (l + .ofDispatch true) w := by
    refine { hw with lookups := ?_ }
    have hlookups := hw.lookups
    change w.counters.lookups + 1 = w.counters.cacheMisses + w.counters.doesNotUnderstand +
      (l.dispatches + 1) + l.superSends
    omega
  refine .get_bind (Ensures.after (lookup_accounts hdue _ _) fun m v hv => ?_)
  cases m with
  | none => exact doesNotUnderstand_books hv receiver selector args
  | some m => exact hv

theorem unknownGlobal_books (hw : w.Accounts o l) (receiver : Value) (name : Symbol) :
    (unknownGlobal receiver name).Books w o (l + .ofDispatch true) := by
  refine Ensures.after (P := World.Accounts o l) { hw with } fun _ v hv => ?_
  refine Ensures.after (P := World.Accounts o l) (Kept.congr hv (.note v _)) fun _ v hv => ?_
  refine Ensures.after (P := World.Accounts o l) (hv.congr rfl rfl) fun handler v hv => ?_
  exact dispatch_books hv _ _ _

theorem escapedBlock_books (hw : w.Accounts o l) (receiver block : Value) :
    (escapedBlock receiver block).Books w o (l + .ofDispatch true) :=
  Ensures.after (P := World.Accounts o l) (hw.congr rfl rfl) fun _ _ hv => dispatch_books hv _ _ _

theorem offer_accounts {method : CodeRef} {offset : Nat} {c : ClassRef} {m : Method}
    (hw : World.Accounts o l
      (w.count fun n => { n with saturatedMisses := n.saturatedMisses + 1 })) :
    (offer method offset c m).Ensures w (fun _ v => v.Accounts o l) fun _ _ => False := by
  have noted (v : World) (hv : v.Accounts o l) (e : Event) :
      Ensures (do Action.note e; return some m) v (fun _ v => v.Accounts o l) fun _ _ => False :=
    Ensures.bind (Q := fun _ v => v.Accounts o l) (Kept.congr hv (.note v e)) fun _ _ => id
  refine .get_bind ?_
  dsimp only
  split
  · exact .bind (Q := fun _ v => v.Accounts o l) hw fun _ v hv => noted v hv _
  · next hfill =>
    refine .bind (Q := fun _ v => v.Accounts o l) ?_ fun _ v hv => noted v hv _
    have hoccupied := w.occupied_insert (method, offset) ((w.cacheAt method offset).fill c m).2
    have hentries := InlineCache.entries_fill (w.cacheAt method offset) c m
    rw [if_neg hfill] at hentries
    have hoccupancy : ((w.cacheAt method offset).fill c m).2.occupancy =
        (w.sites (method, offset)).occupancy + 1 := by
      rw [InlineCache.occupancy, hentries, List.length_append]
      rfl
    refine { hw with misses := ?_ }
    have hmisses := hw.misses
    change w.counters.cacheMisses + o = w.occupied + (w.counters.saturatedMisses + 1) + l.unfound
      at hmisses
    change w.counters.cacheMisses + o = World.occupied { w with
      caches := w.caches.insert (method, offset) ((w.cacheAt method offset).fill c m).2 } +
      w.counters.saturatedMisses + l.unfound
    omega

theorem resolve_accounts (hw : w.Accounts o l) (method : CodeRef) (offset : Nat) (c : ClassRef)
    (selector : Symbol) : (resolve method offset c selector).Ensures w
      (fun _ v => v.Accounts o (l + .ofUnfound
        (((w.cacheAt method offset).find? c).isNone && (w.lookup c selector).1.isNone)))
      fun _ _ => False := by
  have hsends := hw.sends
  have hmisses := hw.misses
  have hlookups := hw.lookups
  unfold Ensures
  cases hfind : (w.cacheAt method offset).find? c with
  | some m =>
    rw [resolve_hit hfind]
    refine { hw with sends := ?_ }
    change w.counters.sends + 1 = w.counters.cacheHits + 1 + w.counters.cacheMisses
    omega
  | none =>
    have hmissed : World.Accounts o l ((missed w).count fun n =>
        { n with saturatedMisses := n.saturatedMisses + 1 }) := by
      refine { hw with sends := ?_, misses := ?_, lookups := ?_ }
      · change w.counters.sends + 1 = w.counters.cacheHits + (w.counters.cacheMisses + 1)
        omega
      · change w.counters.cacheMisses + 1 + o =
          w.occupied + (w.counters.saturatedMisses + 1) + l.unfound
        omega
      · change w.counters.lookups + 1 = w.counters.cacheMisses + 1 + w.counters.doesNotUnderstand +
          l.dispatches + l.superSends
        omega
    have hcounts := (missed w).lookup_rests c selector
    have hfound : ((missed w).lookup c selector).1 = (w.lookup c selector).1 :=
      World.lookup_congr (v := missed w) (w := w) rfl rfl c selector
    rw [resolve_of_miss hfind, ← hfound]
    generalize (missed w).lookup c selector = p at hcounts
    obtain ⟨_ | m, v⟩ := p
    · have hv : World.Accounts o l (v.count fun n =>
          { n with saturatedMisses := n.saturatedMisses + 1 }) :=
        hmissed.congr_count hcounts.counters hcounts.caches
      refine { hv with misses := ?_ }
      have hv := hv.misses
      change v.counters.cacheMisses + o = v.occupied + (v.counters.saturatedMisses + 1) + l.unfound
        at hv
      change v.counters.cacheMisses + o = v.occupied + v.counters.saturatedMisses + (l.unfound + 1)
      omega
    · exact offer_accounts (hmissed.congr_count hcounts.counters hcounts.caches)

/-- The holder of a body has a superclass. -/
def hasAbove (w : World) (method : CodeRef) : Bool :=
  (w.holder? (.compiled method)).any fun holder => (w.cls holder).superclass.isSome

theorem resolveSuper_books (hw : w.Accounts o l) (method : CodeRef) (selector : Symbol) :
    (resolveSuper method selector).Books w o (l + .ofSuperSend (hasAbove w method)) := by
  refine .get_bind ?_
  unfold hasAbove
  cases w.holder? (.compiled method) with
  | none => exact hw
  | some holder =>
    dsimp only [Option.any_some]
    cases (w.cls holder).superclass with
    | none => exact hw
    | some s =>
      refine (lookup_accounts ?_ s selector).mono (fun _ _ => id) fun _ _ => False.elim
      refine { hw with lookups := ?_ }
      have hlookups := hw.lookups
      change w.counters.lookups + 1 = w.counters.cacheMisses + w.counters.doesNotUnderstand +
        l.dispatches + (l.superSends + 1)
      omega

end Action

/-- The effect is that an activation was started. -/
def Effect.starts : Effect → Bool
  | .activate _ _ => true
  | .resume _ | .callOut _ _ _ | .complete _ | .unwind _ _ => false

/-- Whatever an instruction comes to, the counters account for this, and for an activation if it
starts one. -/
def Action.BooksEffect (x : Action Effect) (w : World) (o : Nat) (l : Ledger) : Prop :=
  x.Ensures w (fun e v => v.Accounts o (l + .ofStart e.starts)) fun _ v => v.Accounts o l

theorem Action.Lasts.booksEffect {x : Action Effect}
    (hx : Lasts (World.Accounts o l) x (·.starts = false)) (hw : w.Accounts o l) :
    x.BooksEffect w o l := by
  refine (hx w hw).mono (fun e v h => ?_) fun _ _ => id
  rw [h.2]
  exact h.1

namespace Activation

theorem start_accounts (hw : w.Accounts o l) (r : CodeRef) (args : List Value)
    (outer : Option FrameRef) : (start r args outer).Ensures w
      (fun _ v => v.Accounts o (l + .ofStart true)) fun _ v => v.Accounts o l := by
  have hframe : Lasts (World.Accounts o l) (makeFrame r args outer) fun _ => True :=
    .get_bind fun v => .lift_bind fun f _ =>
      .bind (.modify fun _ => .elsewhere) fun _ _ => .pure trivial
  refine .get_bind ?_
  split
  · exact hw
  refine .bind (hframe w hw) fun f v hv => ?_
  have hcounted : World.Accounts o (l + .ofStart true) (v.count fun n => { n with frames := n.frames + 1 }) :=
    { hv.1 with frames := congrArg (· + 1) hv.1.frames }
  refine Ensures.of_ok_bind (α := Unit) (v := v.count fun n => { n with frames := n.frames + 1 }) rfl ?_
  exact Ensures.of_ok_bind (α := Unit) rfl (hcounted.congr rfl rfl)

theorem enter_books (hw : w.Accounts o l) (a : Activation) (target : Option Method)
    (selector : Symbol) : (a.enter target selector).BooksEffect w o l := by
  have started {v : World} {sender : Activation} {r : CodeRef} {args : List Value}
      {outer : Option FrameRef} (hv : v.Accounts o l) :
      (do return Effect.activate sender (← start r args outer) : Action Effect).BooksEffect v o l :=
    .bind (start_accounts hv r args outer) fun _ _ => id
  refine Ensures.bind (a.handle.take_lasts _ w hw) fun ⟨args, handle⟩ v hv => ?_
  match target with
  | some (.compiled c) => exact started hv.1
  | some (.primitive p) =>
    refine .get_bind ?_
    split
    · exact started hv.1
    · exact hv.1
  | none => exact .bind (doesNotUnderstand_books hv.1 _ _ _) fun _ _ => id

/-- The send at this activation looks up a method for a class that its site does not know, and finds
none. -/
def failsToFind (a : Activation) (w : World) (literal : UInt8) : Bool :=
  match w.symbolLiteral a.method literal.toNat with
  | .error _ => false
  | .ok selector =>
    match (a.handle.frame w).peek (selector.arity - 1) with
    | .error _ => false
    | .ok receiver => ((w.cacheAt a.method a.offset).find? (w.classOf receiver)).isNone &&
      (w.lookup (w.classOf receiver) selector).1.isNone

/-- No value is bound to the global, and there is a receiver to ask for it. -/
def asksForGlobal (a : Activation) (w : World) (literal : UInt8) : Bool :=
  match w.symbolLiteral a.method literal.toNat with
  | .error _ => false
  | .ok name => (w.global? name).isNone && (w.receiver (a.handle.frame w)).isOk

/-- The frame of the activation that a running block is to return from, and whether it is alive, once
the block has come to decide on that. -/
def decision? (a : Activation) (w : World) : Option (Frame × Bool) :=
  match a.handle.pop w with
  | .error _ _ => none
  | .ok (_, handle) w =>
    if (w.code a.method).isBlock then
      match (handle.frame w).read .arguments 0 with
      | .ok (.block b) => (w.outerContext (handle.frame w) b.level).toOption.map fun home =>
        (w.frames.get home, w.isLive (w.frames.get home).marker)
      | _ => none
    else none

/-- What executing an instruction adds to the ledger, but for the activation that it may start. -/
def ledger (a : Activation) (w : World) : Instruction → Ledger
  | .send literal => .ofUnfound (a.failsToFind w literal)
  | .superSend literal =>
    .ofSuperSend ((w.symbolLiteral a.method literal.toNat).isOk && hasAbove w a.method)
  | .pushGlobal literal => .ofDispatch (a.asksForGlobal w literal)
  | .returnNonLocal =>
    match a.decision? w with
    | none => 0
    | some (home, live) =>
      .ofDecision live + .ofDispatch (!live && (home.read .arguments 0).isOk)
  | _ => 0

theorem send_books (hw : w.Accounts o l) (a : Activation) (literal : UInt8) :
    (execute { a with offset := a.offset + 2 } a.offset (.send literal)).BooksEffect w o
      (l + a.ledger w (.send literal)) := by
  dsimp only [ledger, failsToFind]
  cases hselector : w.symbolLiteral a.method literal.toNat with
  | error f =>
    exact Ensures.of_error_bind (v := w) (by rw [symbolLiteral_apply, hselector]) hw
  | ok selector =>
    refine Ensures.of_ok_bind (v := w) (by rw [symbolLiteral_apply, hselector]) ?_
    dsimp only
    cases hreceiver : (a.handle.frame w).peek (selector.arity - 1) with
    | error f =>
      exact Ensures.of_error_bind (v := w) (by rw [FrameHandle.peek_apply, hreceiver]) hw
    | ok receiver =>
      refine Ensures.of_ok_bind (v := w) (by rw [FrameHandle.peek_apply, hreceiver]) (.get_bind ?_)
      exact .after (resolve_accounts hw _ _ _ _) fun target v hv => enter_books hv _ target selector

theorem superSend_books (hw : w.Accounts o l) (a : Activation) (literal : UInt8) :
    (execute { a with offset := a.offset + 2 } a.offset (.superSend literal)).BooksEffect w o
      (l + a.ledger w (.superSend literal)) := by
  dsimp only [ledger]
  cases hselector : w.symbolLiteral a.method literal.toNat with
  | error f =>
    exact Ensures.of_error_bind (v := w) (by rw [symbolLiteral_apply, hselector]) hw
  | ok selector =>
    refine Ensures.of_ok_bind (v := w) (by rw [symbolLiteral_apply, hselector]) ?_
    exact .bind (resolveSuper_books hw a.method selector) fun target v hv =>
      enter_books hv _ target selector

theorem pushGlobal_books (hw : w.Accounts o l) (a : Activation) (literal : UInt8) :
    (execute { a with offset := a.offset + 2 } a.offset (.pushGlobal literal)).BooksEffect w o
      (l + a.ledger w (.pushGlobal literal)) := by
  dsimp only [ledger, asksForGlobal]
  cases hname : w.symbolLiteral a.method literal.toNat with
  | error f => exact Ensures.of_error_bind (v := w) (by rw [symbolLiteral_apply, hname]) hw
  | ok name =>
    refine Ensures.of_ok_bind (v := w) (by rw [symbolLiteral_apply, hname]) (.get_bind ?_)
    dsimp only
    cases w.global? name with
    | some x => exact .bind (a.handle.modify_lasts _ w hw) fun _ _ hv => hv.1
    | none =>
      cases hreceiver : w.receiver (a.handle.frame w) with
      | error f =>
        refine Ensures.of_error_bind (e := f) (v := w) ?_ hw
        simp only [FrameHandle.receiver, bind_apply, get_apply, hreceiver, lift_error]
      | ok receiver =>
        refine Ensures.of_ok_bind (a := receiver) (v := w) ?_ ?_
        · simp only [FrameHandle.receiver, bind_apply, get_apply, hreceiver, lift_ok]
        · exact .bind (unknownGlobal_books hw receiver name) fun _ _ hv => hv

theorem returnNonLocal_books (hw : w.Accounts o l) (a : Activation) :
    (execute { a with offset := a.offset + 1 } a.offset .returnNonLocal).BooksEffect w o
      (l + a.ledger w .returnNonLocal) := by
  have hpop := a.handle.take_lasts (·.pop) w hw
  dsimp only [ledger, decision?]
  cases hrun : a.handle.pop w with
  | error f v => exact Ensures.of_error_bind hrun (hpop.of_error hrun)
  | ok p v =>
    obtain ⟨hv, -⟩ := hpop.of_ok hrun
    obtain ⟨x, handle⟩ := p
    refine Ensures.of_ok_bind hrun (.get_bind ?_)
    dsimp only
    cases (v.code a.method).isBlock with
    | false => exact hv
    | true =>
      simp only [Bool.not_true, Bool.false_eq_true, if_false, if_true]
      cases hself : (handle.frame v).read .arguments 0 with
      | error f => exact Ensures.of_error_bind (v := v) (by rw [lift_error]) hv
      | ok self =>
        refine Ensures.of_ok_bind (a := self) (v := v) (by rw [lift_ok]) ?_
        cases self with
        | block b =>
          dsimp only
          cases v.outerContext (handle.frame v) b.level with
          | error f => exact Ensures.of_error_bind (v := v) (by rw [lift_error]) hv
          | ok r =>
            refine Ensures.of_ok_bind (a := r) (v := v) (by rw [lift_ok]) ?_
            simp only [Except.toOption, Option.map_some]
            cases v.isLive (v.frames.get r).marker with
            | true =>
              have hcounted : World.Accounts o (l + .ofDecision true) (v.count fun n =>
                  { n with nonLocalReturns := n.nonLocalReturns + 1 }) :=
                { hv with returns := congrArg (· + 1) hv.returns }
              refine Ensures.of_ok_bind (α := Unit) rfl ?_
              exact Ensures.of_ok_bind (α := Unit) rfl (Kept.congr hcounted (.note _ _))
            | false =>
              have hcounted : World.Accounts o (l + .ofDecision false) (v.count fun n =>
                  { n with escapedBlocks := n.escapedBlocks + 1 }) :=
                { hv with escapes := congrArg (· + 1) hv.escapes }
              refine Ensures.of_ok_bind (α := Unit) rfl ?_
              rw [← Ledger.add_assoc]
              cases hreceiver : (v.frames.get r).read .arguments 0 with
              | error f => exact Ensures.of_error_bind rfl hcounted
              | ok receiver =>
                refine Ensures.of_ok_bind rfl ?_
                refine Ensures.of_ok_bind (α := Unit) rfl ?_
                refine .bind (escapedBlock_books ?_ receiver (.block b)) fun _ _ hv => hv
                exact Kept.congr hcounted (.note _ _)
        | _ => exact hv

theorem execute_books (hw : w.Accounts o l) (a : Activation) (i : Instruction) :
    (execute { a with offset := a.offset + i.length } a.offset i).BooksEffect w o
      (l + a.ledger w i) := by
  have push {handle : FrameHandle} {x : Value} :
      Lasts (World.Accounts o l) (handle.push x) fun _ => True := handle.modify_lasts _
  have pop : Lasts (World.Accounts o l) a.handle.pop fun _ => True := a.handle.take_lasts _
  have resume {x : Action FrameHandle} (hx : Lasts (World.Accounts o l) x fun _ => True) :
      Action.BooksEffect
        (do return Effect.resume { a with offset := a.offset + i.length, handle := ← x }) w o l :=
    Lasts.booksEffect (.bind hx fun _ _ => .pure rfl) hw
  cases i with
  | send literal => exact send_books hw a literal
  | superSend literal => exact superSend_books hw a literal
  | pushGlobal literal => exact pushGlobal_books hw a literal
  | returnNonLocal => exact returnNonLocal_books hw a
  | halt => exact Lasts.booksEffect (.bind (a.handle.peek_lasts 0) fun _ _ => .pure rfl) hw
  | returnLocal => exact Lasts.booksEffect (.bind pop fun _ _ => .pure rfl) hw
  | pushBlock literal =>
    exact Lasts.booksEffect (.bind (pushBlock_lasts _ literal) fun _ _ => .pure rfl) hw
  | dup => exact resume (.bind (a.handle.peek_lasts 0) fun _ _ => push)
  | pushSlot area index level =>
    exact resume (.bind (a.handle.readSlot_lasts _ _ _) fun _ _ => push)
  | pushField index =>
    exact resume (.bind a.handle.receiver_lasts fun _ _ =>
      .bind (readField_lasts _ _) fun _ _ => push)
  | pushConstant literal =>
    exact resume (.bind (Q := fun _ => True) (.get_bind fun _ => .lift _) fun _ _ => push)
  | pop => exact resume (.bind pop fun _ _ => .pure trivial)
  | popSlot area index level =>
    exact resume (.bind pop fun _ _ => FrameHandle.writeSlot_lasts _ _ _ _ _)
  | popField index =>
    exact resume (.bind pop fun _ _ => .bind (FrameHandle.receiver_lasts _) fun _ _ =>
      .bind (writeField_lasts _ _ _) fun _ _ => .pure trivial)

/-- What a step adds, but for the activation that it may start. -/
def stepLedger (a : Activation) (w : World) : Ledger :=
  match a.fetch w with
  | .ok i => a.ledger (a.traced i w) i
  | .error _ => 0

theorem step_books (hw : w.Accounts o l) (a : Activation) :
    a.step.BooksEffect w o (l + a.stepLedger w) := by
  unfold stepLedger
  cases hfetch : a.fetch w with
  | error f =>
    unfold Action.BooksEffect Ensures
    simp only [step, bind_apply, get_apply, hfetch, lift_error]
    exact hw
  | ok i =>
    exact .of_eq (step_eq hfetch) (execute_books (Kept.congr hw (a.traced_sameRecords i w)) a i)

end Activation

/-- Whether a reflective send finds its message in order, and sends it. -/
def PerformForm.sends (form : PerformForm) (w : World) (args : List Value) : Bool :=
  match Argument.any form.selector args 0, form.arguments w args with
  | .ok (.symbol s), .ok arguments => s.arity = arguments.length + 1
  | _, _ => false

/-- What an operation adds: it may send a message. -/
def Operation.ledger (op : Operation) (w : World) (args : List Value) : Ledger :=
  match op with
  | perform form => .ofDispatch (form.sends w args)
  | atomic _ | evaluate | whileLoop _ | count => 0

/-- What a call adds, but for the activation that it may start. -/
def Call.ledger (c : Call) (w : World) : Ledger :=
  match c.method, c.args with
  | .primitive p, _ :: args => (w.primitives.get p).operation.ledger w args
  | _, _ => 0

theorem PerformForm.send_books (hw : w.Accounts o l) (form : PerformForm) (receiver : Value)
    (args : List Value) :
    (form.send receiver args).Books w o (l + .ofDispatch (form.sends w args)) := by
  unfold sends
  cases hselector : Argument.any form.selector args 0 with
  | error f =>
    refine Ensures.of_error_bind (e := f) (v := w) ?_ hw
    rw [hselector, lift_error]
  | ok selector =>
    refine Ensures.of_ok_bind (a := selector) (v := w) (by rw [hselector, lift_ok]) (.get_bind ?_)
    cases harguments : form.arguments w args with
    | error f =>
      refine Ensures.of_error_bind (e := f) (v := w) (by rw [lift_error]) ?_
      cases selector <;> exact hw
    | ok arguments =>
      refine Ensures.of_ok_bind (a := arguments) (v := w) (by rw [lift_ok]) ?_
      cases selector with
      | symbol s =>
        dsimp only
        by_cases harity : s.arity = arguments.length + 1
        · rw [if_pos harity, decide_eq_true harity]
          exact dispatch_books hw receiver s arguments
        · rw [if_neg harity, decide_eq_false harity]
          exact hw
      | _ => exact hw

theorem Operation.start_books (hw : w.Accounts o l) (op : Operation) (receiver : Value)
    (args : List Value) : (op.start receiver args).Books w o (l + op.ledger w args) := by
  cases op with
  | atomic op => exact .bind (op.run_lasts receiver args w hw) fun _ _ hv => hv.1
  | perform form => exact .bind (form.send_books hw receiver args) fun _ _ hv => hv
  | evaluate =>
    exact Lasts.books (.lift_bind fun _ _ => .pure (Q := fun _ => True) trivial) hw
  | whileLoop sense =>
    exact Lasts.books (.lift_bind fun _ _ => .lift_bind fun _ _ => .lift_bind fun _ _ =>
      .pure (Q := fun _ => True) trivial) hw
  | count =>
    refine Lasts.books (Q := fun _ => True) (.lift_bind fun _ _ => .lift_bind fun _ _ =>
      .lift_bind fun body _ => ?_) hw
    cases body with
    | block b => exact .pure trivial
    | _ => exact .throw _

def Control.runs : Control → Bool
  | .run _ => true
  | .finish _ _ | .call _ | .answer _ => false

namespace Machine

/-- The counters of the machine account for this, and for an activation if one has been started to
run now. -/
def Books (m : Machine) (o : Nat) (l : Ledger) : Prop :=
  m.world.Accounts o (l + .ofStart m.control.runs)

theorem execute_books (hw : w.Accounts o l) (r : CodeRef) (args : List Value)
    (outer : Option FrameRef) (waiting : List Waiting) :
    (execute r args outer waiting w).Books o l := by
  have hstart : (RunLoop.start r args outer).Ensures w
      (fun _ v => v.Accounts o (l + .ofStart true)) fun _ v => v.Accounts o l := by
    refine .get_bind ?_
    split
    · exact hw
    · refine .bind (Activation.start_accounts hw r args outer) fun a v hv => ?_
      exact Ensures.of_ok_bind (α := Unit) rfl (hv.congr rfl rfl)
  unfold execute
  cases hrun : RunLoop.start r args outer w with
  | ok loop v => exact hstart.of_ok hrun
  | error f v => exact hstart.of_error hrun

theorem reply_books (hw : w.Accounts o l) (r : Reply) (waiting : List Waiting) :
    (reply r waiting w).Books o l := by
  match r with
  | .answer v => exact hw
  | .call c => exact hw
  | .evaluate b params none | .evaluate b params (some i) => exact execute_books hw _ _ _ _

theorem operate_books (hw : w.Accounts o l) (op : Operation) (receiver : Value) (args : List Value)
    (waiting : List Waiting) : (operate op receiver args waiting w).Books o (l + op.ledger w args) := by
  have hstart := op.start_books hw receiver args
  unfold operate
  cases hrun : op.start receiver args w with
  | ok r v => exact reply_books (hstart.of_ok hrun) r waiting
  | error f v => exact hstart.of_error hrun

theorem call_books (hw : w.Accounts o l) (c : Call) (waiting : List Waiting) :
    (call c waiting w).Books o (l + c.ledger w) := by
  obtain ⟨method, args⟩ := c
  match method, args with
  | .compiled r, args => exact execute_books hw r args none waiting
  | .primitive p, receiver :: args => exact operate_books hw _ receiver args waiting
  | .primitive p, [] => exact hw

/-- What a message from the host adds: it is dispatched, and may ask for another one at once. -/
def dispatchLedger (receiver : Value) (selector : Symbol) (args : List Value) (w : World) : Ledger :=
  .ofDispatch true +
    match Action.dispatch receiver selector args w with
    | .ok c w => c.ledger w
    | .error _ _ => 0

theorem dispatch_books (hw : w.Accounts o l) (receiver : Value) (selector : Symbol)
    (args : List Value) : (dispatch receiver selector args w).Books o
      (l + dispatchLedger receiver selector args w) := by
  have hdispatch := Action.dispatch_books hw receiver selector args
  unfold dispatch dispatchLedger
  rw [← Ledger.add_assoc]
  cases hrun : Action.dispatch receiver selector args w with
  | ok c v => exact call_books (hdispatch.of_ok hrun) c []
  | error f v => exact hdispatch.of_error hrun

/-- What the next step of a machine adds. -/
def ledger (m : Machine) : Ledger :=
  match m.control, m.waiting with
  | .run loop, _ => loop.current.stepLedger m.world + .ofStart
    (match loop.current.step m.world with
    | .ok e _ => e.starts
    | .error _ _ => false)
  | .call c, _ => c.ledger m.world + .ofStart m.step.control.runs
  | .answer _, .iteration _ :: _ => .ofStart m.step.control.runs
  | _, _ => 0

theorem step_accounts {m : Machine} (hm : m.world.Accounts o l) :
    m.step.world.Accounts o (l + m.ledger) := by
  obtain ⟨control, waiting, w⟩ := m
  cases control with
  | run loop =>
    have hstep := Activation.step_books hm loop.current
    change (advance loop waiting w).world.Accounts o (l + (_ + _))
    rw [← Ledger.add_assoc]
    unfold advance
    cases hrun : loop.current.step w with
    | error f v => exact hstep.of_error hrun
    | ok e v =>
      have he := hstep.of_ok hrun
      cases e <;> exact he
  | finish loop r => exact finish_lasts hm loop r waiting
  | call c =>
    change (call c waiting w).world.Accounts o (l + (_ + _))
    rw [← Ledger.add_assoc]
    exact call_books hm c waiting
  | answer r =>
    match waiting, r with
    | [], r => exact hm
    | .sender loop .push :: rest, r =>
      change (answer r (.sender loop .push :: rest) w).world.Accounts o l
      rw [answer_handOver]
      exact handOver_lasts hm loop r rest
    | .sender loop .complete :: rest, .ok _ | .sender loop .complete :: rest, .error _ => exact hm
    | .iteration i :: rest, .error u => exact hm
    | .iteration i :: rest, .ok x =>
      change (answer (.ok x) (.iteration i :: rest) w).Books o l
      simp only [answer]
      cases i.next x with
      | ok r => exact reply_books hm r rest
      | error f => exact hm

end Machine

namespace HostCall

/-- What a call by the host adds, but for the activation that it may start. -/
def ledger (w : World) : HostCall → Ledger
  | invoke m receiver args =>
    if args.length + 1 = w.argCount m then Call.ledger ⟨m, receiver :: args⟩ w else 0
  | send receiver selector args =>
    let (selector, w) := w.intern selector
    if args.length + 1 = selector.arity then Machine.dispatchLedger receiver selector args w else 0
  | dispatch receiver selector args => Machine.dispatchLedger receiver selector args w
  | call m args => Call.ledger ⟨m, args⟩ w
  | evaluate _ _ | execute _ _ _ => 0

theorem machine_books (hw : w.Accounts o l) (c : HostCall) :
    (c.machine w).Books o (l + c.ledger w) := by
  cases c with
  | invoke m receiver args =>
    simp only [machine, ledger]
    split
    · exact Machine.call_books hw _ []
    · exact hw
  | send receiver selector args =>
    have hinterned : (w.intern selector).2.Accounts o l := hw.congr rfl rfl
    simp only [machine, ledger]
    split
    · exact Machine.dispatch_books hinterned receiver _ args
    · exact hinterned
  | dispatch receiver selector args => exact Machine.dispatch_books hw receiver selector args
  | call m args => exact Machine.call_books hw _ []
  | evaluate b params => exact Machine.execute_books hw _ _ _ []
  | execute method args outer => exact Machine.execute_books hw method args outer []

end HostCall

namespace Request

def ledger (w : World) (r : Request) : Ledger :=
  (match r with
  | host c => c.ledger w
  | primitive op _ args => op.ledger w args) + .ofStart (r.machine w).control.runs

theorem machine_accounts (hw : w.Accounts o l) (r : Request) :
    (r.machine w).world.Accounts o (l + r.ledger w) := by
  unfold ledger
  rw [← Ledger.add_assoc]
  cases r with
  | host c => exact c.machine_books hw
  | primitive op receiver args => exact Machine.operate_books hw op receiver args []

end Request

namespace Machine

/-- From one machine to another, adding this to the ledger: the machine makes steps, and, while it waits
for its host, it is asked for something, classes and methods are altered, or the host changes something
else. A host cannot empty the inline caches. -/
inductive Course (m₀ : Machine) : Ledger → Machine → Prop where
  | start : Course m₀ 0 m₀
  | step {l : Ledger} {m : Machine} (h : Course m₀ l m) : Course m₀ (l + m.ledger) m.step
  | request {l : Ledger} {r : Outcome} {w : World} (h : Course m₀ l ⟨.answer r, [], w⟩)
      (q : Request) : Course m₀ (l + q.ledger w) (q.machine w)
  | alter {l : Ledger} {r : Outcome} {w : World} (h : Course m₀ l ⟨.answer r, [], w⟩)
      (a : Alteration) : Course m₀ l ⟨.answer r, [], w.alter a⟩
  | change {l : Ledger} {r : Outcome} {w w' : World} {held : List Grant}
      (h : Course m₀ l ⟨.answer r, [], w⟩) (hc : HostChange held w w')
      (hkeeps : w' ≠ w.withoutCaches) : Course m₀ l ⟨.answer r, [], w'⟩

/-- The next step of the machine is that of a block which comes to decide whether the activation that it
is to return from is alive. -/
def Decides (m : Machine) : Prop :=
  ∃ loop, m.next? = some (loop, .returnNonLocal) ∧
    (loop.current.decision? (loop.current.traced .returnNonLocal m.world)).isSome

/-- The counters account for the ledger, and the next step counts one decision if it makes one. -/
structure Accounted (m : Machine) (occupied : Nat) (l : Ledger) : Prop extends
    m.world.Accounts occupied l where
  decides : m.Decides →
    (m.step.world.counters.nonLocalReturns = m.world.counters.nonLocalReturns + 1 ∧
      m.step.world.counters.escapedBlocks = m.world.counters.escapedBlocks) ∨
    (m.step.world.counters.nonLocalReturns = m.world.counters.nonLocalReturns ∧
      m.step.world.counters.escapedBlocks = m.world.counters.escapedBlocks + 1)

theorem Course.accounts {m₀ m : Machine} (h : m₀.Course l m)
    (hzero : m₀.world.counters = .zero) : m.world.Accounts m₀.world.occupied l := by
  induction h with
  | start =>
    constructor <;> rw [hzero]
    exacts [rfl, Nat.zero_add _, rfl, rfl, rfl, rfl]
  | step _ ih => exact step_accounts ih
  | request _ q ih => exact q.machine_accounts ih
  | @alter l r w _ a ih =>
    have hcounts := w.alter_rests a
    exact ih.congr hcounts.counters hcounts.caches
  | change _ hc hkeeps ih =>
    have hcounts := hc.counts hkeeps
    exact ih.congr hcounts.counters hcounts.caches

theorem ledger_of_decides {m : Machine} (h : m.Decides) :
    (m.ledger.returns = 1 ∧ m.ledger.escapes = 0) ∨ (m.ledger.returns = 0 ∧ m.ledger.escapes = 1) := by
  obtain ⟨loop, hnext, hdecides⟩ := h
  obtain ⟨hcontrol, hfetch⟩ := next?_eq_some.mp hnext
  obtain ⟨⟨home, live⟩, hdecision⟩ := Option.isSome_iff_exists.mp hdecides
  have hstep : loop.current.stepLedger m.world =
      .ofDecision live + .ofDispatch (!live && (home.read .arguments 0).isOk) := by
    rw [Activation.stepLedger, hfetch]
    dsimp only [Activation.ledger]
    rw [hdecision]
  simp only [ledger, hcontrol, hstep]
  cases live with
  | true => exact .inl ⟨rfl, rfl⟩
  | false => exact .inr ⟨rfl, rfl⟩

/-- Counters that are reset account for all that happens from then on. -/
theorem Course.accounted {m₀ m : Machine} (h : m₀.Course l m)
    (hzero : m₀.world.counters = .zero) : m.Accounted m₀.world.occupied l := by
  have hbefore := h.accounts hzero
  have hafter := h.step.accounts hzero
  refine ⟨hbefore, fun hdecides => ?_⟩
  have hreturns : m.step.world.counters.nonLocalReturns = l.returns + m.ledger.returns := hafter.returns
  have hescapes : m.step.world.counters.escapedBlocks = l.escapes + m.ledger.escapes := hafter.escapes
  rw [hreturns, hescapes, hbefore.returns, hbefore.escapes]
  obtain ⟨hlive, hgone⟩ | ⟨hlive, hgone⟩ := ledger_of_decides hdecides <;> rw [hlive, hgone]
  · exact .inl ⟨rfl, rfl⟩
  · exact .inr ⟨rfl, rfl⟩

def ledgerAfter (m : Machine) : Nat → Ledger
  | 0 => 0
  | n + 1 => m.ledgerAfter n + (m.after n).ledger

theorem Course.after {m₀ m : Machine} (h : m₀.Course l m) (n : Nat) :
    m₀.Course (l + m.ledgerAfter n) (m.after n) := by
  induction n with
  | zero => exact h
  | succ n ih =>
    rw [ledgerAfter, ← Ledger.add_assoc, after_succ]
    exact ih.step

set_option maxRecDepth 100000 in
theorem accounted_compared :
    let q := Request.host (.send (.boolean true) "~=" [.nil])
    let l := 0 + q.ledger World.standard + (q.machine World.standard).ledgerAfter 11
    Course ⟨.answer (.ok .nil), [], World.standard⟩ l compared ∧
      World.standard.counters = .zero ∧ compared.Accounted World.standard.occupied l ∧
      l = ⟨0, 1, 0, 2, 0, 0⟩ ∧ compared.world.counters.lookups = 3 := by
  intro q l
  have hcourse : Course ⟨.answer (.ok .nil), [], World.standard⟩ l compared :=
    (Course.start.request q).after 11
  obtain ⟨hzero, hledger, hlookups⟩ : World.standard.counters = .zero ∧ l = ⟨0, 1, 0, 2, 0, 0⟩ ∧
      compared.world.counters.lookups = 3 := by
    decide +kernel
  exact ⟨hcourse, hzero, hcourse.accounted hzero, hledger, hlookups⟩

end Machine

end MessageMachine
