import MessageMachine.Proofs.Sending
import MessageMachine.Proofs.Signatures

namespace MessageMachine

open Relation
open World (Lasting)
open MessageMachine.Action

/-- Something was given the wrong number of arguments. -/
def Fault.isMismatch : Fault → Bool
  | .arityMismatch _ _ _ => true
  | _ => false

namespace Frame

variable {f f' : Frame} {e : Fault} {n : Nat} {xs : List Value}

theorem length_of_popN (h : f.popN n = .ok (xs, f')) : xs.length = n := by
  unfold popN at h
  split at h
  · cases h
  · next hdepth =>
    dsimp only at h
    split at h
    · next htop =>
      cases h
      have hle : f.depth ≤ f.top := Nat.sub_le _ _
      simp only [Array.length_toList, Array.size_extract]
      omega
    · cases h

theorem popN_matches (h : f.popN n = .error e) : ¬ e.isMismatch := by
  obtain rfl | rfl := popN_eq_error h <;> nofun

theorem peek_matches (h : f.peek n = .error e) : ¬ e.isMismatch := by
  obtain rfl | rfl := peek_eq_error h <;> nofun

end Frame

theorem World.symbolLiteral_matches {w : World} {r : CodeRef} {index : Nat} {e : Fault}
    (h : w.symbolLiteral r index = .error e) : ¬ e.isMismatch := by
  obtain rfl | rfl := symbolLiteral_eq_error h <;> nofun

namespace World

variable {w v : World} {c : ClassRef} {s : Symbol} {m : Method}

/-- A call with as many arguments as its method takes. If it evaluates a block, the block takes as
many too. -/
structure Takes (w : World) (c : Call) : Prop where
  count : c.args.length = w.argCount c.method
  block : ∀ p b rest, c.method = .primitive p → (w.primitives.get p).operation = .evaluate →
    c.args = .block b :: rest → (w.code b.code).argCount = c.args.length

theorem Suits.argCount (h : w.Suits c s m) : w.argCount m = s.arity := by
  rw [World.argCount, h.signature]

/-- Blocks that a primitive of their class evaluates take as many arguments as its selector says. -/
theorem Suits.evaluated {b : Block} {p : PrimitiveRef} (hcodes : v.codes = w.codes)
    (h : w.Suits (v.classOf (.block b)) s (.primitive p))
    (hp : (w.primitives.get p).evaluatesBlock) : (w.code b.code).argCount = s.arity := by
  have hcode : v.code b.code = w.code b.code := by rw [code, hcodes, code]
  refine (h.blocks p rfl hp).2 _ ?_
  rw [classOf_block, hcode]

theorem Suits.takes {receiver : Value} {args : List Value} (hcodes : v.codes = w.codes)
    (h : w.Suits (v.classOf receiver) s m) (hargs : args.length + 1 = s.arity) :
    w.Takes ⟨m, receiver :: args⟩ where
  count := hargs.trans h.argCount.symm
  block := by
    rintro p b rest ⟨⟩ hop ⟨⟩
    exact (h.evaluated hcodes (h.evaluates p rfl hop)).trans hargs.symm

theorem Keeps.takes (h : w.Keeps v) {c : Call} (hc : w.Takes c) : v.Takes c := by
  have hcode (r : CodeRef) : v.code r = w.code r := by rw [code, h.codes, code]
  have hsignature (m : Method) : v.signature m = w.signature m := by
    cases m with
    | compiled r => rw [signature, hcode, signature]
    | primitive p => rw [signature, h.primitives, signature]
  refine ⟨?_, fun p b rest hm hop hargs => ?_⟩
  · rw [argCount, hsignature]
    exact hc.count
  · rw [h.primitives] at hop
    rw [hcode]
    exact hc.block p b rest hm hop hargs

theorem Keeps.fill (h : w.Keeps v) (caches : Table (CodeRef × Nat) InlineCache) :
    w.Keeps { v with caches } := ⟨h.keyed, h.classes, h.codes, h.primitives, h.memos⟩

instance : Lasting w.Keeps where
  congr := fun h hs =>
    { keyed := h.keyed
      classes := hs.classes.trans h.classes
      codes := hs.codes.trans h.codes
      primitives := hs.primitives.trans h.primitives
      memos := fun hm => h.memos (hs.memos ▸ hm) }
  count := fun h _ => ⟨h.keyed, h.classes, h.codes, h.primitives, h.memos⟩
  lookup := fun h c selector => (h.lookup c selector).2

end World

variable {w v : World} {α β : Type} {Q : α → Prop} {R : β → Prop}

/-- Where all that can be found suits, it still does afterwards, and the answer is like this. If there
is none, then not for the number of arguments. -/
def Action.Matches (w : World) (x : Action α) (Q : α → Prop) : Prop :=
  ∀ v, w.Keeps v → x.Ensures v (fun a v' => w.Keeps v' ∧ Q a) fun f v' => w.Keeps v' ∧ ¬ f.isMismatch

namespace Action

namespace Matches

theorem pure {a : α} (h : Q a) : Matches w (pure a) Q := fun _ hv => ⟨hv, h⟩

theorem throw {f : Fault} (h : ¬ f.isMismatch) : Matches w (throw f : Action α) Q :=
  fun _ hv => ⟨hv, h⟩

theorem bind {x : Action α} {f : α → Action β} (hx : Matches w x Q)
    (hf : ∀ a, Q a → Matches w (f a) R) : Matches w (x >>= f) R :=
  fun v hv => Ensures.bind (hx v hv) fun a v' ⟨hv', ha⟩ => hf a ha v' hv'

theorem read {f : World → Action α} (hf : ∀ v, w.Keeps v → Matches w (f v) Q) :
    Matches w (get >>= f) Q := fun v hv => .get_bind (hf v hv v hv)

theorem of_lasts {x : Action α} (hx : Lasts w.Keeps x Q)
    (hfails : ∀ v f v', w.Keeps v → x v = .error f v' → ¬ f.isMismatch) : Matches w x Q := by
  intro v hv
  have hensures := hx v hv
  unfold Ensures at hensures ⊢
  cases hrun : x v with
  | ok a v' => rwa [hrun] at hensures
  | error f v' =>
    rw [hrun] at hensures
    exact ⟨hensures, hfails v f v' hv hrun⟩

theorem lasts {x : Action α} (hx : Matches w x Q) : Lasts w.Keeps x Q :=
  fun v hv => (hx v hv).mono (fun _ _ => id) fun _ _ h => h.1

theorem update {f : World → α × World} (h : ∀ v : World, v.SameRecords (f v).2) :
    Matches w (Action.update f) fun _ => True := Lasts.update (P := w.Keeps) h

theorem count (f : Counters → Counters) : Matches w (Action.count f) fun _ => True :=
  Lasts.count (P := w.Keeps) f

theorem note (e : Event) : Matches w (Action.note e) fun _ => True := Lasts.note (P := w.Keeps) e

theorem intern (name : String) : Matches w (Action.intern name) fun s => s.name = name :=
  fun v hv => (Lasts.intern (P := w.Keeps) name v hv).of_ok (x := Action.intern name) rfl

theorem lookup (c : ClassRef) (selector : Symbol) :
    Matches w (Action.lookup c selector) fun m => ∀ m', m = some m' → w.Suits c selector m' := by
  refine .bind (.count _) fun _ _ v hv => ?_
  obtain ⟨hfound, hkeeps⟩ := hv.lookup c selector
  exact ⟨hkeeps, hfound⟩

end Matches

theorem doesNotUnderstand_matches (receiver : Value) (selector : Symbol) (args : List Value) :
    Matches w (doesNotUnderstand receiver selector args) w.Takes := by
  refine .bind (.count _) fun _ _ => ?_
  refine .bind (.update fun _ => .elsewhere) fun _ _ => ?_
  refine .bind (.note _) fun _ _ => .bind (.intern _) fun handler hname => .read fun v hv => ?_
  refine .bind (.lookup _ _) fun m hm => ?_
  cases m with
  | none => exact .throw nofun
  | some m =>
    have harity : handler.arity = 3 := by
      rw [Symbol.arity, hname]
      decide +kernel
    exact .pure ((hm m rfl).takes hv.codes harity.symm)

theorem dispatch_ensures (hv : w.Keeps v) (receiver : Value) (selector : Symbol) (args : List Value)
    (hargs : (v.lookup (v.classOf receiver) selector).1 ≠ none → args.length + 1 = selector.arity) :
    (dispatch receiver selector args).Ensures v (fun c v' => w.Keeps v' ∧ w.Takes c)
      fun f v' => w.Keeps v' ∧ ¬ f.isMismatch := by
  have hlookup : (Action.lookup (v.classOf receiver) selector).Ensures v
      (fun m v' => w.Keeps v' ∧ (∀ m', m = some m' → w.Suits (v.classOf receiver) selector m') ∧
        m = (v.lookup (v.classOf receiver) selector).1)
      fun _ _ => False := by
    refine .bind (Q := fun _ v' => v' = v.count fun n => { n with lookups := n.lookups + 1 }) rfl ?_
    rintro _ _ rfl
    have hcounted : w.Keeps (v.count fun n => { n with lookups := n.lookups + 1 }) :=
      Lasting.count hv _
    obtain ⟨hfound, hkeeps⟩ := hcounted.lookup (v.classOf receiver) selector
    have hsame := World.lookup_congr (v := v.count fun n => { n with lookups := n.lookups + 1 })
      (w := v) rfl rfl (v.classOf receiver) selector
    exact ⟨hkeeps, hfound, hsame⟩
  refine .get_bind (.bind (hlookup.mono (fun _ _ => id) fun _ _ => False.elim) ?_)
  rintro m v' ⟨hkeeps, hsuits, hm⟩
  cases m with
  | none => exact doesNotUnderstand_matches receiver selector args v' hkeeps
  | some m => exact ⟨hkeeps, (hsuits m rfl).takes hv.codes (hargs (hm ▸ nofun))⟩

theorem dispatch_matches (receiver : Value) {selector : Symbol} {args : List Value}
    (hargs : args.length + 1 = selector.arity) :
    Matches w (dispatch receiver selector args) w.Takes :=
  fun _ hv => dispatch_ensures hv receiver selector args fun _ => hargs

theorem unknownGlobal_matches (receiver : Value) (name : Symbol) :
    Matches w (unknownGlobal receiver name) w.Takes := by
  refine .bind (.count _) fun _ _ => .bind (.note _) fun _ _ => ?_
  refine .bind (.intern _) fun handler hname => dispatch_matches receiver ?_
  rw [Symbol.arity, hname]
  change 2 = _
  decide +kernel

theorem escapedBlock_matches (receiver block : Value) :
    Matches w (escapedBlock receiver block) w.Takes := by
  refine .bind (.intern _) fun handler hname => dispatch_matches receiver ?_
  rw [Symbol.arity, hname]
  change 2 = _
  decide +kernel

/-- A site that knows the class of the receiver knows a method that suits, and so does a lookup. -/
theorem resolve_matches (hv : w.Keeps v) {method : CodeRef} {offset : Nat} {selector : Symbol}
    (hsite : ∀ e ∈ (v.cacheAt method offset).entries, w.Suits e.cls selector e.method)
    (c : ClassRef) : (resolve method offset c selector).Ensures v
      (fun target v' => w.Keeps v' ∧ v'.frames = v.frames ∧
        ∀ m, target = some m → w.Suits c selector m) fun _ _ => False := by
  have hlasts : Lasts w.Keeps (resolve method offset c selector) fun _ => True :=
    resolve_lasts (fun h => h.fill _) c selector
  have hquiet : Quiet (fun _ => True) (fun _ => True) (resolve method offset c selector) _ :=
    resolve_quiet method offset c selector
  have hkeeps := hlasts v hv
  have hstill := hquiet v v.holds_true
  have hfound : ∃ target v', resolve method offset c selector v = .ok target v' ∧
      ∀ m, target = some m → w.Suits c selector m := by
    cases hfind : (v.cacheAt method offset).find? c with
    | some m =>
      refine ⟨_, _, resolve_hit hfind selector, ?_⟩
      rintro _ ⟨⟩
      simp only [InlineCache.find?, Option.map_eq_some_iff] at hfind
      obtain ⟨e, he, rfl⟩ := hfind
      have hclass : e.cls = c := by simpa using List.find?_some he
      exact hclass ▸ hsite e (List.mem_of_find?_eq_some he)
    | none =>
      obtain ⟨v', hrun, -⟩ := resolve_miss hfind selector
      exact ⟨_, v', hrun, (hv.lookup c selector).1⟩
  obtain ⟨target, v', hrun, hsuits⟩ := hfound
  unfold Ensures
  rw [hrun]
  exact ⟨(hkeeps.of_ok hrun).1, (hstill.of_ok hrun).2.1.frames, hsuits⟩

theorem resolveSuper_matches (method : CodeRef) (selector : Symbol) :
    Matches w (resolveSuper method selector) fun target =>
      ∀ m, target = some m → ∃ c, w.Suits c selector m := by
  refine .read fun v hv => ?_
  cases v.holder? (.compiled method) with
  | none => exact .throw nofun
  | some holder =>
    dsimp only
    cases (v.cls holder).superclass with
    | none => exact .pure nofun
    | some s =>
      exact fun v hv => (Matches.lookup s selector v hv).mono
        (fun _ _ h => ⟨h.1, fun m hm => ⟨s, h.2 m hm⟩⟩) fun _ _ => id

end Action

namespace Operation

theorem start_takes (op : Operation) (receiver : Value) (args : List Value) :
    Lasts w.Keeps (op.start receiver args) fun r => ∀ c, r = .call c → w.Takes c := by
  cases op with
  | perform form =>
    refine .bind (Q := w.Takes) ?_ fun c hc => .pure ?_
    · refine .lift_bind fun selector _ => .get_bind fun v => .lift_bind fun arguments _ => ?_
      cases selector with
      | symbol s =>
        dsimp only
        split
        · next harity => exact (dispatch_matches receiver harity.symm).lasts
        · exact .throw _
      | _ => exact .throw _
    · rintro _ ⟨⟩
      exact hc
  | atomic | evaluate | whileLoop | count =>
    refine (start_lasts _ receiver args).mono fun r hr c hc => ?_
    obtain ⟨form, hop, -⟩ := hr c hc
    cases hop

end Operation

def Effect.Calls (P : Call → Prop) : Effect → Prop
  | .callOut _ c _ => P c
  | .resume _ | .activate _ _ | .complete _ | .unwind _ _ => True

/-- The arguments that are popped are as many as asked for, and the first of them stood deepest; a pop
that fails is no mismatch. -/
theorem FrameHandle.popN_matches (a : FrameHandle) {n : Nat} (hv : w.Keeps v) :
    (a.popN n).Ensures v
      (fun p v' => w.Keeps v' ∧ p.1.length = n ∧
        ∀ x rest, p.1 = x :: rest → (a.frame v).peek (n - 1) = .ok x)
      fun f _ => ¬ f.isMismatch := by
  have hlasts := a.take_lasts (P := w.Keeps) (·.popN n) v hv
  unfold Ensures at hlasts ⊢
  unfold popN
  rw [take_apply] at hlasts ⊢
  cases hop : (a.frame v).popN n with
  | error e => exact Frame.popN_matches hop
  | ok p =>
    rw [hop] at hlasts
    refine ⟨hlasts.1, Frame.length_of_popN hop, fun x rest hx => ?_⟩
    obtain ⟨xs, f⟩ := p
    obtain rfl : xs = x :: rest := hx
    exact Frame.peek_of_popN hop

namespace Activation

/-- A body that is given as many arguments as it takes may fail to start, but not for their number. -/
theorem start_error {r : CodeRef} {args : List Value} {outer : Option FrameRef} {f : Fault}
    (hargs : args.length = (w.code r).argCount) (h : start r args outer w = .error f v) :
    ¬ f.isMismatch := by
  simp only [start, bind_apply, get_apply] at h
  split at h
  · cases h
    exact Bool.false_ne_true
  · simp only [makeFrame, bind_apply, get_apply, Frame.create, if_pos hargs] at h
    cases h

theorem start_matches {r : CodeRef} {args : List Value} (outer : Option FrameRef)
    (hargs : args.length = (w.code r).argCount) : Matches w (start r args outer) fun _ => True := by
  refine .of_lasts ((start_lasts r args outer).mono fun _ _ => trivial) fun v f v' hv => start_error ?_
  rw [World.code, hv.codes]
  exact hargs

/-- The target of a send that was chosen for another number of arguments than the block takes that it
is to evaluate. -/
def Misleads (a : Activation) (w : World) (target : Option Method) (selector : Symbol) : Prop :=
  ∃ p b, target = some (.primitive p) ∧ (w.primitives.get p).evaluatesBlock ∧
    (a.handle.frame w).peek (selector.arity - 1) = .ok (.block b) ∧
    (w.code b.code).argCount ≠ selector.arity

/-- A method that was found for a selector is entered with as many arguments as it takes. -/
theorem enter_matches (a : Activation) {target : Option Method} {selector : Symbol}
    (hv : w.Keeps v) (htarget : ∀ m, target = some m → ∃ c, w.Suits c selector m) :
    (a.enter target selector).Ensures v (fun e v' => w.Keeps v' ∧ e.Calls w.Takes)
      fun f _ => f.isMismatch → a.Misleads v target selector := by
  have started {r : CodeRef} {args : List Value} {outer : Option FrameRef} {sender : Activation}
      {v' : World} (hv' : w.Keeps v') (hargs : args.length = (w.code r).argCount) :
      (do return Effect.activate sender (← start r args outer) : Action Effect).Ensures v'
        (fun e v' => w.Keeps v' ∧ e.Calls w.Takes)
        fun f _ => f.isMismatch → a.Misleads v target selector := by
    refine .bind ((start_matches outer hargs v' hv').mono (fun _ _ => id) ?_) fun _ _ h =>
      ⟨h.1, trivial⟩
    exact fun f _ h hf => absurd hf h.2
  refine .bind ((a.handle.popN_matches hv).mono (fun _ _ => id) fun f _ h hf => absurd hf h) ?_
  rintro ⟨args, handle⟩ v' ⟨hv', hlength, hfirst⟩
  dsimp only at hlength hfirst ⊢
  match target with
  | some (.compiled c) =>
    obtain ⟨k, hm⟩ := htarget _ rfl
    exact started hv' (hlength.trans hm.argCount.symm)
  | none =>
    refine .bind ((doesNotUnderstand_matches _ _ _ v' hv').mono (fun _ _ => id) ?_) fun _ _ h => h
    exact fun f _ h hf => absurd hf h.2
  | some (.primitive p) =>
    obtain ⟨k, hm⟩ := htarget _ rfl
    have hcount : args.length = w.argCount (.primitive p) := hlength.trans hm.argCount.symm
    refine .get_bind ?_
    split
    · next b hevaluates hhead =>
      obtain ⟨rest, rfl⟩ : ∃ rest, args = .block b :: rest := by
        cases args with
        | nil => cases hhead
        | cons x rest =>
          cases hhead
          exact ⟨rest, rfl⟩
      by_cases hblock : (v.code b.code).argCount = selector.arity
      · have hcode : v.code b.code = w.code b.code := by rw [World.code, hv.codes, World.code]
        exact started hv' (hlength.trans (hblock.symm.trans (congrArg Code.argCount hcode)))
      · have hprimitive : (v.primitives.get p).evaluatesBlock := by
          rw [hv.primitives, ← hv'.primitives]
          exact hevaluates
        refine .bind ((start_lasts (P := w.Keeps) _ _ _ v' hv').mono (fun _ _ => id) ?_)
          fun _ _ h => ⟨h.1, trivial⟩
        exact fun _ _ _ _ => ⟨p, b, rfl, hprimitive, hfirst _ _ rfl, hblock⟩
    · next hother =>
      refine ⟨hv', hcount, ?_⟩
      rintro q b rest ⟨⟩ hop rfl
      refine absurd ?_ (hother b · rfl)
      rw [hv'.primitives]
      exact hm.evaluates p rfl hop

theorem send_matches (a : Activation) {offset : Nat} {selector : Symbol} (hv : w.Keeps v)
    (hsite : ∀ e ∈ (v.cacheAt a.method offset).entries, w.Suits e.cls selector e.method) :
    (a.send offset selector).Ensures v (fun e v' => w.Keeps v' ∧ e.Calls w.Takes)
      fun f _ => ¬ f.isMismatch := by
  unfold Ensures send
  rw [bind_apply, FrameHandle.peek_apply]
  cases hpeek : (a.handle.frame v).peek (selector.arity - 1) with
  | error e => exact Frame.peek_matches hpeek
  | ok receiver =>
    refine Ensures.get_bind (.bind ((resolve_matches hv hsite (v.classOf receiver)).mono
      (fun _ _ => id) fun _ _ => False.elim) ?_)
    rintro target v' ⟨hv', hframes, htarget⟩
    refine (a.enter_matches hv' fun m hm => ⟨_, htarget m hm⟩).mono (fun _ _ => id) ?_
    intro f _ hmisleads hf
    obtain ⟨p, b, rfl, hevaluates, hblock, hne⟩ := hmisleads hf
    -- The receiver is still the one whose class was looked at.
    have hframe : a.handle.frame v' = a.handle.frame v := a.handle.frame_congr hframes
    rw [hframe, hpeek] at hblock
    cases hblock
    have hcode : v'.code b.code = w.code b.code := by rw [World.code, hv'.codes, World.code]
    rw [hv'.primitives] at hevaluates
    rw [hcode] at hne
    exact hne ((htarget _ rfl).evaluated hv.codes hevaluates)

/-- What a super send finds was made for its selector, but need not suit the class of its receiver. -/
theorem superSend_matches (a : Activation) {selector : Symbol} (hv : w.Keeps v) :
    (a.superSend selector).Ensures v (fun e v' => w.Keeps v' ∧ e.Calls w.Takes)
      fun f _ => f.isMismatch → ∃ p v', resolveSuper a.method selector v = .ok (some (.primitive p)) v' ∧
        (w.primitives.get p).evaluatesBlock := by
  have hresolve := resolveSuper_matches a.method selector v hv
  unfold Ensures superSend
  rw [bind_apply]
  cases hrun : resolveSuper a.method selector v with
  | error f v' => exact fun hf => absurd hf (hresolve.of_error hrun).2
  | ok target v' =>
    obtain ⟨hv', htarget⟩ := hresolve.of_ok hrun
    refine (a.enter_matches hv' htarget).mono (fun _ _ => id) ?_
    intro f _ hmisleads hf
    obtain ⟨p, b, rfl, hevaluates, -⟩ := hmisleads hf
    exact ⟨p, v', rfl, hv'.primitives ▸ hevaluates⟩

theorem returnNonLocal_calls (a : Activation) :
    Lasts w.Keeps a.returnNonLocal (·.Calls w.Takes) := by
  refine .bind (a.handle.take_lasts _) fun ⟨x, handle⟩ _ => .get_bind fun v => ?_
  split
  · exact .pure trivial
  refine .lift_bind fun self _ => ?_
  split
  · refine .lift_bind fun home _ => ?_
    dsimp only
    split
    · exact .bind (.count _) fun _ _ => .bind (.note _) fun _ _ => .pure trivial
    · refine .bind (.count _) fun _ _ => .lift_bind fun receiver _ => .bind (.note _) fun _ _ => ?_
      exact .bind (escapedBlock_matches _ _).lasts fun _ hc => .pure hc
  · exact .throw _

/-- The search for a method begins in the world as it was, but for the trace of the instruction. -/
theorem keeps_traced (a : Activation) (i : Instruction) (hw : w.Keyed) : w.Keeps (a.traced i w) :=
  World.Kept.congr hw.keeps (a.traced_sameRecords i w)

theorem symbolLiteral_traced (a : Activation) (i : Instruction) (w : World) (index : Nat) :
    (a.traced i w).symbolLiteral a.method index = w.symbolLiteral a.method index := by
  obtain ⟨journal, h⟩ := a.traced_eq i w
  rw [h]
  rfl

theorem step_send_matches {a : Activation} {l : UInt8} (hw : w.Keyed)
    (hfetch : a.fetch w = .ok (.send l)) :
    a.step.Ensures w (fun e _ => e.Calls w.Takes) fun f _ => ¬ f.isMismatch := by
  unfold Ensures
  rw [step_eq hfetch]
  simp only [execute, bind_apply, symbolLiteral_apply, symbolLiteral_traced]
  cases hselector : w.symbolLiteral a.method l.toNat with
  | error f => exact World.symbolLiteral_matches hselector
  | ok selector =>
    have hat : w.selectorAt? a.method a.offset = some selector := by
      simp only [World.selectorAt?, fetch_eq_ok hfetch, hselector]
      rfl
    have hsite (e : CacheEntry) (he : e ∈ ((a.traced (.send l) w).cacheAt a.method a.offset).entries) :
        w.Suits e.cls selector e.method := by
      rw [World.cacheAt, (a.traced_sameRecords (.send l) w).caches] at he
      exact (hw.sites he).2 selector hat
    exact (send_matches { a with offset := a.offset + 2 } (a.keeps_traced _ hw) hsite).mono
      (fun _ _ h => h.2) fun _ _ => id

theorem step_superSend_matches {a : Activation} {l : UInt8} (hw : w.Keyed)
    (hfetch : a.fetch w = .ok (.superSend l)) :
    a.step.Ensures w (fun e _ => e.Calls w.Takes)
      fun f _ => f.isMismatch → ∃ selector p v, w.symbolLiteral a.method l.toNat = .ok selector ∧
        resolveSuper a.method selector (a.traced (.superSend l) w) = .ok (some (.primitive p)) v ∧
        (w.primitives.get p).evaluatesBlock := by
  unfold Ensures
  rw [step_eq hfetch]
  simp only [execute, bind_apply, symbolLiteral_apply, symbolLiteral_traced]
  cases hselector : w.symbolLiteral a.method l.toNat with
  | error f => exact fun hf => absurd hf (World.symbolLiteral_matches hselector)
  | ok selector =>
    refine (superSend_matches { a with offset := a.offset + 2 } (a.keeps_traced _ hw)).mono
      (fun _ _ h => h.2) fun f _ hmisleads hf => ?_
    obtain ⟨p, v, hresolve, hevaluates⟩ := hmisleads hf
    exact ⟨selector, p, v, rfl, hresolve, hevaluates⟩

theorem step_calls (a : Activation) (hw : w.Keyed) :
    a.step.Ensures w (fun e _ => e.Calls w.Takes) fun _ _ => True := by
  cases hfetch : a.fetch w with
  | error f =>
    unfold Ensures
    simp only [step, bind_apply, get_apply, hfetch, lift_error]
  | ok i =>
    have of_lasts {x : Action Effect} (hx : Lasts w.Keeps x (·.Calls w.Takes)) :
        x.Ensures (a.traced i w) (fun e _ => e.Calls w.Takes) fun _ _ => True :=
      (hx _ (a.keeps_traced i hw)).mono (fun _ _ h => h.2) fun _ _ _ => trivial
    have ends {γ : Type} {x : Action γ} {f : γ → Effect} (hf : ∀ y, (f y).Calls w.Takes) :
        Ensures (do return f (← x)) (a.traced i w) (fun e _ => e.Calls w.Takes) fun _ _ => True := by
      unfold Ensures
      rw [bind_apply]
      cases x (a.traced i w) with
      | ok y v => exact hf y
      | error e v => trivial
    cases i with
    | send l => exact (step_send_matches hw hfetch).mono (fun _ _ => id) fun _ _ _ => trivial
    | superSend l =>
      exact (step_superSend_matches hw hfetch).mono (fun _ _ => id) fun _ _ _ => trivial
    | pushGlobal l =>
      refine .of_eq (step_eq hfetch) (of_lasts ?_)
      refine .bind (Q := fun _ => True) (.get_bind fun _ => .lift _) fun name _ => .get_bind fun v => ?_
      cases v.global? name with
      | some x => exact .bind (FrameHandle.modify_lasts _ _) fun _ _ => .pure trivial
      | none =>
        refine .bind (FrameHandle.receiver_lasts _) fun _ _ => ?_
        exact .bind (unknownGlobal_matches _ _).lasts fun _ hc => .pure hc
    | returnNonLocal => exact .of_eq (step_eq hfetch) (of_lasts (returnNonLocal_calls _))
    | halt | dup | pushSlot | pushField | pushBlock | pushConstant | pop | popSlot | popField
    | returnLocal => exact .of_eq (step_eq hfetch) (ends fun _ => trivial)

theorem made_of_fetch {a : Activation} {i : Instruction} (h : a.fetch w = .ok i) :
    w.Made (.compiled a.method) := by
  by_contra hmade
  have hcode : w.code a.method = default :=
    congrArg Compiled.code (Arena.get_of_le _ (Nat.le_of_not_lt hmade))
  obtain ⟨hlength, hle⟩ := MessageMachine.fetch_le (fetch_eq_ok h)
  rw [hcode] at hle
  exact absurd (Nat.le_trans (Nat.le_add_left _ _) hle) (Nat.not_le.mpr hlength)

end Activation

def Control.Calls (P : Call → Prop) : Control → Prop
  | .call c => P c
  | .run _ | .finish _ _ | .answer _ => True

theorem Control.Calls.keeps {control : Control} (hv : w.Keeps v) (h : control.Calls w.Takes) :
    control.Calls v.Takes := by
  cases control with
  | call c => exact hv.takes h
  | run | finish | answer => trivial

namespace Machine

variable {P : Call → Prop}

theorem execute_calls (r : CodeRef) (args : List Value) (outer : Option FrameRef)
    (waiting : List Waiting) (w : World) : (execute r args outer waiting w).control.Calls P := by
  unfold execute
  cases RunLoop.start r args outer w <;> trivial

theorem handOver_calls (loop : RunLoop) (o : Outcome) (waiting : List Waiting) (w : World) :
    (handOver loop o waiting w).control.Calls P := by
  cases o with
  | error u => trivial
  | ok x =>
    change (deliver loop x waiting w).control.Calls P
    unfold deliver
    cases loop.push x w <;> trivial

theorem reply_calls {r : Reply} (h : ∀ c, r = .call c → P c) (waiting : List Waiting) (w : World) :
    (reply r waiting w).control.Calls P := by
  match r with
  | .answer x => trivial
  | .call c => exact h c rfl
  | .evaluate b params none | .evaluate b params (some i) => exact execute_calls _ _ _ _ _

theorem finish_calls (loop : RunLoop) (o : Outcome) (waiting : List Waiting) (w : World) :
    (finish loop o waiting w).control.Calls P := by
  obtain ⟨current, suspended⟩ := loop
  rw [Footing.finish_eq]
  cases suspended with
  | nil => trivial
  | cons sender rest => exact handOver_calls _ _ _ _

theorem answer_calls (o : Outcome) (waiting : List Waiting) (w : World) :
    (answer o waiting w).control.Calls P := by
  match waiting, o with
  | [], o => trivial
  | .sender loop .push :: rest, o =>
    rw [answer_handOver]
    exact handOver_calls loop o rest w
  | .sender loop .complete :: rest, .ok _ | .sender loop .complete :: rest, .error _ => trivial
  | .iteration i :: rest, .error u => trivial
  | .iteration i :: rest, .ok x =>
    simp only [answer]
    cases hnext : i.next x with
    | error f => trivial
    | ok r =>
      refine reply_calls (fun c hr => ?_) rest w
      subst hr
      -- A loop over blocks only evaluates them.
      cases i with
      | testing t b sense =>
        cases x with
        | boolean answer =>
          simp only [Iteration.next, Except.ok.injEq] at hnext
          split at hnext <;> cases hnext
        | _ => cases hnext
      | repeating t b sense => cases hnext
      | counting b start current limit =>
        simp only [Iteration.next, Except.ok.injEq, Iteration.countFrom] at hnext
        split at hnext
        · split at hnext <;> cases hnext
        · cases hnext

theorem operate_calls (hv : w.Keeps v) (op : Operation) (receiver : Value) (args : List Value)
    (waiting : List Waiting) : (operate op receiver args waiting v).control.Calls w.Takes := by
  have hstart := op.start_takes receiver args v hv
  unfold operate
  cases hrun : op.start receiver args v with
  | ok r v' => exact reply_calls (hstart.of_ok hrun).2 waiting v'
  | error f v' => trivial

theorem call_calls (hv : w.Keeps v) (c : Call) (waiting : List Waiting) :
    (call c waiting v).control.Calls w.Takes := by
  obtain ⟨method, args⟩ := c
  match method, args with
  | .compiled r, args => exact execute_calls r args none waiting v
  | .primitive p, receiver :: args => exact operate_calls hv _ receiver args waiting
  | .primitive p, [] => trivial

theorem dispatch_calls (hv : w.Keeps v) (receiver : Value) (selector : Symbol) (args : List Value) :
    (dispatch receiver selector args v).control.Calls w.Takes := by
  have hdispatch := dispatch_lasts (P := w.Keeps) receiver selector args v hv
  unfold dispatch
  cases hrun : Action.dispatch receiver selector args v with
  | ok c v' => exact call_calls (hdispatch.of_ok hrun).1 c []
  | error f v' => trivial

theorem step_calls {m : Machine} (hm : m.world.Keyed) : m.step.control.Calls m.world.Takes := by
  obtain ⟨control, waiting, w⟩ := m
  cases control with
  | finish loop o => exact finish_calls loop o waiting w
  | call c => exact call_calls hm.keeps c waiting
  | answer o => exact answer_calls o waiting w
  | run loop =>
    have hcalls := loop.current.step_calls hm
    change (advance loop waiting w).control.Calls w.Takes
    unfold advance
    cases hrun : loop.current.step w with
    | error f v => trivial
    | ok e v =>
      cases e with
      | callOut sender c use => exact hcalls.of_ok hrun
      | _ => trivial

/-- All that can be found suits, and what is called next takes the arguments that it is given. -/
structure Ready (m : Machine) : Prop where
  keyed : m.world.Keyed
  calls : m.control.Calls m.world.Takes

theorem keeps_step {m : Machine} (hm : m.world.Keyed) : m.world.Keeps m.step.world :=
  step_lasts hm.keeps fun _ _ c selector _ => resolve_lasts (fun h => h.fill _) c selector

theorem step_keyed {m : Machine} (hm : m.world.Keyed) : m.step.world.Keyed := by
  refine (keeps_step hm).world fun {r offset e} he => ?_
  change e ∈ (m.step.world.sites (r, offset)).entries at he
  obtain hsame | ⟨site, e', hrecords⟩ := m.step_sites
  · rw [hsame] at he
    exact hm.sites he
  by_cases hsite : (r, offset) = site
  · subst hsite
    rw [hrecords.entries] at he
    obtain hold | hnew := List.mem_append.mp he
    · exact hm.sites hold
    obtain rfl := List.mem_singleton.mp hnew
    obtain ⟨loop, selector, receiver, hsends, -, hfound⟩ := hrecords.found
    obtain ⟨hplace, ⟨l, hnext, hselector⟩, -⟩ := hsends
    obtain ⟨-, hfetch⟩ := next?_eq_some.mp hnext
    cases hplace
    refine ⟨Activation.made_of_fetch hfetch, fun s hs => ?_⟩
    simp only [World.selectorAt?, Activation.fetch_eq_ok hfetch, hselector] at hs
    cases hs
    exact (hm.keeps.lookup e.cls selector).1 _ hfound
  · rw [hrecords.others _ hsite] at he
    exact hm.sites he

theorem Ready.step {m : Machine} (h : m.Ready) : m.step.Ready where
  keyed := step_keyed h.keyed
  calls := (step_calls h.keyed).keeps (keeps_step h.keyed)

theorem Ready.request (hw : w.Keyed) (r : Request) : (r.machine w).Ready := by
  have hkeeps : w.Keeps (r.machine w).world := r.machine_lasts hw.keeps
  have hcalls : (r.machine w).control.Calls w.Takes := by
    match r with
    | .primitive op receiver args => exact operate_calls hw.keeps op receiver args []
    | .host (.invoke m receiver args) =>
      simp only [Request.machine, HostCall.machine]
      split
      · exact call_calls hw.keeps _ []
      · trivial
    | .host (.send receiver selector args) =>
      have hinterned : w.Keeps (w.intern selector).2 :=
        World.Kept.congr hw.keeps (.intern w selector)
      simp only [Request.machine, HostCall.machine]
      split
      · exact dispatch_calls hinterned receiver _ args
      · trivial
    | .host (.dispatch receiver selector args) => exact dispatch_calls hw.keeps receiver selector args
    | .host (.call m args) => exact call_calls hw.keeps _ []
    | .host (.evaluate b params) => exact execute_calls _ _ _ _ _
    | .host (.execute method args outer) => exact execute_calls _ _ _ _ _
  have hcaches : (r.machine w).world.caches = w.caches :=
    r.machine_lasts (P := World.HasCaches w.caches) rfl
  refine ⟨hkeeps.world fun {r offset e} he => ?_, hcalls.keeps hkeeps⟩
  rw [World.cacheAt, hcaches] at he
  exact hw.sites he

theorem execute_error {r : CodeRef} {args : List Value} {outer : Option FrameRef}
    {waiting : List Waiting} {f : Fault} (hargs : args.length = (w.code r).argCount)
    (h : (execute r args outer waiting w).control = .fault f) : ¬ f.isMismatch := by
  unfold execute RunLoop.start at h
  simp only [bind_apply, get_apply] at h
  split at h
  · cases h
  · next v hrun =>
    cases h
    split at hrun
    · cases hrun
      nofun
    · rw [bind_apply] at hrun
      cases hstart : Activation.start r args outer w with
      | error e v =>
        rw [hstart] at hrun
        cases hrun
        exact Activation.start_error hargs hstart
      | ok a v =>
        rw [hstart] at hrun
        cases hrun

end Machine

/-- The call gives its method as many arguments as it takes. A compiled method, or the block that a
primitive evaluates, does not fail to start for their number. -/
structure World.Starts (w : World) (c : Call) : Prop extends w.Takes c where
  matched : ∀ waiting f,
    (∀ p, c.method = .primitive p → (w.primitives.get p).operation = .evaluate) →
    (Machine.call c waiting w).control = .fault f → ¬ f.isMismatch

theorem World.Takes.starts {c : Call} (h : w.Takes c) : w.Starts c := by
  refine ⟨h, fun waiting f hevaluates hfault => ?_⟩
  obtain ⟨method, args⟩ := c
  cases method with
  | compiled r => exact Machine.execute_error h.count hfault
  | primitive p =>
    cases args with
    | nil => exact absurd h.count (Nat.ne_of_lt (w.signature (.primitive p)).arity_pos)
    | cons receiver args =>
      have hop := hevaluates p rfl
      simp only [Machine.call, hop, Machine.operate] at hfault
      cases receiver with
      | block b => exact Machine.execute_error (h.block p b args rfl hop rfl).symm hfault
      | _ =>
        cases hfault
        exact Bool.false_ne_true

namespace Machine

/-- No message is answered with the wrong number of arguments. A send does not fail for it, and a super
send only if a primitive is to evaluate a block; all that is called from outside a loop, reflective
sends and the handlers of failed sends included, gets as many arguments as it takes. So does what a
host's message finds, if the message has as many as its selector says or is not understood. -/
structure MatchesArities (m : Machine) : Prop where
  send : ∀ {loop l f v}, m.next? = some (loop, .send l) →
    loop.current.step m.world = .error f v → ¬ f.isMismatch
  superSend : ∀ {loop l f v}, m.next? = some (loop, .superSend l) →
    loop.current.step m.world = .error f v → f.isMismatch → ∃ selector p v,
      m.world.symbolLiteral loop.current.method l.toNat = .ok selector ∧
      resolveSuper loop.current.method selector (loop.current.traced (.superSend l) m.world) =
        .ok (some (.primitive p)) v ∧
      (m.world.primitives.get p).evaluatesBlock
  call : ∀ {c}, m.control = .call c → m.world.Starts c
  dispatch : ∀ {receiver selector args},
    ((m.world.lookup (m.world.classOf receiver) selector).1 ≠ none →
      args.length + 1 = selector.arity) →
    (Action.dispatch receiver selector args).Ensures m.world (fun c v => v.Starts c)
      fun f _ => ¬ f.isMismatch

theorem Ready.arities {m : Machine} (h : m.Ready) : m.MatchesArities where
  send := fun hnext hstep =>
    (Activation.step_send_matches h.keyed (next?_eq_some.mp hnext).2).of_error hstep
  superSend := fun hnext hstep =>
    (Activation.step_superSend_matches h.keyed (next?_eq_some.mp hnext).2).of_error hstep
  call := fun {c} hc => by
    have hcalls := h.calls
    rw [hc] at hcalls
    exact World.Takes.starts hcalls
  dispatch := fun {receiver selector args} hargs =>
    (dispatch_ensures h.keyed.keeps receiver selector args hargs).mono
      (fun _ _ hc => (hc.1.takes hc.2).starts) fun _ _ hf => hf.2

/-- What happens to a machine whose host makes no primitives but those of the core library: it makes a
step, or, while it waits for its host, it is asked for something, classes and methods are altered, or
the host changes something else. A body may also be entered into a class that goes on remembering
what it looked up. -/
inductive CoreMove : Machine → Machine → Prop where
  | step (m : Machine) : CoreMove m m.step
  | request (o : Outcome) (w : World) (r : Request) : CoreMove ⟨.answer o, [], w⟩ (r.machine w)
  | alter (o : Outcome) {w : World} {a : Alteration} (h : a.Core w) :
      CoreMove ⟨.answer o, [], w⟩ ⟨.answer o, [], w.alter a⟩
  | enter (o : Outcome) {w : World} (c : ClassRef) {r : CodeRef} (h : w.Made (.compiled r)) :
      CoreMove ⟨.answer o, [], w⟩ ⟨.answer o, [], (w.addMethod c (.compiled r)).2⟩
  | change (o : Outcome) {w w' : World} {held : List Grant} (h : HostChange held w w')
      (hprimitives : w'.primitives = w.primitives) :
      CoreMove ⟨.answer o, [], w⟩ ⟨.answer o, [], w'⟩

theorem CoreMove.ready {m m' : Machine} (h : CoreMove m m') (hm : m.Ready) : m'.Ready := by
  cases h with
  | step => exact hm.step
  | request o w r => exact .request hm.keyed r
  | alter o ha => exact ⟨hm.keyed.alter ha, trivial⟩
  | enter o c hmade => exact ⟨hm.keyed.addMethod (.of_compiled hmade c), trivial⟩
  | change o hchange hprimitives => exact ⟨hchange.keyed hprimitives hm.keyed, trivial⟩

/-- Whatever code runs and whatever a host does, messages are answered with the right number of
arguments, as long as there are no primitives but those of the core library. -/
theorem matchesArities {config : Config} {journal : Journal} {m : Machine}
    (hboot : World.boot config journal = .ok w)
    (h : ReflTransGen CoreMove ⟨.answer (.ok .nil), [], w⟩ m) : m.MatchesArities := by
  have hready : m.Ready := by
    induction h with
    | refl => exact ⟨World.boot_keyed hboot, trivial⟩
    | tail _ hmove ih => exact hmove.ready ih
  exact hready.arities

def performing : Machine :=
  (Request.host (.send (.integer 3) "perform:" [.symbol (World.standard.intern "asString").1])).machine
    World.standard

set_option maxRecDepth 100000 in
theorem matchesArities_performed : ∃ m c, ReflTransGen CoreMove ⟨.answer (.ok .nil), [], World.standard⟩ m ∧
    m.control = .call c ∧ c.args = [.integer 3] ∧ m.world.Starts c ∧ m.MatchesArities := by
  have hcalls : (match performing.control with
      | .call c => decide (c.args = [.integer 3])
      | _ => false) = true := by
    decide +kernel
  have hmove : ReflTransGen CoreMove ⟨.answer (.ok .nil), [], World.standard⟩ performing :=
    .single (.request _ _ _)
  have hmatches : performing.MatchesArities := matchesArities World.boot_standard hmove
  split at hcalls
  · next c hcall =>
    exact ⟨performing, c, hmove, hcall, of_decide_eq_true hcalls, hmatches.call hcall, hmatches⟩
  · cases hcalls

end Machine

end MessageMachine
