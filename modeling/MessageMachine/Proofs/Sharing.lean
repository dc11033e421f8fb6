import MessageMachine.Proofs.Addressing
import MessageMachine.Proofs.Areas

namespace MessageMachine

/-- What is done to a frame, and asked about it. -/
inductive FrameUse where
  | access (x : Access)
  | readOut (area : Area) (index : Nat) (level : UInt8)
  | writeOut (area : Area) (index : Nat) (level : UInt8) (v : Value)
  | receiver
  | marker
  | isLive
  | retire

inductive FrameAnswer where
  | values (vs : List Value)
  | marker (k : MarkerRef)
  | flag (b : Bool)
deriving DecidableEq

theorem Arena.set_get {kind : CellKind} {α : Type} [Inhabited α] (a : Arena kind α) (r : Ref kind) :
    a.set r (a.get r) = a := by
  obtain ⟨cells⟩ := a
  simp only [set, get, mk.injEq]
  refine Array.ext (Array.size_setIfInBounds ..) fun i _ hi => ?_
  rw [Array.getElem_setIfInBounds hi]
  split
  · next h =>
    subst h
    simp [Array.getD, hi]
  · rfl

namespace FrameHandle

def access (a : FrameHandle) : Access → Action (List Value × FrameHandle)
  | .push v => do return ([], ← a.push v)
  | .pop => do
    let (v, a) ← a.pop
    return ([v], a)
  | .popN count => a.popN count
  | .peek offset => do return ([← a.peek offset], a)
  | .reset => do return ([], ← a.modify fun f => .ok f.reset)
  | .read area index => do return ([← a.readSlot area index 0], a)
  | .write area index v => do return ([], ← a.writeSlot area index 0 v)

def use (a : FrameHandle) : FrameUse → Action (FrameAnswer × FrameHandle)
  | .access x => do
    let (vs, a) ← a.access x
    return (.values vs, a)
  | .readOut area index level => do return (.values [← a.readSlot area index level], a)
  | .writeOut area index level v => do return (.values [], ← a.writeSlot area index level v)
  | .receiver => do return (.values [← a.receiver], a)
  | .marker => do return (.marker (a.frame (← get)).marker, a)
  | .isLive => do
    let w ← get
    return (.flag (w.isLive (a.frame w).marker), a)
  | .retire => do
    let w ← get
    set (w.deactivate (a.frame w).marker)
    return (.values [], a)

/-- A use that fails answers its fault, and leaves the handle as it is. -/
def perform (a : FrameHandle) (u : FrameUse) (w : World) :
    Except Fault FrameAnswer × FrameHandle × World :=
  match a.use u w with
  | .ok (x, a) w => (.ok x, a, w)
  | .error e w => (.error e, a, w)

variable {w : World} {a t : FrameHandle} {area : Area} {index : Nat} {level : UInt8} {v : Value}

theorem put_self (a : FrameHandle) (w : World) : a.put (a.frame w) w = (a, w) := by
  cases a with
  | own f => rfl
  | shared r => simp only [put, World.setFrame, frame, Arena.set_get]

theorem perform_access (a : FrameHandle) (x : Access) (w : World) :
    a.perform (.access x) w = match (a.frame w).access x with
      | .ok (vs, f) => (.ok (.values vs), a.put f w)
      | .error e => (.error e, a, w) := by
  have hself := put_self a w
  have hcontext : a.context w (0 : UInt8).toNat = some a := rfl
  cases x with
  | push v =>
    simp only [perform, use, access, push, Frame.access, Action.bind_apply, modify_apply]
    cases (a.frame w).push v <;> rfl
  | pop =>
    simp only [perform, use, access, pop, Frame.access, Action.bind_apply, take_apply]
    cases (a.frame w).pop <;> rfl
  | popN count =>
    simp only [perform, use, access, popN, Frame.access, Action.bind_apply, take_apply]
    cases (a.frame w).popN count <;> rfl
  | peek offset =>
    simp only [perform, use, access, Frame.access, Action.bind_apply, peek_apply]
    cases (a.frame w).peek offset with
    | ok v => exact congrArg (Prod.mk _) hself.symm
    | error e => rfl
  | reset =>
    simp only [perform, use, access, Frame.access, Action.bind_apply, modify_apply]
    rfl
  | read area index =>
    simp only [perform, use, access, Frame.access, Action.bind_apply, readSlot_of_context hcontext]
    cases (a.frame w).read area index with
    | ok v => exact congrArg (Prod.mk _) hself.symm
    | error e => rfl
  | write area index v =>
    simp only [perform, use, access, Frame.access, Action.bind_apply, writeSlot_of_context hcontext]
    cases (a.frame w).write area index v <;> rfl

theorem perform_readOut (a : FrameHandle) (area : Area) (index : Nat) (level : UInt8) (w : World) :
    a.perform (.readOut area index level) w =
      ((w.readSlot (a.frame w) area index level).map fun v => .values [v], a, w) := by
  simp only [perform, use, readSlot, Action.bind_apply, Action.get_apply]
  cases w.readSlot (a.frame w) area index level <;> rfl

theorem perform_receiver (a : FrameHandle) (w : World) :
    a.perform .receiver w =
      ((w.readSlot (a.frame w) .arguments 0 (a.frame w).code.level).map fun v => .values [v], a, w) := by
  simp only [perform, use, receiver, World.receiver, Action.bind_apply, Action.get_apply]
  cases w.readSlot (a.frame w) .arguments 0 (a.frame w).code.level <;> rfl

theorem perform_writeOut (area : Area) (index : Nat) (hl : level ≠ 0) :
    a.perform (.writeOut area index level v) w = match w.outerContext (a.frame w) level with
      | .ok r => match (w.frames.get r).write area index v with
        | .ok f => (.ok (.values []), a, w.setFrame r f)
        | .error e => (.error e, a, w)
      | .error e => (.error e, a, w) := by
  simp only [perform, use, Action.bind_apply, writeSlot_eq a area index hl]
  cases w.outerContext (a.frame w) level with
  | error e => rfl
  | ok r => cases hf : (w.frames.get r).write area index v <;> simp [hf]

theorem perform_readOut_of_context (ht : a.context w level.toNat = some t) :
    a.perform (.readOut area index level) w =
      ((t.perform (.access (.read area index)) w).1, a, (t.perform (.access (.read area index)) w).2.2) := by
  rw [perform_access]
  simp only [perform, use, Action.bind_apply, readSlot_of_context ht, Frame.access]
  cases (t.frame w).read area index with
  | ok v =>
    change (_, a, w) = (_, a, (t.put (t.frame w) w).2)
    rw [put_self]
    rfl
  | error e => rfl

theorem perform_writeOut_of_context (ht : a.context w level.toNat = some t) :
    (a.perform (.writeOut area index level v) w).1 = (t.perform (.access (.write area index v)) w).1 ∧
      (a.perform (.writeOut area index level v) w).2.2 =
        (t.perform (.access (.write area index v)) w).2.2 := by
  rw [perform_access]
  simp only [perform, use, Action.bind_apply, writeSlot_of_context ht, Frame.access]
  cases (t.frame w).write area index v <;> exact ⟨rfl, rfl⟩

theorem perform_writeOut_zero (a : FrameHandle) (area : Area) (index : Nat) (v : Value) (w : World) :
    a.perform (.writeOut area index 0 v) w = a.perform (.access (.write area index v)) w := by
  simp only [perform, use, access, Action.bind_apply]
  cases a.writeSlot area index 0 v w <;> rfl

end FrameHandle

theorem Except.eq_ok_of_bind {ε α β : Type} {e : Except ε α} {f : α → Except ε β} {b : β}
    (h : e >>= f = .ok b) : ∃ a, e = .ok a ∧ f a = .ok b := by
  cases e with
  | ok a => exact ⟨a, rfl, h⟩
  | error x => cases h

theorem Frame.access_continues {f f' : Frame} {x : Access} {vs : List Value}
    (h : f.access x = .ok (vs, f')) : f.Continues f' := by
  cases x with
  | push v =>
    obtain ⟨g, hg, h⟩ := Except.eq_ok_of_bind h
    cases h
    exact (push_eq_ok hg).1
  | pop =>
    obtain ⟨⟨v, g⟩, hg, h⟩ := Except.eq_ok_of_bind h
    cases h
    exact (pop_eq_ok hg).1
  | popN count => exact (popN_eq_ok h).1
  | peek offset | read area index =>
    obtain ⟨v, -, h⟩ := Except.eq_ok_of_bind h
    cases h
    exact .refl f
  | reset =>
    cases h
    exact reset_continues f
  | write area index v =>
    obtain ⟨g, hg, h⟩ := Except.eq_ok_of_bind h
    cases h
    exact (write_eq_ok hg).1

theorem World.follow_agree {v w : World} {o : Option FrameRef}
    (h : ∀ links r, v.follow links o = some r → w.frames.get r = v.frames.get r) (links : Nat) :
    w.follow links o = v.follow links o := by
  induction links generalizing o with
  | zero => rfl
  | succ links ih =>
    cases o with
    | none => rfl
    | some r =>
      simp only [World.follow, h 0 r rfl]
      exact ih fun k s hs => h (k + 1) s hs

theorem World.follow_of_outerContext {w : World} {f : Frame} {level : UInt8} {r : FrameRef}
    (h : w.outerContext f level = .ok r) : ∃ links, w.follow links f.outer = some r := by
  unfold World.outerContext at h
  split at h
  · next hr =>
    cases h
    exact ⟨_, hr⟩
  · cases h

theorem World.isLive_deactivate (w : World) (k : MarkerRef) : (w.deactivate k).isLive k = false := by
  simp only [isLive, deactivate, Arena.get_set, true_and]
  split
  · rfl
  · next hout => exact dif_neg hout

/-- A frame in use: where its activation has it, and the references to it that were handed out. -/
structure InUse where
  handle : FrameHandle
  given : List FrameRef
  world : World

/-- What happens to a frame in use, or around it. -/
inductive Deed where
  | use (u : FrameUse) (a : Except Fault FrameAnswer)
  | outward (r : FrameRef) (f : Frame)
  | share
  | elsewhere

def Deed.isVisible : Deed → Bool
  | use _ _ | outward _ _ => true
  | share | elsewhere => false

namespace InUse

inductive Step (s : InUse) : Deed → InUse → Prop
  | own {u : FrameUse} {a : Except Fault FrameAnswer} {b : FrameHandle} {w : World} :
      s.handle.perform u s.world = (a, b, w) → Step s (.use u a) ⟨b, s.given, w⟩
  | share {r : FrameRef} {w : World} :
      s.handle.share s.world = (r, w) → Step s .share ⟨.shared r, r :: s.given, w⟩
  | through {r : FrameRef} {u : FrameUse} {a : Except Fault FrameAnswer} {b : FrameHandle} {w : World} :
      r ∈ s.given → (FrameHandle.shared r).perform u s.world = (a, b, w) →
        Step s (.use u a) ⟨s.handle, s.given, w⟩
  | reads {r : FrameRef} {b c : FrameHandle} {area : Area} {index : Nat} {level : UInt8}
      {a : Except Fault FrameAnswer} {w : World} :
      r ∈ s.given → b.context s.world level.toNat = some (.shared r) →
        b.perform (.readOut area index level) s.world = (a, c, w) →
          Step s (.use (.access (.read area index)) a) ⟨s.handle, s.given, w⟩
  | writes {r : FrameRef} {b c : FrameHandle} {area : Area} {index : Nat} {level : UInt8} {v : Value}
      {a : Except Fault FrameAnswer} {w : World} :
      r ∈ s.given → b.context s.world level.toNat = some (.shared r) →
        b.perform (.writeOut area index level v) s.world = (a, c, w) →
          Step s (.use (.access (.write area index v)) a) ⟨s.handle, s.given, w⟩
  | outward {links : Nat} {r : FrameRef} {f : Frame} :
      s.world.follow links (s.handle.frame s.world).outer = some r →
        (s.world.frames.get r).Continues f →
          Step s (.outward r f) ⟨s.handle, s.given, s.world.setFrame r f⟩
  | elsewhere {w : World} :
      (∀ links t, s.handle.context s.world links = some t → t.frame w = t.frame s.world) →
        s.world.frames.size ≤ w.frames.size →
          w.isLive (s.handle.frame s.world).marker = s.world.isLive (s.handle.frame s.world).marker →
            Step s .elsewhere ⟨s.handle, s.given, w⟩

inductive Run : InUse → List Deed → InUse → Prop
  | done {s : InUse} : Run s [] s
  | next {s t u : InUse} {d : Deed} {ds : List Deed} : Step s d t → Run t ds u → Run s (d :: ds) u

theorem run_singleton {s t : InUse} {d : Deed} : Run s [d] t ↔ Step s d t := by
  refine ⟨fun h => ?_, fun h => .next h .done⟩
  obtain _ | ⟨hs, hdone⟩ := h
  cases hdone
  exact hs

theorem run_append {s u : InUse} {ds es : List Deed} :
    Run s (ds ++ es) u ↔ ∃ t, Run s ds t ∧ Run t es u := by
  constructor
  · intro h
    induction ds generalizing s with
    | nil => exact ⟨s, .done, h⟩
    | cons d ds ih =>
      obtain _ | ⟨hs, hrest⟩ := h
      obtain ⟨t, hds, hes⟩ := ih hrest
      exact ⟨t, .next hs hds, hes⟩
  · rintro ⟨t, hds, hes⟩
    induction hds with
    | done => exact hes
    | next hs _ ih => exact .next hs (ih hes)

/-- These deeds lead there, and nowhere else. -/
def Leads (s : InUse) (ds : List Deed) (t : InUse) : Prop := ∀ u, Run s ds u ↔ u = t

theorem leads_nil (s : InUse) : Leads s [] s := by
  intro u
  refine ⟨fun h => ?_, ?_⟩
  · cases h
    rfl
  · rintro rfl
    exact .done

theorem Leads.append {s t u : InUse} {ds es : List Deed} (h : Leads s ds t) (h' : Leads t es u) :
    Leads s (ds ++ es) u := by
  intro x
  rw [run_append]
  refine ⟨fun ⟨y, hy, hx⟩ => ?_, fun hx => ⟨t, (h t).mpr rfl, (h' x).mpr hx⟩⟩
  rw [(h y).mp hy] at hx
  exact (h' x).mp hx

theorem leads_use {g g' : Frame} {v v' : World} {u : FrameUse} {a : Except Fault FrameAnswer}
    (h : (FrameHandle.own g).perform u v = (a, .own g', v')) :
    Leads ⟨.own g, [], v⟩ [.use u a] ⟨.own g', [], v'⟩ := by
  intro t
  rw [run_singleton]
  refine ⟨fun hs => ?_, ?_⟩
  · cases hs with
    | own hu =>
      cases h.symm.trans hu
      rfl
    | through hr | reads hr | writes hr => cases hr
  · rintro rfl
    exact .own h

theorem leads_outward {s : InUse} {links : Nat} {r : FrameRef} {f : Frame}
    (hr : s.world.follow links (s.handle.frame s.world).outer = some r)
    (hf : (s.world.frames.get r).Continues f) :
    Leads s [.outward r f] ⟨s.handle, s.given, s.world.setFrame r f⟩ := by
  intro t
  rw [run_singleton]
  refine ⟨fun hs => ?_, ?_⟩
  · cases hs
    rfl
  · rintro rfl
    exact .outward hr hf

/-- An instruction that makes a block shares the frame, and hands it to the block. -/
theorem run_pushBlock {a a' : Activation} {literal : UInt8} {w w' : World} (given : List FrameRef)
    (h : a.pushBlock literal w = .ok a' w') :
    ∃ b : Block, Run ⟨a.handle, given, w⟩
      [.share, .elsewhere, .use (.access (.push (.block b))) (.ok (.values []))]
      ⟨a'.handle, b.context :: given, w'⟩ := by
  unfold Activation.pushBlock at h
  simp only [Action.bind_apply, Action.get_apply] at h
  cases hbody : w.blockLiteral a.method literal.toNat with
  | error e =>
    rw [hbody] at h
    cases h
  | ok body =>
    simp only [hbody, Action.lift_ok] at h
    split at h
    · cases h
    split at h
    · cases h
    simp only [Action.bind_apply, Action.update_apply] at h
    rcases hs : a.handle.share w with ⟨r, v⟩
    simp only [hs, World.newBlock] at h
    generalize hb : Block.mk v.nextSerial body r _ = b at h
    obtain rfl : b.context = r := by rw [← hb]
    let made : World := { v with nextSerial := v.nextSerial + 1 }
    cases hp : (FrameHandle.shared b.context).push (.block b) made with
    | error e u =>
      rw [hp] at h
      cases h
    | ok handle u =>
      rw [hp] at h
      cases h
      refine ⟨b, .next (.share hs) (.next (t := ⟨.shared b.context, b.context :: given, made⟩) ?_
        (.next (.own ?_) .done))⟩
      · exact .elsewhere (fun _ t _ => t.frame_congr rfl) (Nat.le_refl _) rfl
      · simp only [FrameHandle.perform, FrameHandle.use, FrameHandle.access, Action.bind_apply, hp]
        rfl

/-- The frame is as its activation has it in another world, where it was not shared. -/
structure Mirrors (g : Frame) (v : World) (s : InUse) : Prop where
  frame : s.handle.frame s.world = g
  links : ∀ links r, v.follow links g.outer = some r →
    r.index < v.frames.size ∧ s.world.frames.get r = v.frames.get r
  live : s.world.isLive g.marker = v.isLive g.marker
  size : v.frames.size ≤ s.world.frames.size
  apart : ∀ r, s.handle = .shared r → v.frames.size ≤ r.index ∧ r.index < s.world.frames.size
  given : ∀ r ∈ s.given, s.handle = .shared r

namespace Mirrors

variable {g g' : Frame} {v w : World} {s s' : InUse} {r : FrameRef} {u : FrameUse} {d : Deed}
  {a : Except Fault FrameAnswer} {b : FrameHandle}

theorem follow_eq (h : Mirrors g v s) (links : Nat) :
    s.world.follow links g.outer = v.follow links g.outer :=
  World.follow_agree (fun k r hr => (h.links k r hr).2) links

theorem outerContext_eq (h : Mirrors g v s) (level : UInt8) :
    s.world.outerContext g level = v.outerContext g level := by
  simp only [World.outerContext, h.follow_eq]

theorem readSlot_eq (h : Mirrors g v s) (area : Area) (index : Nat) (level : UInt8) :
    s.world.readSlot g area index level = v.readSlot g area index level := by
  unfold World.readSlot
  rw [h.outerContext_eq]
  cases hr : v.outerContext g level with
  | error e => rfl
  | ok r =>
    obtain ⟨links, hlinks⟩ := World.follow_of_outerContext hr
    change (if level = 0 then _ else (s.world.frames.get r).read area index) = _
    rw [(h.links links r hlinks).2]
    rfl

theorem put (h : Mirrors g v s) (hg : g.Continues g') :
    Mirrors g' v ⟨(s.handle.put g' s.world).1, s.given, (s.handle.put g' s.world).2⟩ := by
  have hlinks := h.links
  have hlive := h.live
  rw [← hg.outer] at hlinks
  rw [← hg.marker] at hlive
  obtain ⟨handle, given, u⟩ := s
  cases handle with
  | own f => exact ⟨rfl, hlinks, hlive, h.size, nofun, fun r hr => nomatch h.given r hr⟩
  | shared r =>
    obtain ⟨hle, hlt⟩ := h.apart r rfl
    refine { frame := ?_, links := fun k t ht => ?_, live := hlive, size := ?_, apart := ?_, given := h.given }
    · simp only [FrameHandle.put, FrameHandle.frame, World.setFrame, Arena.get_set, hlt, and_self, if_true]
    · -- The links lead to frames that there were before, so not to this one.
      obtain ⟨htlt, hget⟩ := hlinks k t ht
      refine ⟨htlt, ?_⟩
      simp only [FrameHandle.put, World.setFrame, Arena.get_set]
      rw [if_neg, hget]
      rintro ⟨rfl, -⟩
      exact Nat.not_lt.mpr hle htlt
    · simpa [FrameHandle.put, World.setFrame] using h.size
    · simpa [FrameHandle.put, World.setFrame] using h.apart

theorem set {links : Nat} {f : Frame} (h : Mirrors g v s) (hr : v.follow links g.outer = some r)
    (hf : (v.frames.get r).Continues f) :
    Mirrors g (v.setFrame r f) ⟨s.handle, s.given, s.world.setFrame r f⟩ := by
  obtain ⟨hlt, hget⟩ := h.links links r hr
  have hcontinues (t : FrameRef) : (v.frames.get t).Continues ((v.setFrame r f).frames.get t) := by
    simp only [World.setFrame, Arena.get_set]
    split
    · next heq =>
      obtain ⟨rfl, -⟩ := heq
      exact hf
    · exact .refl _
  refine { frame := ?_, links := fun k t ht => ?_, live := h.live, size := ?_, apart := ?_, given := h.given }
  · refine Eq.trans ?_ h.frame
    cases hhandle : s.handle with
    | own g' => rfl
    | shared t =>
      simp only [FrameHandle.frame, World.setFrame, Arena.get_set]
      rw [if_neg]
      rintro ⟨rfl, -⟩
      exact Nat.not_lt.mpr (h.apart r hhandle).1 hlt
  · rw [World.follow_continues hcontinues] at ht
    obtain ⟨htlt, hget⟩ := h.links k t ht
    simp only [World.setFrame, Arena.size_set, Arena.get_set, hget, hlt,
      Nat.lt_of_lt_of_le hlt h.size, htlt, true_and]
  · simpa [World.setFrame] using h.size
  · simpa [World.setFrame] using h.apart

theorem retire (h : Mirrors g v s) :
    Mirrors g (v.deactivate g.marker) ⟨s.handle, s.given, s.world.deactivate g.marker⟩ where
  frame := (FrameHandle.frame_congr rfl s.handle).trans h.frame
  links := fun k r hr => by
    have hframes : (v.deactivate g.marker).frames = v.frames := rfl
    have hsame := World.follow_congr hframes k g.outer
    exact h.links k r (hsame.symm.trans hr)
  live := by rw [World.isLive_deactivate, World.isLive_deactivate]
  size := h.size
  apart := h.apart
  given := h.given

def Performs (g : Frame) (v : World) (s : InUse) (u : FrameUse) (a : Except Fault FrameAnswer)
    (b : FrameHandle) (w : World) : Prop :=
  ∃ g' v', (FrameHandle.own g).perform u v = (a, .own g', v') ∧ g.Continues g' ∧
    v'.frames.size = v.frames.size ∧ (∀ r, s.handle = .shared r → b = .shared r) ∧
    Mirrors g' v' ⟨b, s.given, w⟩

theorem performs_access {x : Access} (h : Mirrors g v s)
    (hu : s.handle.perform (.access x) s.world = (a, b, w)) : Performs g v s (.access x) a b w := by
  rw [FrameHandle.perform_access, h.frame] at hu
  have hown := FrameHandle.perform_access (.own g) x v
  change _ = match g.access x with | .ok (vs, f) => _ | .error e => _ at hown
  cases hx : g.access x with
  | ok p =>
    obtain ⟨vs, g'⟩ := p
    rw [hx] at hu hown
    obtain ⟨rfl, hput⟩ := Prod.mk.inj hu
    have hm := h.put (Frame.access_continues hx)
    rw [hput] at hm
    refine ⟨g', v, hown, Frame.access_continues hx, rfl, fun r hr => ?_, hm⟩
    rw [hr] at hput
    cases hput
    rfl
  | error e =>
    rw [hx] at hu hown
    cases hu
    exact ⟨g, v, hown, .refl g, rfl, fun _ => id, h⟩

theorem performs_writeOut {area : Area} {index : Nat} {level : UInt8} {x : Value} (h : Mirrors g v s)
    (hu : s.handle.perform (.writeOut area index level x) s.world = (a, b, w)) :
    Performs g v s (.writeOut area index level x) a b w := by
  by_cases hl : level = 0
  · subst hl
    rw [FrameHandle.perform_writeOut_zero] at hu
    obtain ⟨g', v', hown, hrest⟩ := h.performs_access hu
    exact ⟨g', v', (FrameHandle.perform_writeOut_zero ..).trans hown, hrest⟩
  · rw [FrameHandle.perform_writeOut _ _ hl, h.frame, h.outerContext_eq] at hu
    have hown : (FrameHandle.own g).perform (.writeOut area index level x) v =
        match v.outerContext g level with
        | .ok r => match (v.frames.get r).write area index x with
          | .ok f => (.ok (.values []), .own g, v.setFrame r f)
          | .error e => (.error e, .own g, v)
        | .error e => (.error e, .own g, v) := FrameHandle.perform_writeOut area index hl
    cases hr : v.outerContext g level with
    | error e =>
      rw [hr] at hu hown
      cases hu
      exact ⟨g, v, hown, .refl g, rfl, fun _ => id, h⟩
    | ok r =>
      obtain ⟨links, hlinks⟩ := World.follow_of_outerContext hr
      rw [hr] at hu hown
      dsimp only at hu hown
      rw [(h.links links r hlinks).2] at hu
      cases hf : (v.frames.get r).write area index x with
      | error e =>
        rw [hf] at hu hown
        cases hu
        exact ⟨g, v, hown, .refl g, rfl, fun _ => id, h⟩
      | ok f =>
        rw [hf] at hu hown
        cases hu
        refine ⟨g, _, hown, .refl g, Arena.size_set .., fun _ => id, ?_⟩
        exact h.set hlinks (Frame.write_eq_ok hf).1

theorem performs (h : Mirrors g v s) (hu : s.handle.perform u s.world = (a, b, w)) :
    Performs g v s u a b w := by
  cases u with
  | access x => exact h.performs_access hu
  | writeOut area index level x => exact h.performs_writeOut hu
  | readOut area index level =>
    rw [FrameHandle.perform_readOut, h.frame, h.readSlot_eq] at hu
    cases hu
    exact ⟨g, v, FrameHandle.perform_readOut .., .refl g, rfl, fun _ => id, h⟩
  | receiver =>
    rw [FrameHandle.perform_receiver, h.frame, h.readSlot_eq] at hu
    cases hu
    exact ⟨g, v, FrameHandle.perform_receiver .., .refl g, rfl, fun _ => id, h⟩
  | marker =>
    cases hu
    exact ⟨g, v, by rw [← h.frame]; rfl, .refl g, rfl, fun _ => id, h⟩
  | isLive =>
    cases hu
    exact ⟨g, v, by rw [h.frame, h.live]; rfl, .refl g, rfl, fun _ => id, h⟩
  | retire =>
    cases hu
    rw [h.frame]
    exact ⟨g, _, rfl, .refl g, rfl, fun _ => id, h.retire⟩

theorem share (h : Mirrors g v s) (hs : s.handle.share s.world = (r, w)) :
    Mirrors g v ⟨.shared r, r :: s.given, w⟩ := by
  obtain ⟨handle, given, u⟩ := s
  cases handle with
  | own f =>
    cases hs
    obtain rfl : f = g := h.frame
    have hnone : given = [] := List.eq_nil_iff_forall_not_mem.mpr fun r hr => nomatch h.given r hr
    refine { frame := ?_, links := fun k t ht => ?_, live := h.live, size := ?_, apart := ?_, given := ?_ }
    · simp only [FrameHandle.frame, Arena.get_push, if_true]
    · obtain ⟨hlt, hget⟩ := h.links k t ht
      exact ⟨hlt, (Arena.get_push_of_lt _ _ (Nat.lt_of_lt_of_le hlt h.size)).trans hget⟩
    · exact Nat.le_trans h.size (by simp)
    · rintro r ⟨⟩
      exact ⟨h.size, by simp [Arena.next]⟩
    · simp [hnone]
  | shared t =>
    cases hs
    refine { h with given := fun t ht => ?_ }
    obtain rfl | ht := List.mem_cons.mp ht
    · rfl
    · exact h.given t ht

theorem elsewhere (h : Mirrors g v s)
    (hframes : ∀ links t, s.handle.context s.world links = some t → t.frame w = t.frame s.world)
    (hsize : s.world.frames.size ≤ w.frames.size)
    (hlive : w.isLive g.marker = s.world.isLive g.marker) : Mirrors g v ⟨s.handle, s.given, w⟩ where
  frame := (hframes 0 s.handle rfl).trans h.frame
  links := fun k r hr => by
    obtain ⟨hlt, hget⟩ := h.links k r hr
    refine ⟨hlt, Eq.trans (hframes (k + 1) (.shared r) ?_) hget⟩
    rw [FrameHandle.context, h.frame, h.follow_eq, hr]
    rfl
  live := hlive.trans h.live
  size := Nat.le_trans h.size hsize
  apart := fun r hr => (h.apart r hr).imp_right fun hlt => Nat.lt_of_lt_of_le hlt hsize
  given := h.given

theorem step (h : Mirrors g v s) (hs : Step s d s') :
    ∃ g' v', Leads ⟨.own g, [], v⟩ ([d].filter (·.isVisible)) ⟨.own g', [], v'⟩ ∧
      g.Continues g' ∧ v'.frames.size = v.frames.size ∧ Mirrors g' v' s' := by
  have through {r : FrameRef} {u : FrameUse} {a : Except Fault FrameAnswer} {b : FrameHandle}
      {w : World} (hr : r ∈ s.given) (hu : (FrameHandle.shared r).perform u s.world = (a, b, w)) :
      ∃ g' v', Leads ⟨.own g, [], v⟩ [.use u a] ⟨.own g', [], v'⟩ ∧
        g.Continues g' ∧ v'.frames.size = v.frames.size ∧ Mirrors g' v' ⟨s.handle, s.given, w⟩ := by
    have hshared := h.given r hr
    rw [← hshared] at hu
    obtain ⟨g', v', hown, hg, hsize, hstays, hm⟩ := h.performs hu
    rw [hstays r hshared, ← hshared] at hm
    exact ⟨g', v', leads_use hown, hg, hsize, hm⟩
  cases hs with
  | own hu =>
    obtain ⟨g', v', hown, hg, hsize, -, hm⟩ := h.performs hu
    exact ⟨g', v', leads_use hown, hg, hsize, hm⟩
  | share hs => exact ⟨g, v, leads_nil _, .refl g, rfl, h.share hs⟩
  | through hr hu => exact through hr hu
  | reads hr hb hu =>
    rw [FrameHandle.perform_readOut_of_context hb] at hu
    cases hu
    exact through hr rfl
  | writes hr hb hu =>
    obtain ⟨ha, hw⟩ := FrameHandle.perform_writeOut_of_context hb
    rw [hu] at ha hw
    subst ha hw
    exact through hr rfl
  | outward hr hf =>
    rw [h.frame, h.follow_eq] at hr
    rw [(h.links _ _ hr).2] at hf
    exact ⟨g, _, leads_outward hr hf, .refl g, Arena.size_set .., h.set hr hf⟩
  | elsewhere hframes hsize hlive =>
    rw [h.frame] at hlive
    exact ⟨g, v, leads_nil _, .refl g, rfl, h.elsewhere hframes hsize hlive⟩

theorem run {ds : List Deed} (h : Mirrors g v s) (hr : Run s ds s') :
    ∃ g' v', Leads ⟨.own g, [], v⟩ (ds.filter (·.isVisible)) ⟨.own g', [], v'⟩ ∧
      g.Continues g' ∧ v'.frames.size = v.frames.size ∧ Mirrors g' v' s' := by
  induction hr generalizing g v with
  | done => exact ⟨g, v, leads_nil _, .refl g, rfl, h⟩
  | @next s t u d ds hs _ ih =>
    obtain ⟨g₁, v₁, hfirst, hg₁, hsize₁, h₁⟩ := h.step hs
    obtain ⟨g₂, v₂, hrest, hg₂, hsize₂, h₂⟩ := ih h₁
    refine ⟨g₂, v₂, ?_, hg₁.trans hg₂, hsize₂.trans hsize₁, h₂⟩
    rw [← List.singleton_append, List.filter_append]
    exact hfirst.append hrest

end Mirrors

/-- A frame that is shared now and then answers what it would answer unshared, to the activation and to
all who were given it. In the end it is the frame that it would be, and so are those that its links
lead to. -/
theorem sharing_invisible {f : Frame} {w : World} {ds : List Deed} {s : InUse}
    (hlinks : ∀ links r, w.follow links f.outer = some r → r.index < w.frames.size)
    (h : Run ⟨.own f, [], w⟩ ds s) :
    ∃ g v, Leads ⟨.own f, [], w⟩ (ds.filter (·.isVisible)) ⟨.own g, [], v⟩ ∧
      s.handle.frame s.world = g ∧ f.Continues g ∧
      (∀ links, s.world.follow links g.outer = v.follow links g.outer) ∧
      (∀ links r, v.follow links g.outer = some r → s.world.frames.get r = v.frames.get r) ∧
      s.world.isLive g.marker = v.isLive g.marker ∧
      ∀ r ∈ s.given, s.handle = .shared r ∧ s.world.frames.get r = g ∧ w.frames.size ≤ r.index := by
  have hstart : Mirrors f w ⟨.own f, [], w⟩ :=
    ⟨rfl, fun k r hr => ⟨hlinks k r hr, rfl⟩, rfl, Nat.le_refl _, nofun, nofun⟩
  obtain ⟨g, v, hleads, hg, hsize, hm⟩ := hstart.run h
  refine ⟨g, v, hleads, hm.frame, hg, hm.follow_eq, fun k r hr => (hm.links k r hr).2, hm.live,
    fun r hr => ?_⟩
  have hshared := hm.given r hr
  have hframe := hm.frame
  rw [hshared] at hframe
  exact ⟨hshared, hframe, hsize ▸ (hm.apart r hshared).1⟩

def blockFrame (k : MarkerRef) (outer : Option FrameRef) (x operand : Value) (top : Nat) : Frame :=
  ⟨⟨0⟩, ⟨⟨0, ""⟩, #[], #[], 1, 1, 1, by decide⟩, #[.nil, x, operand], top, k, outer⟩

/-- A frame is shared; a block over it writes to its local, and reads there what the activation has
written once that is over. -/
theorem sharing_invisible_captured : ∃ (f : Frame) (w : World) (ds : List Deed) (s : InUse),
    (∀ links r, w.follow links f.outer = some r → r.index < w.frames.size) ∧
      Run ⟨.own f, [], w⟩ ds s ∧ s.given.length = 2 ∧
      ∃ g v, Leads ⟨.own f, [], w⟩ (ds.filter (·.isVisible)) ⟨.own g, [], v⟩ ∧
        v.isLive g.marker = false ∧ ∀ r ∈ s.given, s.world.frames.get r = g := by
  let home := blockFrame ⟨0⟩ none .nil .nil 2
  let f (x operand : Value) (top : Nat) : Frame := blockFrame ⟨1⟩ (some ⟨0⟩) x operand top
  let w (frames : Array Frame) (live : Bool) : World :=
    { (default : World) with frames := ⟨frames⟩, markers := ⟨#[true, live]⟩ }
  let s (given : List FrameRef) (x operand : Value) (top : Nat) (live : Bool) : InUse :=
    ⟨.shared ⟨1⟩, given, w #[home, f x operand top] live⟩
  let b := FrameHandle.own (blockFrame ⟨2⟩ (some ⟨1⟩) .nil .nil 2)
  have hcontext (v : World) : b.context v (1 : UInt8).toNat = some (.shared ⟨1⟩) := rfl
  let one := Value.integer 1
  let five := Value.integer 5
  let six := Value.integer 6
  let ds : List Deed := [
    .use (.access (.push one)) (.ok (.values [])),
    .share,
    .use (.access (.write .locals 0 five)) (.ok (.values [])),
    .use (.access (.read .locals 0)) (.ok (.values [five])),
    .share,
    .use (.access (.write .locals 0 six)) (.ok (.values [])),
    .use .retire (.ok (.values [])),
    .use (.access (.read .locals 0)) (.ok (.values [six])),
    .use (.access .pop) (.ok (.values [one]))]
  have hrun : Run ⟨.own (f .nil .nil 2), [], w #[home] true⟩ ds (s [⟨1⟩, ⟨1⟩] six .nil 2 false) := by
    refine .next (t := ⟨.own (f .nil one 3), [], w #[home] true⟩) (.own rfl) ?_
    refine .next (t := s [⟨1⟩] .nil one 3 true) (.share rfl) ?_
    refine .next (t := s [⟨1⟩] five one 3 true)
      (.writes (c := b) List.mem_cons_self (hcontext _) rfl) ?_
    refine .next (t := s [⟨1⟩] five one 3 true) (.own rfl) ?_
    refine .next (t := s [⟨1⟩, ⟨1⟩] five one 3 true) (.share rfl) ?_
    refine .next (t := s [⟨1⟩, ⟨1⟩] six one 3 true) (.own rfl) ?_
    refine .next (t := s [⟨1⟩, ⟨1⟩] six one 3 false) (.own rfl) ?_
    refine .next (t := s [⟨1⟩, ⟨1⟩] six one 3 false)
      (.reads (c := b) List.mem_cons_self (hcontext _) rfl) ?_
    exact .next (.through (b := .shared ⟨1⟩) List.mem_cons_self rfl) .done
  have hlinks (links : Nat) (r : FrameRef)
      (h : (w #[home] true).follow links (f .nil .nil 2).outer = some r) :
      r.index < (w #[home] true).frames.size := by
    obtain _ | _ | links := links
    · cases h
      decide
    · cases h
    · cases h
  obtain ⟨g, v, hleads, hframe, -, -, -, hlive, hgiven⟩ := sharing_invisible hlinks hrun
  refine ⟨_, _, ds, _, hlinks, hrun, rfl, g, v, hleads, ?_, fun r hr => (hgiven r hr).2.1⟩
  rw [← hlive, ← hframe]
  rfl

end InUse

end MessageMachine
