import MessageMachine.World.Lookup

namespace MessageMachine.World

/-- Every superclass was made before its subclass. -/
def Ordered (w : World) : Prop :=
  ∀ c s, (w.cls c).superclass = some s → s.index < c.index

/-- Every remembered lookup is what a plain walk up the superclass chain finds. -/
def MemosValid (w : World) : Prop :=
  ∀ c selector m, w.memos.find? (c, selector) = some m → w.method? c selector = some m

theorem chain_of_le {w : World} (ho : w.Ordered) {n k : Nat} {c : ClassRef}
    (hn : c.index < n) (hk : c.index < k) : w.chain n c = w.chain k c := by
  induction n generalizing k c with
  | zero => omega
  | succ n ih =>
    cases k with
    | zero => omega
    | succ k =>
      simp only [chain]
      cases hs : (w.cls c).superclass with
      | none => rfl
      | some s =>
        have hlt := ho c s hs
        have hchain : w.chain n s = w.chain k s := ih (by omega) (by omega)
        simp only [hchain]

theorem Ordered.induction {w : World} (ho : w.Ordered) {p : ClassRef → Prop}
    (h : ∀ c, (∀ s, (w.cls c).superclass = some s → p s) → p c) (c : ClassRef) : p c := by
  induction hi : c.index using Nat.strongRecOn generalizing c with
  | ind i ih => exact h c fun s hs => ih s.index (hi ▸ ho c s hs) s rfl

theorem ancestors_eq {w : World} (ho : w.Ordered) (c : ClassRef) :
    w.ancestors c = c :: match (w.cls c).superclass with
      | some s => w.ancestors s
      | none => [] := by
  unfold ancestors
  rw [chain]
  cases hs : (w.cls c).superclass with
  | none => rfl
  | some s => simp only [chain_of_le ho (ho c s hs) (Nat.lt_succ_self s.index)]

theorem method?_eq {w : World} (ho : w.Ordered) (c : ClassRef) (selector : Symbol) :
    w.method? c selector = match (w.cls c).methods.find? selector, (w.cls c).superclass with
      | some m, _ => some m
      | none, some s => w.method? s selector
      | none, none => none := by
  unfold method?
  rw [ancestors_eq ho]
  cases hm : (w.cls c).methods.find? selector with
  | some m => simp [firstMethod, hm]
  | none => cases hs : (w.cls c).superclass <;> simp [firstMethod, hm]

theorem chain_congr {w v : World} (h : v.classes = w.classes) (n : Nat) (c : ClassRef) :
    v.chain n c = w.chain n c := by
  induction n generalizing c with
  | zero => rfl
  | succ n ih => simp only [chain, cls, h, ih]

theorem fieldCount_congr {w v : World} (h : v.classes = w.classes) (c : ClassRef) :
    v.fieldCount c = w.fieldCount c := by
  unfold fieldCount ancestors
  rw [chain_congr h]
  simp only [declaredCount, cls, h]

theorem firstMethod_congr {w v : World} (h : v.classes = w.classes) (selector : Symbol)
    (cs : List ClassRef) : v.firstMethod selector cs = w.firstMethod selector cs := by
  induction cs with
  | nil => rfl
  | cons c cs ih => simp only [firstMethod, cls, h, ih]

theorem method?_congr {w v : World} (h : v.classes = w.classes) (c : ClassRef)
    (selector : Symbol) : v.method? c selector = w.method? c selector := by
  unfold method? ancestors
  rw [chain_congr h, firstMethod_congr h]

theorem method?_withMemos (w : World) (memos : Table (ClassRef × Symbol) Method) (c : ClassRef)
    (selector : Symbol) : method? { w with memos } c selector = w.method? c selector :=
  method?_congr (w := w) (v := { w with memos }) rfl c selector

theorem Ordered.congr {w v : World} (h : v.classes = w.classes) (ho : w.Ordered) : v.Ordered := by
  intro c s hs
  simp only [cls, h] at hs
  exact ho c s hs

theorem MemosValid.congr {w v : World} (hc : v.classes = w.classes) (hm : v.memos = w.memos)
    (hv : w.MemosValid) : v.MemosValid := by
  intro c selector m h
  rw [method?_congr hc]
  exact hv c selector m (hm ▸ h)

theorem MemosValid.remember {w : World} (hv : w.MemosValid) {c : ClassRef} {selector : Symbol}
    {m : Method} (h : w.method? c selector = some m) : (w.remember c selector m).MemosValid := by
  intro c' selector' m' h'
  rw [World.remember, method?_withMemos]
  simp only [World.remember, Table.find?_insert] at h'
  split at h'
  · next heq =>
    cases heq
    rw [h, h']
  · exact hv c' selector' m' h'

theorem lookupWithin_eq {w : World} (ho : w.Ordered) (hv : w.MemosValid) (selector : Symbol)
    {n : Nat} {c : ClassRef} (hn : c.index < n) :
    ∃ memos, w.lookupWithin selector n c = (w.method? c selector, { w with memos }) ∧
      MemosValid { w with memos } := by
  induction n generalizing c with
  | zero => omega
  | succ n ih =>
    unfold lookupWithin
    cases hfind : w.memos.find? (c, selector) with
    | some m => exact ⟨w.memos, by simp [hv c selector m hfind], hv⟩
    | none =>
      have hwalk := method?_eq ho c selector
      cases hm : (w.cls c).methods.find? selector with
      | some m =>
        rw [hm] at hwalk
        exact ⟨_, by simp [remember, hwalk], hv.remember hwalk⟩
      | none =>
        cases hs : (w.cls c).superclass with
        | none =>
          rw [hm, hs] at hwalk
          exact ⟨w.memos, by simp [hwalk], hv⟩
        | some s =>
          rw [hm, hs] at hwalk
          obtain ⟨memos, heq, hvalid⟩ := ih (c := s) (by have := ho c s hs; omega)
          cases hfound : w.method? s selector with
          | none => exact ⟨memos, by simp [heq, hwalk, hfound], hvalid⟩
          | some m =>
            refine ⟨memos.insert (c, selector) m, by simp [heq, hwalk, hfound, remember], ?_⟩
            refine hvalid.remember (c := c) ?_
            rw [method?_withMemos, hwalk]
            exact hfound

theorem lookup_eq {w : World} (ho : w.Ordered) (hv : w.MemosValid) (c : ClassRef)
    (selector : Symbol) :
    ∃ memos, w.lookup c selector = (w.method? c selector, { w with memos }) ∧
      MemosValid { w with memos } :=
  lookupWithin_eq ho hv selector (Nat.lt_succ_self c.index)

end MessageMachine.World
