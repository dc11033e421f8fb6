import MessageMachine.Proofs.Footing
import MessageMachine.Proofs.Stepping

namespace MessageMachine

variable {D : Discipline} {w w' : World} {a b callee : Activation} {as : List Activation}

namespace World

/-- Activations in a sound world, innermost first. Inner ones have later markers, the live markers
are theirs, and so are the frames with these markers. -/
structure Stacked (D : Discipline) (w : World) (as : List Activation) : Prop where
  sound : w.Sound D
  placed : ∀ a ∈ as, a.handle.Placed D a.marker a.method w
  descending : as.Pairwise fun a b => b.marker.index < a.marker.index
  live : ∀ k, w.isLive k ↔ ∃ a ∈ as, a.marker = k
  owned : ∀ r, r.index < w.frames.size → ∀ a ∈ as, (w.frames.get r).marker = a.marker →
    (w.frames.get r).method = a.method

namespace Stacked

theorem marker_lt (h : w.Stacked D as) (ha : a ∈ as) : a.marker.index < w.markers.size := by
  have hp := h.placed a ha
  rw [← hp.marker]
  exact hp.sound.marker_lt

theorem marker_ne (h : w.Stacked D (a :: as)) (hb : b ∈ as) : b.marker ≠ a.marker := by
  intro heq
  have hlt := List.rel_of_pairwise_cons h.descending hb
  rw [heq] at hlt
  exact Nat.lt_irrefl _ hlt

theorem moved (h : w.Stacked D (a :: as)) (hm : w.Moved a.marker a.method w') (hs : w'.Sound D)
    (hmarker : b.marker = a.marker) (hmethod : b.method = a.method)
    (hb : b.handle.Placed D a.marker a.method w') : w'.Stacked D (b :: as) where
  sound := hs
  placed := by
    refine List.forall_mem_cons.mpr ⟨by rwa [hmarker, hmethod], fun c hc => ?_⟩
    exact (h.placed c (List.mem_cons_of_mem a hc)).moved hs hm
  descending := by
    obtain ⟨hlt, hrest⟩ := List.pairwise_cons.mp h.descending
    refine List.pairwise_cons.mpr ⟨fun c hc => ?_, hrest⟩
    rw [hmarker]
    exact hlt c hc
  live := fun k => by
    rw [isLive, hm.markers, ← isLive, h.live k]
    simp only [List.mem_cons, exists_eq_or_imp, hmarker]
  owned := fun r hr => by
    have hown : (w'.frames.get r).marker = a.marker → (w'.frames.get r).method = a.method := by
      by_cases hlt : r.index < w.frames.size
      · rw [(hm.frame r hlt).marker, (hm.frame r hlt).method]
        exact h.owned r hlt a List.mem_cons_self
      · exact fun _ => (hm.fresh r (Nat.le_of_not_lt hlt) hr).2
    refine List.forall_mem_cons.mpr ⟨by rwa [hmarker, hmethod], fun c hc hk => ?_⟩
    by_cases hlt : r.index < w.frames.size
    · rw [(hm.frame r hlt).marker] at hk
      rw [(hm.frame r hlt).method]
      exact h.owned r hlt c (List.mem_cons_of_mem a hc) hk
    · rw [(hm.fresh r (Nat.le_of_not_lt hlt) hr).1] at hk
      exact absurd hk.symm (h.marker_ne hc)

theorem operands (h : w.Stacked D (a :: as)) (hm : w.Moved a.marker a.method w') (hb : b ∈ as) :
    (b.handle.frame w').operands = (b.handle.frame w).operands :=
  (h.placed b (List.mem_cons_of_mem a hb)).operands hm (h.marker_ne hb)

theorem started (h : w.Stacked D as) (hc : callee.Started D w w') :
    w'.Stacked D (callee :: as) := by
  have hlt : ∀ a ∈ as, a.marker.index < callee.marker.index := by
    intro a ha
    rw [hc.marker]
    exact h.marker_lt ha
  refine ⟨hc.sound, ?_, List.pairwise_cons.mpr ⟨hlt, h.descending⟩, fun k => ?_, fun r hr => ?_⟩
  · exact List.forall_mem_cons.mpr ⟨hc.placed, fun a ha => (h.placed a ha).marked hc.marked⟩
  · rw [isLive, hc.markers, Arena.get_push, ← hc.marker]
    simp only [List.mem_cons, exists_eq_or_imp, eq_comm (a := callee.marker)]
    split
    · next heq => simp [heq]
    · next hne =>
      rw [← isLive, h.live k]
      simp [hne]
  · rw [hc.marked.frames] at hr ⊢
    refine List.forall_mem_cons.mpr ⟨fun hk => ?_, h.owned r hr⟩
    have hmarker := (h.sound.frames r hr).marker_lt
    rw [hk, hc.marker] at hmarker
    exact absurd hmarker (Nat.lt_irrefl _)

theorem retired (h : w.Stacked D (a :: as)) (hm : w.Marked w')
    (hmarkers : w'.markers = w.markers.set a.marker false) : w'.Stacked D as := by
  refine ⟨h.sound.marked hm, fun b hb => ?_, h.descending.of_cons, fun k => ?_, fun r hr b hb => ?_⟩
  · exact (h.placed b (List.mem_cons_of_mem a hb)).marked hm
  · rw [isLive, hmarkers, Arena.get_set]
    split
    · next heq =>
      rw [iff_false_left Bool.false_ne_true]
      rintro ⟨b, hb, hk⟩
      exact absurd (hk.trans heq.1.symm) (h.marker_ne hb)
    · next hne =>
      have hk : a.marker ≠ k := fun hk => hne ⟨hk, h.marker_lt List.mem_cons_self⟩
      rw [← isLive, h.live k]
      simp [hk]
  · rw [hm.frames] at hr ⊢
    exact h.owned r hr b (List.mem_cons_of_mem a hb)

end Stacked

end World

end MessageMachine
