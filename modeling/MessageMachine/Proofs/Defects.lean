import MessageMachine.Proofs.Leveling
import MessageMachine.Proofs.Safety

namespace MessageMachine

/-- A host may install well-formed sources whose constants it may use, and call the methods that it
finds. -/
def Policy.wellFormed : Policy where
  adds held w w' := ∃ (s : Source) (c : ClassRef) (m : Method),
    s.wellFormed (fun v => Usable held v) [] ∧ s.install c w = .ok m w'
  calls held _ m := ∀ r, m = .compiled r → .method m ∈ held
  runs _ := True

theorem Policy.wellFormed_keeps : Policy.wellFormed.Keeps Contract.checked where
  boot := World.boot_sound (D := .checked) id
  adds := by
    rintro held w w' ⟨s, c, m, hs, hinstall⟩ hw hheld
    exact Source.install_sound (D := .checked) id hs
      (fun v hv => (of_decide_eq_true hv).valid hheld) hw hinstall
  calls := fun hcalls _ hheld r hr => hheld _ (hcalls r hr) r hr
  runs := by
    rintro ⟨control, waiting, w⟩ held loop hm - hrun
    cases hrun
    exact Activation.keeps_checked (hm.1.stack.placed _ List.mem_cons_self) hm.2

/-- Each call answers a value or fails through a fault of the program, and the host may go on with the
world that it leaves. What is called was built, so no sum of its counts left the machine word. -/
theorem Session.free_of_defects {held : List Grant} {o : Outcome} {w w' : World}
    (h : Session .wellFormed ⟨.answer o, [], w⟩ held) {c : HostCall}
    (hc : c.Allowed .wellFormed held w) {fuel : Nat} {a : HostAnswer}
    (hrun : c.run fuel w = some (a, w')) :
    ((∃ v, a.settle = .ok v) ∨ ∃ f, a.settle = .error f ∧ f.isProgramFault) ∧
      ∃ o', a = c.answer o' ∧ Session .wellFormed ⟨.answer o', [], w'⟩ held :=
  ⟨h.answer_cases Policy.wellFormed_keeps hc hrun fun _ _ => trivial,
    h.answered hc hrun fun _ _ => trivial⟩

set_option maxRecDepth 100000 in
theorem Session.free_of_defects_nested :
    ∃ (w w' : World) (m : Method) (a : HostAnswer),
      Session .wellFormed ⟨.answer (.ok .nil), [], w⟩ [.method m] ∧
      (HostCall.invoke m .nil []).Allowed .wellFormed [.method m] w ∧
      (HostCall.invoke m .nil []).run 20 w = some (a, w') ∧ a.settle = .ok (.boolean true) ∧
      ((∃ v, a.settle = .ok v) ∨ ∃ f, a.settle = .error f ∧ f.isProgramFault) ∧
      ∃ o', a = (HostCall.invoke m .nil []).answer o' ∧
        Session .wellFormed ⟨.answer o', [], w'⟩ [.method m] := by
  let object := CoreClass.object.ref
  let m : Method := .compiled nested.standard.1
  let w : World := nested.standard.2.installCode object nested.standard.1
  have hrun : (nested.standalone && nested.wellFormed (fun v => Usable [] v) [] &&
      (w.cls object).methods.find? (w.intern nested.signature).1 = some m &&
      ((HostCall.invoke m .nil []).run 20 w).any fun r => r.1.settle = .ok (.boolean true)) = true :=
    by decide +kernel
  simp only [Bool.and_eq_true] at hrun
  obtain ⟨⟨⟨hstandalone, hs⟩, hfind⟩, hanswer⟩ := hrun
  obtain ⟨⟨a, w'⟩, hcall, ha⟩ := Option.any_eq_true _ _ |>.mp hanswer
  have hadds : Policy.wellFormed.adds [] World.standard w :=
    ⟨nested, object, m, hs, Source.standalone_installs hstandalone object⟩
  have hsession : Session .wellFormed ⟨.answer (.ok .nil), [], w⟩ [.method m] :=
    .find (.add (.boot World.boot_standard) hadds) (of_decide_eq_true hfind)
  have hallowed : (HostCall.invoke m .nil []).Allowed .wellFormed [.method m] w :=
    HostCall.invoke_allowed fun _ _ => List.mem_cons_self
  exact ⟨w, w', m, a, hsession, hallowed, hcall, of_decide_eq_true ha,
    hsession.free_of_defects hallowed hcall⟩

end MessageMachine
