import MessageMachine.Proofs.Disassembling

namespace MessageMachine

namespace Emission

theorem size_lt {code pre post : List SourceItem} {item : SourceItem}
    (hfew : (items code).tooManyLiterals = false) (hcode : code = pre ++ item :: post)
    (hraw : item.isRaw = false) : (items pre).bytes.size < (items code).bytes.size := by
  obtain ⟨l, hfetch, -⟩ := fetch_items hraw (hcode ▸ hfew)
  rw [← hcode] at hfetch
  obtain ⟨hpos, hle⟩ := fetch_le hfetch
  omega

end Emission

namespace Code.BuiltFrom

variable {c : Code} {code pre post : List SourceItem} {blocks : Array CodeRef} {offset n : Nat}

/-- Execution gets to no offsets but those of items and the end, and there it finds as many operands as
were tracked. -/
theorem boundary (h : c.BuiltFrom code blocks) (hraw : ∀ item ∈ code, item.isRaw = false)
    (hr : c.Reaches offset n) :
    ∃ pre post, code = pre ++ post ∧ offset = (Emission.items pre).bytes.size ∧
      n = (Emission.items pre).depth := by
  induction hr with
  | start => exact ⟨[], code, rfl, rfl, rfl⟩
  | next _ hi _ _ ih =>
    obtain ⟨pre, post, hcode, rfl, rfl⟩ := ih
    cases post with
    | nil =>
      rw [List.append_nil] at hcode
      obtain ⟨hpos, hle⟩ := fetch_le hi
      rw [h.bytecodes, hcode] at hle
      omega
    | cons item rest =>
      obtain ⟨l, hfetch, hsize, htakes, hdepth, -, -⟩ := h.fetch hcode (hraw item (by simp [hcode]))
      rw [hfetch] at hi
      cases hi
      refine ⟨pre ++ [item], rest, by simp [hcode], hsize.symm, ?_⟩
      rw [hdepth, htakes]

theorem eq_of_size_eq (h : c.BuiltFrom code blocks) (hraw : ∀ item ∈ code, item.isRaw = false)
    {pre' post' : List SourceItem} (hcode : code = pre ++ post) (hcode' : code = pre' ++ post')
    (hsize : (Emission.items pre).bytes.size = (Emission.items pre').bytes.size) : pre = pre' := by
  have hstep {pre mid post : List SourceItem} (hcode : code = pre ++ mid ++ post)
      (hsize : (Emission.items pre).bytes.size = (Emission.items (pre ++ mid)).bytes.size) :
      mid = [] := by
    cases mid with
    | nil => rfl
    | cons item mid =>
      have hgrows := Emission.foldl_grows (Emission.items (pre ++ item :: mid)) post
      rw [← Emission.items_append, ← hcode] at hgrows
      have hfew : (Emission.items (pre ++ item :: mid)).tooManyLiterals = false := by
        rw [Bool.eq_false_iff]
        intro hmany
        cases h.few.symm.trans (hgrows.tooManyLiterals hmany)
      have hlt := Emission.size_lt hfew rfl (hraw item (by simp [hcode]))
      omega
  rw [hcode] at hcode'
  obtain ⟨mid, rfl, hpost⟩ | ⟨mid, rfl, hpost⟩ := List.append_eq_append_iff.mp hcode'
  · rw [hstep (by rw [hcode, hpost, List.append_assoc]) hsize, List.append_nil]
  · rw [hstep hcode hsize.symm, List.append_nil]

theorem not_overflows (h : c.BuiltFrom code blocks) (hraw : ∀ item ∈ code, item.isRaw = false) :
    ¬ c.Overflows := by
  rintro ⟨offset, n, hr, hlt⟩
  obtain ⟨pre, post, hcode, -, rfl⟩ := h.boundary hraw hr
  have hgrows := Emission.foldl_grows (Emission.items pre) post
  rw [← Emission.items_append, ← hcode] at hgrows
  have hle := Nat.le_trans (Emission.depth_le pre) hgrows.maxDepth
  rw [h.capacity] at hlt
  omega

end Code.BuiltFrom

theorem Source.builtFrom {s : Source} {level : UInt8} {w w' : World} {r : CodeRef}
    (h : s.build level w = .ok r w') (hstack : s.maxStack? = none) :
    (∃ blocks, (w'.code r).BuiltFrom s.code blocks) ∧
      (w'.code r).argCount = s.argCount ∧ (w'.code r).localCount = s.localCount := by
  obtain ⟨kind, signature, localCount, level?, maxStack?, code⟩ := s
  cases hstack
  obtain ⟨blocks, literals, v, _, ⟨hfew, w₁, -, hliterals⟩, hnew⟩ := Source.of_build h
  obtain ⟨-, hget, -⟩ :=
    (LiteralSource.arrayValues_build (fun _ => true) _ _ w₁).of_ok hliterals
  obtain ⟨-, -, hcode⟩ := World.of_newCode hnew
  rw [hcode]
  refine ⟨⟨blocks.toArray, rfl, ?_, hfew, hget⟩, ?_, rfl⟩
  · change selectorArity signature + localCount + (Emission.items code).maxDepth -
      (selectorArity signature + localCount) = _
    exact Nat.add_sub_cancel_left _ _
  · exact congrArg selectorArity (SymbolTable.name_intern v.symbols signature)

/-- Whatever the items of a body are, if none is raw and none sets the stack: when the body runs, it
stands before an item or at its end, with exactly as many operands as were tracked up to there. Its
frame has room for its arguments, its locals and the deepest stack that was tracked, whose number fits
a machine word, and it is never too small. -/
theorem tracked_depth_exact {s : Source} {level : UInt8} {w w' v : World} {r : CodeRef}
    (hbuild : s.build level w = .ok r w') (hraw : ∀ item ∈ s.code, item.isRaw = false)
    (hstack : s.maxStack? = none) (hcode : v.code r = w'.code r) (q : Request) (n : Nat) :
    (v.code r).maxStack = s.argCount + s.localCount + (Emission.items s.code).maxDepth ∧
    s.argCount + s.localCount + (Emission.items s.code).maxDepth < UInt64.size ∧
    (∀ loop : RunLoop, ((q.machine v).after n).control = .run loop → loop.current.method = r →
      (∃ pre post, s.code = pre ++ post ∧
        loop.current.offset = (Emission.items pre).bytes.size) ∧
      ∀ pre post, s.code = pre ++ post →
        loop.current.offset = (Emission.items pre).bytes.size →
        (loop.current.handle.frame ((q.machine v).after n).world).operands.length =
          (Emission.items pre).depth) ∧
    ∀ f, ((q.machine v).after n).Failing f → f.overflowed? ≠ some r := by
  obtain ⟨⟨blocks, hbuilt⟩, hargs, hlocals⟩ := Source.builtFrom hbuild hstack
  rw [← hcode] at hbuilt hargs hlocals
  have hcounted := Machine.counted_request q v n
  have hmax : (v.code r).maxStack =
      s.argCount + s.localCount + (Emission.items s.code).maxDepth := by
    rw [Code.maxStack, Code.baseline, hargs, hlocals, hbuilt.capacity]
  refine ⟨hmax, hmax ▸ (v.code r).maxStack_lt, ?_, fun f hf hr => ?_⟩
  · rintro loop hcontrol rfl
    have hreaches := (hcounted.running loop hcontrol).2
    rw [q.code_after, Nat.add_zero] at hreaches
    obtain ⟨pre, post, hsplit, hoffset, hdepth⟩ := hbuilt.boundary hraw hreaches
    refine ⟨⟨pre, post, hsplit, hoffset⟩, fun pre' post' hsplit' hoffset' => ?_⟩
    rw [hdepth, hbuilt.eq_of_size_eq hraw hsplit hsplit' (hoffset.symm.trans hoffset')]
  · refine hbuilt.not_overflows hraw ?_
    rw [← q.code_after v n]
    exact hcounted.fault f hf r hr

set_option maxRecDepth 100000 in
theorem tracked_depth_exact_adding :
    ∃ (s : Source) (w' : World) (r : CodeRef) (q : Request) (loop : RunLoop),
      s.build 0 World.standard = .ok r w' ∧ (∀ item ∈ s.code, item.isRaw = false) ∧
      s.maxStack? = none ∧ (w'.code r).maxStack = s.argCount + 2 ∧
      ((q.machine w').after 2).control = .run loop ∧ loop.current.method = r ∧
      (loop.current.handle.frame ((q.machine w').after 2).world).operands.length = 2 ∧
      ∀ f, ((q.machine w').after 2).Failing f → f.overflowed? ≠ some r := by
  let s : Source := .method "answer:" [.pushSlot .arguments 1 0, .pushConstant (.integer 1),
    .send "+", .returnLocal, .pop, .popField 0, .dup]
  have hraw : ∀ item ∈ s.code, item.isRaw = false := by
    simp [s, Source.method, Source.code, SourceItem.isRaw]
  let q (r : CodeRef) : Request := .host (.invoke (.compiled r) .nil [.integer 41])
  have hruns : ((s.build 0).result? World.standard).any (fun p =>
      (((q p.1).machine p.2).after 2).next?.any fun next =>
        next.1.current.method = p.1 ∧ next.1.current.offset = 5) = true := by
    decide +kernel
  simp only [Option.any_eq_true, decide_eq_true_eq] at hruns
  obtain ⟨⟨r, w'⟩, hresult, ⟨loop, i⟩, hnext, hmethod, hoffset⟩ := hruns
  have hbuild := Action.result?_eq_some.mp hresult
  obtain ⟨hcontrol, -⟩ := Machine.next?_eq_some.mp hnext
  obtain ⟨hsize, -, hdepth, hfits⟩ := tracked_depth_exact hbuild hraw rfl rfl (q r) 2
  have htracked := (hdepth loop hcontrol hmethod).2 (s.code.take 2) (s.code.drop 2) rfl hoffset
  exact ⟨s, w', r, q r, loop, hbuild, hraw, rfl, hsize, hcontrol, hmethod, htracked, hfits⟩

end MessageMachine
