import MessageMachine.Proofs.Altering

namespace MessageMachine

namespace Table

variable {κ α : Type} [DecidableEq κ]

theorem mem_keys_iff {t : Table κ α} {k : κ} : k ∈ t.keys ↔ (t.find? k).isSome := by
  obtain ⟨entries⟩ := t
  unfold keys find?
  induction entries with
  | nil => simp [findIn]
  | cons e rest ih =>
    by_cases he : e.1 = k
    · simp [findIn, he]
    · simpa [findIn, he, Ne.symm he] using ih

theorem find?_of_mem {t : Table κ α} (h : t.keys.Nodup) {e : κ × α} (he : e ∈ t.entries) :
    t.find? e.1 = some e.2 := by
  obtain ⟨entries⟩ := t
  unfold keys at h
  unfold find?
  induction entries with
  | nil => cases he
  | cons x rest ih =>
    rw [List.map_cons, List.nodup_cons] at h
    rcases List.mem_cons.mp he with rfl | he
    · simp [findIn]
    · have hne : x.1 ≠ e.1 := fun heq => h.1 (heq ▸ List.mem_map_of_mem he)
      rw [findIn, if_neg hne]
      exact ih h.2 he

theorem keys_insert_nodup {t : Table κ α} (h : t.keys.Nodup) (k : κ) (v : α) :
    (t.insert k v).keys.Nodup := by
  obtain ⟨entries⟩ := t
  unfold keys insert at *
  induction entries with
  | nil => simp [insertIn]
  | cons e rest ih =>
    rw [List.map_cons, List.nodup_cons] at h
    by_cases he : e.1 = k
    · rw [he] at h
      simpa only [insertIn, if_pos he, List.map_cons, List.nodup_cons] using h
    · simp only [insertIn, if_neg he, List.map_cons, List.nodup_cons]
      refine ⟨fun hmem => ?_, ih h.2⟩
      have hkey := mem_keys_iff (t := ⟨insertIn k v rest⟩).mp hmem
      unfold find? at hkey
      rw [findIn_insertIn, if_neg (Ne.symm he)] at hkey
      exact h.1 (mem_keys_iff (t := ⟨rest⟩).mpr hkey)

end Table

namespace World

variable {w w' : World} {H : History}

/-- The method most recently installed in a class with this signature. -/
def latest? (w : World) (c : ClassRef) (selector : Symbol) (H : History) : Option Method :=
  (H.find? fun i => i.cls = c ∧ w.signature i.method = selector).map (·.method)

theorem latest?_eq_some {c : ClassRef} {selector : Symbol} {m : Method}
    (h : w.latest? c selector H = some m) : ⟨c, m⟩ ∈ H ∧ w.signature m = selector := by
  obtain ⟨i, hi, rfl⟩ := Option.map_eq_some_iff.mp h
  obtain ⟨rfl, hs⟩ : i.cls = c ∧ w.signature i.method = selector := by simpa using List.find?_some hi
  exact ⟨List.mem_of_find?_eq_some hi, hs⟩

theorem latest?_isSome {c : ClassRef} {selector : Symbol} :
    (w.latest? c selector H).isSome ↔ ∃ m, ⟨c, m⟩ ∈ H ∧ w.signature m = selector := by
  constructor
  · intro h
    obtain ⟨m, hm⟩ := Option.isSome_iff_exists.mp h
    exact ⟨m, latest?_eq_some hm⟩
  · rintro ⟨m, hm, hs⟩
    rw [latest?, Option.isSome_map, List.find?_isSome]
    exact ⟨⟨c, m⟩, hm, decide_eq_true ⟨rfl, hs⟩⟩

theorem latest?_cons (i : Installation) (c : ClassRef) (selector : Symbol) :
    w.latest? c selector (i :: H) =
      if i.cls = c ∧ w.signature i.method = selector then some i.method
      else w.latest? c selector H := by
  unfold latest?
  rw [List.find?_cons]
  by_cases h : i.cls = c ∧ w.signature i.method = selector <;> simp [h]

theorem latest?_congr (h : ∀ i ∈ H, w'.signature i.method = w.signature i.method) (c : ClassRef)
    (selector : Symbol) : w'.latest? c selector H = w.latest? c selector H := by
  induction H with
  | nil => rfl
  | cons i H ih =>
    rw [latest?_cons, latest?_cons, h i List.mem_cons_self,
      ih fun j hj => h j (List.mem_cons_of_mem i hj)]

/-- The method tables are those that a history leaves: each signature has one entry, the method most
recently installed. -/
structure Recorded (w : World) (H : History) : Prop where
  made : ∀ i ∈ H, i.cls ∈ w.registered ∧ w.Made i.method
  table : ∀ c selector, (w.cls c).methods.find? selector = w.latest? c selector H
  distinct : ∀ c, (w.cls c).methods.keys.Nodup

theorem Recorded.prepares (hr : w.Recorded H) (h : w.Prepares w') : w'.Recorded H where
  made := fun i hi => by
    rw [h.registered]
    exact ⟨(hr.made i hi).1, h.made (hr.made i hi).2⟩
  table := fun c selector => by
    rw [latest?_congr fun i hi => h.signature (hr.made i hi).2, ← hr.table]
    simp only [cls, h.classes]
  distinct := fun c => by
    simp only [cls, h.classes]
    exact hr.distinct c

theorem Recorded.define (hr : w.Recorded H) (name : String) (superclass : ClassRef)
    (fields : List String) : (w.define name superclass fields).2.Recorded H := by
  obtain ⟨hwidens, -, hregistered, -, hprimitives⟩ := w.define_widens name superclass fields
  have hcodes := (w.define_keeps name superclass fields).1
  generalize (w.define name superclass fields).2 = v at *
  have hsignature (m : Method) : v.signature m = w.signature m := by
    cases m <;> simp only [World.signature, World.code, hcodes, hprimitives]
  refine ⟨fun i hi => ⟨?_, ?_⟩, fun c selector => ?_, fun c => ?_⟩
  · rw [hregistered]
    exact List.mem_append_left _ (hr.made i hi).1
  · have hm := (hr.made i hi).2
    generalize i.method = m at hm
    cases m <;> simpa only [Made, hcodes, hprimitives] using hm
  all_goals by_cases hc : c.index < w.classes.size
  · rw [hwidens.methods c hc, hr.table, latest?_congr fun i _ => hsignature i.method]
  · rw [hwidens.fresh c (Nat.le_of_not_lt hc), latest?_congr fun i _ => hsignature i.method,
      ← hr.table, cls_of_le (Nat.le_of_not_lt hc)]
    rfl
  · rw [hwidens.methods c hc]
    exact hr.distinct c
  · rw [hwidens.fresh c (Nat.le_of_not_lt hc)]
    exact List.nodup_nil

theorem Recorded.install (hr : w.Recorded H) (ht : w.Tidy) {c : ClassRef} (hc : c ∈ w.registered)
    {m : Method} (hm : w.Made m) : (w.install c m).Recorded (⟨c, m⟩ :: H) := by
  obtain ⟨codes, primitives, heq, hcodes, hprimitives, hsignature⟩ := w.install_eq c m
  have hmade (x : Method) : (w.install c m).Made x ↔ w.Made x := by
    rw [heq]
    cases x with
    | compiled r => exact iff_of_eq (congrArg (r.index < ·) hcodes)
    | primitive p => exact iff_of_eq (congrArg (p.index < ·) hprimitives)
  have hsigns (x : Method) : (w.install c m).signature x = w.signature x := by
    rw [heq]
    exact hsignature x
  have hcls (d : ClassRef) : ((w.install c m).cls d).methods =
      if c = d then (w.cls d).methods.insert (w.signature m) m else (w.cls d).methods := by
    rw [heq]
    simp only [flushMemos, cls, Arena.get_set, (ht.registered c).mp hc, and_true]
    split
    · next h => rw [h]
    · rfl
  refine ⟨fun i hi => ?_, fun d selector => ?_, fun d => ?_⟩
  · rw [hmade, heq]
    rcases List.mem_cons.mp hi with rfl | hi
    · exact ⟨hc, hm⟩
    · exact hr.made i hi
  · rw [latest?_cons, hsigns, latest?_congr fun i _ => hsigns i.method, ← hr.table, hcls]
    by_cases hd : c = d
    · simp only [hd, if_true, true_and, Table.find?_insert]
    · simp only [hd, false_and, if_false]
  · rw [hcls]
    split
    · exact Table.keys_insert_nodup (hr.distinct d) _ _
    · exact hr.distinct d

theorem Alters.recorded {I : History} (h : w.Alters w' I) (ht : w.Tidy) (hr : w.Recorded H) :
    w'.Recorded (I ++ H) := by
  cases h with
  | prepare h => exact hr.prepares h
  | install h hc hm => exact (hr.prepares h).install (h.tidy ht) (h.registered ▸ hc) hm
  | define h name hs fields => exact (hr.prepares h).define name _ fields

theorem Altered.recorded (h : w.Altered w' H) {I : History} (ht : w.Tidy) (hr : w.Recorded I) :
    w'.Recorded (H ++ I) := by
  induction h with
  | refl => exact hr
  | alter h ha ih =>
    rw [List.append_assoc]
    exact (alter_alters (h.tidy ht) ha).recorded (h.tidy ht) ih

theorem core_recorded (config : Config) (journal : Journal) : (core config journal).Recorded [] := by
  obtain ⟨-, -, hmethods, -⟩ := core_tidy config journal
  refine ⟨nofun, fun c selector => ?_, fun c => ?_⟩
  · rw [hmethods]
    rfl
  · rw [hmethods]
    exact List.nodup_nil

theorem firstMethod_eq (hr : w.Recorded H) (selector : Symbol) (cs : List ClassRef) :
    w.firstMethod selector cs = cs.findSome? fun c => w.latest? c selector H := by
  induction cs with
  | nil => rfl
  | cons c cs ih =>
    rw [firstMethod, List.findSome?_cons, ih, hr.table]
    cases w.latest? c selector H <;> rfl

theorem Recorded.signature_values (hr : w.Recorded H) (c : ClassRef) :
    (w.cls c).methods.values.map w.signature = (w.cls c).methods.keys := by
  rw [Table.values, Table.keys, List.map_map]
  refine List.map_congr_left fun e he => ?_
  have hfound := Table.find?_of_mem (hr.distinct c) he
  rw [hr.table] at hfound
  exact (latest?_eq_some hfound).2

/-- Whatever was defined, installed, forgotten and looked up since a world was booted: a lookup answers
the method most recently installed with the selector in the first class of the chain that has one, if
any; and each class holds one method for every signature ever installed in it, the most recent one. -/
theorem lookup_follows_history {config : Config} {journal : Journal} {w₀ : World}
    (hboot : World.boot config journal = .ok w₀) (h : w₀.Altered w H) :
    (∀ c selector, (w.lookup c selector).1 = (w.ancestors c).findSome? fun d =>
      w.latest? d selector (H ++ CoreLibrary.history config journal)) ∧
    ∀ c, ((w.cls c).methods.values.map w.signature).Nodup ∧
      (∀ selector, selector ∈ (w.cls c).methods.values.map w.signature ↔
        ∃ m, ⟨c, m⟩ ∈ H ++ CoreLibrary.history config journal ∧ w.signature m = selector) ∧
      ∀ m ∈ (w.cls c).methods.values,
        w.latest? c (w.signature m) (H ++ CoreLibrary.history config journal) = some m := by
  have hall := (boot_altered hboot).trans h
  have htidy := hall.tidy (core_tidy config journal).1
  have hr := hall.recorded (core_tidy config journal).1 (core_recorded config journal)
  rw [List.append_nil] at hr
  refine ⟨fun c selector => ?_, fun c => ⟨?_, fun selector => ?_, fun m hm => ?_⟩⟩
  · obtain ⟨memos, heq, -⟩ := lookup_eq htidy.ranked.ordered htidy.memos c selector
    rw [heq]
    exact firstMethod_eq hr selector _
  · rw [hr.signature_values]
    exact hr.distinct c
  · rw [hr.signature_values, Table.mem_keys_iff, hr.table, latest?_isSome]
  · obtain ⟨e, he, rfl⟩ := List.mem_map.mp hm
    have hfound := Table.find?_of_mem (hr.distinct c) he
    rw [hr.table] at hfound
    rw [(latest?_eq_some hfound).2, hfound]

def overriding : List Alteration :=
  let kind := (standard.intern "kind").1
  [.intern "kind", .define "Animal" CoreClass.object.ref [], .define "Dog" ⟨38⟩ [],
   .source ⟨38⟩ (CoreLibrary.answer "kind" (.boolean true)), .lookup ⟨40⟩ kind,
   .source ⟨40⟩ (CoreLibrary.answer "kind" (.boolean false))]

set_option maxRecDepth 100000 in
theorem lookup_follows_history_overriding :
    ∃ (w : World) (H : History) (selector : Symbol),
      World.boot .standard .off = .ok standard ∧ standard.Altered w H ∧
      (w.lookup ⟨40⟩ selector).1 = some (.compiled ⟨21⟩) ∧
      (w.ancestors ⟨40⟩).findSome? (fun d =>
        w.latest? d selector (H ++ CoreLibrary.history .standard .off)) = some (.compiled ⟨21⟩) ∧
      (w.cls ⟨38⟩).methods.values = [.compiled ⟨20⟩] ∧
      w.latest? ⟨38⟩ selector (H ++ CoreLibrary.history .standard .off) = some (.compiled ⟨20⟩) := by
  let w : World := standard.alterAll overriding
  let H : History := standard.log overriding
  let selector := (standard.intern "kind").1
  have hrun : (decide (standard.Allows overriding) &&
      (w.lookup ⟨40⟩ selector).1 = some (.compiled ⟨21⟩) &&
      (w.cls ⟨38⟩).methods.values = [.compiled ⟨20⟩] &&
      w.signature (.compiled ⟨20⟩) = selector) = true := by decide +kernel
  simp only [Bool.and_eq_true, decide_eq_true_eq] at hrun
  obtain ⟨⟨⟨hallows, hlookup⟩, hvalues⟩, hsignature⟩ := hrun
  have h : standard.Altered w (H ++ []) := .all .refl hallows
  rw [List.append_nil] at h
  obtain ⟨hfound, htables⟩ := lookup_follows_history boot_standard h
  have hentry := (htables ⟨38⟩).2.2 (.compiled ⟨20⟩) (by rw [hvalues]; exact List.mem_singleton_self _)
  rw [hsignature] at hentry
  exact ⟨w, H, selector, boot_standard, h, hlookup, (hfound _ _).symm.trans hlookup, hvalues, hentry⟩

end World

end MessageMachine
