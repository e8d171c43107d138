import Mathlib.Data.List.InsertIdx
import ObjectTracking.Proofs.Edits
/-!
Links. A nested value and everything in it report through one link; edits keep it so, and report
through that link exactly when they count as a change.
-/
set_option autoImplicit false

namespace ObjectTracking

mutual

theorem Composite.attach_attach (k k' : Option Link) :
    (c : Composite) → (c.attach k).attach k' = c.attach k'
  | .mk l _ fs => by
    simp only [Composite.attach]
    rw [Field.attachAll_attachAll k k' fs]

theorem Field.attach_attach (k k' : Option Link) :
    (f : Field) → (f.attach k).attach k' = f.attach k'
  | .unset => rfl
  | .scalar _ => rfl
  | .nested c => by
    simp only [Field.attach]
    rw [Composite.attach_attach k k' c]

theorem Field.attachAll_attachAll (k k' : Option Link) :
    (fs : List Field) → Field.attachAll k' (Field.attachAll k fs) = Field.attachAll k' fs
  | [] => rfl
  | f :: fs => by
    simp only [Field.attachAll]
    rw [Field.attach_attach k k' f, Field.attachAll_attachAll k k' fs]

end

attribute [simp] Composite.attach_attach

theorem map_eq_self_iff {α : Type} {f : α → α} {l : List α} : l.map f = l ↔ ∀ a ∈ l, f a = a := by
  induction l with
  | nil => simp
  | cons a l ih => simp [ih]

theorem Field.attachAll_eq_map (k : Option Link) (fs : List Field) :
    Field.attachAll k fs = fs.map (Field.attach k) := by
  induction fs with
  | nil => rfl
  | cons f fs ih => simp [Field.attachAll, ih]

@[simp] theorem Collection.attach_attach (k k' : Option Link) (c : Collection) :
    (c.attach k).attach k' = c.attach k' := by
  simp [Collection.attach, Function.comp_def]

@[simp] theorem Value.attach_attach (k k' : Link) (v : Value) :
    (v.attach k).attach k' = v.attach k' := by
  cases v <;> simp [Value.attach]

theorem Value.attach_copy (k : Link) (v : Value) : v.copy.attach k = v.attach k := by
  cases v with
  | null => rfl
  | scalar s => rfl
  | composite c => simp [copy, attach, Composite.copy, Composite.attach_attach]
  | collection c =>
    simp [copy, attach, Collection.copy, Collection.attach, Composite.copy, Composite.attach_attach]

namespace Composite
variable {k : Option Link} {c : Composite}

theorem attach_eq_self_iff : c.attach k = c ↔ c.link = k ∧ ∀ f ∈ c.fields, f.attach k = f := by
  obtain ⟨l, k', fs⟩ := c
  simp only [attach, link, fields, mk.injEq, true_and, Field.attachAll_eq_map]
  exact and_congr eq_comm map_eq_self_iff

theorem attach_setAt {f : Field} (hc : c.attach k = c) (hf : f.attach k = f) (ix : Nat) :
    (c.setAt ix f).attach k = c.setAt ix f := by
  rw [attach_eq_self_iff] at hc ⊢
  refine ⟨hc.1, ?_⟩
  intro g hg
  rcases List.mem_or_eq_of_mem_set hg with hg | rfl
  · exact hc.2 g hg
  · exact hf

theorem attach_nested {cat : Catalog} {name : String} {ix : Nat} {n : Composite}
    (hc : c.attach k = c) (h : c.nested? cat name = some (ix, n)) : n.attach k = n := by
  obtain ⟨hlink, hfields⟩ := attach_eq_self_iff.mp hc
  rcases nested?_eq_some h with ⟨l, -, rfl⟩ | hn
  · rw [hlink, attach_attach]
  · simpa [Field.attach] using hfields _ (List.mem_of_getElem? hn)

end Composite

theorem LayoutField.attach_accept {f : LayoutField} {k : Option Link} {v : Value} {stored : Field}
    (h : f.accept k v = .ok stored) : stored.attach k = stored := by
  unfold accept at h
  split at h
  · cases h
    rfl
  · rename_i s codec _
    cases hs : codec.normalise f.name s with
    | error e => simp [hs, Except.map] at h
    | ok s' =>
      simp only [hs, Except.map, Except.ok.injEq] at h
      subst h
      rfl
  · split at h
    · cases h
      simp [Field.attach]
    · cases h
  · cases h

namespace Composite
variable {k : Option Link}

theorem set_eq (cat : Catalog) (c : Composite) (name : String) (v : Value) :
    (∃ ix f stored, (cat.layout c.layout).fields[ix]? = some f ∧ f.accept c.link v = .ok stored ∧
      c.set cat name v = .done () (c.setAt ix stored) c.link) ∨
    ∃ e, c.set cat name v = .failed e c := by
  unfold set
  cases c.position cat name with
  | error e => exact .inr ⟨e, rfl⟩
  | ok ix =>
    dsimp only
    cases hf : (cat.layout c.layout).fields[ix]? with
    | none => exact .inr ⟨_, rfl⟩
    | some f =>
      dsimp only
      cases ha : f.accept c.link v with
      | error e => exact .inr ⟨e, rfl⟩
      | ok stored => exact .inl ⟨ix, f, stored, hf, ha, rfl⟩

/-- An edit keeps the links of a composite. -/
theorem perform_attach (cat : Catalog) (edit : CompositeEdit) {c : Composite}
    (hc : c.attach k = c) :
    (c.perform cat edit).state.attach k = (c.perform cat edit).state := by
  induction edit generalizing c with
  | touch => exact hc
  | set name v =>
    rcases set_eq cat c name v with ⟨ix, f, stored, _, ha, h⟩ | ⟨e, h⟩
    · rw [(attach_eq_self_iff.mp hc).1] at ha
      simpa only [perform, h, Edited.state_done] using
        attach_setAt hc (LayoutField.attach_accept ha) ix
    · simpa only [perform, h, Edited.state_failed] using hc
  | notify => exact hc
  | nested name edit ih =>
    rcases editField_eq cat c name (perform cat edit) with ⟨ix, n, hn, h⟩ | ⟨_, e, h⟩
    · simp only [perform, h, Edited.state_within]
      apply attach_setAt hc
      simpa only [Field.attach, Field.nested.injEq] using ih (attach_nested hc hn)
    · simpa only [perform, h, Edited.state_failed] using hc

/-- An edit reports, once, exactly what counts as a change. -/
theorem perform_signals (cat : Catalog) (edit : CompositeEdit) {c : Composite}
    (hc : c.attach k = c) :
    (c.perform cat edit).signals = if c.changes cat edit then k.toList else [] := by
  induction edit generalizing c with
  | touch => rfl
  | set name v =>
    rw [← (attach_eq_self_iff.mp hc).1]
    rcases set_eq cat c name v with ⟨ix, f, stored, _, _, h⟩ | ⟨e, h⟩
    · simp [perform, changes, h, Edited.done, Except.isOk, Except.toBool]
    · simp [perform, changes, h, Edited.failed, Except.isOk, Except.toBool]
  | notify =>
    rw [← (attach_eq_self_iff.mp hc).1]
    rfl
  | nested name edit ih =>
    rcases editField_eq cat c name (perform cat edit) with ⟨ix, n, hn, h⟩ | ⟨hn, e, h⟩
    · simp [perform, changes, h, hn, ih (attach_nested hc hn)]
    · simp [perform, changes, h, hn]

end Composite

namespace Collection
variable {k : Option Link} {c : Collection}

theorem attach_eq_self_iff :
    c.attach k = c ↔ c.link = k ∧ ∀ e ∈ c.entries, e.value.attach k = e.value := by
  obtain ⟨l, element, entries, removed, k'⟩ := c
  simp only [attach, mk.injEq, true_and, map_eq_self_iff]
  constructor
  · rintro ⟨h, rfl⟩
    exact ⟨rfl, fun e he => congrArg Entry.value (h e he)⟩
  · rintro ⟨rfl, h⟩
    refine ⟨?_, rfl⟩
    intro e he
    rw [h e he]

theorem insert_eq (cat : Catalog) (c : Collection) (ix : Nat) (item : Composite) :
    (item.layout = c.layout ∧ c.insert cat ix item = .done () { c with
      entries := c.entries.insertIdx (min ix c.entries.length) ⟨none, false, item.attach c.link⟩ }
      c.link) ∨
    (item.layout ≠ c.layout ∧ ∃ e, c.insert cat ix item = .failed e c) := by
  by_cases h : item.layout = c.layout
  · exact .inl ⟨h, by simp [insert, check, h]⟩
  · exact .inr ⟨h, _, by simp [insert, check, h]; rfl⟩

/-- What holds of the items, and of every item that is handed the link, an edit keeps of the items
if it is kept within each of them. -/
theorem forall_perform (cat : Catalog) (edit : CollectionEdit) {P : Composite → Prop}
    (hadd : ∀ item : Composite, P (item.attach c.link))
    (hkeep : ∀ edit v, P v → P (Composite.perform cat edit v).state)
    (h : ∀ e ∈ c.entries, P e.value) : ∀ e ∈ (c.perform cat edit).state.entries, P e.value := by
  have hinsert : ∀ ix item, ∀ e ∈ (c.insert cat ix item).state.entries, P e.value := by
    intro ix item e he
    rcases insert_eq cat c ix item with ⟨_, heq⟩ | ⟨_, f, heq⟩
    · rw [heq] at he
      rcases List.eq_or_mem_of_mem_insertIdx he with rfl | he
      · exact hadd item
      · exact h e he
    · rw [heq] at he
      exact h e he
  cases edit with
  | touch => exact h
  | insert ix item => exact hinsert ix item
  | push item => exact hinsert _ item
  | remove ix =>
    cases hix : c.entries[ix]? with
    | none => simpa [perform, remove, hix] using h
    | some e =>
      simp only [perform, remove, hix, Edited.state_map, Edited.state_done]
      exact fun e' he' => h e' (List.mem_of_mem_eraseIdx he')
  | clear => simp [perform, clear]
  | item ix edit =>
    cases hix : c.entries[ix]? with
    | none => simpa [perform, editItem?, hix] using h
    | some e =>
      simp only [perform, editItem?, hix, Option.map_some, Option.getD_some, Edited.state_within]
      intro e' he'
      rcases List.mem_or_eq_of_mem_set he' with he' | rfl
      · exact h e' he'
      · exact hkeep edit e.value (h e (List.mem_of_getElem? hix))

/-- An edit keeps the links of a collection. -/
theorem perform_attach (cat : Catalog) (edit : CollectionEdit) (hc : c.attach k = c) :
    (c.perform cat edit).state.attach k = (c.perform cat edit).state := by
  obtain ⟨hlink, hentries⟩ := attach_eq_self_iff.mp hc
  rw [attach_eq_self_iff]
  refine ⟨(perform_change cat edit c).link.trans hlink, ?_⟩
  refine forall_perform cat edit (P := fun v => v.attach k = v) ?_ ?_ hentries
  · simp [hlink]
  · exact fun edit v hv => Composite.perform_attach cat edit hv

/-- A collection reports through `k`, and its items do so or not at all. -/
structure ReportsTo (k : Option Link) (c : Collection) : Prop where
  link : c.link = k
  items : ∀ e ∈ c.entries, e.value.attach k = e.value ∨ e.value.attach none = e.value

theorem ReportsTo.perform (h : c.ReportsTo k) (cat : Catalog) (edit : CollectionEdit) :
    (c.perform cat edit).state.ReportsTo k := by
  refine ⟨(perform_change cat edit c).link.trans h.link, ?_⟩
  refine forall_perform cat edit (P := fun v => v.attach k = v ∨ v.attach none = v) ?_ ?_ h.items
  · intro item
    simp [h.link]
  · rintro edit v (hv | hv)
    · exact .inl (Composite.perform_attach cat edit hv)
    · exact .inr (Composite.perform_attach cat edit hv)

/-- An edit reports exactly when it counts as a change, and only through the link. -/
theorem ReportsTo.mem_signals_perform (h : c.ReportsTo k) (cat : Catalog) (edit : CollectionEdit)
    (s : Link) : s ∈ (c.perform cat edit).signals ↔ k = some s ∧ c.changes edit = true := by
  have hinsert : ∀ ix item,
      s ∈ (c.insert cat ix item).signals ↔ k = some s ∧ item.layout = c.layout := by
    intro ix item
    rcases insert_eq cat c ix item with ⟨hl, heq⟩ | ⟨hl, f, heq⟩
    · simp [heq, hl, h.link]
    · simp [heq, hl]
  cases edit with
  | touch => simp [Collection.perform, changes]
  | insert ix item => simpa [Collection.perform, changes] using hinsert ix item
  | push item => simpa [Collection.perform, push, changes] using hinsert _ item
  | remove ix =>
    cases hix : c.entries[ix]? with
    | none =>
      have := List.getElem?_eq_none_iff.mp hix
      simp [Collection.perform, changes, remove, this]
    | some e =>
      obtain ⟨hlt, _⟩ := List.getElem?_eq_some_iff.mp hix
      simp [Collection.perform, changes, remove, hlt, h.link]
  | clear =>
    cases hempty : c.entries <;> simp [Collection.perform, changes, clear, hempty, h.link]
  | item ix edit =>
    cases hix : c.entries[ix]? with
    | none =>
      have := List.getElem?_eq_none_iff.mp hix
      simp [Collection.perform, changes, editItem?, this]
    | some e =>
      obtain ⟨hlt, _⟩ := List.getElem?_eq_some_iff.mp hix
      -- The item reports nothing that the collection has not reported when it was reached.
      have hitem : s ∈ (Composite.perform cat edit e.value).signals → k = some s := by
        rcases h.items e (List.mem_of_getElem? hix) with hv | hv
        · rw [Composite.perform_signals cat edit hv]
          split <;> simp
        · rw [Composite.perform_signals cat edit hv]
          split <;> simp
      simp only [Collection.perform, editItem?, hix, Option.map_some, Option.getD_some,
        Edited.signals_within, List.mem_append, h.link, changes, hlt, decide_true, and_true,
        Option.mem_toList]
      exact or_iff_left_of_imp hitem

/-- What does not count as a change leaves a collection as it was. -/
theorem perform_unchanged (cat : Catalog) {edit : CollectionEdit} (h : c.changes edit = false) :
    (c.perform cat edit).state = c := by
  have hinsert : ∀ ix (item : Composite), ¬ item.layout = c.layout →
      (c.insert cat ix item).state = c := by
    intro ix item hl
    rcases insert_eq cat c ix item with ⟨hl', _⟩ | ⟨_, e, h⟩
    · exact absurd hl' hl
    · rw [h, Edited.state_failed]
  cases edit with
  | touch => rfl
  | insert ix item => exact hinsert ix item (by simpa [changes] using h)
  | push item => exact hinsert _ item (by simpa [changes] using h)
  | remove ix =>
    have hix : c.entries[ix]? = none := by simpa [changes] using h
    simp [perform, remove, hix]
  | clear =>
    have hempty : c.entries = [] := by simpa [changes] using h
    obtain ⟨l, element, entries, removed, k'⟩ := c
    subst hempty
    simp [perform, clear]
  | item ix edit =>
    have hix : c.entries[ix]? = none := by simpa [changes] using h
    simp [perform, editItem?, hix]

end Collection

namespace Value
variable {cat : Catalog} {edit : ValueEdit} {v : Value} {r : Edited Value Unit} {l : Link}

/-- An edit keeps the links of a value. -/
theorem perform_attach (hv : v.attach l = v) (h : v.perform cat edit = some r) :
    r.state.attach l = r.state := by
  cases edit with
  | composite edit =>
    cases v with
    | composite c =>
      cases h
      simpa [attach] using Composite.perform_attach cat edit (by simpa [attach] using hv)
    | _ => cases h
  | collection edit =>
    cases v with
    | collection c =>
      cases h
      simpa [attach] using Collection.perform_attach cat edit (by simpa [attach] using hv)
    | _ => cases h

/-- A value reports through `k`, and so does what is nested in it; the items of a collection may
also report to nobody. -/
def ReportsTo (k : Option Link) : Value → Prop
  | composite c => c.attach k = c
  | collection c => c.ReportsTo k
  | _ => True

theorem reportsTo_of_attach (hv : v.attach l = v) : v.ReportsTo (some l) := by
  cases v with
  | composite c => simpa [ReportsTo, attach] using hv
  | collection c =>
    obtain ⟨hlink, hentries⟩ := Collection.attach_eq_self_iff.mp (by simpa [attach] using hv)
    exact ⟨hlink, fun e he => .inl (hentries e he)⟩
  | _ => trivial

theorem ReportsTo.perform {k : Option Link} (hv : v.ReportsTo k) (h : v.perform cat edit = some r) :
    r.state.ReportsTo k := by
  cases edit with
  | composite edit =>
    cases v with
    | composite c =>
      cases h
      exact Composite.perform_attach cat edit hv
    | _ => cases h
  | collection edit =>
    cases v with
    | collection c =>
      cases h
      exact Collection.ReportsTo.perform hv cat edit
    | _ => cases h

/-- An edit reports exactly when it counts as a change, and only through the link. -/
theorem ReportsTo.mem_signals_perform {k : Option Link} (hv : v.ReportsTo k)
    (h : v.perform cat edit = some r) (s : Link) :
    s ∈ r.signals ↔ k = some s ∧ v.changes cat edit = true := by
  cases edit with
  | composite edit =>
    cases v with
    | composite c =>
      cases h
      rw [Edited.signals_within, List.nil_append, Composite.perform_signals cat edit hv]
      simp only [changes]
      split <;> simp_all
    | _ => cases h
  | collection edit =>
    cases v with
    | collection c =>
      cases h
      exact Collection.ReportsTo.mem_signals_perform hv cat edit s
    | _ => cases h

end Value

end ObjectTracking
