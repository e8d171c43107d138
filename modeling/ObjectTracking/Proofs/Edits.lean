import ObjectTracking.Collection.Edit
/-!
Edits as data: what a caller does with a nested value that it holds. Reaching a nested value is an
edit of its own, since it creates what is missing on the way and counts an item as modified.
-/
set_option autoImplicit false

namespace ObjectTracking

namespace Edited
variable {σ τ α β : Type}

@[simp] theorem result_done (a : α) (s : σ) (k : Option Link) : (done a s k).result = .ok a := rfl
@[simp] theorem result_failed (e : Fault) (s : σ) :
    (failed e s : Edited σ α).result = .error e := rfl
@[simp] theorem result_within (b : List Link) (f : σ → τ) (e : Edited σ α) :
    (e.within b f).result = e.result := rfl
@[simp] theorem state_done (a : α) (s : σ) (k : Option Link) : (done a s k).state = s := rfl
@[simp] theorem state_failed (e : Fault) (s : σ) : (failed e s : Edited σ α).state = s := rfl
@[simp] theorem state_map (f : α → β) (e : Edited σ α) : (e.map f).state = e.state := rfl
@[simp] theorem signals_done (a : α) (s : σ) (k : Option Link) :
    (done a s k).signals = k.toList := rfl
@[simp] theorem signals_failed (e : Fault) (s : σ) : (failed e s : Edited σ α).signals = [] := rfl
@[simp] theorem signals_map (f : α → β) (e : Edited σ α) : (e.map f).signals = e.signals := rfl
@[simp] theorem state_within (b : List Link) (f : σ → τ) (e : Edited σ α) :
    (e.within b f).state = f e.state := rfl
@[simp] theorem signals_within (b : List Link) (f : σ → τ) (e : Edited σ α) :
    (e.within b f).signals = b ++ e.signals := rfl

theorem ok_of_map {e : Edited σ α} {f : α → β} {b : β} (h : (e.map f).result = .ok b) :
    ∃ a, e.result = .ok a ∧ f a = b := by
  cases hr : e.result with
  | error fault => simp [map, hr, Except.map] at h
  | ok a => exact ⟨a, rfl, by simpa [map, hr, Except.map] using h⟩

theorem ok_of_map_some {e : Edited σ α} {a : α} (h : (e.map some).result = .ok (some a)) :
    e.result = .ok a := by
  obtain ⟨b, hb, hsome⟩ := ok_of_map h
  rw [hb, Option.some.inj hsome]

end Edited

inductive CompositeEdit where
  /-- The composite is only reached. -/
  | touch
  | set (name : String) (v : Value)
  | notify
  /-- An edit of the nested value in a field. -/
  | nested (name : String) (edit : CompositeEdit)

inductive CollectionEdit where
  /-- The collection is only reached. -/
  | touch
  | insert (ix : Nat) (item : Composite)
  | push (item : Composite)
  | remove (ix : Nat)
  | clear
  /-- An edit of the item at a position. -/
  | item (ix : Nat) (edit : CompositeEdit)

inductive ValueEdit where
  | composite (edit : CompositeEdit)
  | collection (edit : CollectionEdit)

def Composite.perform (cat : Catalog) : CompositeEdit → Composite → Edited Composite Unit
  | .touch, c => .done () c none
  | .set name v, c => c.set cat name v
  | .notify, c => c.notify
  | .nested name edit, c => c.editField cat name (perform cat edit)

def Collection.perform (cat : Catalog) : CollectionEdit → Collection → Edited Collection Unit
  | .touch, c => .done () c none
  | .insert ix item, c => c.insert cat ix item
  | .push item, c => c.push cat item
  | .remove ix, c => (c.remove ix).map fun _ => ()
  | .clear, c => c.clear
  | .item ix edit, c => (c.editItem? ix (Composite.perform cat edit)).getD (.done () c none)

/-- An edit of a value that is of the kind it is meant for. -/
def Value.perform (cat : Catalog) : ValueEdit → Value → Option (Edited Value Unit)
  | .composite edit, .composite c => some ((c.perform cat edit).within [] .composite)
  | .collection edit, .collection c => some ((c.perform cat edit).within [] .collection)
  | _, _ => none

namespace Composite

/-- The place of a field and the nested value that an edit of it begins with. -/
def nested? (cat : Catalog) (c : Composite) (name : String) : Option (Nat × Composite) :=
  match c.position cat name with
  | .error _ => none
  | .ok ix =>
    match (cat.layout c.layout).fields[ix]?, c.fields[ix]? with
    | some ⟨_, _, .nested l⟩, some .unset => some (ix, (new cat l).attach c.link)
    | some ⟨_, _, .nested _⟩, some (.nested n) => some (ix, n)
    | _, _ => none

/-- The edit of a field begins with an empty value that reports where the owner does, or with the value
in the field. -/
theorem nested?_eq_some {cat : Catalog} {c : Composite} {name : String} {ix : Nat} {n : Composite}
    (h : c.nested? cat name = some (ix, n)) :
    (∃ l, c.fields[ix]? = some .unset ∧ n = (new cat l).attach c.link) ∨
      c.fields[ix]? = some (.nested n) := by
  unfold nested? at h
  split at h
  · cases h
  · split at h
    · rename_i l _ hunset
      obtain ⟨rfl, rfl⟩ := Prod.mk.inj (Option.some.inj h)
      exact .inl ⟨l, hunset, rfl⟩
    · rename_i m _ hm
      obtain ⟨rfl, rfl⟩ := Prod.mk.inj (Option.some.inj h)
      exact .inr hm
    · cases h

theorem editField_eq {α : Type} (cat : Catalog) (c : Composite) (name : String)
    (edit : Composite → Edited Composite α) :
    (∃ ix n, c.nested? cat name = some (ix, n) ∧
      c.editField cat name edit = (edit n).within [] fun n => c.setAt ix (.nested n)) ∨
    (c.nested? cat name = none ∧ ∃ e, c.editField cat name edit = .failed e c) := by
  unfold nested? editField
  cases hpos : c.position cat name with
  | error e => exact .inr ⟨rfl, e, rfl⟩
  | ok ix =>
    dsimp only
    cases hf : (cat.layout c.layout).fields[ix]? with
    | none => exact .inr ⟨rfl, _, rfl⟩
    | some f =>
      obtain ⟨_, _, kind⟩ := f
      cases kind with
      | scalar codec => exact .inr ⟨rfl, _, rfl⟩
      | nested l =>
        cases hc : c.fields[ix]? with
        | none => exact .inr ⟨rfl, _, rfl⟩
        | some content =>
          cases content with
          | unset => exact .inl ⟨_, _, rfl, rfl⟩
          | scalar s => exact .inr ⟨rfl, _, rfl⟩
          | nested n => exact .inl ⟨_, _, rfl, rfl⟩

/-- Whether an edit counts as a change: a field is set, or a change reported. -/
def changes (cat : Catalog) : CompositeEdit → Composite → Bool
  | .touch, _ => false
  | .set name v, c => (c.set cat name v).result.isOk
  | .notify, _ => true
  | .nested name edit, c => (c.nested? cat name).any fun x => changes cat edit x.2

end Composite

def Collection.changes : CollectionEdit → Collection → Bool
  | .touch, _ => false
  | .insert _ item, c => item.layout = c.layout
  | .push item, c => item.layout = c.layout
  | .remove ix, c => ix < c.entries.length
  | .clear, c => !c.entries.isEmpty
  | .item ix _, c => ix < c.entries.length

def Value.changes (cat : Catalog) : ValueEdit → Value → Bool
  | .composite edit, .composite c => c.changes cat edit
  | .collection edit, .collection c => c.changes edit
  | _, _ => false

namespace Collection

inductive Change (c : Collection) : Collection → Prop where
  | same : Change c c
  | add (ix : Nat) (item : Composite) (fits : item.layout = c.layout) :
    Change c { c with
      entries := c.entries.insertIdx (min ix c.entries.length) ⟨none, false, item.attach c.link⟩ }
  | remove (ix : Nat) (e : Entry) (at_ix : c.entries[ix]? = some e) :
    Change c { c with
      entries := c.entries.eraseIdx ix, removed := c.removed ++ e.origin.toList }
  | clear : Change c { c with
      entries := [], removed := c.removed ++ c.entries.reverse.filterMap Entry.origin }
  | modify (ix : Nat) (e : Entry) (at_ix : c.entries[ix]? = some e) (v : Composite) :
    Change c { c with entries := c.entries.set ix { e with modified := true, value := v } }

theorem insert_change (cat : Catalog) (c : Collection) (ix : Nat) (item : Composite) :
    Change c (c.insert cat ix item).state := by
  by_cases h : item.layout = c.layout
  · simpa [insert, check, h] using Change.add ix item h
  · simpa [insert, check, h] using Change.same

/-- Every edit is one of these changes, whether or not it succeeds. -/
theorem perform_change (cat : Catalog) (edit : CollectionEdit) (c : Collection) :
    Change c (c.perform cat edit).state := by
  cases edit with
  | touch => exact .same
  | insert ix item => exact insert_change cat c ix item
  | push item => exact insert_change cat c _ item
  | remove ix =>
    cases h : c.entries[ix]? with
    | none => simpa [perform, remove, h] using Change.same
    | some e => simpa [perform, remove, h] using Change.remove ix e h
  | clear => exact .clear
  | item ix edit =>
    cases h : c.entries[ix]? with
    | none => simpa [perform, editItem?, h] using Change.same
    | some e => simpa [perform, editItem?, h] using Change.modify ix e h _

theorem Change.link {c c' : Collection} (h : Change c c') : c'.link = c.link := by
  cases h <;> rfl

theorem Change.layout {c c' : Collection} (h : Change c c') : c'.layout = c.layout := by
  cases h <;> rfl

theorem Change.element {c c' : Collection} (h : Change c c') : c'.element = c.element := by
  cases h <;> rfl

end Collection

end ObjectTracking
