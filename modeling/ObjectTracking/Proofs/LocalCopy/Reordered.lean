import ObjectTracking.Proofs.LocalCopy.Cell
import ObjectTracking.Proofs.LocalCopy.Load
import ObjectTracking.Proofs.LocalCopy.Reader
import ObjectTracking.Proofs.Mail
import ObjectTracking.Proofs.Markup.Reordered
import ObjectTracking.Proofs.ObjectType
/-!
The order of the elements of an object does not matter, except among elements of one name. An element
is known by its name, whatever its namespace; it is read into the slots whose properties have that
name, and no others are looked at.
-/
set_option autoImplicit false

namespace ObjectTracking
open Markup

namespace LocalCopy
variable {cat : Catalog} {o o' : LocalCopy} {q : Property} {m n slot : Nat} {c : Cell}
  {slots : List Nat} {cells : List (Nat × Cell)} {tag : Tag} {content : Forest}

def withRead (o : LocalCopy) (slot : Nat) (v : Value) : LocalCopy :=
  { o with
    values := if v.isNull then o.values.erase slot else o.values.insert slot (v.attach (o.link slot))
    loaded := o.loaded.insert slot }

theorem withRead_eq_put (o : LocalCopy) (slot : Nat) (v : Value) : o.withRead slot v =
    o.put slot { o.cell slot with
      value? := if v.isNull then none else some (v.attach (o.link slot)), loaded := true } := by
  refine eq_put_of_cells (f := fun c => { c with value? := _, loaded := true })
    ⟨rfl, rfl, rfl, rfl, rfl⟩ ?_
  intro n
  cases hv : v.isNull <;> by_cases h : n = slot <;> simp [cell, withRead, hv, h]

theorem put_withRead (h : m ≠ slot) (o : LocalCopy) (c : Cell) (v : Value) :
    (o.put m c).withRead slot v = (o.withRead slot v).put m c := by
  rw [withRead_eq_put, withRead_eq_put, cell_put_of_ne (Ne.symm h), put_comm h]
  rfl

theorem loadSlot_put (h : m ≠ slot) (q : Property) (tag : Tag) (content : Forest) :
    (o.put m c).loadSlot cat slot q tag content =
      (o.loadSlot cat slot q tag content).map (·.put m c) := by
  have hheld : (o.put m c).values.get? slot = o.values.get? slot := by simp [put, Ne.symm h]
  have hread : (o.put m c).withRead slot = fun v => (o.withRead slot v).put m c :=
    funext (put_withRead h o c)
  change Progress.map ((o.put m c).withRead slot) _ = Progress.map (fun v => _) _
  rw [hread, hheld]
  rfl

theorem skip_put (o : LocalCopy) (m : Nat) (c : Cell) (content : Forest) :
    content.skip (o.put m c) = (content.skip o).map (·.put m c) := by
  unfold Forest.skip
  split <;> rfl

theorem mem_of_entrySlot? {key : Option String} (h : o.entrySlot? slots key = some (slot, q)) :
    slot ∈ slots := by
  obtain ⟨n, hn, hfound⟩ := List.exists_of_findSome?_eq_some h
  obtain ⟨r, -, hkey⟩ := Option.bind_eq_some_iff.mp hfound
  obtain ⟨-, heq⟩ := Option.ite_none_right_eq_some.mp hkey
  obtain ⟨rfl, -⟩ := Prod.mk.inj (Option.some.inj heq)
  exact hn

theorem loadEntry_put (h : m ∉ slots) (tag : Tag) (content : Forest) (o : LocalCopy) :
    (o.put m c).loadEntry cat slots tag content =
      (o.loadEntry cat slots tag content).map (·.put m c) := by
  have hentry : ∀ key, (o.put m c).entrySlot? slots key = o.entrySlot? slots key := fun _ => rfl
  unfold loadEntry
  simp only [hentry, type_put, version_put, skip_put]
  split
  · cases hs : o.entrySlot? slots (tag.attribute? "Key") with
    | none => rfl
    | some r =>
      obtain ⟨slot, q⟩ := r
      have hslot : m ≠ slot := by
        rintro rfl
        exact h (mem_of_entrySlot? hs)
      dsimp only
      split
      · exact loadSlot_put hslot q tag content
      · rfl
  · rfl

theorem mem_dispatch_of_head? {t : ObjectType} {name : String}
    (h : ((t.dispatch name).head?.bind fun slot => (t.property? slot).map (slot, ·)) =
      some (slot, q)) : slot ∈ t.dispatch name := by
  obtain ⟨n, hn, hq⟩ := Option.bind_eq_some_iff.mp h
  obtain ⟨r, -, heq⟩ := Option.map_eq_some_iff.mp hq
  obtain ⟨rfl, -⟩ := Prod.mk.inj heq
  exact List.mem_of_head? hn

/-- An element is read alike whatever is in the slots that it is not for. -/
theorem loadElement_put (h : m ∉ o.type.dispatch tag.name) (content : Forest) :
    (o.put m c).loadElement cat tag content =
      (o.loadElement cat tag content).map (·.put m c) := by
  unfold loadElement
  simp only [type_put, version_put, skip_put]
  cases hs : (o.type.dispatch tag.name).head?.bind fun slot =>
      (o.type.property? slot).map (slot, ·) with
  | none => rfl
  | some r =>
    obtain ⟨slot, q⟩ := r
    have hslot : m ≠ slot := by
      rintro rfl
      exact h (mem_dispatch_of_head? hs)
    dsimp only
    split
    · exact Forest.walk_map (fun tag content o => loadEntry_put h tag content o) content o
    · split
      · exact loadSlot_put hslot q tag content
      · rfl

def putAll (o : LocalCopy) (cells : List (Nat × Cell)) : LocalCopy :=
  cells.foldl (fun o x => o.put x.1 x.2) o

theorem putAll_cons (o : LocalCopy) (x : Nat × Cell) (cells : List (Nat × Cell)) :
    o.putAll (x :: cells) = (o.put x.1 x.2).putAll cells := rfl

theorem putAll_append (o : LocalCopy) (cells cells' : List (Nat × Cell)) :
    o.putAll (cells ++ cells') = (o.putAll cells).putAll cells' := List.foldl_append

@[simp] theorem type_putAll (o : LocalCopy) (cells : List (Nat × Cell)) :
    (o.putAll cells).type = o.type := by
  induction cells generalizing o with
  | nil => rfl
  | cons x cells ih => exact ih (o.put x.1 x.2)

theorem clear_putAll (o : LocalCopy) (cells : List (Nat × Cell)) :
    (o.putAll cells).clear = o.clear := by
  induction cells generalizing o with
  | nil => rfl
  | cons x cells ih => exact ih (o.put x.1 x.2)

theorem put_putAll (h : ∀ x ∈ cells, x.1 ≠ m) (o : LocalCopy) (c : Cell) :
    (o.put m c).putAll cells = (o.putAll cells).put m c := by
  induction cells generalizing o with
  | nil => rfl
  | cons x cells ih =>
    have hx := h x List.mem_cons_self
    have hrest := ih fun y hy => h y (List.mem_cons_of_mem x hy)
    rw [putAll_cons, putAll_cons, put_comm (Ne.symm hx), hrest]

theorem putAll_comm {cells' : List (Nat × Cell)} (h : ∀ x ∈ cells, ∀ y ∈ cells', x.1 ≠ y.1)
    (o : LocalCopy) : (o.putAll cells).putAll cells' = (o.putAll cells').putAll cells := by
  induction cells generalizing o with
  | nil => rfl
  | cons x cells ih =>
    have hx : ∀ y ∈ cells', y.1 ≠ x.1 := fun y hy => Ne.symm (h x List.mem_cons_self y hy)
    have hrest := ih fun z hz => h z (List.mem_cons_of_mem x hz)
    rw [putAll_cons, hrest, put_putAll hx, putAll_cons]

/-- A copy in which only the cells of some slots are other than in another. -/
def WritesIn (slots : List Nat) (o o' : LocalCopy) : Prop :=
  ∃ cells : List (Nat × Cell), (∀ x ∈ cells, x.1 ∈ slots) ∧ o' = o.putAll cells

theorem WritesIn.refl (slots : List Nat) (o : LocalCopy) : WritesIn slots o o :=
  ⟨[], by simp, rfl⟩

theorem WritesIn.put (h : WritesIn slots o o') (hslot : slot ∈ slots) (c : Cell) :
    WritesIn slots o (o'.put slot c) := by
  obtain ⟨cells, hcells, rfl⟩ := h
  refine ⟨cells ++ [(slot, c)], ?_, (putAll_append o cells [(slot, c)]).symm⟩
  intro x hx
  rcases List.mem_append.mp hx with hx | hx
  · exact hcells x hx
  · rw [List.mem_singleton.mp hx]
    exact hslot

theorem WritesIn.loadSlot (h : WritesIn slots o o') (hslot : slot ∈ slots) (q : Property)
    (tag : Tag) (content : Forest) :
    WritesIn slots o (o'.loadSlot cat slot q tag content).state := by
  obtain ⟨v, -, hstate⟩ := loadSlot_eq cat o' slot q tag content
  have hput := hstate.trans (withRead_eq_put o' slot v)
  rw [hput]
  exact h.put hslot _

theorem WritesIn.loadEntry (h : WritesIn slots o o') (tag : Tag) (content : Forest) :
    WritesIn slots o (o'.loadEntry cat slots tag content).state := by
  unfold LocalCopy.loadEntry
  split
  · cases hs : o'.entrySlot? slots (tag.attribute? "Key") with
    | none => simpa [hs] using h
    | some r =>
      obtain ⟨slot, q⟩ := r
      simp only [hs]
      split
      · exact h.loadSlot (mem_of_entrySlot? hs) q tag content
      · simpa using h
  · simpa using h

theorem loadElement_writesIn (cat : Catalog) (o : LocalCopy) (tag : Tag) (content : Forest) :
    WritesIn (o.type.dispatch tag.name) o (o.loadElement cat tag content).state := by
  have hrefl := WritesIn.refl (o.type.dispatch tag.name) o
  unfold loadElement
  cases hs : (o.type.dispatch tag.name).head?.bind fun slot =>
      (o.type.property? slot).map (slot, ·) with
  | none => simpa [hs] using hrefl
  | some r =>
    obtain ⟨slot, q⟩ := r
    simp only [hs]
    split
    · exact Forest.walk_induction hrefl fun x _ o' h => h.loadEntry x.1 x.2
    · split
      · exact hrefl.loadSlot (mem_dispatch_of_head? hs) q tag content
      · simpa using hrefl

theorem loadElement_putAll (h : ∀ x ∈ cells, x.1 ∉ o.type.dispatch tag.name) (content : Forest) :
    (o.putAll cells).loadElement cat tag content =
      (o.loadElement cat tag content).map (·.putAll cells) := by
  induction cells generalizing o with
  | nil => rfl
  | cons x cells ih =>
    have hx : (o.put x.1 x.2).loadElement cat tag content = _ :=
      loadElement_put (h x List.mem_cons_self) content
    have hrest := ih (o := o.put x.1 x.2) fun y hy => h y (List.mem_cons_of_mem x hy)
    rw [putAll_cons, hrest, hx]
    rfl

theorem dispatch_disjoint {t : ObjectType} {name name' : String} (h : name ≠ name')
    (hn : n ∈ t.dispatch name) : n ∉ t.dispatch name' := by
  intro hn'
  obtain ⟨q, hq, hname⟩ := ObjectType.mem_dispatch.mp hn
  obtain ⟨r, hr, hname'⟩ := ObjectType.mem_dispatch.mp hn'
  obtain rfl := Option.some.inj (hq.symm.trans hr)
  exact h (hname.symm.trans hname')

/-- Elements of different names may be read in either order. -/
theorem loadElement_comm (cat : Catalog) {x y : Tag × Forest} (h : x.1.name ≠ y.1.name)
    (o : LocalCopy) :
    (o.loadElement cat x.1 x.2).finished?.bind (fun o => (o.loadElement cat y.1 y.2).finished?) =
      (o.loadElement cat y.1 y.2).finished?.bind fun o =>
        (o.loadElement cat x.1 x.2).finished? := by
  obtain ⟨xs, hxs, hx⟩ := loadElement_writesIn cat o x.1 x.2
  obtain ⟨ys, hys, hy⟩ := loadElement_writesIn cat o y.1 y.2
  have hapart : ∀ a ∈ xs, ∀ b ∈ ys, a.1 ≠ b.1 := by
    intro a ha b hb hab
    exact dispatch_disjoint h (hxs a ha) (hab ▸ hys b hb)
  have hyx : (o.putAll xs).loadElement cat y.1 y.2 =
      (o.loadElement cat y.1 y.2).map (·.putAll xs) :=
    loadElement_putAll (fun a ha => dispatch_disjoint h (hxs a ha)) y.2
  have hxy : (o.putAll ys).loadElement cat x.1 x.2 =
      (o.loadElement cat x.1 x.2).map (·.putAll ys) :=
    loadElement_putAll (fun b hb => dispatch_disjoint (Ne.symm h) (hys b hb)) x.2
  cases hstopx : (o.loadElement cat x.1 x.2).stop? with
  | some s =>
    cases hstopy : (o.loadElement cat y.1 y.2).stop? with
    | some s' => simp [Progress.finished?, hstopx, hstopy]
    | none => simp [Progress.finished?, hstopx, hstopy, hy, hxy]
  | none =>
    cases hstopy : (o.loadElement cat y.1 y.2).stop? with
    | some s => simp [Progress.finished?, hstopx, hstopy, hx, hyx]
    | none => simp [Progress.finished?, hstopx, hstopy, hx, hy, hxy, hyx, putAll_comm hapart]

/-- Wherever reading stops, nothing is left of it in a cleared copy. -/
theorem clear_walk (cat : Catalog) (o : LocalCopy) (content : Forest) :
    (content.walk (loadElement cat) o).state.clear = o.clear := by
  refine Forest.walk_induction (P := fun o' : LocalCopy => o'.clear = o.clear) rfl ?_
  intro x _ o' ho'
  obtain ⟨cells, -, hstate⟩ := loadElement_writesIn cat o' x.1 x.2
  rw [hstate, clear_putAll, ho']

/-- A load leaves the same copy and succeeds or fails alike in whatever order the elements come, if
those of each name come in the same. -/
theorem load_reordered (cat : Catalog) (o : LocalCopy) {f f' : Forest} (h : f.Reordered f')
    (clearFirst : Bool) (asked : PropertySet) (summary : Bool) :
    (o.load cat f clearFirst asked summary).state =
        (o.load cat f' clearFirst asked summary).state ∧
      (o.load cat f clearFirst asked summary).stop?.isSome =
        (o.load cat f' clearFirst asked summary).stop?.isSome := by
  have hread := h.finished?_walk (fun _ _ => loadElement_comm cat) (o.loadStart clearFirst)
  have hclear := clear_walk cat (o.loadStart clearFirst)
  unfold loadStart at hread hclear
  unfold Progress.finished? at hread
  unfold load
  cases hstop : (f.walk (loadElement cat) (if clearFirst then o.clear else o)).stop? with
  | some s =>
    cases hstop' : (f'.walk (loadElement cat) (if clearFirst then o.clear else o)).stop? with
    | some s' => simp [hstop, hstop', hclear]
    | none => simp [hstop, hstop'] at hread
  | none =>
    cases hstop' : (f'.walk (loadElement cat) (if clearFirst then o.clear else o)).stop? with
    | some s' => simp [hstop, hstop'] at hread
    | none =>
      have hstate : (f.walk (loadElement cat) (if clearFirst then o.clear else o)).state =
          (f'.walk (loadElement cat) (if clearFirst then o.clear else o)).state := by
        simpa [hstop, hstop'] using hread
      simp [hstop, hstop', hstate]

/-- Two documents whose object has the same elements, those of each name in the same order, load with
the same success or failure and leave the same copy. -/
theorem readObject_reordered (cat : Catalog) (o : LocalCopy) (c c' : Cursor) (clearFirst : Bool)
    (asked : PropertySet) (summary : Bool)
    (h : (Forest.ofNodes c.rest).Reordered (Forest.ofNodes c'.rest)) :
    (o.readObject cat c clearFirst asked summary).state =
        (o.readObject cat c' clearFirst asked summary).state ∧
      (o.readObject cat c clearFirst asked summary).fault?.isSome =
        (o.readObject cat c' clearFirst asked summary).fault?.isSome := by
  obtain ⟨hstate, hstop⟩ := load_reordered cat o h clearFirst asked summary
  rw [readObject_eq, readObject_eq, Passage.fault?_ofTree_isSome, Passage.fault?_ofTree_isSome]
  exact ⟨hstate, hstop⟩

section Contact
open Mail

def renamedContact : LocalCopy :=
  (new 1 Contact.type Mail.session).run (catalog [])
    [.set (Contact.text "Surname" "contacts:Surname") (.scalar (.text "Tea"))]

def textElement (tag : Tag) (s : String) : List Node :=
  [.opening tag, .text s, .closing tag.ns tag.name]

def addressElement (address : String) : List Node :=
  .opening ⟨some .types, "EmailAddresses", []⟩ ::
    textElement ⟨some .types, "Entry", [("Key", "EmailAddress1")]⟩ address ++
    [.closing (some .types) "EmailAddresses"]

def contactCursor (elements : List Node) : Cursor :=
  ⟨some (.opening ⟨some .types, "Contact", []⟩),
    elements ++ [.closing (some .types) "Contact"]⟩

def addressesFirst : Cursor :=
  contactCursor (addressElement "a@example.com" ++ addressElement "b@example.com" ++
    textElement ⟨some .types, "Surname", []⟩ "Lee")

def nameBetween : Cursor :=
  contactCursor (addressElement "a@example.com" ++ textElement ⟨some .types, "Surname", []⟩ "Lee" ++
    addressElement "b@example.com")

theorem nameBetween_same :
    (Forest.ofNodes addressesFirst.rest).Reordered (Forest.ofNodes nameBetween.rest) ∧
    (renamedContact.readObject (catalog []) addressesFirst false {} false).fault? = none ∧
    (renamedContact.readObject (catalog []) addressesFirst false {} false).state =
      (renamedContact.readObject (catalog []) nameBetween false {} false).state ∧
    (renamedContact.readObject (catalog []) addressesFirst false {} false).fault?.isSome =
      (renamedContact.readObject (catalog []) nameBetween false {} false).fault?.isSome := by
  have horder : (Forest.ofNodes addressesFirst.rest).Reordered (Forest.ofNodes nameBetween.rest) :=
    .element (.swap (by decide) _ _ _) _ _
  have hread : (renamedContact.readObject (catalog []) addressesFirst false {} false).fault? =
      none := congrArg Passage.fault? (readObject_eq ..)
  exact ⟨horder, hread, readObject_reordered (catalog []) renamedContact addressesFirst nameBetween
    false {} false horder⟩

end Contact

end LocalCopy

end ObjectTracking
