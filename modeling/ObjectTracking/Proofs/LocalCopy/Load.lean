import ObjectTracking.Proofs.Collection.Tracking
import ObjectTracking.Proofs.LocalCopy.Run
import ObjectTracking.Proofs.Property.Reading
/-!
What a load makes of a copy. The slots that the document has an element for are read anew, and a
collection that was read has no changes. The others keep their values, unless they are cleared
first.
-/
set_option autoImplicit false

namespace ObjectTracking
open Markup

/-- A value that was read or saved: its collection has no changes. -/
def Value.Settled : Value → Prop
  | .collection c => c.Settled
  | _ => True

theorem Value.settled_attach {v : Value} (h : v.Settled) (l : Link) : (v.attach l).Settled := by
  cases v with
  | collection c => exact Collection.Settled.attach h (some l)
  | _ => trivial

theorem Collection.load_settled (cat : Catalog) (session : Session) (content : Forest)
    (c : Collection) : (c.load cat session content).state.Settled := by
  apply Forest.walk_induction
  · exact ⟨rfl, by simp⟩
  · intro x _ c hc
    unfold loadItem
    split
    · simp only [Progress.state_map]
      split
      · exact hc
      · refine ⟨hc.removed, ?_⟩
        intro n e he
        simp only [List.getElem?_append] at he
        split at he
        · exact hc.entries n e he
        · obtain ⟨hn, rfl⟩ := List.getElem?_eq_some_iff.mp he
          have hn' : n = c.entries.length := by
            simp only [List.length_singleton] at hn
            omega
          subst hn'
          simp
    · simpa using hc

/-- Whatever is read, and wherever reading stops, a collection that was read has no changes. -/
theorem Shape.decode_settled (cat : Catalog) (session : Session) (property : String) (shape : Shape)
    (site : Site) (existing : Option Value) :
    (shape.decode cat session property site existing).state.Settled := by
  induction shape generalizing site existing with
  | scalar codec => exact readText_parseValue_induction trivial fun _ _ _ => trivial
  | dateTime zoneUri => exact readText_scoping_induction trivial fun _ => trivial
  | composite l => trivial
  | collection l element => exact Collection.load_settled cat session site.content _
  | indexed key inner ih => exact ih site existing
  | contained wrapper inner ih =>
    exact decode_contained_induction (Q := fun _ => True) trivial trivial trivial
      fun site existing _ => ih site existing

namespace LocalCopy

def entryTarget? (o : LocalCopy) (slots : List Nat) (tag : Tag) : Option Nat :=
  if tag.ns = some .types ∧ tag.name = "Entry" then
    (o.entrySlot? slots (tag.attribute? "Key")).bind fun (slot, q) =>
      if q.isApplicable o.version then some slot else none
  else none

def elementTargets (o : LocalCopy) (x : Tag × Forest) : List Nat :=
  match (o.type.dispatch x.1.name).head?.bind fun slot => (o.type.property? slot).map (slot, ·) with
  | none => []
  | some (slot, q) =>
    if q.key?.isSome then
      x.2.elements.filterMap fun y => o.entryTarget? (o.type.dispatch x.1.name) y.1
    else if q.isApplicable o.version then [slot] else []

def targets (o : LocalCopy) (content : Forest) : List Nat :=
  content.elements.flatMap o.elementTargets

/-- A copy that reading elements has made of another. -/
structure Reading (o o' : LocalCopy) : Prop where
  id : o'.id = o.id
  type : o'.type = o.type
  session : o'.session = o.session
  values : ∀ slot, o'.values.get? slot = o.values.get? slot ∨ ∀ v, o'.values.get? slot = some v →
    v.attach (o.link slot) = v ∧ v.Settled

variable {cat : Catalog} {o o' : LocalCopy} {slot : Nat}

theorem Reading.refl (o : LocalCopy) : Reading o o := ⟨rfl, rfl, rfl, fun _ => .inl rfl⟩

theorem Reading.link (h : Reading o o') (slot : Nat) : o'.link slot = o.link slot := by
  simp only [LocalCopy.link, h.id]

theorem Reading.version (h : Reading o o') : o'.version = o.version := by
  simp only [LocalCopy.version, h.session]

theorem Reading.trans {o'' : LocalCopy} (h : Reading o o') (h' : Reading o' o'') :
    Reading o o'' := by
  refine ⟨h'.id.trans h.id, h'.type.trans h.type, h'.session.trans h.session, ?_⟩
  intro slot
  rcases h'.values slot with heq | hread
  · rw [heq]
    exact h.values slot
  · exact .inr (by simpa only [h.link] using hread)

def HoldsRead (slot : Nat) (o : LocalCopy) : Prop :=
  ∀ v, o.values.get? slot = some v → v.attach (o.link slot) = v ∧ v.Settled

theorem loadSlot_eq (cat : Catalog) (o : LocalCopy) (slot : Nat) (q : Property) (tag : Tag)
    (content : Forest) : ∃ v : Value, v.Settled ∧ (o.loadSlot cat slot q tag content).state =
      { o with
        values :=
          if v.isNull then o.values.erase slot else o.values.insert slot (v.attach (o.link slot))
        loaded := o.loaded.insert slot } :=
  ⟨_, Shape.decode_settled .., rfl⟩

theorem loadSlot_holdsRead (o : LocalCopy) (slot : Nat) (q : Property) (tag : Tag)
    (content : Forest) : HoldsRead slot (o.loadSlot cat slot q tag content).state := by
  obtain ⟨v, hsettled, h⟩ := loadSlot_eq cat o slot q tag content
  rw [h]
  intro v' hv'
  cases hnull : v.isNull with
  | true => simp [hnull] at hv'
  | false =>
    obtain rfl : v.attach (o.link slot) = v' := by simpa [hnull] using hv'
    exact ⟨Value.attach_attach .., Value.settled_attach hsettled _⟩

theorem loadSlot_get?_of_ne (o : LocalCopy) {n slot : Nat} (h : n ≠ slot) (q : Property) (tag : Tag)
    (content : Forest) :
    (o.loadSlot cat slot q tag content).state.values.get? n = o.values.get? n := by
  obtain ⟨v, _, hstate⟩ := loadSlot_eq cat o slot q tag content
  rw [hstate]
  cases v.isNull <;> simp [h]

theorem loadSlot_reading (o : LocalCopy) (slot : Nat) (q : Property) (tag : Tag)
    (content : Forest) : Reading o (o.loadSlot cat slot q tag content).state := by
  refine ⟨rfl, rfl, rfl, ?_⟩
  intro n
  by_cases h : n = slot
  · subst h
    exact .inr (loadSlot_holdsRead o n q tag content)
  · exact .inl (loadSlot_get?_of_ne o h q tag content)

theorem Reading.holdsRead (h : Reading o o') (ho : HoldsRead slot o) : HoldsRead slot o' := by
  intro v hv
  rw [h.link]
  rcases h.values slot with heq | hread
  · exact ho v (heq ▸ hv)
  · exact hread v hv

theorem Reading.entrySlot?_eq (h : Reading o o') (slots : List Nat) (key : Option String) :
    o'.entrySlot? slots key = o.entrySlot? slots key := by
  simp only [entrySlot?, h.type]

theorem Reading.entryTarget?_eq (h : Reading o o') (slots : List Nat) (tag : Tag) :
    o'.entryTarget? slots tag = o.entryTarget? slots tag := by
  simp only [entryTarget?, h.entrySlot?_eq, h.version]

theorem Reading.elementTargets_eq (h : Reading o o') (x : Tag × Forest) :
    o'.elementTargets x = o.elementTargets x := by
  simp only [elementTargets, h.type, h.version, funext (h.entryTarget?_eq _)]

theorem property?_of_entrySlot? {slots : List Nat} {key : Option String} {q : Property}
    (h : o.entrySlot? slots key = some (slot, q)) : o.type.property? slot = some q := by
  obtain ⟨n, -, hn⟩ := List.exists_of_findSome?_eq_some h
  obtain ⟨r, hr, hkey⟩ := Option.bind_eq_some_iff.mp hn
  obtain ⟨-, heq⟩ := Option.ite_none_right_eq_some.mp hkey
  cases heq
  exact hr

theorem loadEntry_eq (cat : Catalog) (o : LocalCopy) (slots : List Nat) (tag : Tag)
    (content : Forest) :
    (∃ slot q, o.type.property? slot = some q ∧ q.isApplicable o.version = true ∧
      o.entryTarget? slots tag = some slot ∧
      o.loadEntry cat slots tag content = o.loadSlot cat slot q tag content) ∨
    (o.entryTarget? slots tag = none ∧ (o.loadEntry cat slots tag content).state = o) := by
  unfold entryTarget? loadEntry
  split
  · cases hs : o.entrySlot? slots (tag.attribute? "Key") with
    | none => exact .inr ⟨rfl, by simp [hs]⟩
    | some r =>
      obtain ⟨slot, q⟩ := r
      by_cases ha : q.isApplicable o.version = true
      · exact .inl ⟨slot, q, property?_of_entrySlot? hs, ha, by simp [ha], by simp [hs, ha]⟩
      · exact .inr ⟨by simp [ha], by simp [hs, ha]⟩
  · exact .inr ⟨rfl, by simp⟩

theorem loadEntry_reading (cat : Catalog) (o : LocalCopy) (slots : List Nat) (tag : Tag)
    (content : Forest) : Reading o (o.loadEntry cat slots tag content).state := by
  rcases loadEntry_eq cat o slots tag content with ⟨slot, q, _, _, _, h⟩ | ⟨_, h⟩
  · rw [h]
    exact loadSlot_reading o slot q tag content
  · rw [h]
    exact .refl o

theorem loadElement_eq (cat : Catalog) (o : LocalCopy) (tag : Tag) (content : Forest) :
    (∃ slot q, o.type.property? slot = some q ∧ q.isApplicable o.version = true ∧
      o.elementTargets (tag, content) = [slot] ∧
      o.loadElement cat tag content = o.loadSlot cat slot q tag content) ∨
    (∃ slots, o.elementTargets (tag, content) =
        content.elements.filterMap (fun y => o.entryTarget? slots y.1) ∧
      o.loadElement cat tag content = content.walk (loadEntry cat slots) o) ∨
    (o.elementTargets (tag, content) = [] ∧ (o.loadElement cat tag content).state = o) := by
  unfold elementTargets loadElement
  cases hs : (o.type.dispatch tag.name).head?.bind fun slot =>
      (o.type.property? slot).map (slot, ·) with
  | none => exact .inr (.inr ⟨rfl, by simp [hs]⟩)
  | some r =>
    obtain ⟨slot, q⟩ := r
    have hq : o.type.property? slot = some q := by
      obtain ⟨n, -, hn⟩ := Option.bind_eq_some_iff.mp hs
      obtain ⟨r, hr, heq⟩ := Option.map_eq_some_iff.mp hn
      cases heq
      exact hr
    by_cases hk : q.key?.isSome = true
    · exact .inr (.inl ⟨o.type.dispatch tag.name, by simp [hk], by simp [hs, hk]⟩)
    · by_cases ha : q.isApplicable o.version = true
      · exact .inl ⟨slot, q, hq, ha, by simp [hk, ha], by simp [hs, hk, ha]⟩
      · exact .inr (.inr ⟨by simp [hk, ha], by simp [hs, hk, ha]⟩)

theorem walk_loadEntry_reading (cat : Catalog) (o : LocalCopy) (slots : List Nat)
    (content : Forest) : Reading o (content.walk (loadEntry cat slots) o).state :=
  Forest.walk_induction (.refl o) fun _ _ o' h => h.trans (loadEntry_reading cat o' slots ..)

theorem loadElement_reading (cat : Catalog) (o : LocalCopy) (tag : Tag) (content : Forest) :
    Reading o (o.loadElement cat tag content).state := by
  rcases loadElement_eq cat o tag content with ⟨slot, q, _, _, _, h⟩ | ⟨slots, _, h⟩ | ⟨_, h⟩
  · rw [h]
    exact loadSlot_reading o slot q tag content
  · rw [h]
    exact walk_loadEntry_reading cat o slots content
  · rw [h]
    exact .refl o

theorem walk_reading (cat : Catalog) (o : LocalCopy) (content : Forest) :
    Reading o (content.walk (loadElement cat) o).state :=
  Forest.walk_induction (.refl o) fun _ _ o' h => h.trans (loadElement_reading cat o' ..)

theorem loadElement_get?_of_not_target {x : Tag × Forest} (h : slot ∉ o.elementTargets x) :
    (o.loadElement cat x.1 x.2).state.values.get? slot = o.values.get? slot := by
  rcases loadElement_eq cat o x.1 x.2 with ⟨n, q, -, -, ht, hl⟩ | ⟨slots, ht, hl⟩ | ⟨_, hl⟩
  · have hne : slot ≠ n := by
      intro heq
      exact h (ht ▸ heq ▸ List.mem_singleton_self slot)
    rw [hl, loadSlot_get?_of_ne o hne]
  · rw [hl]
    refine (Forest.walk_induction
      (P := fun o' => Reading o o' ∧ o'.values.get? slot = o.values.get? slot)
      ⟨.refl o, rfl⟩ ?_).2
    rintro y hy o' ⟨hr, hv⟩
    refine ⟨hr.trans (loadEntry_reading cat o' slots ..), ?_⟩
    rcases loadEntry_eq cat o' slots y.1 y.2 with ⟨n, q, -, -, hn, he⟩ | ⟨_, he⟩
    · have hne : slot ≠ n := by
        intro heq
        apply h
        rw [ht, List.mem_filterMap]
        exact ⟨y, hy, by rw [← hr.entryTarget?_eq, hn, heq]⟩
      rw [he, loadSlot_get?_of_ne o' hne, hv]
    · rw [he, hv]
  · rw [hl]

/-- Once an element is read to its end, every slot it is read into holds what was read. -/
theorem loadElement_holdsRead {x : Tag × Forest} (h : slot ∈ o.elementTargets x)
    (hend : (o.loadElement cat x.1 x.2).stop? = none) :
    HoldsRead slot (o.loadElement cat x.1 x.2).state := by
  rcases loadElement_eq cat o x.1 x.2 with ⟨n, q, -, -, ht, hl⟩ | ⟨slots, ht, hl⟩ | ⟨ht, _⟩
  · obtain rfl : slot = n := by simpa [ht] using h
    rw [hl]
    exact loadSlot_holdsRead o slot q x.1 x.2
  · rw [ht, List.mem_filterMap] at h
    obtain ⟨y, hy, hslot⟩ := h
    rw [hl] at hend ⊢
    refine Forest.walk_reaches (I := Reading o) (.refl o)
      (fun _ _ o' hr => hr.trans (loadEntry_reading cat o' slots ..)) hend hy ?_
      (fun _ _ o' _ ho' => (loadEntry_reading cat o' slots ..).holdsRead ho')
    intro o' hr _
    rcases loadEntry_eq cat o' slots y.1 y.2 with ⟨n, q, -, -, hn, he⟩ | ⟨hn, _⟩
    · obtain rfl : slot = n := by
        rw [hr.entryTarget?_eq, hslot] at hn
        exact Option.some.inj hn
      rw [he]
      exact loadSlot_holdsRead o' slot q y.1 y.2
    · rw [hr.entryTarget?_eq, hslot] at hn
      cases hn
  · rw [ht] at h
    cases h

/-- A slot that the document has no element for keeps its value. -/
theorem walk_get?_of_not_target {content : Forest} (h : slot ∉ o.targets content) :
    (content.walk (loadElement cat) o).state.values.get? slot = o.values.get? slot := by
  refine (Forest.walk_induction
    (P := fun o' => Reading o o' ∧ o'.values.get? slot = o.values.get? slot)
    ⟨.refl o, rfl⟩ ?_).2
  rintro x hx o' ⟨hr, hv⟩
  refine ⟨hr.trans (loadElement_reading cat o' ..), ?_⟩
  rw [loadElement_get?_of_not_target, hv]
  rw [hr.elementTargets_eq]
  exact fun hslot => h (List.mem_flatMap.mpr ⟨x, hx, hslot⟩)

/-- Once a document is read to its end, every slot it has an element for holds what was read. -/
theorem walk_holdsRead {content : Forest} (h : slot ∈ o.targets content)
    (hend : (content.walk (loadElement cat) o).stop? = none) :
    HoldsRead slot (content.walk (loadElement cat) o).state := by
  obtain ⟨x, hx, hslot⟩ := List.mem_flatMap.mp h
  refine Forest.walk_reaches (I := Reading o) (.refl o)
    (fun _ _ o' hr => hr.trans (loadElement_reading cat o' ..)) hend hx ?_
    (fun _ _ o' _ ho' => (loadElement_reading cat o' ..).holdsRead ho')
  intro o' hr
  exact loadElement_holdsRead (by rwa [hr.elementTargets_eq])

def loadStart (o : LocalCopy) (clearFirst : Bool) : LocalCopy := if clearFirst then o.clear else o

theorem loadStart_targets (o : LocalCopy) (clearFirst : Bool) (content : Forest) :
    (o.loadStart clearFirst).targets content = o.targets content := by
  cases clearFirst <;> rfl

/-- Everything that a load can make of a copy. -/
theorem load_eq (cat : Catalog) (o : LocalCopy) (content : Forest) (clearFirst : Bool)
    (asked : PropertySet) (summary : Bool) :
    ∃ o', Reading (o.loadStart clearFirst) o' ∧
      (((o.load cat content clearFirst asked summary).stop? ≠ none ∧
          (o.load cat content clearFirst asked summary).state = o'.clear) ∨
        ((o.load cat content clearFirst asked summary).stop? = none ∧
          (∃ loaded, (o.load cat content clearFirst asked summary).state =
            { o' with loaded, assigned := ∅, deleted := ∅, touched := ∅, isNew := false }) ∧
          (∀ slot ∈ o.targets content, HoldsRead slot o') ∧
          ∀ slot, slot ∉ o.targets content →
            o'.values.get? slot = (o.loadStart clearFirst).values.get? slot)) := by
  obtain ⟨w, hw⟩ : ∃ w, w = content.walk (loadElement cat) (o.loadStart clearFirst) := ⟨_, rfl⟩
  have hload : o.load cat content clearFirst asked summary = w.map fun o =>
      if w.stop?.isSome then o.clear
      else { o with
        loaded := o.loaded ∪ o.type.requested asked summary o.version
        assigned := ∅, deleted := ∅, touched := ∅, isNew := false } := by
    rw [hw]
    rfl
  refine ⟨w.state, hw ▸ walk_reading cat (o.loadStart clearFirst) content, ?_⟩
  rw [hload, ← loadStart_targets o clearFirst]
  cases h : w.stop? with
  | some stop => exact .inl (by simp [h])
  | none =>
    refine .inr ⟨h, ⟨_, rfl⟩, ?_, ?_⟩
    · intro slot hslot
      rw [hw] at h ⊢
      exact walk_holdsRead hslot h
    · intro slot hslot
      rw [hw]
      exact walk_get?_of_not_target hslot

end LocalCopy

end ObjectTracking
