import ObjectTracking.Proofs.LocalCopy.Dispatch
import ObjectTracking.Proofs.LocalCopy.Elements
import ObjectTracking.Proofs.LocalCopy.Filled
import ObjectTracking.Proofs.Mail.WellFormed
import ObjectTracking.Proofs.Markup.Reading
import ObjectTracking.Proofs.Property.Instant
/-!
A new copy that was written is read again, slot by slot. Reading an element fills its slots, and the
slots of what comes after are still empty then, so that nothing is read into a value already held.
-/
set_option autoImplicit false

namespace ObjectTracking
open Markup

namespace LocalCopy
variable {cat : Catalog} {o o₁ o₂ o₃ : LocalCopy} {q : Property} {slot : Nat} {v : Value}
  {tag : Tag} {content : Forest}

/-- A copy that can be read into: some slots are still empty. -/
structure Awaits (o : LocalCopy) (P : Nat → Prop) (o₁ : LocalCopy) : Prop where
  type : o₁.type = o.type
  session : o₁.session = o.session
  vacant : ∀ slot, P slot → o₁.values.get? slot = none

/-- A copy after what another holds in some slots was read into it. -/
structure Restored (o : LocalCopy) (P : Nat → Prop) (o₁ o₂ : LocalCopy) : Prop where
  id : o₂.id = o₁.id
  type : o₂.type = o₁.type
  session : o₂.session = o₁.session
  there : ∀ slot, P slot → o₂.values.get? slot =
    (o.values.get? slot).map fun v => v.restored.attach (o₁.link slot)
  elsewhere : ∀ slot, ¬ P slot → o₂.values.get? slot = o₁.values.get? slot

/-- Elements in a row are written for some slots and are read into them. -/
structure Conveyed (o : LocalCopy) (step : Tag → Forest → LocalCopy → Progress LocalCopy)
    (P : Nat → Prop) (e : Encoding) (row : Content) : Prop where
  wellFormed : row.WellFormed
  isRow : row.isRow = true
  encoded : e = .ofCalls row.calls
  loaded : ∀ o₁, o.Awaits P o₁ → ∃ o₂, row.forest.walk step o₁ = .done o₂ ∧ o.Restored P o₁ o₂

section Row
variable {step : Tag → Forest → LocalCopy → Progress LocalCopy} {P Q : Nat → Prop} {e : Encoding}
  {row : Content}

theorem Restored.trans (h : o.Restored P o₁ o₂) (h' : o.Restored Q o₂ o₃)
    (hdisjoint : ∀ slot, P slot → ¬ Q slot) : o.Restored (fun slot => P slot ∨ Q slot) o₁ o₃ := by
  refine ⟨h'.id.trans h.id, h'.type.trans h.type, h'.session.trans h.session, ?_, ?_⟩
  · rintro slot (hp | hq)
    · rw [h'.elsewhere slot (hdisjoint slot hp), h.there slot hp]
    · simpa only [link, h.id] using h'.there slot hq
  · intro slot hnot
    rw [h'.elsewhere slot fun hq => hnot (.inr hq), h.elsewhere slot fun hp => hnot (.inl hp)]

theorem Awaits.after (h : o.Awaits (fun slot => P slot ∨ Q slot) o₁) (h' : o.Restored P o₁ o₂)
    (hdisjoint : ∀ slot, P slot → ¬ Q slot) : o.Awaits Q o₂ := by
  refine ⟨h'.type.trans h.type, h'.session.trans h.session, ?_⟩
  intro slot hq
  rw [h'.elsewhere slot fun hp => hdisjoint slot hp hq]
  exact h.vacant slot (.inr hq)

theorem conveyed_nothing (o : LocalCopy)
    (step : Tag → Forest → LocalCopy → Progress LocalCopy) :
    o.Conveyed step (fun _ => False) .nothing .nothing := by
  refine ⟨trivial, rfl, rfl, ?_⟩
  intro o₁ _
  exact ⟨o₁, rfl, rfl, rfl, rfl, fun _ h => h.elim, fun _ _ => rfl⟩

theorem Conveyed.congr (h : o.Conveyed step P e row) (heq : ∀ slot, Q slot ↔ P slot) :
    o.Conveyed step Q e row := by
  have hsame : Q = P := funext fun slot => propext (heq slot)
  rwa [hsame]

/-- An element before others, for slots that the others leave alone. -/
theorem Conveyed.element (h : o.Conveyed step Q e row) (hdisjoint : ∀ slot, P slot → ¬ Q slot)
    {name : String} {attributes : List (String × String)} {content : Content} (hname : IsName name)
    (hattributes : AreAttributes attributes) (hcontent : content.WellFormed)
    (hstep : ∀ o₁, o.Awaits P o₁ → ∃ o₂,
      step (Content.tag name attributes) content.forest o₁ = .done o₂ ∧ o.Restored P o₁ o₂) :
    o.Conveyed step (fun slot => P slot ∨ Q slot)
      (.element .types name (.ofCalls (attributeCalls attributes ++ content.calls)) ++ e)
      (.element name attributes content row) := by
  refine ⟨⟨hname, hattributes, hcontent, h.wellFormed, h.isRow⟩, rfl, ?_, ?_⟩
  · rw [h.encoded, Encoding.element_append]
  · intro o₁ ho₁
    obtain ⟨o₂, hfirst, hrestored⟩ :=
      hstep o₁ ⟨ho₁.type, ho₁.session, fun slot hp => ho₁.vacant slot (.inl hp)⟩
    obtain ⟨o₃, hrest, hrestored'⟩ := h.loaded o₂ (ho₁.after hrestored hdisjoint)
    refine ⟨o₃, ?_, hrestored.trans hrestored' hdisjoint⟩
    rw [Content.forest, Forest.walk_element_of_done hfirst, hrest, Progress.later_done]

end Row

theorem loadSlot_restored {e : Encoding} {name : String} {attributes : List (String × String)}
    {body : Content} (hv : o.values.get? slot = some v) (hnull : v.isNull = false)
    (hq : q.Conveyed cat o.session v e name attributes body) (h : o.Awaits (· = slot) o₁) :
    ∃ o₂, o₁.loadSlot cat slot q (Content.tag name attributes) body.forest = .done o₂ ∧
      o.Restored (· = slot) o₁ o₂ := by
  have hexisting : (if q.has .reuseInstance o₁.version then o₁.values.get? slot else none) =
      none := by
    rw [h.vacant slot rfl, ite_self]
  have hrestored : v.restored.isNull = false := by cases v <;> first | rfl | cases hnull
  refine ⟨{ o₁ with
    values := o₁.values.insert slot (v.restored.attach (o₁.link slot))
    loaded := o₁.loaded.insert slot }, ?_, rfl, rfl, rfl, ?_, ?_⟩
  · simp only [loadSlot, hexisting, h.session, hq.loaded, Progress.map_done, hrestored,
      Bool.false_eq_true, if_false]
  · rintro n rfl
    simp [hv]
  · intro n hn
    simp [hn]

/-- A copy that is read again from what is written for it. -/
structure Creatable (cat : Catalog) (o : LocalCopy) : Prop where
  catalog : cat.WellFormed
  type : o.type.WellFormed cat
  filled : Filled cat o
  writable : ∀ slot v, o.values.get? slot = some v → v.Writable cat o.session

/-- The slots that the elements of some members fill, if some dictionaries are written already. -/
def Reached (o : LocalCopy) (written : List String) (rest : List (Property × Nat)) (n : Nat) :
    Prop :=
  o.values.contains n = true ∧ ∃ r, o.type.property? n = some r ∧
    (r.key? = none ∧ (r, n) ∈ rest ∨
      r.key?.isSome = true ∧ r.element ∉ written ∧ ∃ x ∈ rest, o.values.contains x.2 = true ∧
        x.1.key?.isSome = true ∧ x.1.element = r.element)

section Reached
variable {written : List String} {rest : List (Property × Nat)} {n : Nat}

theorem reached_cons_vacant (hvacant : o.values.contains slot = false) :
    o.Reached written ((q, slot) :: rest) n ↔ o.Reached written rest n := by
  grind [Reached]

theorem reached_cons_element (hq : o.type.property? slot = some q) (hkey : q.key? = none)
    (hheld : o.values.contains slot = true) :
    o.Reached written ((q, slot) :: rest) n ↔ n = slot ∨ o.Reached written rest n := by
  grind [Reached]

theorem reached_cons_written (hkey : q.key?.isSome = true) (hwritten : q.element ∈ written) :
    o.Reached written ((q, slot) :: rest) n ↔ o.Reached written rest n := by
  grind [Reached]

theorem reached_cons_dictionary (ht : o.type.SharesEntries) (hq : o.type.property? slot = some q)
    (hkey : q.key?.isSome = true) (hwritten : q.element ∉ written)
    (hheld : o.values.contains slot = true) : o.Reached written ((q, slot) :: rest) n ↔
      (n ∈ o.type.dispatch q.element ∧ o.values.contains n = true) ∨
        o.Reached (q.element :: written) rest n := by
  constructor
  · rintro ⟨hn, r, hr, ⟨hnone, hmem⟩ | ⟨hsome, hout, x, hx, hxheld, hxkey, hxelement⟩⟩
    · refine .inr ⟨hn, r, hr, .inl ⟨hnone, ?_⟩⟩
      rcases List.mem_cons.mp hmem with heq | hmem
      · cases heq
        simp [hnone] at hkey
      · exact hmem
    · by_cases helement : r.element = q.element
      · exact .inl ⟨ObjectType.mem_dispatch.mpr ⟨r, hr, helement⟩, hn⟩
      · refine .inr ⟨hn, r, hr, .inr ⟨hsome, by simp [helement, hout], x, ?_, hxheld, hxkey,
          hxelement⟩⟩
        rcases List.mem_cons.mp hx with rfl | hx
        · exact absurd hxelement.symm helement
        · exact hx
  · rintro (⟨hmem, hn⟩ | ⟨hn, r, hr, ⟨hnone, hmem⟩ | ⟨hsome, hout, x, hx, hfill⟩⟩)
    · obtain ⟨r, hr, helement⟩ := ObjectType.mem_dispatch.mp hmem
      exact ⟨hn, r, hr, .inr ⟨ht.key?_of_element hq hr helement hkey, helement ▸ hwritten,
        (q, slot), List.mem_cons_self, hheld, hkey, helement.symm⟩⟩
    · exact ⟨hn, r, hr, .inl ⟨hnone, List.mem_cons_of_mem _ hmem⟩⟩
    · exact ⟨hn, r, hr, .inr ⟨hsome, fun h => hout (List.mem_cons_of_mem _ h), x,
        List.mem_cons_of_mem _ hx, hfill⟩⟩

theorem not_reached_element (hq : o.type.property? slot = some q) (hkey : q.key? = none)
    (hfresh : slot ∉ rest.map Prod.snd) : ¬ o.Reached written rest slot := by
  rintro ⟨_, r, hr, hfill⟩
  obtain rfl : q = r := Option.some.inj (hq.symm.trans hr)
  rcases hfill with ⟨_, hmem⟩ | ⟨hsome, _⟩
  · exact hfresh (List.mem_map.mpr ⟨(q, slot), hmem, rfl⟩)
  · simp [hkey] at hsome

theorem not_reached_dictionary (ht : o.type.SharesEntries) (hq : o.type.property? slot = some q)
    (hkey : q.key?.isSome = true) (hn : n ∈ o.type.dispatch q.element) :
    ¬ o.Reached (q.element :: written) rest n := by
  obtain ⟨r, hr, helement⟩ := ObjectType.mem_dispatch.mp hn
  have hsome := ht.key?_of_element hq hr helement hkey
  rintro ⟨_, r', hr', hfill⟩
  obtain rfl : r = r' := Option.some.inj (hr.symm.trans hr')
  rcases hfill with ⟨hnone, _⟩ | ⟨_, hout, _⟩
  · simp [hnone] at hsome
  · exact hout (by simp [helement])

end Reached

namespace Creatable

theorem tellsEntries (h : Creatable cat o) : o.type.TellsEntries := h.type.elements

theorem sharesEntries (h : Creatable cat o) : o.type.SharesEntries := h.tellsEntries.sharesEntries

theorem createValue?_eq (h : Creatable cat o) (hq : o.type.property? slot = some q) :
    o.createValue? slot q = o.values.get? slot := by
  unfold createValue?
  cases hv : o.values.get? slot with
  | none => exact ite_self none
  | some v =>
    obtain ⟨r, hr, happlicable, hsettable, _⟩ := h.filled slot v hv
    obtain rfl : q = r := Option.some.inj (hq.symm.trans hr)
    simp [happlicable, hsettable]

theorem held (h : Creatable cat o) (hq : o.type.property? slot = some q)
    (hv : o.values.get? slot = some v) : q.WellFormed cat ∧ q.isApplicable o.version = true ∧
      q.shape.Holds cat v ∧ v.Writable cat o.session := by
  obtain ⟨r, hr, happlicable, _, hholds⟩ := h.filled slot v hv
  obtain rfl : q = r := Option.some.inj (hq.symm.trans hr)
  exact ⟨h.type.properties q (List.mem_of_getElem? hq), happlicable, hholds, h.writable slot v hv⟩

theorem element_conveyed (h : Creatable cat o) (hq : o.type.property? slot = some q)
    (hkey : q.key? = none) (hv : o.values.get? slot = some v) {P : Nat → Prop} {e : Encoding}
    {row : Content} (hrow : o.Conveyed (loadElement cat) P e row) (hdisjoint : ¬ P slot) :
    ∃ row, o.Conveyed (loadElement cat) (fun n => n = slot ∨ P n)
      (q.encode cat ⟨o.session, false, none⟩ v ++ e) row := by
  obtain ⟨hwf, happlicable, hholds, hwritable⟩ := h.held hq hv
  obtain ⟨attributes, body, hbody⟩ :=
    Property.conveyed_element h.catalog hwf hkey hholds hwritable
  rw [hbody.encoded]
  refine ⟨_, hrow.element ?_ hbody.isName hbody.areAttributes hbody.wellFormed ?_⟩
  · rintro n rfl
    exact hdisjoint
  · intro o₁ ho₁
    have happlicable₁ : q.isApplicable o₁.version = true := by
      simpa only [version, ho₁.session] using happlicable
    rw [loadElement_of_plain (ho₁.type ▸ h.sharesEntries) (ho₁.type ▸ hq) hkey rfl,
      if_pos happlicable₁]
    exact loadSlot_restored hv hholds.not_null hbody ho₁

theorem entry_conveyed (h : Creatable cat o) (hq : o.type.property? slot = some q)
    (hkey : q.key?.isSome = true) (hv : o.values.get? slot = some v) {P : Nat → Prop} {e : Encoding}
    {row : Content} (hrow : o.Conveyed (loadEntry cat (o.type.dispatch q.element)) P e row)
    (hdisjoint : ¬ P slot) :
    ∃ row, o.Conveyed (loadEntry cat (o.type.dispatch q.element)) (fun n => n = slot ∨ P n)
      (q.encodeEntry cat ⟨o.session, false, none⟩ v ++ e) row := by
  obtain ⟨key, hkey⟩ := Option.isSome_iff_exists.mp hkey
  obtain ⟨hwf, happlicable, hholds, hwritable⟩ := h.held hq hv
  obtain ⟨attributes, body, hbody⟩ :=
    Property.conveyed_entry h.catalog hwf hkey hholds hwritable
  rw [hbody.encoded]
  refine ⟨_, hrow.element ?_ hbody.isName hbody.areAttributes hbody.wellFormed ?_⟩
  · rintro n rfl
    exact hdisjoint
  · intro o₁ ho₁
    have hentry := entrySlot?_of_key (ho₁.type ▸ h.tellsEntries) (ho₁.type ▸ hq)
    rw [ho₁.type, hkey] at hentry
    rw [loadEntry_of_entrySlot? rfl rfl hentry
      (by simpa only [version, ho₁.session] using happlicable)]
    exact loadSlot_restored hv hholds.not_null hbody ho₁

theorem entries_conveyed (h : Creatable cat o) {element : String} {slots : List Nat}
    (hslots : ∀ slot ∈ slots, ∃ q, o.type.property? slot = some q ∧ q.element = element ∧
      q.key?.isSome = true) (hnodup : slots.Nodup) :
    ∃ row, o.Conveyed (loadEntry cat (o.type.dispatch element))
      (fun n => n ∈ slots ∧ o.values.contains n = true)
      (.concat (slots.map (o.encodeSlot cat ⟨o.session, false, none⟩))) row := by
  induction slots with
  | nil => exact ⟨.nothing, (conveyed_nothing o _).congr (by simp)⟩
  | cons slot slots ih =>
    obtain ⟨hfresh, hnodup⟩ := List.nodup_cons.mp hnodup
    obtain ⟨row, hrow⟩ := ih (fun n hn => hslots n (List.mem_cons_of_mem slot hn)) hnodup
    obtain ⟨q, hq, rfl, hkey⟩ := hslots slot List.mem_cons_self
    rw [List.map_cons, Encoding.concat, List.foldr_cons, ← Encoding.concat]
    rw [encodeSlot]
    simp only [hq, h.createValue?_eq hq]
    cases hv : o.values.get? slot with
    | none =>
      refine ⟨row, hrow.congr ?_⟩
      intro n
      have hvacant : o.values.contains slot = false := by simp [SlotMap.contains, hv]
      grind
    | some v =>
      obtain ⟨row', hrow'⟩ := h.entry_conveyed hq hkey hv hrow fun hmem => hfresh hmem.1
      refine ⟨row', hrow'.congr ?_⟩
      intro n
      have hheld : o.values.contains slot = true := by simp [SlotMap.contains, hv]
      grind

theorem dictionary_conveyed (h : Creatable cat o) (hq : o.type.property? slot = some q)
    (hkey : q.key?.isSome = true) {P : Nat → Prop} {e : Encoding} {row : Content}
    (hrow : o.Conveyed (loadElement cat) P e row)
    (hdisjoint : ∀ n ∈ o.type.dispatch q.element, ¬ P n) :
    ∃ row, o.Conveyed (loadElement cat)
      (fun n => (n ∈ o.type.dispatch q.element ∧ o.values.contains n = true) ∨ P n)
      (o.encodeDictionary cat ⟨o.session, false, none⟩ q.element ++ e) row := by
  have hslots : ∀ n ∈ o.type.dispatch q.element, ∃ r, o.type.property? n = some r ∧
      r.element = q.element ∧ r.key?.isSome = true := by
    intro n hn
    obtain ⟨r, hr, helement⟩ := ObjectType.mem_dispatch.mp hn
    exact ⟨r, hr, helement, h.sharesEntries.key?_of_element hq hr helement hkey⟩
  obtain ⟨entries, hentries⟩ := h.entries_conveyed hslots (o.type.dispatch_nodup q.element)
  have hname := (h.type.properties q (List.mem_of_getElem? hq)).element
  rw [encodeDictionary_eq, hentries.encoded]
  have hdisjoint' : ∀ n, n ∈ o.type.dispatch q.element ∧ o.values.contains n = true → ¬ P n :=
    fun n hn => hdisjoint n hn.1
  have helement := hrow.element hdisjoint' hname areAttributes_nil hentries.wellFormed
    fun o₁ ho₁ => by
      rw [loadElement_of_dictionary (ho₁.type ▸ h.sharesEntries) (ho₁.type ▸ hq) hkey rfl, ho₁.type]
      exact hentries.loaded o₁ ho₁
  exact ⟨_, helement⟩

/-- The elements of some members are read into the slots that they fill. -/
theorem members_conveyed (h : Creatable cat o) (written : List String)
    (rest : List (Property × Nat)) (hrest : ∀ x ∈ rest, o.type.property? x.2 = some x.1)
    (hnodup : (rest.map Prod.snd).Nodup) :
    ∃ row, o.Conveyed (loadElement cat) (o.Reached written rest)
      (o.encodeMembers cat ⟨o.session, false, none⟩ written rest) row := by
  induction rest generalizing written with
  | nil => exact ⟨.nothing, (conveyed_nothing o _).congr (by simp [Reached])⟩
  | cons x rest ih =>
    obtain ⟨q, slot⟩ := x
    have hq : o.type.property? slot = some q := hrest (q, slot) List.mem_cons_self
    have hmore := fun x hx => hrest x (List.mem_cons_of_mem (q, slot) hx)
    obtain ⟨hfresh, hnodup⟩ := List.nodup_cons.mp hnodup
    obtain ⟨row, hrow⟩ := ih written hmore hnodup
    rw [encodeMembers, h.createValue?_eq hq]
    cases hv : o.values.get? slot with
    | none =>
      have hvacant : o.values.contains slot = false := by simp [SlotMap.contains, hv]
      exact ⟨row, hrow.congr fun n => reached_cons_vacant hvacant⟩
    | some v =>
      have hheld : o.values.contains slot = true := by simp [SlotMap.contains, hv]
      cases hkey : q.key?.isSome with
      | false =>
        have hnone : q.key? = none := by simpa using hkey
        obtain ⟨row', hrow'⟩ := h.element_conveyed hq hnone hv hrow
          (not_reached_element hq hnone hfresh)
        simp only [hnone, Option.isNone_none, if_true]
        exact ⟨row', hrow'.congr fun n => reached_cons_element hq hnone hheld⟩
      | true =>
        have hnone : q.key?.isNone = false := by simpa using hkey
        cases hwritten : written.contains q.element with
        | true =>
          simp only [hnone, Bool.false_eq_true, if_false, if_true]
          exact ⟨row, hrow.congr fun n => reached_cons_written hkey (by simpa using hwritten)⟩
        | false =>
          obtain ⟨row, hrow⟩ := ih (q.element :: written) hmore hnodup
          obtain ⟨row', hrow'⟩ := h.dictionary_conveyed hq hkey hrow
            fun n hn => not_reached_dictionary h.sharesEntries hq hkey hn
          simp only [hnone, Bool.false_eq_true, if_false]
          exact ⟨row', hrow'.congr fun n =>
            reached_cons_dictionary h.sharesEntries hq hkey (by simpa using hwritten) hheld⟩

/-- The elements of all members are read into all slots that have a value. -/
theorem conveyed (h : Creatable cat o) : ∃ row, o.Conveyed (loadElement cat)
    (fun n => o.values.contains n = true)
    (o.encodeMembers cat ⟨o.session, false, none⟩ [] o.type.properties.zipIdx) row := by
  obtain ⟨row, hrow⟩ := h.members_conveyed [] o.type.properties.zipIdx
    (fun x hx => List.mem_zipIdx_iff_getElem?.mp hx)
    (by simpa [List.zipIdx_map_snd] using List.nodup_range')
  refine ⟨row, hrow.congr ?_⟩
  intro n
  constructor
  · intro hn
    obtain ⟨v, hv⟩ := Option.isSome_iff_exists.mp hn
    obtain ⟨q, hq, _⟩ := h.filled n v hv
    have hmem : (q, n) ∈ o.type.properties.zipIdx := List.mem_zipIdx_iff_getElem?.mpr hq
    refine ⟨hn, q, hq, ?_⟩
    cases hkey : q.key?.isSome with
    | false => exact .inl ⟨by simpa using hkey, hmem⟩
    | true => exact .inr ⟨rfl, List.not_mem_nil, (q, n), hmem, hn, hkey, rfl⟩
  · exact fun hn => hn.1

end Creatable

theorem restored_attach (v : Value) (k : Link) : v.restored.attach k = (settled v).attach k := by
  cases v with
  | composite c => simp [Value.restored, settled, Value.attach, Composite.attach_attach]
  | collection c => simp [Value.restored, settled, Value.attach, Collection.attach_attach]
  | _ => rfl

/-- What is written to create the object of a copy is read into every new copy of the same type and
session: that holds the same values then, settled and with links of its own, and no others. -/
def IsReadAgain (cat : Catalog) (o : LocalCopy) : Prop :=
  ∃ text cursor, (o.encodeCreate cat).document = (.ok text, []) ∧
    Cursor.ofXml text >>= Cursor.advance = .ok cursor ∧
    cursor.tag? = some ⟨some .types, o.type.element, []⟩ ∧
    ∀ (id : Nat) (clearFirst : Bool) (asked : PropertySet) (summary : Bool),
      let p := (new id o.type o.session).load cat cursor.site.content clearFirst asked summary
      p.stop? = none ∧ p.reports = [] ∧ ∀ slot, p.state.values.get? slot =
        (o.values.get? slot).map fun v => (settled v).attach ⟨id, slot⟩

theorem Creatable.isReadAgain (h : Creatable cat o) : o.IsReadAgain cat := by
  obtain ⟨row, hrow⟩ := h.conveyed
  obtain ⟨text, cursor, htext, hcursor, hsite⟩ :=
    ofXml_document h.type.element areAttributes_nil hrow.wellFormed
  refine ⟨text, cursor, ?_, hcursor, congrArg Site.tag? hsite, ?_⟩
  · rw [encodeCreate, hrow.encoded]
    exact htext
  · intro id clearFirst asked summary
    have hstart : (if clearFirst then (new id o.type o.session).clear
        else new id o.type o.session) = new id o.type o.session := by
      cases clearFirst <;> rfl
    obtain ⟨o₂, hwalk, hrestored⟩ :=
      hrow.loaded (new id o.type o.session) ⟨rfl, rfl, fun _ _ => rfl⟩
    have hcontent : cursor.site.content = row.forest := congrArg Site.content hsite
    simp only [load, hstart, hcontent, hwalk, Progress.map_done]
    refine ⟨rfl, rfl, ?_⟩
    intro slot
    cases hv : o.values.get? slot with
    | none => exact hrestored.elsewhere slot (by simp [SlotMap.contains, hv])
    | some v =>
      have hread := hrestored.there slot (by simp [SlotMap.contains, hv])
      rw [hv, Option.map_some, restored_attach] at hread
      exact hread

/-- Every new copy of a well-formed type is read again, however it was filled, if all its values can
be told from others in what is written. -/
theorem run_isReadAgain (cat : Catalog) (type : ObjectType) (session : Session) (id : Nat)
    (ops : List Operation) (hcat : cat.WellFormed) (htype : type.WellFormed cat)
    (hops : ∀ op ∈ ops, op.Fills cat)
    (hwritable : ∀ slot v, ((new id type session).run cat ops).values.get? slot = some v →
      v.Writable cat session) : ((new id type session).run cat ops).IsReadAgain cat := by
  obtain ⟨_, hsametype, hsamesession⟩ := run_same cat (new id type session) ops
  have hfilled := (filled_new cat id type session).run htype hops
  generalize (new id type session).run cat ops = o at *
  have htype' : o.type = type := hsametype
  have hsession : o.session = session := hsamesession
  subst htype' hsession
  exact Creatable.isReadAgain ⟨hcat, htype, hfilled, hwritable⟩

section Contact
open Mail

def localSession : Session := ⟨.newest, ⟨3600, by decide⟩, true⟩

def leapSecond : Time.WallClock where
  date := ⟨2017, 1, 1, by decide, by decide, by decide⟩
  second := 3599
  nanos := 1500000000
  second_lt := by decide
  nanos_lt := by decide

/-- A contact is filled: a text that needs escapes, a category without a name, two entries of a
dictionary out of order, and a date-time. -/
def contactOps : List Operation :=
  [.set Item.subject (.scalar (.text "Tea & <cake>")),
    .edit Item.categories (.collection (.push (.mk category none [.scalar (.text "")]))),
    .set (Contact.emailAddress "EmailAddress2") (.scalar (.text "b@example.com")),
    .set (Contact.emailAddress "EmailAddress1") (.scalar (.text "a@example.com")),
    .set Contact.birthday (.scalar (.dateTime leapSecond))]

theorem contactOps_fill : ∀ op ∈ contactOps, op.Fills (catalog []) := by
  simp only [contactOps, List.forall_mem_cons, Operation.Fills, Value.Fits, ValueEdit.Fits,
    CollectionEdit.Fits, true_and]
  refine ⟨⟨⟨.text, rfl, fun _ => rfl⟩, trivial, trivial⟩, ?_⟩
  simp

def contactCategories (entries : List Entry) : Value :=
  .collection { layout := category, element := "String", entries, link := some ⟨1, 4⟩ }

theorem contact_values :
    ((new 1 Contact.type localSession).run (catalog []) contactOps).values =
      (((((SlotMap.empty.insert 1 (.scalar (.text "Tea & <cake>"))).insert 4
        (contactCategories [])).insert 4 (contactCategories
          [⟨none, false, .mk category (some ⟨1, 4⟩) [.scalar (.text "")]⟩])).insert 11
            (.scalar (.text "b@example.com"))).insert 10
              (.scalar (.text "a@example.com"))).insert 16 (.scalar (.dateTime leapSecond)) :=
  rfl

theorem leapSecond_writable : Scoping.Writable localSession.zone leapSecond := by
  refine ⟨⟨⟨⟨2016, 12, 31, by decide, by decide, by decide⟩, 86399, 1500000000, by decide,
    by decide⟩, ?_, by decide, by decide⟩, fun _ => ⟨by decide, by decide⟩⟩
  rw [Time.WallClock.ahead?_eq_some_iff]
  exact ⟨rfl, .inl ⟨by decide, by decide, by decide⟩⟩

theorem contact_writable : ∀ slot v,
    ((new 1 Contact.type localSession).run (catalog []) contactOps).values.get? slot = some v →
      v.Writable (catalog []) localSession := by
  rw [contact_values]
  have hcategory : ∀ e : Entry, e ∈ [⟨none, false, .mk category (some ⟨1, 4⟩)
      [.scalar (.text "")]⟩] → e.value.Telling (catalog []) := by
    intro e he
    obtain rfl := List.mem_singleton.mp he
    refine ⟨?_, trivial, trivial⟩
    rintro ⟨⟩
  refine SlotMap.forall_insert leapSecond_writable (SlotMap.forall_insert trivial
    (SlotMap.forall_insert trivial (SlotMap.forall_insert hcategory
      (SlotMap.forall_insert ?_ (SlotMap.forall_insert trivial ?_)))))
  · intro e he
    cases he
  · rintro slot v ⟨⟩

theorem contact_isReadAgain :
    ((new 1 Contact.type localSession).run (catalog []) contactOps).IsReadAgain (catalog []) :=
  run_isReadAgain (catalog []) Contact.type localSession 1 contactOps
    (catalog_wellFormed fun _ h => by cases h)
    (types_wellFormed (catalog []) Contact.type (by simp [types])) contactOps_fill contact_writable

def born (t : Time.WallClock) : LocalCopy :=
  (new 1 Contact.type Mail.session).run (catalog []) [.set Contact.birthday (.scalar (.dateTime t))]

theorem born_values (t : Time.WallClock) :
    (born t).values = SlotMap.empty.insert 16 (.scalar (.dateTime t)) := rfl

theorem born_isReadAgain {t : Time.WallClock} (ht : Scoping.Writable Mail.session.zone t) :
    (born t).IsReadAgain (catalog []) := by
  have hcat : (catalog []).WellFormed := catalog_wellFormed (by simp)
  have htype := types_wellFormed (catalog []) Contact.type (by simp [types])
  refine Creatable.isReadAgain
    ⟨hcat, htype, (filled_new (catalog []) 1 Contact.type Mail.session).run htype ?_, ?_⟩
  · exact List.forall_mem_singleton.mpr trivial
  · rw [born_values]
    exact SlotMap.forall_insert ht (by rintro slot v ⟨⟩)

/-- A leap second that is not the last of its minute is read again as the second after it. -/
theorem leapWithin_not_readAgain :
    (catalog []).WellFormed ∧ Contact.type.WellFormed (catalog []) ∧
    (Operation.set Contact.birthday (.scalar (.dateTime Scoping.leapWithin))).Fills (catalog []) ∧
    (∃ utc, Scoping.leapWithin.ahead? Mail.session.zone.opposite = some utc ∧
      0 ≤ utc.date.year ∧ utc.date.year ≤ 9999) ∧ Mail.session.zone.seconds % 60 = 0 ∧
    (born Scoping.leapWithin).values =
      SlotMap.empty.insert 16 (.scalar (.dateTime Scoping.leapWithin)) ∧
    ¬ (born Scoping.leapWithin).IsReadAgain (catalog []) := by
  refine ⟨catalog_wellFormed (by simp),
    types_wellFormed (catalog []) Contact.type (by simp [types]), trivial,
    ⟨Scoping.leapWithin, rfl, by decide, by decide⟩, rfl, rfl, ?_⟩
  rintro ⟨text, cursor, htext, hcursor, -, hread⟩
  -- The second after it has the same text and is read again.
  have hlater : Scoping.Writable Mail.session.zone
      (Scoping.lastDay 86370 0 (by decide) (by decide)) :=
    ⟨⟨_, rfl, by decide, by decide⟩, fun h => absurd h (by decide)⟩
  obtain ⟨text', cursor', htext', hcursor', -, hread'⟩ := born_isReadAgain hlater
  have hsame : (born Scoping.leapWithin).encodeCreate (catalog []) =
      (born (Scoping.lastDay 86370 0 (by decide) (by decide))).encodeCreate (catalog []) := rfl
  rw [hsame, htext'] at htext
  cases htext
  cases hcursor'.symm.trans hcursor
  have hslot := ((hread 1 true {} false).2.2 16).symm.trans ((hread' 1 true {} false).2.2 16)
  cases hslot

end Contact

end LocalCopy

end ObjectTracking
