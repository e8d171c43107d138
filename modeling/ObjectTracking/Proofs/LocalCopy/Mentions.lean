import ObjectTracking.Proofs.LocalCopy.Reordered
import ObjectTracking.Proofs.Property.Refreshed
/-!
A load slot by slot. The elements that a load reads are told by the type and the session alone, and
what becomes of a slot depends on those read into it and on nothing but what the slot held.
-/
set_option autoImplicit false

namespace ObjectTracking
open Markup

structure Mention where
  slot : Nat
  property : Property
  element : Tag × Forest

/-- The cell of a slot once an element was read into it, unless it cannot be read. -/
def Cell.heed (cat : Catalog) (session : Session) (link : Link) (c : Cell) (m : Mention) :
    Option Cell :=
  (m.property.readOver cat session link m.element c.value?).map fun w =>
    { c with value? := w, loaded := true }

theorem Cell.foldlM_heed {cat : Catalog} {session : Session} {link : Link} {q : Property}
    {ms : List Mention} (h : ∀ m ∈ ms, m.property = q) (c : Cell) :
    ms.foldlM (heed cat session link) c =
      (q.readAll cat session link (ms.map Mention.element) c.value?).map fun w =>
        { c with value? := w, loaded := c.loaded || !ms.isEmpty } := by
  induction ms generalizing c with
  | nil => simp [Property.readAll]
  | cons m ms ih =>
    obtain ⟨rfl, hms⟩ := List.forall_mem_cons.mp h
    rw [List.foldlM_cons, heed]
    simp only [List.map_cons, Property.readAll, List.foldlM_cons]
    cases hread : m.property.readOver cat session link m.element c.value? with
    | none => rfl
    | some w =>
      have hrest := ih hms { c with value? := w, loaded := true }
      simp only [Bool.true_or] at hrest
      simpa [Property.readAll] using hrest

namespace LocalCopy
variable {cat : Catalog} {o o' : LocalCopy} {q : Property} {slot : Nat} {content : Forest}

def entryMention? (o : LocalCopy) (slots : List Nat) (x : Tag × Forest) : Option Mention :=
  if x.1.ns = some .types ∧ x.1.name = "Entry" then
    (o.entrySlot? slots (x.1.attribute? "Key")).bind fun (slot, q) =>
      if q.isApplicable o.version then some ⟨slot, q, x⟩ else none
  else none

def elementMentions (o : LocalCopy) (x : Tag × Forest) : List Mention :=
  match (o.type.dispatch x.1.name).head?.bind fun slot => (o.type.property? slot).map (slot, ·) with
  | none => []
  | some (slot, q) =>
    if q.key?.isSome then
      x.2.elements.flatMap fun y => (o.entryMention? (o.type.dispatch x.1.name) y).toList
    else if q.isApplicable o.version then [⟨slot, q, x⟩] else []

def mentions (o : LocalCopy) (content : Forest) : List Mention :=
  content.elements.flatMap o.elementMentions

def elementsOf (slot : Nat) (ms : List Mention) : List (Tag × Forest) :=
  (ms.filter (·.slot = slot)).map Mention.element

def heed (cat : Catalog) (o : LocalCopy) (m : Mention) : Option LocalCopy :=
  (o.loadSlot cat m.slot m.property m.element.1 m.element.2).finished?

theorem Reading.entryMention?_eq (h : Reading o o') (slots : List Nat) (x : Tag × Forest) :
    o'.entryMention? slots x = o.entryMention? slots x := by
  simp only [entryMention?, h.entrySlot?_eq, h.version]

theorem Reading.elementMentions_eq (h : Reading o o') (x : Tag × Forest) :
    o'.elementMentions x = o.elementMentions x := by
  simp only [elementMentions, h.type, h.version, h.entryMention?_eq]

theorem Reading.mentions_eq (h : Reading o o') (content : Forest) :
    o'.mentions content = o.mentions content := by
  simp only [mentions, funext h.elementMentions_eq]

theorem heed_reading {m : Mention} (h : o.heed cat m = some o') : Reading o o' := by
  obtain rfl := Progress.state_of_finished? h
  exact loadSlot_reading o m.slot m.property m.element.1 m.element.2

theorem property?_of_entryMention? {slots : List Nat} {x : Tag × Forest} {m : Mention}
    (h : o.entryMention? slots x = some m) : o.type.property? m.slot = some m.property := by
  obtain ⟨-, h⟩ := Option.ite_none_right_eq_some.mp h
  obtain ⟨⟨slot, q⟩, hentry, h⟩ := Option.bind_eq_some_iff.mp h
  obtain ⟨-, h⟩ := Option.ite_none_right_eq_some.mp h
  obtain rfl := Option.some.inj h
  exact property?_of_entrySlot? hentry

theorem property?_of_mem_elementMentions {x : Tag × Forest} {m : Mention}
    (h : m ∈ o.elementMentions x) : o.type.property? m.slot = some m.property := by
  unfold elementMentions at h
  split at h
  · cases h
  · rename_i slot q hslot
    split at h
    · obtain ⟨y, -, hm⟩ := List.mem_flatMap.mp h
      exact property?_of_entryMention? (Option.mem_toList.mp hm)
    · split at h
      · obtain rfl := List.mem_singleton.mp h
        obtain ⟨n, -, hq⟩ := Option.bind_eq_some_iff.mp hslot
        obtain ⟨r, hr, heq⟩ := Option.map_eq_some_iff.mp hq
        obtain ⟨rfl, rfl⟩ := Prod.mk.inj heq
        exact hr
      · cases h

theorem property?_of_mem_mentions {m : Mention} (h : m ∈ o.mentions content) :
    o.type.property? m.slot = some m.property := by
  obtain ⟨x, -, hm⟩ := List.mem_flatMap.mp h
  exact property?_of_mem_elementMentions hm

theorem finished?_skip (content : Forest) (o : LocalCopy) :
    (content.skip o).finished? = if content.isClosed then some o else none := by
  unfold Forest.skip
  split <;> rfl

section Entry
variable {slots : List Nat} {x : Tag × Forest} {m : Mention}

theorem loadEntry_of_mention (h : o.entryMention? slots x = some m) (cat : Catalog) :
    m.element = x ∧ o.loadEntry cat slots x.1 x.2 = o.loadSlot cat m.slot m.property x.1 x.2 := by
  obtain ⟨hentry, h⟩ := Option.ite_none_right_eq_some.mp h
  obtain ⟨⟨slot, q⟩, hs, h⟩ := Option.bind_eq_some_iff.mp h
  obtain ⟨happlicable, h⟩ := Option.ite_none_right_eq_some.mp h
  obtain rfl := Option.some.inj h
  simp only [loadEntry, if_pos hentry, hs, if_pos happlicable, and_self]

theorem loadEntry_of_no_mention (h : o.entryMention? slots x = none) (cat : Catalog) :
    ∃ reports, o.loadEntry cat slots x.1 x.2 = (x.2.skip o).remarked reports := by
  unfold entryMention? at h
  unfold loadEntry
  by_cases hentry : x.1.ns = some .types ∧ x.1.name = "Entry"
  · rw [if_pos hentry] at h
    rw [if_pos hentry]
    refine ⟨[.unknownEntry (x.1.attribute? "Key") o.type.element], ?_⟩
    cases hs : o.entrySlot? slots (x.1.attribute? "Key") with
    | none => simp only [hs]
    | some r =>
      have happlicable : ¬ r.2.isApplicable o.version = true := by simpa [hs] using h
      simp only [hs, if_neg happlicable]
  · exact ⟨[], if_neg hentry⟩

end Entry

theorem loadEntry_heeds (cat : Catalog) (o : LocalCopy) (slots : List Nat) (x : Tag × Forest) :
    ∃ passes : Bool, ∀ o', Reading o o' → (o'.loadEntry cat slots x.1 x.2).finished? =
      if passes then (o.entryMention? slots x).toList.foldlM (heed cat) o' else none := by
  cases hm : o.entryMention? slots x with
  | none =>
    refine ⟨x.2.isClosed, ?_⟩
    intro o' ho
    obtain ⟨reports, hskip⟩ :=
      loadEntry_of_no_mention ((ho.entryMention?_eq slots x).trans hm) cat
    rw [hskip, Progress.finished?_remarked, finished?_skip]
    rfl
  | some m =>
    refine ⟨true, ?_⟩
    intro o' ho
    obtain ⟨rfl, hslot⟩ := loadEntry_of_mention ((ho.entryMention?_eq slots x).trans hm) cat
    simp [hslot, heed]

theorem loadElement_heeds (cat : Catalog) (o : LocalCopy) (x : Tag × Forest) :
    ∃ passes : Bool, ∀ o', Reading o o' → (o'.loadElement cat x.1 x.2).finished? =
      if passes then (o.elementMentions x).foldlM (heed cat) o' else none := by
  cases hs : (o.type.dispatch x.1.name).head?.bind fun slot =>
      (o.type.property? slot).map (slot, ·) with
  | none =>
    refine ⟨x.2.isClosed, ?_⟩
    intro o' ho
    simp only [loadElement, elementMentions, ho.type, hs, Progress.finished?_remarked,
      finished?_skip]
    rfl
  | some r =>
    obtain ⟨slot, q⟩ := r
    by_cases hkey : q.key?.isSome = true
    · obtain ⟨passes, hwalk⟩ := Forest.finished?_walk_collect (I := Reading o)
        (fun m o' o'' ho h => ho.trans (heed_reading h))
        (loadEntry_heeds cat o (o.type.dispatch x.1.name)) x.2
      refine ⟨passes, ?_⟩
      intro o' ho
      simpa only [loadElement, elementMentions, ho.type, hs, hkey, if_true] using hwalk o' ho
    · by_cases happlicable : q.isApplicable o.version = true
      · refine ⟨true, ?_⟩
        intro o' ho
        simp [loadElement, elementMentions, ho.type, ho.version, hs, hkey, happlicable, heed]
      · refine ⟨x.2.isClosed, ?_⟩
        intro o' ho
        simp only [loadElement, elementMentions, ho.type, ho.version, hs, hkey, happlicable,
          if_false, Bool.false_eq_true, Progress.finished?_remarked, finished?_skip]
        rfl

/-- Whatever the slots hold, a load reads the same elements in the same order, unless something in the
document cannot be passed over. -/
theorem walk_heeds (cat : Catalog) (o : LocalCopy) (content : Forest) :
    ∃ passes : Bool, ∀ o', Reading o o' → (content.walk (loadElement cat) o').finished? =
      if passes then (o.mentions content).foldlM (heed cat) o' else none :=
  Forest.finished?_walk_collect (fun _ _ _ ho h => ho.trans (heed_reading h))
    (loadElement_heeds cat o) content

theorem heed_eq (cat : Catalog) (o : LocalCopy) (m : Mention) : o.heed cat m =
    ((o.cell m.slot).heed cat o.session (o.link m.slot) m).map (o.put m.slot) := by
  have hread : o.withRead m.slot = fun v : Value => o.put m.slot { o.cell m.slot with
      value? := Property.store (o.link m.slot) v, loaded := true } :=
    funext fun v => withRead_eq_put o m.slot v
  have hload : o.heed cat m = _ := Progress.finished?_map (o.withRead m.slot) _
  rw [hload, hread, Cell.heed, Property.readOver, Option.map_map, Option.map_map]
  rfl

/-- Reading some elements makes of each cell what those read into its slot make of it, and cannot be
done if that of one slot cannot. -/
theorem foldlM_heed_iff (cat : Catalog) (ms : List Mention) (o o' : LocalCopy) :
    ms.foldlM (heed cat) o = some o' ↔ SameFrame o o' ∧ ∀ slot,
      (ms.filter (·.slot = slot)).foldlM (Cell.heed cat o.session (o.link slot)) (o.cell slot) =
        some (o'.cell slot) := by
  induction ms generalizing o with
  | nil =>
    constructor
    · intro h
      obtain rfl := Option.some.inj h
      exact ⟨⟨rfl, rfl, rfl, rfl, rfl⟩, fun _ => rfl⟩
    · rintro ⟨hframe, hcells⟩
      have heq := eq_of_cells hframe fun slot => (Option.some.inj (hcells slot)).symm
      exact congrArg some heq.symm
  | cons m ms ih =>
    rw [List.foldlM_cons, heed_eq]
    cases hread : (o.cell m.slot).heed cat o.session (o.link m.slot) m with
    | none =>
      constructor
      · intro h
        cases h
      · intro h
        have hslot := h.2 m.slot
        rw [List.filter_cons_of_pos (by simp), List.foldlM_cons, hread] at hslot
        cases hslot
    | some c =>
      have hframe : SameFrame (o.put m.slot c) o' ↔ SameFrame o o' :=
        ⟨fun h => ⟨h.id, h.type, h.session, h.isNew, h.watched⟩,
          fun h => ⟨h.id, h.type, h.session, h.isNew, h.watched⟩⟩
      refine (ih (o.put m.slot c)).trans (and_congr hframe (forall_congr' fun slot => ?_))
      by_cases hslot : m.slot = slot
      · subst hslot
        rw [List.filter_cons_of_pos (by simp), List.foldlM_cons, hread, cell_put_self]
        rfl
      · rw [List.filter_cons_of_neg (by simpa using hslot), cell_put_of_ne (Ne.symm hslot)]
        rfl

/-- What the elements read into a slot make of its cell. -/
structure Told (cat : Catalog) (o : LocalCopy) (ms : List Mention) (slot : Nat) (c d : Cell) :
    Prop where
  value : ∀ q, o.type.property? slot = some q →
    q.readAll cat o.session (o.link slot) (elementsOf slot ms) c.value? = some d.value?
  kept : o.type.property? slot = none → d.value? = c.value?
  flags : d = { c with value? := d.value?, loaded := c.loaded || ms.any (·.slot = slot) }

theorem told_iff {ms : List Mention} (hms : ∀ m ∈ ms, o.type.property? m.slot = some m.property)
    (cat : Catalog) (slot : Nat) (c d : Cell) :
    (ms.filter (·.slot = slot)).foldlM (Cell.heed cat o.session (o.link slot)) c = some d ↔
      Told cat o ms slot c d := by
  have hany : (!(ms.filter (·.slot = slot)).isEmpty) = ms.any (·.slot = slot) := by
    rw [Bool.eq_iff_iff, List.any_eq_true]
    simp [List.filter_eq_nil_iff]
  cases hslot : o.type.property? slot with
  | none =>
    have hempty : ms.filter (·.slot = slot) = [] := by
      apply List.filter_eq_nil_iff.mpr
      intro m hm heq
      have hproperty := hms m hm
      rw [of_decide_eq_true heq, hslot] at hproperty
      cases hproperty
    rw [hempty] at hany ⊢
    constructor
    · intro h
      obtain rfl := Option.some.inj h
      refine ⟨fun q hq => (by rw [hslot] at hq; cases hq), fun _ => rfl, ?_⟩
      rw [← hany]
      simp
    · rintro ⟨-, hkept, hflags⟩
      rw [hkept hslot, ← hany] at hflags
      simp [hflags]
  | some q =>
    have hproperty : ∀ m ∈ ms.filter (·.slot = slot), m.property = q := by
      intro m hm
      obtain ⟨hm, heq⟩ := List.mem_filter.mp hm
      have hproperty := hms m hm
      rw [of_decide_eq_true heq, hslot] at hproperty
      exact (Option.some.inj hproperty).symm
    rw [Cell.foldlM_heed hproperty, hany, Option.map_eq_some_iff]
    constructor
    · rintro ⟨w, hw, rfl⟩
      refine ⟨?_, ?_, rfl⟩
      · intro r hr
        obtain rfl := Option.some.inj (hslot.symm.trans hr)
        exact hw
      · intro hnone
        rw [hslot] at hnone
        cases hnone
    · rintro ⟨hvalue, -, hflags⟩
      exact ⟨d.value?, hvalue q hslot, hflags.symm⟩

/-- What a document makes of a copy, apart from what a load does at its end. -/
theorem foldlM_mentions_iff (cat : Catalog) (content : Forest) {o o' e : LocalCopy}
    (h : Reading o o') : (o.mentions content).foldlM (heed cat) o' = some e ↔
      SameFrame o' e ∧ ∀ slot, Told cat o (o.mentions content) slot (o'.cell slot) (e.cell slot) := by
  have hms : ∀ m ∈ o.mentions content, o.type.property? m.slot = some m.property :=
    fun m => property?_of_mem_mentions
  rw [foldlM_heed_iff, h.session]
  simp only [h.link, told_iff hms]

end LocalCopy

end ObjectTracking
