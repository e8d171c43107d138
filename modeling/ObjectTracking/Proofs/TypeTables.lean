import Mathlib.Data.List.Sort
import ObjectTracking.Proofs.ObjectType
import ObjectTracking.Proofs.WordSet
import ObjectTracking.TypeTables
/-!
The tables of an object type agree with the order in which its properties were added: each table
leads to the slots that the members themselves tell, and no look-up leaves the table of properties.
-/
set_option autoImplicit false

namespace ObjectTracking

namespace ObjectType
variable {t : ObjectType} {slot n : Nat}

theorem slotsFrom_append (c : Member → Bool) (n : Nat) (ms : List Member) (m : Member) :
    slotsFrom c n (ms ++ [m]) = slotsFrom c n ms ++ if c m then [n + ms.length] else [] := by
  induction ms generalizing n with
  | nil => simp [slotsFrom]
  | cons m' ms ih =>
    have hlength : n + 1 + ms.length = n + (m' :: ms).length := by
      rw [List.length_cons]
      omega
    simp only [List.cons_append, slotsFrom, ih, hlength]
    split <;> rfl

theorem slots_add (t : ObjectType) (c : Member → Bool) (view : View) (p : Property) :
    (t.add view p).slots c = t.slots c ++ if c ⟨view, p⟩ then [t.size] else [] := by
  rw [slots, slots, add, slotsFrom_append, Nat.zero_add, size]

theorem getLast?_eq_some_iff_of_ascending {slots : List Nat} (h : slots.Pairwise (· < ·)) :
    slots.getLast? = some n ↔ n ∈ slots ∧ ∀ k ∈ slots, k ≤ n := by
  have hlast : ∀ k, slots.getLast? = some k → ∀ i ∈ slots, i ≤ k := by
    intro k hk i hi
    obtain ⟨before, rfl⟩ := List.getLast?_eq_some_iff.mp hk
    rcases List.mem_append.mp hi with hi | hi
    · exact Nat.le_of_lt ((List.pairwise_append.mp h).2.2 i hi k (List.mem_singleton.mpr rfl))
    · exact Nat.le_of_eq (List.mem_singleton.mp hi)
  constructor
  · intro hn
    exact ⟨List.mem_of_getLast? hn, hlast n hn⟩
  · rintro ⟨hmem, hle⟩
    cases hk : slots.getLast? with
    | none =>
      rw [List.getLast?_eq_none_iff.mp hk] at hmem
      cases hmem
    | some k => rw [Nat.le_antisymm (hle k (List.mem_of_getLast? hk)) (hlast k hk n hmem)]

theorem isInView_eq_true_iff {summary : Bool} : t.isInView n summary = true ↔
    ∃ m, t.members[n]? = some m ∧ (if summary then m.inSummary else m.inFull) = true := by
  rw [isInView, List.contains_iff_mem, viewSlots, mem_slots]

end ObjectType

/-- Whether a slot is the last one whose member satisfies a condition. -/
def IsLastSlot (members : List Member) (c : Member → Prop) (slot : Nat) : Prop :=
  (∃ m, members[slot]? = some m ∧ c m) ∧ ∀ k m, members[k]? = some m → c m → k ≤ slot

theorem ObjectType.getLast?_slots_eq_some_iff {t : ObjectType} {c : Member → Bool} {slot : Nat} :
    (t.slots c).getLast? = some slot ↔ IsLastSlot t.members (c · = true) slot := by
  rw [slots, getLast?_eq_some_iff_of_ascending (slotsFrom_ascending c 0 t.members), ← slots,
    mem_slots]
  simp only [mem_slots, IsLastSlot]
  refine and_congr_right fun _ => ?_
  constructor
  · intro h k m hm hc
    exact h k ⟨m, hm, hc⟩
  · rintro h k ⟨m, hm, hc⟩
    exact h k m hm hc

namespace TypeTables
variable {t : TypeTables} {o : ObjectType} {slot n : Nat}

/-! ### Adding one property -/

/-- What the calls that add a property have in common. -/
theorem add_eq_push (t : TypeTables) (view : View) (p : Property) :
    (t.add view p).properties = (t.push p).properties ∧
      (t.add view p).byElement = (t.push p).byElement ∧
      (t.add view p).byAddress = (t.push p).byAddress := by
  cases view with
  | none => exact ⟨rfl, rfl, rfl⟩
  | full =>
    rw [add]
    split <;> exact ⟨rfl, rfl, rfl⟩
  | summary =>
    rw [add]
    split <;> exact ⟨rfl, rfl, rfl⟩
  | identity => exact ⟨rfl, rfl, rfl⟩

theorem identity?_add (t : TypeTables) (view : View) (p : Property) :
    (t.add view p).identity? = if view = .identity then some t.size else t.identity? := by
  cases view with
  | none => rfl
  | full =>
    rw [add]
    split <;> rfl
  | summary =>
    rw [add]
    split <;> rfl
  | identity => rfl

theorem isInView_add (t : TypeTables) (view : View) (p : Property) (n : Nat) (summary : Bool) :
    (t.add view p).isInView n summary = (t.isInView n summary ||
      (if summary then Member.inSummary ⟨view, p⟩ else Member.inFull ⟨view, p⟩) && n == t.size) := by
  unfold isInView TypeTables.view
  -- The four calls, with and without the flag, seen from the full view and from the summary.
  by_cases hflag : Flag.explicitLoad ∈ p.flags <;> cases view <;> cases summary <;>
    simp [add, push, withFull, withSummary, Member.inFull, Member.inSummary, hflag, Bool.or_comm]

/-! ### The tables of a type -/

/-- Whether tables are those of an object type. -/
structure Tabulates (t : TypeTables) (o : ObjectType) : Prop where
  properties : t.properties.toList = o.properties
  identity? : t.identity? = o.identity?
  view : ∀ n summary, t.isInView n summary = o.isInView n summary
  dispatch : ∀ tag, (t.dispatch? tag).getD [] = o.dispatch tag
  dispatch_ne_nil : ∀ tag, t.dispatch? tag ≠ some []
  address : ∀ a, t.byAddress.get? a = o.slotAt? a

theorem Tabulates.size (h : Tabulates t o) : t.size = o.size := by
  rw [TypeTables.size, ← Array.length_toList, h.properties, ObjectType.properties, List.length_map,
    ObjectType.size]

theorem Tabulates.add (h : Tabulates t o) (view : View) (p : Property) :
    Tabulates (t.add view p) (o.add view p) where
  properties := by
    rw [(add_eq_push t view p).1, push, Array.toList_push, h.properties, ObjectType.properties,
      ObjectType.properties, ObjectType.add, List.map_append, List.map_singleton]
  identity? := by
    rw [identity?_add, ObjectType.identity?, ObjectType.slots_add, h.identity?, h.size]
    cases view <;> simp [ObjectType.identity?]
  view n summary := by
    rw [isInView_add, h.view, h.size, ObjectType.isInView, ObjectType.isInView,
      ObjectType.viewSlots, ObjectType.viewSlots, ObjectType.slots_add, List.contains_append]
    congr 1
    generalize (if summary = true then _ else _) = inside
    cases inside with
    | false => rfl
    | true => exact (Bool.or_false _).symm
  dispatch tag := by
    have htag := h.dispatch tag
    rw [dispatch?] at htag ⊢
    rw [(add_eq_push t view p).2.1, push, KeyMap.get?_insert, ObjectType.dispatch,
      ObjectType.slots_add]
    by_cases heq : tag = p.element
    · subst heq
      rw [if_pos rfl, Option.getD_some, htag, h.size]
      simp [ObjectType.dispatch]
    · rw [if_neg heq, htag]
      simp [ObjectType.dispatch, Ne.symm heq]
  dispatch_ne_nil tag := by
    rw [dispatch?, (add_eq_push t view p).2.1, push, KeyMap.get?_insert]
    split
    · simp
    · exact h.dispatch_ne_nil tag
  address a := by
    rw [(add_eq_push t view p).2.2, push, KeyMap.get?_insert, ObjectType.slotAt?,
      ObjectType.slots_add, h.address, h.size]
    by_cases heq : a = p.address
    · subst heq
      simp
    · simp [heq, Ne.symm heq, ObjectType.slotAt?]

theorem tabulates_nil (element : String) (target : UpdateTarget) :
    Tabulates {} { element, target } where
  properties := rfl
  identity? := rfl
  view n summary := by
    rw [isInView, TypeTables.view, ite_self]
    exact (WordSet.contains_empty n).trans (by cases summary <;> rfl)
  dispatch _ := rfl
  dispatch_ne_nil _ h := by cases h
  address _ := rfl

/-- Tables that are filled member by member are those of the type with these members. -/
theorem ofMembers_tabulates (element : String) (target : UpdateTarget) (members : List Member) :
    Tabulates (ofMembers members) { element, target, members } := by
  have hfold : ∀ ms (t : TypeTables) (o : ObjectType), Tabulates t o →
      Tabulates (ms.foldl (fun t m => t.add m.view m.property) t)
        { o with members := o.members ++ ms } := by
    intro ms
    induction ms with
    | nil =>
      intro t o h
      simpa using h
    | cons m ms ih =>
      intro t o h
      have hrest := ih _ _ (h.add m.view m.property)
      rwa [ObjectType.add, List.append_assoc, List.singleton_append] at hrest
  exact hfold members {} { element, target } (tabulates_nil element target)

/-! ### What a load asks for -/

theorem inapplicable_eq_ok (version : ProtocolVersion) {slots : List Nat}
    (h : ∀ slot ∈ slots, slot < t.size) :
    t.inapplicable version slots = .ok (slots.filter fun slot =>
      !(t.property? slot).any (·.isApplicable version)) := by
  induction slots with
  | nil => rfl
  | cons slot slots ih =>
    obtain ⟨p, hp⟩ : ∃ p, t.property? slot = some p :=
      ⟨_, Array.getElem?_eq_getElem (h slot List.mem_cons_self)⟩
    have hproperty : t.property slot = .ok p := by
      rw [property?] at hp
      rw [property, hp]
    have hrest := ih fun n hn => h n (List.mem_cons_of_mem slot hn)
    rw [inapplicable, hproperty, hrest, List.filter_cons, hp, Option.any_some]
    change Except.ok (if _ then _ else _) = _
    cases p.isApplicable version <;> rfl

/-- Whether a load asks for a slot, if the version knows its property. -/
def Asks (t : TypeTables) (set : PropertySet) (summary : Bool) (n : Nat) : Prop :=
  (set.base = .view ∧ t.isInView n summary = true) ∨ t.identity? = some n ∨
    ∃ p ∈ set.additional, t.slotOf? p = some n

theorem contains_asked {set : PropertySet} {summary : Bool} :
    (t.asked set summary).contains n = true ↔ t.Asks set summary n := by
  rw [asked, WordSet.contains_foldl_insert, Bool.or_eq_true, List.contains_iff_mem,
    List.mem_append, Option.mem_toList, List.mem_filterMap, or_comm, Asks, isInView]
  refine or_congr ?_ Iff.rfl
  cases set.base <;> simp

/-- A load that asks for slots with properties only gets those that the version knows. -/
theorem requested_eq_ok {set : PropertySet} {summary : Bool} (version : ProtocolVersion)
    (h : ∀ n, t.Asks set summary n → n < t.size) :
    ∃ s, t.requested set summary version = .ok s ∧ ∀ n, s.contains n = true ↔
      t.Asks set summary n ∧ ∃ p, t.property? n = some p ∧ p.isApplicable version = true := by
  have hslots : ∀ n ∈ (t.asked set summary).toList, n < t.size := by
    intro n hn
    exact h n (contains_asked.mp (WordSet.mem_toList.mp hn))
  refine ⟨_, by rw [requested, inapplicable_eq_ok version hslots]; rfl, ?_⟩
  intro n
  rw [WordSet.contains_foldl_erase, Bool.and_eq_true, contains_asked, and_comm]
  refine and_congr_right fun hn => ?_
  obtain ⟨p, hp⟩ : ∃ p, t.property? n = some p := ⟨_, Array.getElem?_eq_getElem (h n hn)⟩
  have hmem : n ∈ (t.asked set summary).toList := WordSet.mem_toList.mpr (contains_asked.mpr hn)
  simp [hmem, hp]

/-! ### The order in which the properties were added -/

/-- Whether a slot is given by a look-up or stands in a view. -/
def Shows (t : TypeTables) (n : Nat) : Prop :=
  (∃ tag slots, t.dispatch? tag = some slots ∧ n ∈ slots) ∨ (∃ a, t.byAddress.get? a = some n) ∨
    t.identity? = some n ∨ ∃ summary, t.isInView n summary = true

/-- Whether tables lead where the members, in the order in which they were added, tell. -/
structure InOrder (t : TypeTables) (members : List Member) : Prop where
  size : t.size = members.length
  property? : ∀ n, t.property? n = (members[n]?).map Member.property
  dispatch_eq_some_iff : ∀ tag slots, t.dispatch? tag = some slots ↔
    slots ≠ [] ∧ slots.Pairwise (· < ·) ∧
      ∀ n, n ∈ slots ↔ ∃ m, members[n]? = some m ∧ m.property.element = tag
  dispatch_eq_none_iff : ∀ tag, t.dispatch? tag = none ↔ ∀ m ∈ members, m.property.element ≠ tag
  slotOf_eq_some_iff : ∀ p n, t.slotOf? p = some n ↔
    IsLastSlot members (·.property.address = p.address) n
  identity_eq_some_iff : ∀ n, t.identity? = some n ↔ IsLastSlot members (·.view = .identity) n
  isInView_iff : ∀ n summary, t.isInView n summary = true ↔
    ∃ m, members[n]? = some m ∧ (if summary then m.inSummary else m.inFull) = true
  full_of_summary : ∀ n, t.isInView n true = true → t.isInView n false = true
  identity_of_explicitLoad : ∀ n summary m, t.isInView n summary = true →
    members[n]? = some m → Flag.explicitLoad ∈ m.property.flags → m.view = .identity
  lt_size : ∀ n, t.Shows n → n < t.size
  requested : ∀ set summary version, ∃ s, t.requested set summary version = .ok s ∧
    ∀ n, s.contains n = true ↔
      ((set.base = .view ∧ t.isInView n summary = true) ∨
        IsLastSlot members (·.view = .identity) n ∨
        ∃ p ∈ set.additional, t.slotOf? p = some n) ∧
      ∃ m, members[n]? = some m ∧ m.property.isApplicable version = true

theorem Tabulates.property? (h : Tabulates t o) (n : Nat) :
    t.property? n = (o.members[n]?).map Member.property := by
  rw [TypeTables.property?, ← Array.getElem?_toList, h.properties, ObjectType.properties,
    List.getElem?_map]

theorem Tabulates.isInView_iff (h : Tabulates t o) {summary : Bool} : t.isInView n summary = true ↔
    ∃ m, o.members[n]? = some m ∧ (if summary then m.inSummary else m.inFull) = true := by
  rw [h.view, ObjectType.isInView_eq_true_iff]

theorem Tabulates.dispatch_eq_some_iff (h : Tabulates t o) {tag : String} {slots : List Nat} :
    t.dispatch? tag = some slots ↔ slots ≠ [] ∧ o.dispatch tag = slots := by
  have htag := h.dispatch tag
  constructor
  · intro hslots
    refine ⟨fun hnil => h.dispatch_ne_nil tag (hnil ▸ hslots), ?_⟩
    rw [← htag, hslots, Option.getD_some]
  · rintro ⟨hne, rfl⟩
    cases hslots : t.dispatch? tag with
    | none =>
      rw [hslots] at htag
      exact absurd htag.symm hne
    | some found => rw [← htag, hslots, Option.getD_some]

theorem Tabulates.dispatch_eq_none_iff (h : Tabulates t o) {tag : String} :
    t.dispatch? tag = none ↔ o.dispatch tag = [] := by
  rw [Option.eq_none_iff_forall_ne_some]
  constructor
  · intro hnone
    by_contra hne
    exact hnone _ (h.dispatch_eq_some_iff.mpr ⟨hne, rfl⟩)
  · intro hnil slots hslots
    obtain ⟨hne, rfl⟩ := h.dispatch_eq_some_iff.mp hslots
    exact hne hnil

theorem mem_dispatch_iff {tag : String} : n ∈ o.dispatch tag ↔
    ∃ m, o.members[n]? = some m ∧ m.property.element = tag := by
  rw [ObjectType.dispatch, ObjectType.mem_slots]
  simp only [beq_iff_eq]

theorem dispatch_eq_iff {tag : String} {slots : List Nat} : o.dispatch tag = slots ↔
    slots.Pairwise (· < ·) ∧
      ∀ n, n ∈ slots ↔ ∃ m, o.members[n]? = some m ∧ m.property.element = tag := by
  constructor
  · rintro rfl
    exact ⟨o.dispatch_ascending tag, fun n => mem_dispatch_iff⟩
  · rintro ⟨hascending, hmem⟩
    refine (o.dispatch_ascending tag).eq_of_mem_iff hascending ?_
    intro n
    rw [mem_dispatch_iff, hmem n]

theorem dispatch_eq_nil_iff {tag : String} :
    o.dispatch tag = [] ↔ ∀ m ∈ o.members, m.property.element ≠ tag := by
  rw [List.eq_nil_iff_forall_not_mem]
  constructor
  · intro hnone m hm htag
    obtain ⟨n, hn⟩ := List.getElem?_of_mem hm
    exact hnone n (mem_dispatch_iff.mpr ⟨m, hn, htag⟩)
  · intro hne n hn
    obtain ⟨m, hm, htag⟩ := mem_dispatch_iff.mp hn
    exact hne m (List.mem_of_getElem? hm) htag

theorem Tabulates.slotOf_eq_some_iff (h : Tabulates t o) {p : Property} :
    t.slotOf? p = some n ↔ IsLastSlot o.members (·.property.address = p.address) n := by
  rw [slotOf?, h.address, ObjectType.slotAt?, ObjectType.getLast?_slots_eq_some_iff]
  simp only [beq_iff_eq]

theorem Tabulates.identity_eq_some_iff (h : Tabulates t o) :
    t.identity? = some n ↔ IsLastSlot o.members (·.view = .identity) n := by
  rw [h.identity?, ObjectType.identity?, ObjectType.getLast?_slots_eq_some_iff]
  simp only [beq_iff_eq]

theorem inFull_of_inSummary {m : Member} (h : m.inSummary = true) : m.inFull = true := by
  obtain ⟨view, p⟩ := m
  cases view <;> simp_all [Member.inSummary, Member.inFull]

theorem view_eq_identity {m : Member} {summary : Bool}
    (h : (if summary then m.inSummary else m.inFull) = true)
    (hflag : Flag.explicitLoad ∈ m.property.flags) : m.view = .identity := by
  obtain ⟨view, p⟩ := m
  cases view <;> cases summary <;> simp_all [Member.inSummary, Member.inFull]

theorem Tabulates.lt_size (h : Tabulates t o) (hn : t.Shows n) : n < t.size := by
  have hmember : ∀ m, o.members[n]? = some m → n < t.size := by
    intro m hm
    rw [h.size]
    exact (List.getElem?_eq_some_iff.mp hm).1
  have hlast : ∀ c : Member → Prop, IsLastSlot o.members c n → n < t.size := by
    rintro c ⟨⟨m, hm, _⟩, _⟩
    exact hmember m hm
  rcases hn with ⟨tag, slots, hslots, hn⟩ | ⟨a, ha⟩ | hidentity | ⟨summary, hview⟩
  · obtain ⟨_, rfl⟩ := h.dispatch_eq_some_iff.mp hslots
    obtain ⟨m, hm, _⟩ := mem_dispatch_iff.mp hn
    exact hmember m hm
  · rw [h.address, ObjectType.slotAt?, ObjectType.getLast?_slots_eq_some_iff] at ha
    exact hlast _ ha
  · exact hlast _ (h.identity_eq_some_iff.mp hidentity)
  · obtain ⟨m, hm, _⟩ := h.isInView_iff.mp hview
    exact hmember m hm

theorem Shows.of_asks {set : PropertySet} {summary : Bool} (h : t.Asks set summary n) :
    t.Shows n := by
  rcases h with ⟨_, hview⟩ | hidentity | ⟨p, _, hp⟩
  · exact .inr (.inr (.inr ⟨summary, hview⟩))
  · exact .inr (.inr (.inl hidentity))
  · exact .inr (.inl ⟨p.address, hp⟩)

/-- The tables of a type ask for the slots that the type itself does. -/
theorem Tabulates.requested (h : Tabulates t o) (set : PropertySet) (summary : Bool)
    (version : ProtocolVersion) : ∃ s, t.requested set summary version = .ok s ∧
      ∀ n, s.contains n = (o.requested set summary version).contains n := by
  obtain ⟨s, hs, hmem⟩ := requested_eq_ok version fun n hn => h.lt_size (.of_asks hn)
  refine ⟨s, hs, fun n => ?_⟩
  have hslotOf : t.slotOf? = o.slotOf? := funext fun p => h.address p.address
  have happlicable : (∃ p, t.property? n = some p ∧ p.isApplicable version = true) ↔
      o.isApplicable version n = true := by
    rw [h.property?, ObjectType.isApplicable, ObjectType.property?, ObjectType.properties,
      List.getElem?_map, Option.any_eq_true]
  rw [Bool.eq_iff_iff, hmem n, happlicable, ObjectType.requested, SlotSet.contains_ofList,
    List.contains_iff_mem, List.mem_filter, List.append_assoc, List.mem_append, List.mem_append,
    Option.mem_toList, List.mem_filterMap, Asks, h.view, h.identity?, hslotOf]
  refine and_congr_left fun _ => or_congr ?_ Iff.rfl
  cases set.base with
  | identity => simp
  | view => simp [ObjectType.isInView]

/-- The tables of an object type agree with the order in which its properties were added, whatever
the properties are and however often one is added. -/
theorem ofMembers_inOrder (members : List Member) : InOrder (ofMembers members) members := by
  have h := ofMembers_tabulates "" .item members
  exact {
    size := h.size
    property? := h.property?
    dispatch_eq_some_iff := fun tag slots => by
      rw [h.dispatch_eq_some_iff, dispatch_eq_iff]
    dispatch_eq_none_iff := fun tag => by
      rw [h.dispatch_eq_none_iff, dispatch_eq_nil_iff]
    slotOf_eq_some_iff := fun p n => h.slotOf_eq_some_iff
    identity_eq_some_iff := fun n => h.identity_eq_some_iff
    isInView_iff := fun n summary => h.isInView_iff
    full_of_summary := fun n hn => by
      obtain ⟨m, hm, hin⟩ := h.isInView_iff.mp hn
      exact h.isInView_iff.mpr ⟨m, hm, inFull_of_inSummary hin⟩
    identity_of_explicitLoad := fun n summary m hn hm hflag => by
      obtain ⟨m', hm', hin⟩ := h.isInView_iff.mp hn
      obtain rfl : m = m' := Option.some.inj (hm.symm.trans hm')
      exact view_eq_identity hin hflag
    lt_size := fun n hn => h.lt_size hn
    requested := fun set summary version => by
      obtain ⟨s, hs, hmem⟩ := requested_eq_ok version fun n hn => h.lt_size (.of_asks hn)
      refine ⟨s, hs, fun n => ?_⟩
      rw [hmem n, Asks, h.identity_eq_some_iff, h.property?]
      simp }

end TypeTables

end ObjectTracking
