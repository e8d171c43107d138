import ObjectTracking.LocalCopy.Load
import ObjectTracking.Proofs.ObjectType
/-!
Which slot an element is read into. An element leads to the first property that it is the element of,
so it leads to every property only if no two of them share it, or if they are entries of a
dictionary, which are told apart by their keys.
-/
set_option autoImplicit false

namespace ObjectTracking
open Markup

namespace ObjectType
variable {t : ObjectType} {p q : Property} {slot n : Nat}

/-- Properties that share an element are entries of a dictionary. -/
def SharesEntries (t : ObjectType) : Prop :=
  t.properties.Pairwise fun p q => p.element = q.element →
    p.key?.isSome = true ∧ q.key?.isSome = true

/-- Properties that share an element are entries of a dictionary with different keys. -/
def TellsEntries (t : ObjectType) : Prop :=
  t.properties.Pairwise fun p q => p.element = q.element →
    p.key?.isSome = true ∧ q.key?.isSome = true ∧ p.key? ≠ q.key?

theorem TellsEntries.sharesEntries (ht : t.TellsEntries) : t.SharesEntries :=
  ht.imp fun hkeys helement => ⟨(hkeys helement).1, (hkeys helement).2.1⟩

theorem TellsEntries.same_element (ht : t.TellsEntries) (hp : t.property? slot = some p)
    (hq : t.property? n = some q) (helement : p.element = q.element) :
    slot = n ∨ p.key?.isSome = true ∧ q.key?.isSome = true ∧ p.key? ≠ q.key? := by
  rcases pairwise_property? ht hp hq with heq | hkeys | hkeys
  · exact .inl heq
  · exact .inr (hkeys helement)
  · obtain ⟨hq, hp, hne⟩ := hkeys helement.symm
    exact .inr ⟨hp, hq, hne.symm⟩

theorem SharesEntries.same_element (ht : t.SharesEntries) (hp : t.property? slot = some p)
    (hq : t.property? n = some q) (helement : p.element = q.element) :
    slot = n ∨ p.key?.isSome = true ∧ q.key?.isSome = true := by
  rcases pairwise_property? ht hp hq with heq | hkeys | hkeys
  · exact .inl heq
  · exact .inr (hkeys helement)
  · exact .inr (hkeys helement.symm).symm

theorem SharesEntries.key?_of_element (ht : t.SharesEntries) (hq : t.property? slot = some q)
    (hp : t.property? n = some p) (helement : p.element = q.element) (hkey : q.key?.isSome = true) :
    p.key?.isSome = true := by
  rcases ht.same_element hq hp helement.symm with rfl | ⟨-, hsome⟩
  · rwa [← Option.some.inj (hq.symm.trans hp)]
  · exact hsome

/-- The element of a property outside dictionaries is its own. -/
theorem SharesEntries.slot_unique (ht : t.SharesEntries) (hq : t.property? slot = some q)
    (hkey : q.key? = none) (hp : t.property? n = some p) (helement : p.element = q.element) :
    n = slot := by
  rcases ht.same_element hp hq helement with heq | ⟨-, hsome⟩
  · exact heq
  · simp [hkey] at hsome

theorem head?_dispatch (hq : t.property? slot = some q) :
    ∃ n r, (t.dispatch q.element).head? = some n ∧ t.property? n = some r ∧
      r.element = q.element := by
  have hmem : slot ∈ t.dispatch q.element := mem_dispatch.mpr ⟨q, hq, rfl⟩
  cases hslots : t.dispatch q.element with
  | nil => simp [hslots] at hmem
  | cons n slots =>
    obtain ⟨r, hr, helement⟩ := mem_dispatch.mp (hslots ▸ List.mem_cons_self)
    exact ⟨n, r, rfl, hr, helement⟩

theorem dispatch_eq_nil {element : String} (h : ∀ q ∈ t.properties, q.element ≠ element) :
    t.dispatch element = [] := by
  apply List.eq_nil_iff_forall_not_mem.mpr
  intro slot hslot
  obtain ⟨q, hq, helement⟩ := mem_dispatch.mp hslot
  exact h q (mem_properties hq) helement

/-- An element is no property's, that of one property, or a dictionary. -/
theorem element_cases (t : ObjectType) (element : String) :
    (∀ q ∈ t.properties, q.element ≠ element) ∨ ∃ slot q, t.property? slot = some q ∧
      element = q.element ∧ (q.key? = none ∨ q.key?.isSome = true) := by
  by_cases h : ∃ q ∈ t.properties, q.element = element
  · right
    obtain ⟨q, hq, rfl⟩ := h
    obtain ⟨slot, hslot⟩ := List.getElem?_of_mem hq
    refine ⟨slot, q, hslot, rfl, ?_⟩
    cases q.key? with
    | none => exact .inl rfl
    | some key => exact .inr rfl
  · left
    intro q hq helement
    exact h ⟨q, hq, helement⟩

end ObjectType

namespace LocalCopy
variable {cat : Catalog} {o : LocalCopy} {q : Property} {slot : Nat} {tag : Tag} {content : Forest}

theorem loadElement_of_unknown (h : ∀ q ∈ o.type.properties, q.element ≠ tag.name) :
    o.loadElement cat tag content =
      (content.skip o).remarked [.unknownElement tag.name o.type.element] := by
  simp [loadElement, ObjectType.dispatch_eq_nil h]

theorem loadElement_of_plain (ht : o.type.SharesEntries) (hq : o.type.property? slot = some q)
    (hkey : q.key? = none) (htag : tag.name = q.element) :
    o.loadElement cat tag content =
      if q.isApplicable o.version then o.loadSlot cat slot q tag content
      else (content.skip o).remarked [.unsupportedElement tag.name q.since o.version] := by
  obtain ⟨n, r, hhead, hr, helement⟩ := ObjectType.head?_dispatch hq
  obtain rfl := ht.slot_unique hq hkey hr helement
  simp [loadElement, htag, hhead, hq, hkey]

theorem loadElement_of_dictionary (ht : o.type.SharesEntries)
    (hq : o.type.property? slot = some q) (hkey : q.key?.isSome = true)
    (htag : tag.name = q.element) : o.loadElement cat tag content =
      content.walk (loadEntry cat (o.type.dispatch q.element)) o := by
  obtain ⟨n, r, hhead, hr, helement⟩ := ObjectType.head?_dispatch hq
  have hsome := ht.key?_of_element hq hr helement hkey
  simp [loadElement, htag, hhead, hr, hsome]

theorem of_entrySlot?_eq_some {element : String} {key : Option String}
    (h : o.entrySlot? (o.type.dispatch element) key = some (slot, q)) :
    o.type.property? slot = some q ∧ q.element = element ∧ q.key? = key := by
  obtain ⟨n, hn, hentry⟩ := List.exists_of_findSome?_eq_some h
  obtain ⟨r, hr, helement⟩ := ObjectType.mem_dispatch.mp hn
  simp only [hr, Option.bind_some, Option.ite_none_right_eq_some, Option.some.injEq,
    Prod.mk.injEq] at hentry
  obtain ⟨hkey, rfl, rfl⟩ := hentry
  exact ⟨hr, helement, hkey⟩

/-- Of several entries with a key, the first one is found. -/
theorem entrySlot?_of_first (hq : o.type.property? slot = some q)
    (hfirst : ∀ n < slot, ∀ p, o.type.property? n = some p → p.element = q.element →
      p.key? ≠ q.key?) :
    o.entrySlot? (o.type.dispatch q.element) q.key? = some (slot, q) := by
  obtain ⟨before, after, hslots⟩ :=
    List.append_of_mem (ObjectType.mem_dispatch.mpr ⟨q, hq, rfl⟩)
  have hlt : ∀ n ∈ before, n < slot := by
    have hascending := o.type.dispatch_ascending q.element
    rw [hslots] at hascending
    intro n hn
    exact (List.pairwise_append.mp hascending).2.2 n hn slot List.mem_cons_self
  have hbefore : o.entrySlot? before q.key? = none := by
    apply List.findSome?_eq_none_iff.mpr
    intro n hn
    have hmem : n ∈ o.type.dispatch q.element := by
      rw [hslots]
      exact List.mem_append_left _ hn
    obtain ⟨p, hp, helement⟩ := ObjectType.mem_dispatch.mp hmem
    simp [hp, hfirst n (hlt n hn) p hp helement]
  unfold entrySlot? at hbefore ⊢
  rw [hslots, List.findSome?_append, hbefore]
  simp [hq]

theorem entrySlot?_of_key (ht : o.type.TellsEntries) (hq : o.type.property? slot = some q) :
    o.entrySlot? (o.type.dispatch q.element) q.key? = some (slot, q) := by
  apply entrySlot?_of_first hq
  intro n hn p hp helement
  rcases ht.same_element hp hq helement with rfl | ⟨-, -, hne⟩
  · exact absurd hn (Nat.lt_irrefl n)
  · exact hne

/-- What stands in a dictionary is an entry with a key or passed over. -/
theorem loadEntry_of_entrySlot? {slots : List Nat} (hns : tag.ns = some .types)
    (hname : tag.name = "Entry")
    (hentry : o.entrySlot? slots (tag.attribute? "Key") = some (slot, q))
    (happlicable : q.isApplicable o.version = true) :
    o.loadEntry cat slots tag content = o.loadSlot cat slot q tag content := by
  simp [loadEntry, hns, hname, hentry, happlicable]

end LocalCopy

end ObjectTracking
