import ObjectTracking.ObjectType
/-!
The slots of an object type, by what the members in them satisfy.
-/
set_option autoImplicit false

namespace ObjectTracking.ObjectType
variable {t : ObjectType} {p q : Property} {slot n : Nat}

theorem property?_eq_some_iff :
    t.property? slot = some q ↔ ∃ m, t.members[slot]? = some m ∧ m.property = q := by
  simp [property?, properties]

theorem mem_properties (hq : t.property? slot = some q) : q ∈ t.properties :=
  List.mem_of_getElem? hq

theorem pairwise_property? {R : Property → Property → Prop} (h : t.properties.Pairwise R)
    (hp : t.property? slot = some p) (hq : t.property? n = some q) : slot = n ∨ R p q ∨ R q p := by
  have hpairs := List.pairwise_iff_getElem.mp h
  obtain ⟨hslot, rfl⟩ := List.getElem?_eq_some_iff.mp hp
  obtain ⟨hn, rfl⟩ := List.getElem?_eq_some_iff.mp hq
  rcases Nat.lt_trichotomy slot n with hlt | heq | hgt
  · exact .inr (.inl (hpairs slot n hslot hn hlt))
  · exact .inl heq
  · exact .inr (.inr (hpairs n slot hn hslot hgt))

theorem mem_slotsFrom {c : Member → Bool} {n : Nat} {ms : List Member} :
    slot ∈ slotsFrom c n ms ↔ ∃ i m, ms[i]? = some m ∧ c m = true ∧ slot = n + i := by
  induction ms generalizing n with
  | nil => simp [slotsFrom]
  | cons m ms ih =>
    have hrest : slot ∈ slotsFrom c (n + 1) ms ↔
        ∃ i m', (m :: ms)[i + 1]? = some m' ∧ c m' = true ∧ slot = n + (i + 1) := by
      rw [ih]
      simp only [List.getElem?_cons_succ, Nat.add_assoc, Nat.add_comm 1]
    have hsplit : (∃ i m', (m :: ms)[i]? = some m' ∧ c m' = true ∧ slot = n + i) ↔
        (c m = true ∧ slot = n) ∨
          ∃ i m', (m :: ms)[i + 1]? = some m' ∧ c m' = true ∧ slot = n + (i + 1) := by
      constructor
      · rintro ⟨i, m', hi, hc, hslot⟩
        cases i with
        | zero =>
          obtain rfl : m = m' := by simpa using hi
          exact .inl ⟨hc, hslot⟩
        | succ i => exact .inr ⟨i, m', hi, hc, hslot⟩
      · rintro (⟨hc, hslot⟩ | ⟨i, m', h⟩)
        · exact ⟨0, m, rfl, hc, hslot⟩
        · exact ⟨i + 1, m', h⟩
    rw [hsplit, ← hrest, slotsFrom]
    split
    · rename_i hc
      simp [hc]
    · rename_i hc
      simp [hc]

theorem mem_slots {c : Member → Bool} :
    slot ∈ t.slots c ↔ ∃ m, t.members[slot]? = some m ∧ c m = true := by
  simp only [slots, mem_slotsFrom, Nat.zero_add]
  constructor
  · rintro ⟨i, m, hm, hc, rfl⟩
    exact ⟨m, hm, hc⟩
  · rintro ⟨m, hm, hc⟩
    exact ⟨slot, m, hm, hc, rfl⟩

theorem slotsFrom_ascending (c : Member → Bool) (n : Nat) (ms : List Member) :
    (slotsFrom c n ms).Pairwise (· < ·) := by
  induction ms generalizing n with
  | nil => exact .nil
  | cons m ms ih =>
    rw [slotsFrom]
    split
    · refine List.pairwise_cons.mpr ⟨?_, ih (n + 1)⟩
      intro slot hslot
      obtain ⟨i, _, _, _, rfl⟩ := mem_slotsFrom.mp hslot
      omega
    · exact ih (n + 1)

theorem dispatch_ascending (t : ObjectType) (element : String) :
    (t.dispatch element).Pairwise (· < ·) := slotsFrom_ascending _ 0 t.members

theorem dispatch_nodup (t : ObjectType) (element : String) : (t.dispatch element).Nodup :=
  (t.dispatch_ascending element).imp Nat.ne_of_lt

theorem mem_dispatch {element : String} :
    slot ∈ t.dispatch element ↔ ∃ q, t.property? slot = some q ∧ q.element = element := by
  simp only [dispatch, mem_slots, property?_eq_some_iff, beq_iff_eq]
  constructor
  · rintro ⟨m, hm, helement⟩
    exact ⟨m.property, ⟨m, hm, rfl⟩, helement⟩
  · rintro ⟨q, ⟨m, hm, rfl⟩, helement⟩
    exact ⟨m, hm, helement⟩

/-- The property in the slot of another has the same address, so it is found there itself. -/
theorem slotOf?_property (h : t.slotOf? p = some slot) (hq : t.property? slot = some q) :
    t.slotOf? q = some slot := by
  have hmem : slot ∈ t.slots (·.property.address == p.address) := List.mem_of_getLast? h
  obtain ⟨m, hm, haddress⟩ := mem_slots.mp hmem
  obtain ⟨m', hm', rfl⟩ := property?_eq_some_iff.mp hq
  obtain rfl : m = m' := Option.some.inj (hm.symm.trans hm')
  rw [beq_iff_eq] at haddress
  rw [slotOf?, haddress]
  exact h

theorem slotOf?_eq_some (h : t.slotOf? p = some slot) :
    ∃ q, t.property? slot = some q ∧ q.address = p.address := by
  obtain ⟨m, hm, haddress⟩ := mem_slots.mp (List.mem_of_getLast? h)
  exact ⟨m.property, property?_eq_some_iff.mpr ⟨m, hm, rfl⟩, beq_iff_eq.mp haddress⟩

/-- Among properties with different addresses, each is found in its own slot. -/
theorem slotOf?_of_nodup (h : (t.properties.map Property.address).Nodup)
    (hq : t.property? slot = some q) : t.slotOf? q = some slot := by
  obtain ⟨m, hm, rfl⟩ := property?_eq_some_iff.mp hq
  have hmem : slot ∈ t.slots (·.property.address == m.property.address) :=
    mem_slots.mpr ⟨m, hm, beq_self_eq_true _⟩
  cases hlast : t.slotOf? m.property with
  | none =>
    rw [List.getLast?_eq_none_iff.mp hlast] at hmem
    cases hmem
  | some n =>
    obtain ⟨r, hr, haddress⟩ := slotOf?_eq_some hlast
    rcases pairwise_property? (List.pairwise_map.mp h) hr hq with heq | hne | hne
    · rw [heq]
    · exact absurd haddress hne
    · exact absurd haddress.symm hne

end ObjectTracking.ObjectType
