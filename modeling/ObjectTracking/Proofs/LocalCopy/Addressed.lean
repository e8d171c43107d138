import ObjectTracking.Proofs.LocalCopy.Gates
import ObjectTracking.Proofs.LocalCopy.Made
import ObjectTracking.Proofs.LocalCopy.Written
/-!
What the operations of an update are addressed to. An address is the URI of a property and an index,
and the index is the key of an entry or the position of an item. The operations of one update differ
in their addresses, up to items that are appended to the same property, exactly if no position takes
the place of a key.
-/
set_option autoImplicit false

namespace ObjectTracking
open Markup

namespace UpdateOp
variable {op op' : UpdateOp} {n m : Nat}

def positionIndex (n : Nat) : String := String.ofList (Text.digits n)

theorem positionIndex_injective (h : positionIndex n = positionIndex m) : n = m := by
  have hdigits : Text.digits n = Text.digits m := String.ofList_injective h
  rw [← Text.number_digits n, hdigits, Text.number_digits]

theorem index?_of_position (h : op.position? = some n) : op.index? = some (positionIndex n) := by
  simp [index?, h, positionIndex]

theorem index?_of_whole (h : op.position? = none) : op.index? = op.property.key? := by
  simp [index?, h]

def fieldAddress (uri : String) : Option String → Encoding
  | none => .element .types "FieldURI" (.call (.attr "FieldURI" uri))
  | some index =>
    .element .types "IndexedFieldURI"
      (.call (.attr "FieldURI" uri) ++ .call (.attr "FieldIndex" index))

theorem encodeAddress_eq (op : UpdateOp) :
    op.encodeAddress = fieldAddress op.property.uri op.index? := by
  unfold encodeAddress
  cases op.index? <;> rfl

/-- The URI and the index can be told from the address. -/
theorem fieldAddress_inj {uri uri' : String} {index index' : Option String} :
    fieldAddress uri index = fieldAddress uri' index' ↔ uri = uri' ∧ index = index' := by
  have hplain (uri : String) : fieldAddress uri none =
      ⟨[.call (.opening .types "FieldURI"), .call (.attr "FieldURI" uri), .call .closing], none⟩ :=
    rfl
  have hindexed (uri index : String) : fieldAddress uri (some index) =
      ⟨[.call (.opening .types "IndexedFieldURI"), .call (.attr "FieldURI" uri),
        .call (.attr "FieldIndex" index), .call .closing], none⟩ := rfl
  cases index <;> cases index' <;> simp [hplain, hindexed]

end UpdateOp

namespace LocalCopy
variable {cat : Catalog} {o o' : LocalCopy} {q : Property} {slot : Nat}

/-- The operations of an update differ in their addresses, up to items that are appended to the same
property, and the address of an entry names its key. -/
structure Addressed (o : LocalCopy) : Prop where
  apart : o.payload.Pairwise fun op op' => op.encodeAddress = op'.encodeAddress →
    op.kind = .append ∧ op'.kind = .append ∧ op.property = op'.property
  keyed : ∀ op ∈ o.payload, ∀ key, op.property.key? = some key →
    op.encodeAddress = UpdateOp.fieldAddress op.property.uri (some key)

/-- No position of an item takes the place of a key: neither of the property's own, nor of that of
another operation. -/
def LeavesKeys (o : LocalCopy) : Prop :=
  ∀ op ∈ o.payload, ∀ n, op.position? = some n →
    (∀ key, op.property.key? = some key → key = UpdateOp.positionIndex n) ∧
      ∀ op' ∈ o.payload, op'.property.uri = op.property.uri →
        op'.property.key? = some (UpdateOp.positionIndex n) →
          op'.property = op.property ∧ op'.position? = some n

theorem kind_eq_append_iff {op : UpdateOp} : op.kind = .append ↔ ∃ p item, op = .append p item := by
  cases op <;> simp [UpdateOp.kind]

/-- The operations for the items of a collection are told apart by their positions, as far as they
have any. -/
theorem itemOps_apart {c : Collection} (hc : c.Consistent) :
    (itemOps q c).Pairwise fun op op' => op.position? = op'.position? →
      op.kind = .append ∧ op'.kind = .append := by
  obtain ⟨base, hc⟩ := hc
  unfold itemOps
  refine List.pairwise_append.mpr ⟨List.pairwise_append.mpr ⟨?_, ?_, ?_⟩, ?_, ?_⟩
  · exact List.pairwise_map.mpr (List.pairwise_of_forall fun _ _ _ => ⟨rfl, rfl⟩)
  · refine List.pairwise_map.mpr (hc.removedPositions_ascending.imp ?_)
    intro n m hlt heq
    exact absurd (Option.some.inj heq) (Nat.ne_of_lt hlt)
  · simp only [List.forall_mem_map]
    rintro _ _ _ _ ⟨⟩
  · refine List.pairwise_map.mpr ((List.pairwise_map.mp hc.modified_ascending).imp ?_)
    intro x y hlt heq
    exact absurd (Option.some.inj heq) (Nat.ne_of_lt hlt)
  · intro op hop op' hop' heq
    obtain ⟨⟨m, item⟩, hm, rfl⟩ := List.mem_map.mp hop'
    rcases List.mem_append.mp hop with hop | hop
    · obtain ⟨_, -, rfl⟩ := List.mem_map.mp hop
      cases heq
    · obtain ⟨n, hn, rfl⟩ := List.mem_map.mp hop
      obtain rfl : n = m := Option.some.inj heq
      exact absurd (List.mem_map_of_mem (f := Prod.fst) hm) (hc.disjoint hn)

theorem slotOps_apart (ho : Tracked o) (slot : Nat) (q : Property) :
    (o.slotOps slot q).Pairwise fun op op' => op.position? = op'.position? →
      op.kind = .append ∧ op'.kind = .append := by
  unfold slotOps
  split
  · exact .nil
  · split
    · exact List.pairwise_singleton _ _
    · split
      · exact .nil
      · split
        · exact .nil
        · rename_i c hc
          split
          · exact itemOps_apart (ho slot c hc)
          · split
            · exact List.pairwise_singleton _ _
            · exact List.pairwise_singleton _ _
        · exact List.pairwise_singleton _ _

/-- Operations for different slots belong to properties with different addresses. -/
theorem payload_apart (hdistinct : (o.type.properties.map Property.address).Nodup)
    (ho : Tracked o) : o.payload.Pairwise fun op op' =>
      op.property.address ≠ op'.property.address ∨
        op.property = op'.property ∧
          (op.position? = op'.position? → op.kind = .append ∧ op'.kind = .append) := by
  refine List.pairwise_flatMap.mpr ⟨?_, ?_⟩
  · rintro ⟨q, slot⟩ -
    refine (slotOps_apart ho slot q).imp_of_mem ?_
    intro op op' hop hop' happend
    exact .inr ⟨(property_of_mem_slotOps hop).trans (property_of_mem_slotOps hop').symm, happend⟩
  · have hpairs : (o.type.properties.zipIdx.map Prod.fst).Pairwise fun p q =>
        p.address ≠ q.address := by
      rw [List.zipIdx_map_fst]
      exact List.pairwise_map.mp hdistinct
    refine (List.pairwise_map.mp hpairs).imp ?_
    rintro ⟨p, n⟩ ⟨q, m⟩ hne op hop op' hop'
    rw [property_of_mem_slotOps hop, property_of_mem_slotOps hop']
    exact .inl hne

section Keys
variable {op op' : UpdateOp}

theorem Addressed.unique (h : o.Addressed) (hop : op ∈ o.payload) (hop' : op' ∈ o.payload)
    (haddress : op.encodeAddress = op'.encodeAddress) (hkind : op.kind ≠ .append) : op' = op := by
  have hpairs := List.pairwise_iff_getElem.mp h.apart
  obtain ⟨i, hi, rfl⟩ := List.getElem_of_mem hop
  obtain ⟨j, hj, rfl⟩ := List.getElem_of_mem hop'
  rcases Nat.lt_trichotomy i j with hlt | rfl | hgt
  · exact absurd (hpairs i j hi hj hlt haddress).1 hkind
  · rfl
  · exact absurd (hpairs j i hj hi hgt haddress.symm).2.1 hkind

theorem Addressed.index?_eq {key : String} (h : o.Addressed) (hop : op ∈ o.payload)
    (hkey : op.property.key? = some key) : op.index? = some key := by
  have hkeyed := h.keyed op hop key hkey
  rw [UpdateOp.encodeAddress_eq, UpdateOp.fieldAddress_inj] at hkeyed
  exact hkeyed.2

theorem LeavesKeys.position?_eq (h : o.LeavesKeys) (hop : op ∈ o.payload) (hop' : op' ∈ o.payload)
    (huri : op.property.uri = op'.property.uri) (hindex : op.index? = op'.index?) :
    op.position? = op'.position? := by
  cases hn : op.position? with
  | none =>
    cases hm : op'.position? with
    | none => rfl
    | some m =>
      rw [UpdateOp.index?_of_whole hn, UpdateOp.index?_of_position hm] at hindex
      exact hn.symm.trans ((h op' hop' m hm).2 op hop huri hindex).2
  | some n =>
    rw [UpdateOp.index?_of_position hn] at hindex
    cases hm : op'.position? with
    | none =>
      rw [UpdateOp.index?_of_whole hm] at hindex
      exact ((h op hop n hn).2 op' hop' huri.symm hindex.symm).2.symm.trans hm
    | some m =>
      rw [UpdateOp.index?_of_position hm] at hindex
      rw [UpdateOp.positionIndex_injective (Option.some.inj hindex)]

theorem LeavesKeys.address_eq (h : o.LeavesKeys) (hop : op ∈ o.payload) (hop' : op' ∈ o.payload)
    (huri : op.property.uri = op'.property.uri) (hindex : op.index? = op'.index?) :
    op.property.address = op'.property.address := by
  have hposition := h.position?_eq hop hop' huri hindex
  have hkeys : op.property.key? = op'.property.key? → op.property.address = op'.property.address :=
    fun hkey => congrArg₂ Address.mk huri hkey
  cases hn : op.position? with
  | none =>
    rw [UpdateOp.index?_of_whole hn, UpdateOp.index?_of_whole (hposition.symm.trans hn)] at hindex
    exact hkeys hindex
  | some n =>
    have hm := hposition.symm.trans hn
    -- one key is the position, so the other operation must not be of another property
    cases hkey : op.property.key? with
    | some key =>
      obtain rfl := (h op hop n hn).1 key hkey
      rw [((h op' hop' n hm).2 op hop huri hkey).1]
    | none =>
      cases hkey' : op'.property.key? with
      | none => exact hkeys (hkey.trans hkey'.symm)
      | some key =>
        obtain rfl := (h op' hop' n hm).1 key hkey'
        rw [((h op hop n hn).2 op' hop' huri.symm hkey').1]

/-- The operations of an update are told apart by their addresses exactly if positions leave the
keys alone. -/
theorem Tracked.addressed_iff (ho : Tracked o)
    (hdistinct : (o.type.properties.map Property.address).Nodup) : o.Addressed ↔ o.LeavesKeys := by
  constructor
  · intro h op hop n hn
    have hindex := UpdateOp.index?_of_position hn
    have hkind : op.kind ≠ .append := by
      intro hkind
      obtain ⟨p, item, rfl⟩ := kind_eq_append_iff.mp hkind
      cases hn
    refine ⟨?_, ?_⟩
    · intro key hkey
      exact Option.some.inj ((h.index?_eq hop hkey).symm.trans hindex)
    · intro op' hop' huri hkey
      have hsame : op.encodeAddress = op'.encodeAddress := by
        rw [UpdateOp.encodeAddress_eq, UpdateOp.encodeAddress_eq, huri, hindex,
          h.index?_eq hop' hkey]
      obtain rfl := h.unique hop hop' hsame hkind
      exact ⟨rfl, hn⟩
  · intro h
    refine ⟨?_, ?_⟩
    · refine (payload_apart hdistinct ho).imp_of_mem ?_
      intro op op' hop hop' hcase haddress
      rw [UpdateOp.encodeAddress_eq, UpdateOp.encodeAddress_eq,
        UpdateOp.fieldAddress_inj] at haddress
      obtain ⟨huri, hindex⟩ := haddress
      rcases hcase with hne | ⟨hproperty, happend⟩
      · exact absurd (h.address_eq hop hop' huri hindex) hne
      · obtain ⟨hkind, hkind'⟩ := happend (h.position?_eq hop hop' huri hindex)
        exact ⟨hkind, hkind', hproperty⟩
    · intro op hop key hkey
      rw [UpdateOp.encodeAddress_eq]
      cases hn : op.position? with
      | none => rw [UpdateOp.index?_of_whole hn, hkey]
      | some n => rw [UpdateOp.index?_of_position hn, (h op hop n hn).1 key hkey]

end Keys

/-- Whatever callers do with a copy, the operations of its update are told apart by their addresses
exactly if positions of items leave the keys alone. -/
theorem Handled.addressed_iff_leavesKeys {id : Nat} {type : ObjectType} {session : Session}
    (h : Handled cat (new id type session) o)
    (hdistinct : (type.properties.map Property.address).Nodup) (hcreates : type.CreatesMade cat) :
    o.Addressed ↔ o.LeavesKeys := by
  have hmade : HoldsMade cat type o := by
    refine h.holdsMade hcreates ⟨rfl, ?_⟩
    intro slot v hv
    cases hv
  exact hmade.tracked.addressed_iff (by rwa [hmade.type])

section Roster
open Mail

def shift (key : String) : Property :=
  ((Property.collection "Shifts" "roster:Shift" attendee "Attendee").indexed key).withFlags
    (Flag.mutable ++ [.itemLevel])

def roster : ObjectType where
  element := "Roster"
  target := .item
  members := [⟨.summary, reminderLabel⟩, ⟨.full, shift "Day"⟩, ⟨.full, shift "Night"⟩]

def shiftElement (key : String) (rest : Forest) : Forest :=
  .element ⟨some .types, "Entry", [("Key", key)]⟩ (inviteeElement "Unknown" .closed) rest

def loadShifts : Operation :=
  .load (.element ⟨some .types, "Shifts", []⟩
    (shiftElement "Day" (shiftElement "Night" .closed)) .closed) true {} false

def accept (key : String) : Operation :=
  .edit (shift key) (.collection (.item 0 (.set "ResponseType" (.scalar (.name "Accept")))))

def acceptedRoster : LocalCopy :=
  (new 0 roster Mail.session).run (catalog []) [loadShifts, accept "Day", accept "Night"]

theorem acceptedRoster_handled :
    Handled (catalog []) (new 0 roster Mail.session) acceptedRoster := by
  have haccept : ∀ key, (accept key).Made (catalog []) := by
    rintro key n ⟨⟩
  have hloaded : Handled (catalog []) (new 0 roster Mail.session)
      ((new 0 roster Mail.session).perform (catalog []) loadShifts).state :=
    Handled.same.perform _ trivial
  exact (hloaded.perform _ (haccept "Day")).perform _ (haccept "Night")

theorem acceptedRoster_addressed_iff :
    Handled (catalog []) (new 0 roster Mail.session) acceptedRoster ∧
    (roster.properties.map Property.address).Nodup ∧ roster.CreatesMade (catalog []) ∧
    (acceptedRoster.Addressed ↔ acceptedRoster.LeavesKeys) := by
  have hdistinct : (roster.properties.map Property.address).Nodup := by decide
  have hcreates : roster.CreatesMade (catalog []) := by
    simp only [ObjectType.CreatesMade, roster, ObjectType.properties, List.map_cons, List.map_nil,
      List.forall_mem_cons]
    refine ⟨?_, ?_, ?_, by simp⟩
    all_goals rintro v ⟨⟩
  exact ⟨acceptedRoster_handled, hdistinct, hcreates,
    acceptedRoster_handled.addressed_iff_leavesKeys hdistinct hcreates⟩

/-- The change of a person on the night shift has the address of that of a person on the day shift,
and the key of neither. -/
theorem acceptedRoster_confused :
    (∃ op ∈ acceptedRoster.payload, ∃ op' ∈ acceptedRoster.payload,
      op.property.key? = some "Day" ∧ op'.property.key? = some "Night" ∧
        op.encodeAddress = op'.encodeAddress) ∧
      ¬ acceptedRoster.Addressed := by
  obtain ⟨item, hday⟩ : ∃ item, UpdateOp.setItem (shift "Day") 0 item ∈ acceptedRoster.payload :=
    ⟨_, mem_payload_iff.mpr ⟨1, shift "Day", rfl, List.mem_append_right _ (.head _)⟩⟩
  obtain ⟨item', hnight⟩ :
      ∃ item, UpdateOp.setItem (shift "Night") 0 item ∈ acceptedRoster.payload :=
    ⟨_, mem_payload_iff.mpr ⟨2, shift "Night", rfl, List.mem_append_right _ (.head _)⟩⟩
  refine ⟨⟨_, hday, _, hnight, rfl, rfl, rfl⟩, ?_⟩
  intro h
  have hindex : some (UpdateOp.positionIndex 0) = some "Day" := h.index?_eq hday rfl
  exact absurd hindex (by decide)

end Roster

end LocalCopy

end ObjectTracking
