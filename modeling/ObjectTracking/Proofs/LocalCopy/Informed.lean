import ObjectTracking.Proofs.LocalCopy.Gates
import ObjectTracking.Proofs.LocalCopy.PropertyOperation
import ObjectTracking.Proofs.LocalCopy.Reordered
/-!
What the owner of a copy is told. An owner who is there from the start hears of exactly the properties
that are modified: of each of them since everything was last settled, and of no other.
-/
set_option autoImplicit false

namespace ObjectTracking
open Markup

def Operation.settles : Operation → Bool
  | .clear | .load .. | .markSaved => true
  | _ => false

namespace LocalCopy
variable {cat : Catalog} {α : Type} {o o₀ o' : LocalCopy} {p q : Property} {n slot : Nat}
  {known : List Property} {signals : List Link}

/-- The properties that the owner is told of by some reports. -/
def news (o : LocalCopy) (signals : List Link) : List Property :=
  (o.heard signals).1.filterMap o.type.property?

/-- What may become of a copy, with the properties that its owner was told of since everything was
last settled. -/
inductive Informed (cat : Catalog) (o₀ : LocalCopy) : LocalCopy → List Property → Prop where
  | start : Informed cat o₀ o₀ []
  | changed {o : LocalCopy} {known : List Property} (before : Informed cat o₀ o known) {α : Type}
      (op : PropertyOperation α) :
    Informed cat o₀ (o.apply op).state (known ++ o.news (o.apply op).signals)
  | settled {o : LocalCopy} {known : List Property} (before : Informed cat o₀ o known)
      (op : Operation) (settles : op.settles = true) :
    Informed cat o₀ (o.perform cat op).state (o.news (o.perform cat op).signals)
  /-- Values that were taken out report to it still, through the links they had in it. -/
  | hear {o : LocalCopy} {known : List Property} (before : Informed cat o₀ o known)
      (signals : List Link) (given : ∀ n, o.link n ∈ signals → ∃ p, o.type.slotOf? p = some n) :
    Informed cat o₀ (o.hear signals) (known ++ o.news signals)

@[simp] theorem heard_nil (o : LocalCopy) : o.heard [] = ([], []) := by
  simp [LocalCopy.heard]

@[simp] theorem news_nil (o : LocalCopy) : o.news [] = [] := by simp [news]

theorem mem_news (hwatched : o.watched = true) :
    q ∈ o.news signals ↔ ∃ n, o.link n ∈ signals ∧ o.type.property? n = some q := by
  have hheard : ∀ n, n ∈ (o.heard signals).1 ↔ o.link n ∈ signals := by
    intro n
    simp only [LocalCopy.heard, hwatched, if_true, List.partition_eq_filter_filter, List.mem_map,
      List.mem_filter, beq_iff_eq]
    constructor
    · rintro ⟨⟨copy, slot⟩, ⟨hl, rfl⟩, rfl⟩
      exact hl
    · intro hl
      exact ⟨o.link n, ⟨hl, rfl⟩, rfl⟩
  simp only [news, List.mem_filterMap, hheard]

/-- A change of a copy that is noted, slot by slot, as it is reported. -/
structure Noted (o o' : LocalCopy) (signals : List Link) : Prop where
  type : o'.type = o.type
  watched : o'.watched = o.watched
  dirty : ∀ n, o'.isDirty n = true ↔ o.isDirty n = true ∨ o.link n ∈ signals
  found : ∀ n, o.link n ∈ signals → ∃ p, o.type.slotOf? p = some n

theorem Noted.refl (o : LocalCopy) : Noted o o [] := ⟨rfl, rfl, by simp, by simp⟩

theorem link_mem_self : o.link n ∈ [o.link slot] ↔ n = slot := by simp [link]

theorem noted_withDeleted (hslot : o.type.slotOf? p = some slot) :
    Noted o (o.withDeleted slot) [o.link slot] := by
  refine ⟨rfl, rfl, ?_, ?_⟩
  · intro n
    rw [link_mem_self]
    by_cases h : n = slot <;> simp [isDirty, withDeleted, h]
  · intro n hn
    rw [link_mem_self.mp hn]
    exact ⟨p, hslot⟩

theorem noted_withAssigned (hslot : o.type.slotOf? p = some slot) (v : Value) :
    Noted o (o.withAssigned slot v) [o.link slot] := by
  refine ⟨rfl, rfl, ?_, ?_⟩
  · intro n
    rw [link_mem_self]
    by_cases h : n = slot <;> simp [isDirty, withAssigned, h]
  · intro n hn
    rw [link_mem_self.mp hn]
    exact ⟨p, hslot⟩

theorem noted_delete (o : LocalCopy) (p : Property) :
    Noted o (o.delete p).state (o.delete p).signals := by
  rcases delete_eq o p with ⟨e, h⟩ | ⟨slot, q, hr, -, -, h⟩
  · rw [h]
    exact .refl o
  · rw [h]
    exact noted_withDeleted (resolve_eq_ok_iff.mp hr).1

theorem noted_set (o : LocalCopy) (p : Property) (v : Value) :
    Noted o (o.set p v).state (o.set p v).signals := by
  cases hv : v.isNull with
  | true =>
    have hset : o.set p v = o.delete p := by simp [set, hv]
    rw [hset]
    exact noted_delete o p
  | false =>
    rcases set_eq o p hv with ⟨e, h⟩ | ⟨slot, q, v', hr, -, -, h⟩
    · rw [h]
      exact .refl o
    · rw [h]
      exact noted_withAssigned (resolve_eq_ok_iff.mp hr).1 v'

/-- A value that is created on read is not noted. -/
theorem noted_instantiate (hi : o.instantiate p = .ok (slot, q, o')) : Noted o o' [] := by
  obtain ⟨-, -, ⟨-, rfl⟩ | ⟨v, -, -, -, -, rfl⟩⟩ := instantiate_eq_ok hi
  · exact .refl o'
  · exact ⟨rfl, rfl, by simp [isDirty, created], by simp⟩

theorem noted_editValue (htied : Tied o) {edit : Value → Option (Edited Value α)}
    (hown : ∀ v r, edit v = some r → r.Own Value.links v) :
    Noted o (o.editValue p edit).state (o.editValue p edit).signals := by
  unfold editValue
  cases hi : o.instantiate p with
  | error e => exact .refl o
  | ok r =>
    obtain ⟨slot, q, o'⟩ := r
    have hcreated := noted_instantiate hi
    have hslot : o.type.slotOf? p = some slot := (resolve_eq_ok_iff.mp (instantiate_eq_ok hi).1).1
    have hlink := link_of_instantiate hi
    dsimp only
    cases hr : (o'.values.get? slot).bind edit with
    | none => exact hcreated
    | some r =>
      -- The edit can report through the slot's own link only, as the value holds no other.
      have hsignals := (htied.instantiate hi).own_signals hown hr
      refine ⟨hcreated.type, hcreated.watched, ?_, ?_⟩
      · intro n
        have hcreated' : o'.isDirty n = true ↔ o.isDirty n = true := by simpa using hcreated.dirty n
        rw [← hlink n, ← hcreated']
        exact isDirty_hear (b := { o' with values := o'.values.insert slot r.state })
      · intro n hn
        have hn' := hsignals (o.link n) hn
        rw [hlink] at hn'
        rw [link_mem_self.mp (List.mem_singleton.mpr hn')]
        exact ⟨p, hslot⟩

theorem noted_apply (htied : Tied o) (op : PropertyOperation α) :
    Noted o (o.apply op).state (o.apply op).signals := by
  cases op with
  | set p v => exact noted_set o p v
  | delete p => exact noted_delete o p
  | composite p edit hown =>
    change Noted o (o.editComposite p edit).state (o.editComposite p edit).signals
    rw [editComposite_eq_editValue]
    exact noted_editValue htied (own_composite hown)
  | collection p edit hown =>
    change Noted o (o.editCollection p edit).state (o.editCollection p edit).signals
    rw [editCollection_eq_editValue]
    exact noted_editValue htied (own_collection hown)

/-- The owner knows of the property of every slot that is dirty, and of no others. -/
structure UpToDate (o : LocalCopy) (known : List Property) : Prop where
  dirty : ∀ n q, o.isDirty n = true → o.type.property? n = some q → q ∈ known
  known : ∀ q ∈ known, ∃ n, o.type.slotOf? q = some n ∧ o.isDirty n = true

theorem UpToDate.of_clean (h : ∀ n, o.isDirty n = false) : UpToDate o [] := by
  refine ⟨?_, by simp⟩
  intro n q hn
  rw [h n] at hn
  cases hn

theorem UpToDate.noted (h : UpToDate o known) (hwatched : o.watched = true)
    (hnoted : Noted o o' signals) : UpToDate o' (known ++ o.news signals) := by
  constructor
  · intro n q hn hq
    rw [hnoted.type] at hq
    rw [List.mem_append]
    rcases (hnoted.dirty n).mp hn with hn | hn
    · exact .inl (h.dirty n q hn hq)
    · exact .inr ((mem_news hwatched).mpr ⟨n, hn, hq⟩)
  · intro q hq
    rw [hnoted.type]
    rcases List.mem_append.mp hq with hq | hq
    · obtain ⟨n, hslot, hn⟩ := h.known q hq
      exact ⟨n, hslot, (hnoted.dirty n).mpr (.inl hn)⟩
    · obtain ⟨n, hn, hq⟩ := (mem_news hwatched).mp hq
      obtain ⟨p, hp⟩ := hnoted.found n hn
      exact ⟨n, ObjectType.slotOf?_property hp hq, (hnoted.dirty n).mpr (.inr hn)⟩

theorem UpToDate.modified_iff (h : UpToDate o known) (p : Property) :
    o.isModified p = true ↔ ∃ q ∈ known, q.address = p.address := by
  simp only [isModified, slotIs, Option.any_eq_true]
  constructor
  · rintro ⟨n, hslot, hn⟩
    obtain ⟨q, hq, haddress⟩ := ObjectType.slotOf?_eq_some hslot
    exact ⟨q, h.dirty n q hn hq, haddress⟩
  · rintro ⟨q, hq, haddress⟩
    obtain ⟨n, hslot, hn⟩ := h.known q hq
    rw [ObjectType.slotOf?, haddress] at hslot
    exact ⟨n, hslot, hn⟩

/-- What settles a copy leaves nothing dirty and the owner where it was. -/
theorem settles_clean {op : Operation} (h : op.settles = true) (cat : Catalog) (o : LocalCopy) :
    (∀ n, (o.perform cat op).state.isDirty n = false) ∧
      (o.perform cat op).state.watched = o.watched ∧ (o.perform cat op).signals = [] := by
  have hempty : ∀ {w : LocalCopy}, w.assigned = ∅ → w.deleted = ∅ → w.touched = ∅ →
      ∀ n, w.isDirty n = false := by
    intro w ha hd ht n
    simp [isDirty, ha, hd, ht]
  cases op with
  | set => cases h
  | delete => cases h
  | edit => cases h
  | clear => exact ⟨hempty rfl rfl rfl, rfl, rfl⟩
  | markSaved => exact ⟨hempty rfl rfl rfl, rfl, rfl⟩
  | load content clearFirst asked summary =>
    obtain ⟨w, rfl, hstate⟩ := load_state cat o content clearFirst asked summary
    have hwatched : (content.walk (loadElement cat) (o.loadStart clearFirst)).state.watched =
        o.watched := by
      have hread := congrArg LocalCopy.watched (clear_walk cat (o.loadStart clearFirst) content)
      cases clearFirst with
      | true => exact hread
      | false => exact hread
    rcases hstate with hstate | hstate
    · rw [perform, hstate]
      exact ⟨hempty rfl rfl rfl, hwatched, rfl⟩
    · rw [perform, hstate]
      exact ⟨hempty rfl rfl rfl, hwatched, rfl⟩

/-- The owner of a copy who is there from the start is up to date, whatever is done. -/
theorem Informed.upToDate {id : Nat} {type : ObjectType} {session : Session}
    (h : Informed cat { new id type session with watched := true } o known) :
    UpToDate o known ∧ o.watched = true ∧ Tied o := by
  induction h with
  | start => exact ⟨.of_clean (by simp [isDirty, new]), rfl, .clear (new id type session)⟩
  | changed _ op ih =>
    obtain ⟨hknown, hwatched, htied⟩ := ih
    have hnoted := noted_apply htied op
    exact ⟨hknown.noted hwatched hnoted, hnoted.watched.trans hwatched, htied.apply cat op⟩
  | @settled o _ _ op hsettles ih =>
    obtain ⟨-, hwatched, htied⟩ := ih
    obtain ⟨hclean, hsame, hsignals⟩ := settles_clean hsettles cat o
    refine ⟨?_, hsame.trans hwatched, (perform_outcome cat o op).tied htied⟩
    rw [hsignals, news_nil]
    exact .of_clean hclean
  | @hear o _ _ signals hgiven ih =>
    obtain ⟨hknown, hwatched, htied⟩ := ih
    have hnoted : Noted o (o.hear signals) signals := ⟨rfl, rfl, fun _ => isDirty_hear, hgiven⟩
    exact ⟨hknown.noted hwatched hnoted, hwatched, htied⟩

/-- At every moment the properties that are modified are those that the owner was told of since
everything was last settled, and what settles everything tells it of nothing. -/
theorem Informed.isModified_iff {id : Nat} {type : ObjectType} {session : Session}
    (h : Informed cat { new id type session with watched := true } o known) :
    (∀ p, o.isModified p = true ↔ ∃ q ∈ known, q.address = p.address) ∧
      ∀ op : Operation, op.settles = true → o.heard (o.perform cat op).signals = ([], []) := by
  refine ⟨h.upToDate.1.modified_iff, ?_⟩
  intro op hop
  rw [(settles_clean hop cat o).2.2, heard_nil]

section Meeting
open Mail

def ownedMeeting : LocalCopy := { new 0 Calendar.type Mail.session with watched := true }

def invitation : PropertyOperation Unit :=
  .collection Calendar.requiredAttendees
    (Collection.perform (catalog []) (.push (invitee "Decline")))
    (Collection.own_perform (catalog []) _)

/-- The meeting is loaded after its subject was set, which is lost then; somebody is invited, and its
location deleted. -/
def invitedMeeting : LocalCopy :=
  let loaded := (((ownedMeeting.apply (α := Unit) (.set Item.subject (.scalar (.text "Tea")))).state
    |>.perform (catalog []) (.load (meeting ["Accept"]) false {} false))).state
  ((loaded.apply invitation).state.apply (α := Unit) (.delete Calendar.location)).state

theorem invitedMeeting_informed : ∃ known,
    Informed (catalog []) ownedMeeting invitedMeeting known ∧
    known.map Property.name = ["RequiredAttendees", "Location"] ∧
    (∀ p, invitedMeeting.isModified p = true ↔ ∃ q ∈ known, q.address = p.address) ∧
      ∀ op : Operation, op.settles = true →
        invitedMeeting.heard (invitedMeeting.perform (catalog []) op).signals = ([], []) := by
  have hstart : Informed (catalog []) ownedMeeting ownedMeeting [] := .start
  have h := ((hstart.changed (α := Unit)
    (.set Item.subject (.scalar (.text "Tea")))).settled
      (.load (meeting ["Accept"]) false {} false) rfl).changed invitation |>.changed (α := Unit)
        (.delete Calendar.location)
  exact ⟨_, h, by decide, h.isModified_iff⟩

end Meeting

end LocalCopy

end ObjectTracking
